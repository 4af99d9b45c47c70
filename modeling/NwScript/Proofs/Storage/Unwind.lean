-- What is on the stack between its top and the block that control leaves to.
import NwScript.Proofs.Storage.Stack

namespace NwScript

section Unwinding

variable {α β : Type} {flat : β → List α} {R : Ty → β → Prop} {env : Env}

/-- The slots of some types together. -/
def Env.sizeOfAll (env : Env) : List Ty → Except Failure Nat
  | [] => .ok 0
  | ty :: rest => do
    let size ← env.sizeOf ty
    return size + (← env.sizeOfAll rest)

/-- On top of others, types take their slots together. -/
theorem stacked_ok {tys : List Ty} {n k : Nat} (h : env.stacked n tys = .ok k) :
    ∃ m, env.sizeOfAll tys = .ok m ∧ k = n + m := by
  induction tys generalizing n with
  | nil =>
    cases h
    exact ⟨0, rfl, rfl⟩
  | cons ty rest ih =>
    simp only [Env.stacked, except_bind_ok, Count.sum_ok] at h
    obtain ⟨size, hsize, _, ⟨-, rfl⟩, h⟩ := h
    obtain ⟨m, hm, rfl⟩ := ih h
    refine ⟨size + m, ?_, by omega⟩
    simp [Env.sizeOfAll, hsize, hm, bind, Except.bind, pure, Except.pure]

theorem sizeOfAll_append {tys more : List Ty} {k : Nat} :
    env.sizeOfAll (tys ++ more) = .ok k ↔
      ∃ i j, env.sizeOfAll tys = .ok i ∧ env.sizeOfAll more = .ok j ∧ k = i + j := by
  induction tys generalizing k with
  | nil => simp [Env.sizeOfAll]
  | cons ty rest ih =>
    simp only [List.cons_append, Env.sizeOfAll, except_bind_ok, except_pure_ok, ih]
    constructor
    · rintro ⟨a, ha, _, ⟨i, j, hi, hj, rfl⟩, rfl⟩
      exact ⟨a + i, j, ⟨a, ha, i, hi, rfl⟩, hj, by omega⟩
    · rintro ⟨_, j, ⟨a, ha, i, hi, rfl⟩, hj, rfl⟩
      exact ⟨a, ha, i + j, ⟨i, j, hi, hj, rfl⟩, by omega⟩

theorem sizeOfAll_values {values : List Variable} {vs : Named β} {k : Nat}
    (hR : ∀ ty x, R ty x → env.sizeOf ty = .ok (flat x).length) (ha : Agree R values vs)
    (h : env.sizeOfAll (values.reverse.map (·.ty)) = .ok k) : k = (vs.cells flat).length := by
  induction ha generalizing k with
  | nil =>
    cases h
    rfl
  | @cons v x older rest hx _ ih =>
    rw [List.reverse_cons, List.map_append, sizeOfAll_append] at h
    obtain ⟨i, j, hi, hj, rfl⟩ := h
    simp only [List.map_cons, List.map_nil, Env.sizeOfAll, except_bind_ok, except_pure_ok,
      hR _ _ hx, Except.ok.injEq] at hj
    obtain ⟨_, rfl, _, rfl, rfl⟩ := hj
    simp [Named.cells, ih hi]

/-- The size of a block is what its variables take. -/
theorem size_block {b : Block} {vs : Named β} {k : Nat}
    (hR : ∀ ty x, R ty x → env.sizeOf ty = .ok (flat x).length) (ha : Agree R b.values vs)
    (h : b.size env = .ok k) : k = (vs.cells flat).length := by
  obtain ⟨m, hm, rfl⟩ := stacked_ok h
  rw [Nat.zero_add]
  exact sizeOfAll_values hR ha hm

/-- The height of a chain of blocks is what its frame takes. -/
theorem height_frame {chain : List Block} {vss : List (Named β)} {tss : List (List α)} {k : Int}
    (hR : ∀ ty x, R ty x → env.sizeOf ty = .ok (flat x).length) (hm : Matches R chain vss tss)
    (h : Scope.height env chain = .ok k) : k = (Store.frame flat vss tss).length := by
  induction hm generalizing k with
  | nil =>
    cases h
    rfl
  | cons ha ht _ ih =>
    simp only [Scope.height, except_bind_ok, Count.checked_ok] at h
    obtain ⟨i, hi, _, ⟨-, rfl⟩, j, hj, -, rfl⟩ := h
    rw [size_block hR ha hi, ht, ih hj]
    simp only [Store.frame, List.length_append]
    omega

/-! ## Leaving blocks -/

/-- The nearest target in a chain of blocks, and what is left of the blocks and the temporaries
below the block of the target. -/
def leftAt (target : Block → Option Handle) :
    List Block → List (Named β) → List (List α) →
      Option (Handle × List (Named β) × List (List α))
  | b :: outer, _ :: vss, _ :: tss => match target b with
    | some h => some (h, vss, tss)
    | none => leftAt target outer vss tss
  | _, _, _ => none

/-- What is popped on the way to the nearest target is just what lies above what is left. -/
theorem unwind_frame {target : Block → Option Handle} {chain : List Block}
    {vss : List (Named β)} {tss : List (List α)} {passed size : Int} {h : Handle}
    (hR : ∀ ty x, R ty x → env.sizeOf ty = .ok (flat x).length) (hm : Matches R chain vss tss)
    (hu : Scope.unwind env target chain passed = .ok (some (h, size))) :
    ∃ vss' tss' top, leftAt target chain vss tss = some (h, vss', tss') ∧
      Store.frame flat vss tss = Store.frame flat vss' tss' ++ top ∧
      size = passed + top.length := by
  induction hm generalizing passed with
  | nil => cases hu
  | @cons b vs ts outer vss tss ha ht _ ih =>
    simp only [Scope.unwind, except_bind_ok, Count.checked_ok] at hu
    obtain ⟨k, hk, _, ⟨-, rfl⟩, _, ⟨-, rfl⟩, hu⟩ := hu
    have hown := size_block hR ha hk
    cases hb : target b with
    | some h' =>
      simp only [hb, except_pure_ok, Option.some.injEq, Prod.mk.injEq] at hu
      obtain ⟨rfl, rfl⟩ := hu
      refine ⟨vss, tss, vs.cells flat ++ ts, by simp [leftAt, hb], by simp [Store.frame], ?_⟩
      rw [hown, ht]
      simp
    | none =>
      simp only [hb] at hu
      obtain ⟨vss', tss', top, hleft, hframe, hsize⟩ := ih hu
      refine ⟨vss', tss', top ++ vs.cells flat ++ ts, by simp [leftAt, hb, hleft],
        by simp [Store.frame, hframe], ?_⟩
      rw [hsize, hown, ht]
      simp only [List.length_append]
      omega

end Unwinding

end NwScript
