-- The code of the parts of statements is in order: dropped values, conditions, declarations, and
-- the comparisons of a switch.
import NwScript.Proofs.Shape.Expr
import NwScript.Proofs.Codegen.Lays

namespace NwScript

open Codegen

section Parts

variable {env whole : Env} {aims : Handle → Shape → Prop} {s s' : Scope} {below : Shape}
  {temps tss : List Shape} {n m : Handle} {ty : Ty} {code : List Instruction}

/-! ## Expressions in statements -/

theorem value_inOrder {e : Expr} (hp : env.PartOf whole) (h : Emits env s n (.value e) [ty] code m)
    (ho : Outlined env whole s below temps) :
    InOrder whole aims [] (s.outline whole below temps) code
      (s.outline whole below temps ++ whole.kinds ty) := by
  rw [← List.flatMap_singleton whole.kinds ty]
  exact emits_pushes hp h temps ho

theorem discards_inOrder {e : Option Expr} (hp : env.PartOf whole) (h : Discards env s n e code m)
    (ho : Outlined env whole s below temps) :
    InOrder whole aims [] (s.outline whole below temps) code (s.outline whole below temps) := by
  cases h with
  | none => exact inOrder_nil
  | some he hk => exact (value_inOrder hp he ho).append (inOrder_popping (hp.sized hk).2)

theorem guards_inOrder {e : Option Expr} {done : Handle} (hp : env.PartOf whole)
    (h : Guards env s done n e code m) (ho : Outlined env whole s below temps)
    (haim : aims done (s.outline whole below temps)) :
    InOrder whole aims [] (s.outline whole below temps) code (s.outline whole below temps) := by
  cases h with
  | none => exact inOrder_nil
  | some he => exact (value_inOrder hp he ho).append (inOrder_jz haim)

/-! ## Declarations -/

theorem Outlined.declare {name : Name} {k : Nat} (ho : Outlined env whole s below ([] :: tss))
    (hty : env.structs.slots ty = .ok (whole.kinds ty)) :
    Outlined env whole (s.declared name ty k) below ([] :: tss) ∧
      (s.declared name ty k).outline whole below ([] :: tss) =
        s.outline whole below ([] :: tss) ++ whole.kinds ty := by
  obtain ⟨vs, vss, ts, tss', hvs, hts, ha, ht, hm⟩ := ho.blocks.inv
  cases hts
  cases hvs
  refine ⟨⟨.cons (.cons ⟨rfl, hty⟩ ha) ht hm, ho.reach⟩, ?_⟩
  simp [Scope.outline, Scope.chain, Scope.declared, Block.push, Block.types,
    Store.frame, Named.cells]

/-- The first value of a variable goes into the variable, and nothing is left on top. -/
theorem initial_straight {P : Instruction → Shape → Prop} {name : Name} {r : Resolved} {k : Nat}
    (n : Handle) (hp : env.PartOf whole) (ho : Outlined env whole s below temps)
    (hk : env.sizeOf ty = .ok k) (hr : (s.grown k).resolve env name = .ok r) (hty : r.ty = ty)
    (hanchor : r.anchor = .sp) (hplain : ∀ i shape, i.op.destination? = none → P i shape)
    (hstore : P ⟨n, .copyDown .sp r.offset k, none⟩
      (s.outline whole below temps ++ whole.kinds ty)) :
    Straight whole P (s.outline whole below temps ++ whole.kinds ty)
      [⟨n, .copyDown .sp r.offset k, none⟩, ⟨n + 1, .moveSp (-k), none⟩]
      (s.outline whole below temps) := by
  subst hty
  have hsize := congrArg (Nat.cast : Nat → Int) (hp.sized hk).2
  have hlies := (variable_lies_in hp (ho.push hsize) hr).2.2
  rw [ho.outline_push] at hlies
  have hafter := @after_store _ _ _ n _ k hp hlies hsize
  rw [Resolved.store, hanchor] at hafter
  exact .plain rfl hafter hstore (straight_plain rfl (after_pop hsize) (hplain _ _ rfl))

theorem declares_inOrder {ds : List Declarator} (hp : env.PartOf whole)
    (h : Declares env ty s n ds s' code m) (ho : Outlined env whole s below ([] :: tss)) :
    Outlined env whole s' below ([] :: tss) ∧
      InOrder whole aims [] (s.outline whole below ([] :: tss)) code
        (s'.outline whole below ([] :: tss)) := by
  induction h with
  | nil => exact ⟨ho, inOrder_nil⟩
  | plain _ hks hk _ ih =>
    obtain rfl := hp.kinds_eq hks
    obtain ⟨ho', houtline⟩ := ho.declare hks
    obtain ⟨hlast, hrest⟩ := ih ho'
    rw [houtline] at hrest
    exact ⟨hlast, inOrder_reserve.append hrest⟩
  | @initialized s s' n n₁ m d rest ks k e r value code _ hks hk hvalue hr _ ih =>
    obtain rfl := hp.kinds_eq hks
    obtain ⟨ho', houtline⟩ := ho.declare hks
    obtain ⟨hlast, hrest⟩ := ih ho'
    obtain ⟨hty, hanchor⟩ := resolve_declared hr
    have hreserve : InOrder whole aims [] (s.outline whole below ([] :: tss))
        (numbered n ((whole.kinds ty).map .reserve))
        ((s.declared d.name ty k).outline whole below ([] :: tss)) := by
      rw [houtline]
      exact inOrder_reserve
    have hinitial := initial_straight (P := fun _ _ => True) n₁ hp ho' hk hr hty hanchor
      (fun _ _ _ => trivial) trivial
    exact ⟨hlast, ((hreserve.append (value_inOrder hp hvalue ho')).append
      hinitial.inOrder).append hrest⟩

/-! ## Switches -/

/-- A switch compares two values of its type, which take one slot each. -/
theorem after_compare {shape : Shape} {c : BinaryCode} (hc : switchOn? ty = some c) :
    (whole.kinds ty).length = 1 ∧
      Instruction.after? whole ⟨n, .binary c, none⟩ (shape ++ whole.kinds ty ++ whole.kinds ty) =
        some (shape ++ [.int]) := by
  cases ty with
  | int =>
    cases hc
    exact ⟨rfl, after_binary (show BinaryOp.eq.code? .int .int = some .equalII from rfl)⟩
  | string =>
    cases hc
    exact ⟨rfl, after_binary (show BinaryOp.eq.code? .string .string = some .equalSS from rfl)⟩
  | _ => cases hc

/-- The comparisons leave the value on top as it was, and lead to the arms with it. -/
theorem tests_inOrder {shape : Shape} {c : BinaryCode} {labels : List (SwitchLabel × Handle)}
    {default default' : Option Handle} (hp : env.PartOf whole) (hc : switchOn? ty = some c)
    (h : Tests env s ty c n labels default default' code m) (ho : Outlined env whole s below temps)
    (hs : s.outline whole below temps = shape ++ whole.kinds ty)
    (haims : ∀ l ∈ labels, aims l.2 (s.outline whole below temps)) :
    InOrder whole aims [] (s.outline whole below temps) code (s.outline whole below temps) := by
  induction h with
  | nil => exact inOrder_nil
  | @case n n₁ m arm e rest default default' value code hvalue _ ih =>
    obtain ⟨hone, hcompare⟩ := @after_compare whole n₁ _ (s.outline whole below temps) _ hc
    have hcopy : Instruction.after? whole ⟨n, .copyTop .sp (-1) 1, none⟩
        (s.outline whole below temps) = some (s.outline whole below temps ++ whole.kinds ty) := by
      have harea : whole.area? (s.outline whole below temps) .sp (-1) 1 =
          some (whole.kinds ty) := by
        refine slice?_append (show _ = shape ++ whole.kinds ty ++ [] by simpa using hs) ?_ ?_
        · simp only [hs, List.length_append]
          omega
        · omega
      simp [Instruction.after?, harea]
    have hpushes : Pushes env whole aims (s.grown 1) below value (whole.kinds ty) := by
      rw [← List.flatMap_singleton whole.kinds ty]
      exact emits_pushes hp hvalue
    have hvalue := hpushes.onTop ho (show (1 : Int) = (whole.kinds ty).length by omega)
    have hrest := ih fun l hl => haims l (List.mem_cons_of_mem _ hl)
    exact (inOrder_plain rfl hcopy).append ((hvalue.append ((inOrder_plain rfl hcompare).append
      (inOrder_jnz (haims _ List.mem_cons_self)))).append hrest)
  | default _ ih => exact ih fun l hl => haims l (List.mem_cons_of_mem _ hl)

end Parts

end NwScript
