-- The expressions, conditions and declarations in statements: their code does what they mean.
import NwScript.Proofs.Meaning.Stmt
import NwScript.Proofs.Machine.Run
import NwScript.Proofs.Codegen.Lays

namespace NwScript

open Codegen

/-! ## Expressions that have a meaning -/

/-- Only expressions without calls have a meaning. -/
theorem callFree_of_eval {alu : Alu} {engine : Engine} {e : Expr} {σ : Store Datum}
    {r : Datum × Store Datum} (h : eval alu engine e σ = some r) : e.callFree = true := by
  induction e using Expr.inductOn generalizing σ r with
  | literal | access | step => rfl
  | vector x y z ihx ihy ihz =>
    simp only [eval, Option.bind_eq_bind, Option.bind_eq_some_iff] at h
    obtain ⟨_, hx, _, hy, _, hz, _⟩ := h
    simp [Expr.callFree, ihx hx, ihy hy, ihz hz]
  | assign op target e ih =>
    cases op with
    | set =>
      simp only [eval, Option.bind_eq_bind, Option.bind_eq_some_iff] at h
      obtain ⟨_, he, _⟩ := h
      exact ih he
    | _ =>
      simp only [eval, Option.bind_eq_bind, Option.bind_eq_some_iff] at h
      obtain ⟨_, _, _, he, _⟩ := h
      exact ih he
  | binary op l r ihl ihr =>
    simp only [eval, Option.bind_eq_bind, Option.bind_eq_some_iff] at h
    obtain ⟨_, hl, _, hr, _⟩ := h
    simp [Expr.callFree, ihl hl, ihr hr]
  | unary op e ih =>
    simp only [eval, Option.bind_eq_bind, Option.bind_eq_some_iff] at h
    obtain ⟨_, he, _⟩ := h
    exact ih he
  | call name args => simp [eval] at h

section Parts

variable {alu : Alu} {env : Env} {s s' : Scope} {low mid : List Cell} {base : Nat}
  {temps tss : List (List Cell)} {σ τ : Store Datum} {code : List Instruction} {n m : Handle}
  {ty : Ty}

theorem value_runs {e : Expr} {v : Datum} (hs : Structs.Laid env.structs.layouts)
    (ht : env.engine.Typed) (h : Emits env s n (.value e) [ty] code m)
    (he : eval alu env.engine e σ = some (v, τ)) (hheld : Held env s low mid base temps σ) :
    Datum.Fits env.structs ty v ∧ Held env s low mid base temps τ ∧
      Op.effects alu base (code.map (·.op)) (σ.stack low mid temps) =
        some (τ.stack low mid temps ++ v.cells) := by
  obtain ⟨v', τ', he', hv, hτ, heff⟩ :=
    emits_computes alu hs ht h rfl rfl (callFree_of_eval he) _ _ hheld
  rw [he] at he'
  cases he'
  exact ⟨hv, hτ, heff⟩

theorem effects_popping {k : Nat} {stack top : List Cell} (hk : k = top.length) :
    Op.effects alu base ((popping n k).map (·.op)) (stack ++ top) = some stack := by
  unfold popping
  split
  · simp [Op.effects_one, effect_moveSp (show -(k : Int) = -top.length by rw [hk])]
  · have hnil : top = [] := List.eq_nil_of_length_eq_zero (by omega)
    simp [Op.effects, hnil]

theorem discards_runs {e : Option Expr} (hs : Structs.Laid env.structs.layouts)
    (ht : env.engine.Typed) (h : Discards env s n e code m)
    (he : dropped alu env.engine e σ = some τ) (hheld : Held env s low mid base temps σ) :
    Held env s low mid base temps τ ∧
      Op.effects alu base (code.map (·.op)) (σ.stack low mid temps) =
        some (τ.stack low mid temps) := by
  cases h with
  | none =>
    cases he
    exact ⟨hheld, rfl⟩
  | some hvalue hk =>
    obtain ⟨⟨v, τ'⟩, heval, rfl⟩ := Option.map_eq_some_iff.mp he
    obtain ⟨hv, hτ, heff⟩ := value_runs hs ht hvalue heval hheld
    refine ⟨hτ, ?_⟩
    rw [List.map_append, Op.effects_append heff]
    exact effects_popping (size_eq hs hv hk)

theorem Datum.Fits.int {structs : Structs} {d : Datum} (h : Datum.Fits structs .int d) :
    ∃ x, d = .cell (.int x) := by
  cases d with
  | cell c => cases c <;> first | exact ⟨_, rfl⟩ | cases h
  | vector => cases h
  | struct => cases h.1

/-- A condition pushes an int, which says whether it holds. -/
theorem condition_runs {e : Expr} {holds : Bool} (hs : Structs.Laid env.structs.layouts)
    (ht : env.engine.Typed) (h : Emits env s n (.value e) [.int] code m)
    (he : tested alu env.engine (some e) σ = some (holds, τ))
    (hheld : Held env s low mid base temps σ) :
    Held env s low mid base temps τ ∧ ∃ x : Int32, holds = (x != 0) ∧
      Op.effects alu base (code.map (·.op)) (σ.stack low mid temps) =
        some (τ.stack low mid temps ++ [.int x]) := by
  simp only [tested, Option.bind_eq_bind, Option.bind_eq_some_iff] at he
  obtain ⟨⟨v, τ'⟩, heval, holds', htruth, ⟨⟩⟩ := he
  obtain ⟨hv, hτ, heff⟩ := value_runs hs ht h heval hheld
  obtain ⟨x, rfl⟩ := hv.int
  cases htruth
  exact ⟨hτ, x, rfl, heff⟩

/-! ## Declarations -/

theorem Held.declare {name : Name} {k : Nat} {d : Datum}
    (hd : Datum.Fits env.structs ty d) (h : Held env s low mid base ([] :: tss) σ) :
    Held env (s.declared name ty k) low mid base ([] :: tss) (σ.declare name d) ∧
      (σ.declare name d).stack low mid ([] :: tss) = σ.stack low mid ([] :: tss) ++ d.cells := by
  obtain ⟨vs, vss, ts, tss', hvs, hts, ha, ht, hm⟩ := h.blocks.inv
  cases hts
  have hdeclare : σ.declare name d = { σ with blocks := ((name, d) :: vs) :: vss } := by
    simp [Store.declare, hvs]
  rw [hdeclare]
  refine ⟨⟨.cons (.cons hd ha) ht hm, h.globals, h.base_eq, h.reach⟩, ?_⟩
  simp [Store.stack, Store.frame, hvs, Named.cells]

theorem effects_reserving {ks : List SlotKind} {stack : List Cell} :
    Op.effects alu base (ks.map .reserve) stack = some (stack ++ ks.map .zero) := by
  induction ks generalizing stack with
  | nil => simp [Op.effects]
  | cons k rest ih => simp [Op.effects, Op.effect, ih]

/-- The slots that are reserved for a type hold the zero of the type. -/
theorem effects_zero {ks : List SlotKind} {zero : Datum} {stack : List Cell}
    (hs : Structs.Laid env.structs.layouts) (hks : env.structs.slots ty = .ok ks)
    (hd : Datum.Fits env.structs ty zero) (hz : zero.Zero) :
    Op.effects alu base ((numbered n (ks.map .reserve)).map (·.op)) stack =
      some (stack ++ zero.cells) := by
  have hkinds : ks = zero.cells.map Cell.kind := Except.ok.inj (hks.symm.trans (hd.slots hs))
  have hcells : ks.map Cell.zero = zero.cells := by
    rw [hkinds, List.map_map]
    calc zero.cells.map (Cell.zero ∘ Cell.kind) = zero.cells.map id :=
          List.map_congr_left fun c hc => (hz c hc).symm
      _ = zero.cells := List.map_id _
  rw [numbered_ops, effects_reserving, hcells]

/-- The first value of a variable that was just declared is stored in the variable. -/
theorem initial_runs {name : Name} {k l : Nat} {r : Resolved} {v : Datum} {σ₁ : Store Datum}
    (hs : Structs.Laid env.structs.layouts) (hk : env.sizeOf ty = .ok k)
    (hr : ((s.declared name ty l).grown k).resolve env name = .ok r)
    (hv : Datum.Fits env.structs ty v)
    (hheld : Held env (s.declared name ty l) low mid base temps σ)
    (hput : σ.put? name v = some σ₁) :
    Held env (s.declared name ty l) low mid base temps σ₁ ∧
      Op.effects alu base [.copyDown .sp r.offset k, .moveSp (-k)]
        (σ.stack low mid temps ++ v.cells) = some (σ₁.stack low mid temps) := by
  obtain ⟨hty, hanchor⟩ := resolve_declared hr
  have haccess : resolveAccess env ((s.declared name ty l).grown k) ⟨name, []⟩ = .ok r := by
    simp [resolveAccess, hr, follow, bind, Except.bind]
  rw [← hty] at hv hk
  obtain ⟨τ, hwrite, hτ, heff⟩ := store_runs alu hs hheld haccess hv hk
  have hsame : τ = σ₁ := by
    simp only [Store.write?, Datum.put?, Option.bind_eq_bind, Option.bind_eq_some_iff] at hwrite
    obtain ⟨_, _, _, ⟨⟩, hwrite⟩ := hwrite
    rw [hput] at hwrite
    exact (Option.some.inj hwrite).symm
  subst hsame
  refine ⟨hτ, ?_⟩
  rw [show (Op.copyDown .sp r.offset k) = r.store k by simp [Resolved.store, hanchor]]
  simp only [Op.effects, heff, Option.bind_some]
  rw [effect_moveSp (by rw [size_eq hs hv hk])]
  rfl

theorem declares_runs {ds : List Declarator} (hs : Structs.Laid env.structs.layouts)
    (ht : env.engine.Typed) (h : Declares env ty s n ds s' code m)
    (hi : Initializes alu env.engine env.structs ty σ ds τ)
    (hheld : Held env s low mid base ([] :: tss) σ) :
    Held env s' low mid base ([] :: tss) τ ∧
      Op.effects alu base (code.map (·.op)) (σ.stack low mid ([] :: tss)) =
        some (τ.stack low mid ([] :: tss)) := by
  induction h generalizing σ with
  | nil =>
    cases hi
    exact ⟨hheld, rfl⟩
  | plain hinit hks hk _ ih =>
    cases hi with
    | initialized hinit' =>
      rw [hinit] at hinit'
      cases hinit'
    | plain _ hd hz hrest =>
      obtain ⟨hheld₁, hstack₁⟩ := hheld.declare hd
      obtain ⟨hτ, heff⟩ := ih hrest hheld₁
      refine ⟨hτ, ?_⟩
      rw [List.map_append, Op.effects_append (effects_zero hs hks hd hz), ← hstack₁]
      exact heff
  | initialized hinit hks hk hvalue hr _ ih =>
    cases hi with
    | plain hinit' =>
      rw [hinit] at hinit'
      cases hinit'
    | initialized hinit' hd hz he hput hrest =>
      rw [hinit] at hinit'
      cases hinit'
      obtain ⟨hheld₁, hstack₁⟩ := hheld.declare hd
      obtain ⟨hv, hheld₂, heff₂⟩ := value_runs hs ht hvalue he hheld₁
      obtain ⟨hheld₃, heff₃⟩ := initial_runs hs hk hr hv hheld₂ hput
      obtain ⟨hτ, heff⟩ := ih hrest hheld₃
      refine ⟨hτ, ?_⟩
      simp only [List.map_append, List.append_assoc]
      rw [Op.effects_append (effects_zero hs hks hd hz), ← hstack₁, Op.effects_append heff₂]
      exact (Op.effects_append heff₃).trans heff

end Parts

end NwScript
