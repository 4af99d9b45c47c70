-- A function while it runs: where control arrives when a statement ends in one way or another, and
-- what is on the stack then.
import NwScript.Proofs.Meaning.Parts
import NwScript.Proofs.Storage.Unwind
import NwScript.Proofs.Codegen.Handles

namespace NwScript

open Codegen

/-! ## Activations -/

/-- A call of a function. Its frame lies on the slots of its result, these on what its callers have
on the stack, and that on the globals. -/
structure Activation where
  alu : Alu
  env : Env
  frame : Frame
  stream : Stream
  /-- What lies below the globals. -/
  low : List Cell
  callers : List Cell
  /-- What is in the slots of the result before the function returns something. -/
  result : List Cell
  base : Nat
  laid : Structs.Laid env.structs.layouts
  typed : env.engine.Typed
  distinct : (stream.code.map (·.handle)).Nodup
  room : env.sizeOf frame.returnType = .ok result.length
  /-- Where the return instruction stands. -/
  exit : Nat
  exit_eq : stream.indexOf? frame.retn = some exit

namespace Activation

variable (a : Activation)

abbrev stack (σ : Store Datum) (temps : List (List Cell)) : List Cell :=
  σ.stack a.low (a.callers ++ a.result) temps

/-- The stack holds the variables of a scope. -/
abbrev Holds (s : Scope) (temps : List (List Cell)) (σ : Store Datum) : Prop :=
  Held a.env s a.low (a.callers ++ a.result) a.base temps σ

abbrev Runs (c d : Config) : Prop := a.stream.Runs a.alu a.base c d

/-- All targets of a scope stand in the stream. -/
def Targets (s : Scope) : Prop := ∀ x, Leaves s x → ∃ i, a.stream.indexOf? x = some i

/-- The result with what was returned. -/
def returned : Option Datum → List Cell
  | some v => v.cells
  | none => a.result

/-- Where control is after an outcome in the scope, `done` being where it goes on normally. Nothing
of the blocks that were left is on the stack any more. -/
inductive Arrives (s : Scope) (temps : List (List Cell)) (τ : Store Datum) (done : Config) :
    Outcome → Config → Prop
  | normal : Arrives s temps τ done .normal done
  | broke {h : Handle} {i : Nat} {vss : List (Named Datum)} {tss : List (List Cell)} :
      leftAt (·.breakTo) s.chain τ.blocks temps = some (h, vss, tss) →
      a.stream.indexOf? h = some i →
      Arrives s temps τ done .broke ⟨i, a.stack { τ with blocks := vss } tss⟩
  | continued {h : Handle} {i : Nat} {vss : List (Named Datum)} {tss : List (List Cell)} :
      leftAt (·.continueTo) s.chain τ.blocks temps = some (h, vss, tss) →
      a.stream.indexOf? h = some i →
      Arrives s temps τ done .continued ⟨i, a.stack { τ with blocks := vss } tss⟩
  | returned {value : Option Datum} :
      (∀ v, value = some v → Datum.Fits a.env.structs a.frame.returnType v) →
      Arrives s temps τ done (.returned value)
        ⟨a.exit, a.low ++ τ.globals.cells Datum.cells ++ a.callers ++ a.returned value⟩

end Activation

namespace Activation

variable {a : Activation}

section Scopes

variable {s t : Scope} {b : Block} {temps tss : List (List Cell)} {σ τ : Store Datum}
  {done done' start c : Config} {o : Outcome}

/-! ## Entering and leaving blocks -/

/-- A new block has no variables. -/
theorem enter_holds (h : a.Holds s temps σ) (hv : b.values = []) (ht : b.temps = 0) :
    a.Holds (s.child b) ([] :: temps) σ.enter := by
  refine ⟨.cons ?_ (by simpa [Scope.child] using ht) h.blocks, h.globals, h.base_eq, h.reach⟩
  rw [show (s.child b).block.values = [] from hv]
  exact .nil

theorem leave_holds {ts : List Cell} (h : a.Holds t (ts :: temps) τ) (ho : t.outer = s.chain) :
    a.Holds s temps τ.leave := by
  obtain ⟨vs, vss, ts', tss', hvs, hts, _, _, hm⟩ := h.blocks.inv
  cases hts
  rw [ho] at hm
  exact ⟨by simpa [Store.leave, hvs] using hm, h.globals, h.base_eq, h.reach⟩

@[simp] theorem stack_enter : a.stack σ.enter ([] :: temps) = a.stack σ temps := by
  simp [stack, Store.stack, Store.frame, Store.enter, Named.cells]

/-- An outcome in a block that has no targets is one in the block around it. -/
theorem Arrives.outward {ts : List Cell} (hh : a.Holds t (ts :: temps) τ)
    (hb : b.breakTo = none) (hc : b.continueTo = none)
    (h : a.Arrives (s.child b) (ts :: temps) τ done o c) : a.Arrives s temps τ.leave done o c := by
  obtain ⟨vs, vss, _, _, hvs, _⟩ := hh.blocks.inv
  have hblocks : τ.leave.blocks = vss := by simp [Store.leave, hvs]
  cases h with
  | normal => exact .normal
  | broke hl hi =>
    simp only [Scope.child, Scope.chain, hvs, leftAt, hb] at hl
    exact .broke (by rw [hblocks]; exact hl) hi
  | continued hl hi =>
    simp only [Scope.child, Scope.chain, hvs, leftAt, hc] at hl
    exact .continued (by rw [hblocks]; exact hl) hi
  | returned hv => exact .returned hv

/-- An outcome in a scope is one in any scope with the same targets. -/
theorem Arrives.extends (he : s.Extends t) (h : a.Arrives t temps τ done o c) :
    a.Arrives s temps τ done o c := by
  have hchain {α β : Type} (target : Block → Option Handle)
      (ht : target t.block = target s.block) (vss : List (Named β)) (tss : List (List α)) :
      leftAt target t.chain vss tss = leftAt target s.chain vss tss := by
    cases vss with
    | nil => rfl
    | cons vs vss =>
      cases tss with
      | nil => rfl
      | cons ts tss => simp [Scope.chain, leftAt, ht, he.outer]
  cases h with
  | normal => exact .normal
  | broke hl hi => exact .broke ((hchain _ he.breakTo _ _).symm.trans hl) hi
  | continued hl hi => exact .continued ((hchain _ he.continueTo _ _).symm.trans hl) hi
  | returned hv => exact .returned hv

/-! ## Ends -/

variable (a) in
/-- A run from `start` that ends in an outcome. The innermost block has no temporaries then, and may
have got new variables; if the outcome is normal, just those of a scope that satisfies `last`. -/
def Ends (s : Scope) (tss : List (List Cell)) (start done : Config) (last : Scope → Prop)
    (o : Outcome) (τ : Store Datum) : Prop :=
  ∃ t c, s.Extends t ∧ (o = .normal → last t) ∧ a.Holds t ([] :: tss) τ ∧
    a.Arrives s ([] :: tss) τ done o c ∧ a.Runs start c

theorem Ends.before {last : Scope → Prop} {first : Config} (hr : a.Runs first start)
    (h : a.Ends s tss start done last o τ) : a.Ends s tss first done last o τ := by
  obtain ⟨t, c, he, hl, hh, ha, hruns⟩ := h
  exact ⟨t, c, he, hl, hh, ha, hr.trans hruns⟩

/-- After a normal outcome the run may go on. -/
theorem Ends.after {last : Scope → Prop} (h : a.Ends s tss start done last o τ)
    (hr : o = .normal → a.Runs done done') : a.Ends s tss start done' last o τ := by
  obtain ⟨t, c, he, hl, hh, ha, hruns⟩ := h
  cases ha with
  | normal => exact ⟨t, done', he, hl, hh, .normal, hruns.trans (hr rfl)⟩
  | broke h hi => exact ⟨t, _, he, hl, hh, .broke h hi, hruns⟩
  | continued h hi => exact ⟨t, _, he, hl, hh, .continued h hi, hruns⟩
  | returned hv => exact ⟨t, _, he, hl, hh, .returned hv, hruns⟩

/-- Any other outcome does not depend on where control would have gone on. -/
theorem Ends.abrupt {last last' : Scope → Prop} (ho : o ≠ .normal)
    (h : a.Ends s tss start done last o τ) : a.Ends s tss start done' last' o τ := by
  obtain ⟨t, c, he, _, hh, ha, hruns⟩ := h
  refine ⟨t, c, he, fun h => absurd h ho, hh, ?_, hruns⟩
  cases ha with
  | normal => exact absurd rfl ho
  | broke h hi => exact .broke h hi
  | continued h hi => exact .continued h hi
  | returned hv => exact .returned hv

theorem Ends.extends {last : Scope → Prop} (he : s.Extends t)
    (h : a.Ends t tss start done last o τ) : a.Ends s tss start done last o τ := by
  obtain ⟨t', c, he', hl, hh, ha, hruns⟩ := h
  exact ⟨t', c, he.trans he', hl, hh, ha.extends he, hruns⟩

/-- A normal end. -/
theorem ends_normal (hh : a.Holds t ([] :: tss) τ) (he : s.Extends t) (hr : a.Runs start done) :
    a.Ends s tss start done (· = t) .normal τ :=
  ⟨t, done, he, fun _ => rfl, hh, .normal, hr⟩

end Scopes

end Activation

end NwScript
