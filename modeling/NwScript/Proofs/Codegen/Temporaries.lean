-- What code generation leaves behind in the scope that it works in: an expression counts the slots
-- of its value and touches nothing else, a statement counts nothing in the end and adds only the
-- variables that it declares itself, and a block ends without temporaries.
import NwScript.Proofs.Codegen.Lays

namespace NwScript

/-- The variables that a statement adds to the block that it stands in, in the order of their
declaration. Whatever is declared in the blocks inside of it goes with them. -/
def Stmt.declared : Stmt → List Variable
  | .declare ty ds => ds.map fun d => ⟨d.name, ty⟩
  | _ => []

/-- The same block with the same temporaries, and with these variables on top of the others. -/
structure Scope.Gains (s t : Scope) (new : List Variable) : Prop extends s.Extends t where
  temps : t.block.temps = s.block.temps
  values : t.block.values = new.reverse ++ s.block.values

namespace Scope.Gains

open Codegen

variable {s t u : Scope} {env : Env} {frame : Frame} {n m : Handle} {code : List Instruction}

theorem refl (s : Scope) : s.Gains s [] := ⟨.refl s, rfl, rfl⟩

theorem append {older newer : List Variable} (h : s.Gains t older) (h' : t.Gains u newer) :
    s.Gains u (older ++ newer) where
  toExtends := h.toExtends.trans h'.toExtends
  temps := h'.temps.trans h.temps
  values := by rw [h'.values, h.values, List.reverse_append, List.append_assoc]

theorem declared {name : Name} {ty : Ty} {size : Nat} :
    s.Gains (s.declared name ty size) [⟨name, ty⟩] := ⟨.declared, rfl, rfl⟩

/-- The first values of declared variables are popped again, so that only the variables stay. -/
theorem of_declares {ty : Ty} {ds : List Declarator} (h : Declares env ty s n ds t code m) :
    s.Gains t (ds.map fun d => ⟨d.name, ty⟩) := by
  induction h with
  | nil => exact refl _
  | plain _ _ _ _ ih => exact declared.append ih
  | initialized _ _ _ _ _ _ ih => exact declared.append ih

theorem of_stmt {st : Stmt} {flow : Flow} (h : Lays env frame s n (.stmt st) t flow code m) :
    s.Gains t st.declared := by
  cases h with
  | declare hd => exact of_declares hd
  | _ => exact refl s

/-- A block gains what its statements declare, up to the one that returns. -/
theorem of_block {body : List Stmt} {flow : Flow}
    (h : Lays env frame s n (.block body) t flow code m) :
    ∃ reached, reached <+: body ∧ s.Gains t (reached.flatMap Stmt.declared) := by
  induction body generalizing s n code with
  | nil =>
    cases h with
    | blockEnd => exact ⟨[], List.nil_prefix, refl _⟩
  | cons st rest ih =>
    cases h with
    | blockNext hst hrest =>
      obtain ⟨reached, hreached, hgains⟩ := ih hrest
      exact ⟨st :: reached, List.cons_prefix_cons.mpr ⟨rfl, hreached⟩, (of_stmt hst).append hgains⟩
    | blockReturned hst =>
      refine ⟨[st], List.cons_prefix_cons.mpr ⟨rfl, List.nil_prefix⟩, ?_⟩
      simpa using of_stmt hst

end Scope.Gains

namespace Codegen

section Temporaries

variable {env : Env} {frame : Frame} {s t : State}

theorem expr_counts {e : Expr} {ty : Ty} (h : expr env e s = .ok ty t) :
    ∃ size : Nat, env.sizeOf ty = .ok size ∧ t.scope = s.scope.grown size := by
  obtain ⟨_, size, _, hsize, hscope, _⟩ := expr_written h
  exact ⟨size, hsize, hscope⟩

theorem stmt_gains {st : Stmt} {flow : Flow} (h : stmt env frame st s = .ok flow t) :
    s.scope.Gains t.scope st.declared := by
  obtain ⟨_, hlays, _⟩ := stmt_laid h
  exact .of_stmt hlays

/-- Whichever way a block ends, its temporaries are looked at last. -/
theorem block_balanced {body : List Stmt} {flow : Flow} (h : block env frame body s = .ok flow t) :
    t.scope.block.temps = 0 := by
  induction body generalizing s with
  | nil =>
    simp only [block, bind_ok, scope_ok, lift_ok, pop_ok, pure_ok] at h
    obtain ⟨_, _, _, _, _, _, _, _, _, _, _, hb, _, rfl⟩ := h
    obtain ⟨htemps, rfl⟩ := checkBalanced_ok hb
    exact htemps
  | cons st rest ih =>
    simp only [block, bind_ok] at h
    obtain ⟨f, u, _, h⟩ := h
    cases f with
    | next => exact ih h
    | returned =>
      by_cases hrest : rest.isEmpty = true
      · simp only [hrest, if_true, bind_ok, pure_ok] at h
        obtain ⟨_, _, hb, _, rfl⟩ := h
        obtain ⟨htemps, rfl⟩ := checkBalanced_ok hb
        exact htemps
      · simp only [hrest, Bool.false_eq_true, if_false, bind_ok, report_ok, pure_ok] at h
        obtain ⟨_, _, _, _, _, hb, _, rfl⟩ := h
        obtain ⟨htemps, rfl⟩ := checkBalanced_ok hb
        exact htemps

theorem block_gains {body : List Stmt} {flow : Flow} (h : block env frame body s = .ok flow t) :
    ∃ reached, reached <+: body ∧ s.scope.Gains t.scope (reached.flatMap Stmt.declared) := by
  obtain ⟨_, hlays, _⟩ := block_laid (fun _ _ _ _ _ hst => stmt_laid hst) h
  exact Scope.Gains.of_block hlays

end Temporaries

/-- The books are kept exactly. From any state, an expression that is compiled counts the slots of
its type as temporaries of the block and changes nothing else in the scope. A statement leaves the
temporaries as they were, and adds to the block only the variables of a declaration that it is
itself. A block that is compiled ends without temporaries, with the variables that the statements
up to its `return` declare. -/
theorem temporaries_accounted (env : Env) (frame : Frame) (s t : State) :
    (∀ e ty, expr env e s = .ok ty t →
      ∃ size : Nat, env.sizeOf ty = .ok size ∧ t.scope = s.scope.grown size) ∧
    (∀ st flow, stmt env frame st s = .ok flow t → s.scope.Gains t.scope st.declared) ∧
    (∀ body flow, block env frame body s = .ok flow t →
      t.scope.block.temps = 0 ∧
      ∃ reached, reached <+: body ∧ s.scope.Gains t.scope (reached.flatMap Stmt.declared)) := by
  refine ⟨fun e ty h => expr_counts h, fun st flow h => stmt_gains h, fun body flow h => ?_⟩
  exact ⟨block_balanced h, block_gains h⟩

namespace Aiming

/-- A routine that takes a number and a command, and gives a vector. -/
def env : Env where
  engine := { routines := [⟨.vector, "Aim", [⟨.int, "n", none⟩, ⟨.action, "command", none⟩]⟩] }

def frame : Frame := ⟨"aim", .void, 0⟩

/-- A variable, and that many slots of a half-finished expression. -/
def start (temps : Int) : State :=
  { out := {}, scope := { block := { values := [⟨"n", .int⟩], temps } } }

/-- `Aim(n += 1, n++)`. -/
def call : Expr :=
  .call "Aim" [.assign .add ⟨"n", []⟩ (.literal (.int 1)), .step .inc .post ⟨"n", []⟩]

/-- `int a = n, b;`. -/
def pair : Stmt := .declare .int [⟨"a", some (.access ⟨"n", []⟩)⟩, ⟨"b", none⟩]

/-- `switch (n) { case 1: return; default: Aim(n += 1, n++); } int a = n, b; return; int z;`. -/
def visit : List Stmt :=
  [.switch (.access ⟨"n", []⟩)
     [([.case (.literal (.int 1))], [.ret none]), ([.default], [.expr call])],
   pair, .ret none, .declare .int [⟨"z", none⟩]]

end Aiming

open Aiming in
theorem aiming_accounted :
    (∃ t, expr env call (start 2) = .ok .vector t ∧ t.scope = (start 5).scope) ∧
    (∃ t, stmt env frame pair (start 2) = .ok .next t ∧ t.scope.block.temps = 2 ∧
      t.scope.block.values = [⟨"b", .int⟩, ⟨"a", .int⟩, ⟨"n", .int⟩]) ∧
    (∃ t, block env frame visit (start 0) = .ok .returned t ∧ t.scope.block.temps = 0) := by
  obtain ⟨t, ht⟩ := @exists_of_gives _ _ _ _ Ty.vector (expr env call (start 2)) (by decide +kernel)
  obtain ⟨size, hsize, hscope⟩ := (temporaries_accounted env frame _ t).1 _ _ ht
  obtain ⟨u, hu⟩ := @exists_of_gives _ _ _ _ Flow.next (stmt env frame pair (start 2))
    (by decide +kernel)
  have hgains := (temporaries_accounted env frame _ u).2.1 _ _ hu
  obtain ⟨v, hv⟩ := @exists_of_gives _ _ _ _ Flow.returned (block env frame visit (start 0))
    (by decide +kernel)
  cases hsize
  exact ⟨⟨t, ht, hscope⟩, ⟨u, hu, hgains.temps, hgains.values⟩,
    ⟨v, hv, ((temporaries_accounted env frame _ v).2.2 _ _ hv).1⟩⟩

end Codegen

end NwScript
