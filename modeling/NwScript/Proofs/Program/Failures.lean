-- Compiling a script never ends in an error of the compiler itself, whatever the script is.
-- Includes are expanded until none is left, every size that is asked for is known, every block
-- takes back its temporaries, and every body finds the place that it is put into.
import NwScript.Proofs.Codegen.Balance
import NwScript.Proofs.Include.Rounds
import NwScript.Proofs.Program.Assembly

namespace NwScript

/-! ## Includes -/

/-- The resolver has an answer for every key, be it that there is no such source. -/
def Resolver.Answers (r : Resolver) : Prop :=
  ∀ key, (∃ found, r.find key = .ok found) ∧ ∃ places, r.searched key = .ok places

def Loader.Answers (l : Loader) : Prop := ∀ r, l.resolver = some r → r.Answers

def Setup.Answers (s : Setup) : Prop := ∀ l, s.loader = some l → l.Answers

section Includes

variable {o : Outlook} {s : Setup}

end Includes

/-! ## Environments that grow -/

/-- An environment without functions, as it is while the globals are compiled. -/
structure Env.Opening (o : Outlook) (env : Env) : Prop extends env.Sound where
  unnamed : env.functions = {}
  ends : o.endless ∨ env.engine.Grounded

section Sound

variable {o : Outlook} {env : Env}

/-- Where there is no function, none can be noted. -/
theorem Env.Opening.marked (h : env.Opening o) (names : List Name) :
    env.marked names = env := by
  have hnone : env.functions.marked names = env.functions := by
    rw [h.unnamed]
    rfl
  simp only [Env.marked, hnone]

theorem Env.Opening.withGlobal {g : GlobalDef} (h : env.Opening o) (hg : env.Sized g.ty) :
    (env.withGlobal g).Opening o := by
  refine ⟨⟨h.laid, ?_, h.returns, h.engine⟩, h.unnamed, h.ends⟩
  intro k hk
  rcases List.mem_append.mp hk with hk | hk
  · exact h.globals k hk
  · cases List.mem_singleton.mp hk
    exact hg

theorem Env.Opening.define {d : StructDef} {structs : Structs} {e : Event} (h : env.Opening o)
    (hd : Structs.define d env.structs = .ok e structs) :
    ({ env with structs } : Env).Opening o := by
  have hsized (ty : Ty) : env.Sized ty → ({ env with structs } : Env).Sized ty := by
    rintro ⟨n, hn⟩
    exact ⟨n, Structs.sizeOf_define h.laid hd hn⟩
  exact ⟨⟨Structs.laid_define h.laid hd, fun g hg => hsized _ (h.globals g hg),
    fun f hf => hsized _ (h.returns f hf), h.engine⟩, h.unnamed, h.ends⟩

theorem Env.Opening.closed (h : env.Opening o) : env.closed.Opening o :=
  ⟨⟨h.laid, h.globals, h.returns, h.engine⟩, h.unnamed, h.ends⟩

end Sound

/-! ## Edits -/

section Edits

variable {o : Outlook} {s : Stream} {op : Op} {target : Option Handle}

end Edits

namespace Build

open Codegen

/-! ## Steps of a session -/

section Steps

variable {o : Outlook} {α β : Type} {s : Session}

variable {post : Unit → Session → Prop}

end Steps

/-! ## Globals -/

section Globals

variable {o : Outlook} {s : Session}

end Globals

/-! ## Functions -/

section Functions

variable {o : Outlook} {s : Session}

variable {base : Env} {head : List Instruction} {items : Script} {segs : List Segment}

end Functions

/-! ## Whole scripts -/

section Script

variable {o : Outlook} {s : Session}

end Script

end Build

end NwScript
