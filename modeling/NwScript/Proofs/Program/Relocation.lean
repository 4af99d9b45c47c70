-- Compiling at the end of a stream that already holds code: the program is the one that an empty
-- stream would get, moved behind that code.
import Mathlib.Order.Nat
import NwScript.Proofs.Program.Interleaving
import NwScript.Proofs.Program.Layout
import NwScript.Proofs.Recast.Session

namespace NwScript

/-- The instruction with all handles further on. -/
def Instruction.moved (distance : Nat) (i : Instruction) : Instruction :=
  { i with handle := i.handle + distance, target := i.target.map (· + distance) }

/-- A session in which nothing has been compiled yet, but whose stream may hold code. -/
def Session.fresh (engine : Engine) (stream : Stream) : Session :=
  { env := { engine }, out := { stream } }

namespace Recast

end Recast

namespace Build

section Behind

variable {setup : Setup} {engine : Engine} {script : Script} {st : Stream} {d distance : Nat}
  (hbelow : ∀ i ∈ st.code, i.handle < st.next) (hroom : st.next ≤ Handle.limit)

include hbelow hroom

omit hbelow hroom

end Behind

/-- Code of another script, with handles to spare. -/
def earlier : Stream := ⟨[⟨3, .constI 7, none⟩, ⟨0, .jump .jmp, some 3⟩], 5⟩

end Build

end NwScript
