-- Where variables live. Blocks are stacked one on the other; a name is looked for from the top of
-- the stack down, newest first, then through the enclosing blocks, and last among the globals.
import NwScript.Storage.Block

namespace NwScript

/-- A block and the blocks around it, the nearest first. -/
structure Scope where
  block : Block := {}
  outer : List Block := []
deriving DecidableEq

namespace Scope

/-- All blocks, the innermost first. -/
def chain (s : Scope) : List Block := s.block :: s.outer

/-- A new block inside. -/
def child (s : Scope) (b : Block) : Scope := ⟨b, s.chain⟩

/-- Looks for a variable from the top of a block down, and goes on below it if it is not there. -/
def seek (env : Env) (name : Name) (below : Int → Except Failure Resolved) :
    List Variable → Int → Except Failure Resolved
  | [], offset => below offset
  | v :: older, offset => do
    let offset ← Count.checked (offset - (← env.sizeOf v.ty))
    if v.name = name then return ⟨v.ty, offset, .sp, false⟩
    else seek env name below older offset

/-- Looks for a variable through a chain of blocks and then among the globals. -/
def resolveIn (env : Env) (name : Name) : List Block → Int → Except Failure Resolved
  | [], offset => env.resolveGlobal name offset
  | b :: outer, offset => do
    seek env name (resolveIn env name outer) b.values (← Count.checked (offset - b.temps))

/-- Where a variable is, for a stack that holds `-offset` slots above the scope. -/
def resolveFrom (s : Scope) (env : Env) (name : Name) (offset : Int) :
    Except Failure Resolved :=
  resolveIn env name s.chain offset

/-- Where a variable is. -/
def resolve (s : Scope) (env : Env) (name : Name) : Except Failure Resolved :=
  s.resolveFrom env name 0

/-- Everything on the stack of some blocks, temporaries included. -/
def height (env : Env) : List Block → Except Failure Int
  | [] => .ok 0
  | b :: outer => do
    let own ← Count.checked ((← b.size env) + b.temps)
    Count.checked (own + (← height env outer))

/-- Everything from the top of the stack down to the frame of the function. -/
def fullSize (s : Scope) (env : Env) : Except Failure Int := height env s.chain

/-- The nearest target and everything on the stack down to the bottom of its block, where `passed`
slots are already counted. -/
def unwind (env : Env) (target : Block → Option Handle) :
    List Block → Int → Except Failure (Option (Handle × Int))
  | [], _ => .ok none
  | b :: outer, passed => do
    let own ← Count.checked ((← b.size env) + b.temps)
    let size ← Count.checked (passed + own)
    match target b with
    | some h => return some (h, size)
    | none => unwind env target outer size

/-- Where `break` goes and what it pops before. -/
def breakTarget (s : Scope) (env : Env) : Except Failure (Option (Handle × Int)) :=
  unwind env (·.breakTo) s.chain 0

/-- Where `continue` goes and what it pops before. -/
def continueTarget (s : Scope) (env : Env) : Except Failure (Option (Handle × Int)) :=
  unwind env (·.continueTo) s.chain 0

end Scope

end NwScript
