-- What a compilation reports while it runs. Events carry what happened; level, text and fields of
-- the report are read off them.
import NwScript.Report.Error

namespace NwScript

inductive Event where
  | structDefined (name : Name) (size : Nat)
  | prototypeDeclared (name : Name) (stub : Handle)
  | deferredCompiled (globals locals : Int)
  | unreachable (function : Name) (skipped : Nat)
  | includeRepeated (name : String)
  | includeExpanded (name : String) (items : Nat)
  | includesProcessed (items includes : Nat)
  | globalCompiled (name : Name) (ty : Ty)
  | globalsCompiled (globals entryIndex : Nat)
  | bodySpliced (function : Name) (entry : Handle)
  | functionCompiled (function : Name) (entry : Handle)
  | trampolineInserted (entry : Name) (index : Nat)
  | listed (listing : String)
  | includeRead (name path : String)
  | includeUnreadable (name path : String)

namespace Event

/-- How much an event matters, the most important first. -/
inductive Level where
  | warn
  | debug
  | trace
deriving DecidableEq

namespace Level

def rank : Level → Nat
  | .warn => 0
  | .debug => 1
  | .trace => 2

def text : Level → String
  | .warn => "WARN"
  | .debug => "DEBUG"
  | .trace => "TRACE"

end Level

def level : Event → Level
  | .unreachable _ _ | .includeUnreadable _ _ => .warn
  | .includesProcessed _ _ | .globalsCompiled _ _ | .trampolineInserted _ _ | .listed _ => .debug
  | _ => .trace

def message : Event → String
  | .structDefined _ _ => "struct defined"
  | .prototypeDeclared _ _ => "prototype declared"
  | .deferredCompiled _ _ => "deferred command compiled"
  | .unreachable _ _ => "unreachable statements after return"
  | .includeRepeated _ => "include already expanded"
  | .includeExpanded _ _ => "include expanded"
  | .includesProcessed _ _ => "includes processed"
  | .globalCompiled _ _ => "global compiled"
  | .globalsCompiled _ _ => "globals compiled"
  | .bodySpliced _ _ => "body spliced after prototype"
  | .functionCompiled _ _ => "function compiled"
  | .trampolineInserted _ _ => "entry trampoline inserted"
  | .listed _ => "instruction listing"
  | .includeRead _ _ => "include resolved from disk"
  | .includeUnreadable _ _ => "cannot read include candidate"

/-- The details of an event as text. -/
def fields : Event → List (String × String)
  | .structDefined name size => [("name", name), ("size", toString size)]
  | .prototypeDeclared name stub => [("name", name), ("stub", stub.text)]
  | .deferredCompiled globals locals => [("globals", toString globals), ("locals", toString locals)]
  | .unreachable function skipped => [("function", function), ("skipped", toString skipped)]
  | .includeRepeated name => [("include", name)]
  | .includeExpanded name items => [("include", name), ("items", toString items)]
  | .includesProcessed items includes =>
    [("items", toString items), ("includes", toString includes)]
  | .globalCompiled name ty => [("global", name), ("ty", ty.text)]
  | .globalsCompiled globals entryIndex =>
    [("globals", toString globals), ("entry_index", toString entryIndex)]
  | .bodySpliced function entry => [("function", function), ("entry", entry.text)]
  | .functionCompiled function entry => [("function", function), ("entry", entry.text)]
  | .trampolineInserted entry index => [("entry", entry), ("index", toString index)]
  | .listed listing => [("listing", listing)]
  | .includeRead name path => [("include", name), ("path", path)]
  | .includeUnreadable name path => [("include", name), ("path", path)]

/-- The events that matter at least as much as a level. -/
def upTo (level : Level) (events : List Event) : List Event :=
  events.filter (·.level.rank ≤ level.rank)

end Event

end NwScript
