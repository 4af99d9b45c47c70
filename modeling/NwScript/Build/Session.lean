-- A session: several scripts can be compiled in it one after another, and what a failed one has
-- done stays done.
import NwScript.Codegen.Step

namespace NwScript

/-- Everything that outlives a single script. -/
structure Session where
  env : Env := {}
  /-- The keys of the includes that have been expanded. -/
  included : List String := []
  /-- Where the first function is called: right after the globals. -/
  entryIndex : Nat := 0
  out : Emission := {}

/-- A step of the compilation of a script. -/
abbrev Build := EStateM Failure Session

namespace Build

def lift {α : Type} : Except Failure α → Build α
  | .ok a => pure a
  | .error e => throw e

def mistake {α : Type} (m : Mistake) : Build α := throw (.semantic m)

def env : Build Env := return (← get).env

def stream : Build Stream := return (← get).out.stream

/-- Changes the stream. -/
def edit {α : Type} (e : Edit α) : Build α :=
  focus (·.out.stream) (fun s stream => { s with out := { s.out with stream } }) e

def reportAll (events : List Event) : Build Unit :=
  modify fun s => { s with out := { s.out with events := s.out.events ++ events } }

def report (e : Event) : Build Unit := reportAll [e]

end Build

/-- Notes the functions that are called. -/
def Env.marked (env : Env) (names : List Name) : Env :=
  { env with functions := env.functions.marked names }

namespace Build

/-- Generates code at the end of the stream, from an empty scope. -/
def generate {α : Type} (g : Gen α) : Build α :=
  focus (fun s => ⟨s.out, {}, []⟩)
    (fun s t => { s with env := s.env.marked t.marks, out := t.out }) g

/-- Generates code on a fork of the stream, which itself stays as it is. -/
def aside (g : Gen Unit) : Build Stream :=
  focus (fun s => ⟨{ s.out with stream := s.out.stream.fork }, {}, []⟩)
    (fun s t =>
      { s with env := s.env.marked t.marks, out := { t.out with stream := s.out.stream } })
    do
      g
      return (← get).out.stream

end Build

end NwScript
