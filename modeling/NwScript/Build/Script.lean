-- Whole scripts. Includes come first, then globals and structs, then functions, and last the call
-- of the function that a run starts with.
import NwScript.Build.Entry
import NwScript.Build.Function
import NwScript.Build.Global
import NwScript.Include.Expansion
import NwScript.Machine.Listing

namespace NwScript

namespace Build

/-- The items of a script and of everything that it includes. -/
def items (setup : Setup) (script : Script) : Build Script := do
  let x := Expansion.expand setup (← get).included script
  modify fun s => { s with included := x.included }
  reportAll x.events
  let items ← lift x.items
  report (.includesProcessed items.length x.included.length)
  return items

/-- Compiles a script at the end of the session's stream. -/
def script (setup : Setup) (script : Script) : Build Unit := do
  let items ← items setup script
  globals items
  sealGlobals
  functions items
  checkCalled
  trampoline
  if setup.options.traceListing then report (.listed (← stream).listing)

end Build

/-- Compiles a script on its own. -/
def compile (setup : Setup) (engine : Engine) (script : Script) :
    Except Failure Stream × List Event :=
  match Build.script setup script { env := { engine } } with
  | .ok _ s => (.ok s.out.stream, s.out.events)
  | .error e s => (.error e, s.out.events)

end NwScript
