-- Globals and structs.
import NwScript.Build.Session
import NwScript.Codegen.Simple

namespace NwScript

namespace Build

/-- Reserves a global and gives it its first value. -/
def global (g : GlobalDef) : Build Unit := do
  let before ← env
  unless g.ty.storable do mistake (.unstorable g.name g.ty)
  lift (before.structs.check g.ty)
  if before.globals.any (·.name == g.name) then mistake (.duplicateGlobal g.name)
  if g.const && g.init.isNone then mistake (.uninitializedConst g.name)
  generate (Codegen.emitAll (← lift (before.structs.reserve g.ty)))
  modify fun s =>
    { s with env := { s.env with globals := s.env.globals ++ [⟨g.name, g.ty, g.const⟩] } }
  match g.init with
  | some e => generate (Codegen.initialValue (← env) g.name g.ty e)
  | none => pure ()
  report (.globalCompiled g.name g.ty)

def struct (d : StructDef) : Build Unit := do
  report (← focus (·.env.structs) (fun s structs => { s with env := { s.env with structs } })
    (Structs.define d))

/-- The globals and structs among some items, in order. -/
def globals : Script → Build Unit
  | [] => return
  | item :: rest => do
    match item with
    | .global g => global g
    | .struct d => struct d
    | _ => pure ()
    globals rest

/-- Closes the globals, if there are any. Calls start right after them. -/
def sealGlobals : Build Unit := do
  let globals := (← env).globals
  unless globals.isEmpty do
    let _ ← edit (Stream.add .saveBp)
    modify fun s => { s with env := { s.env with sealed := true } }
  let entryIndex := (← stream).code.length
  modify fun s => { s with entryIndex }
  report (.globalsCompiled globals.length entryIndex)

end Build

end NwScript
