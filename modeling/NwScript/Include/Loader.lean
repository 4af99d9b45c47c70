-- Where the items of an include come from: a library in memory first, then a resolver of the host,
-- such as a search through folders.
import NwScript.Report.Event
import NwScript.Include.FileTree
import NwScript.Host.Options
import NwScript.Script.Item

namespace NwScript

/-- The source of a script, as the host's parser reads it. -/
inductive Source where
  | script (items : Script)
  /-- A text that is no script, and why. -/
  | unreadable (reason : String)

/-! ## Directives -/

namespace Script

/-- The names that a script includes, in order. -/
def directives (items : Script) : List String :=
  items.filterMap fun
    | .include name => some name
    | _ => none

@[simp] theorem directives_append (a b : Script) :
    directives (a ++ b) = directives a ++ directives b := by
  simp [directives]

end Script

/-! ## Resolvers -/

/-- Finds sources outside of the library. -/
structure Resolver where
  /-- The source of a key, with what there is to report of the search. -/
  find : String → Except Panic (Option Source × List Event)
  /-- Where a key was looked for. -/
  searched : String → Except Panic (List String)

/-- A search for files, folder by folder. -/
structure FolderSearch where
  folders : List Path
  /-- The extension of a name that has none. -/
  extension : Path

namespace FolderSearch

/-- The paths at which a name is looked for. An extension cannot contain a slash; that matters only
when the extension is needed. -/
def candidates (f : FolderSearch) (name : String) : Except Panic (List Path) :=
  f.folders.mapM fun folder =>
    let path := folder.join name.toList
    if (Path.extension? name.toList).isSome then .ok path
    else if f.extension.contains '/' then .error .separatorInExtension
    else .ok (path.withExtension f.extension)

/-- The paths at which a name is looked for, as messages write them. -/
def searched (f : FolderSearch) (name : String) : Except Panic (List String) := do
  return (← f.candidates name).map String.ofList

/-- The first of some paths that can be read. A missing file is passed over in silence; anything
else that cannot be read is reported. -/
def firstIn {α : Type} (tree : FileTree α) (name : String) : List Path → Option α × List Event
  | [] => (none, [])
  | p :: rest =>
    match tree.read p with
    | .found content => (some content, [.includeRead name (String.ofList p)])
    | .missing => firstIn tree name rest
    | .refused =>
      let (found, events) := firstIn tree name rest
      (found, .includeUnreadable name (String.ofList p) :: events)

/-- Looks for a name in a file tree. -/
def find {α : Type} (f : FolderSearch) (tree : FileTree α) (name : String) :
    Except Panic (Option α × List Event) := do
  return firstIn tree name (← f.candidates name)

/-- A search as a resolver. -/
def resolver (f : FolderSearch) (tree : FileTree Source) : Resolver := ⟨f.find tree, f.searched⟩

end FolderSearch

/-- A resolver that knows some sources by their keys. `place` says where it looked for a key. -/
def Resolver.ofTable (table : List (String × Source)) (place : String → String) : Resolver where
  find key := .ok (table.lookup key, [])
  searched key := .ok [place key]

/-! ## Loaders -/

structure Loader where
  /-- Sources in memory, the newest first. -/
  library : List (String × Source) := []
  resolver : Option Resolver := none

namespace Loader

/-- Keeps a source under a key, in the place of an older one. -/
def withLibrary (l : Loader) (key : String) (s : Source) : Loader :=
  { l with library := (key, s) :: l.library }

/-- The items of a source. -/
def parsed (name : String) : Source → Except Failure Script
  | .script items => .ok items
  | .unreadable reason => .error (.semantic (.unreadableInclude name reason))

/-- The error for an include that is nowhere to be found. -/
def missing (l : Loader) (name key : String) : Except Failure Script :=
  let entry := s!"library entry '{key}'"
  match l.resolver with
  | none => .error (.missingInclude name [entry])
  | some r => match r.searched key with
    | .ok places => .error (.missingInclude name (entry :: places))
    | .error cause => .error (.panic cause)

/-- The items of an include, with what there is to report of the search. -/
def load (l : Loader) (o : Options) (name : String) : List Event × Except Failure Script :=
  let key := o.includeKey name
  match l.library.lookup key with
  | some s => ([], parsed name s)
  | none => match l.resolver with
    | none => ([], l.missing name key)
    | some r => match r.find key with
      | .error cause => ([], .error (.panic cause))
      | .ok (none, events) => (events, l.missing name key)
      | .ok (some s, events) => (events, parsed name s)

/-- The loader as text: the keys of its library, and whether it has a resolver. -/
def text (l : Loader) : String :=
  let keys := Name.sorted (l.library.map (·.1)).eraseDups
  "IncludeLoader \x7b library: [" ++ ", ".intercalate (keys.map Text.quoted) ++ "], resolver: " ++
    toString l.resolver.isSome ++ " \x7d"

theorem missing_ne_ok (l : Loader) (name key : String) (items : Script) :
    l.missing name key ≠ .ok items := by
  intro h
  unfold missing at h
  dsimp only at h
  split at h
  · cases h
  · split at h <;> cases h

theorem eq_script_of_parsed {name : String} {s : Source} {items : Script}
    (h : parsed name s = .ok items) : s = .script items := by
  cases s with
  | script _ => cases h; rfl
  | unreadable _ => cases h

end Loader

end NwScript
