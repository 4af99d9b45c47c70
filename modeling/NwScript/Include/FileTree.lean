-- A working directory with folders and files, as a value, and what comes of reading a path in it.
import NwScript.Include.Path

namespace NwScript

/-- A working directory. Folders and files are known by the names on the way to them. -/
structure FileTree (α : Type) where
  folders : List (List Path) := []
  /-- The newest first. -/
  files : List (List Path × α) := []

/-- What comes of reading a path. -/
inductive Reading (α : Type) where
  | found (content : α)
  | missing
  /-- Something is there, or in the way, that cannot be read. -/
  | refused
deriving DecidableEq

namespace FileTree

variable {α : Type}

/-! ## Looking at a place -/

/-- The names of a path, one after another. -/
def components (p : Path) : List Path := p.splitOn '/'

/-- The content of the file at a place. -/
def file? (t : FileTree α) (place : List Path) : Option α := t.files.lookup place

/-- Whether a place is a folder. Every folder on the way to something is there. -/
def isFolder (t : FileTree α) (place : List Path) : Bool :=
  t.folders.any place.isPrefixOf || t.files.any fun (p, _) => place != p && place.isPrefixOf p

/-! ## Reading -/

/-- Where a walk has come to. -/
inductive Location where
  | inside (folder : List Path)
  /-- Somewhere above the working directory. Nothing is known of it but that it is there. -/
  | outside

def Location.parent : Location → Location
  | .inside [] | .outside => .outside
  | .inside folder => .inside folder.dropLast

/-- How long a name and a path may be, in bytes. -/
def nameLimit : Nat := 255

def pathLimit : Nat := 4095

def byteLength (p : Path) : Nat := p.foldl (fun n c => n + c.utf8Size) 0

/-- Follows names from a location. The last one must be that of a file. -/
def walk (t : FileTree α) : Location → List Path → Reading α
  | _, [] => .refused
  | here, name :: rest =>
    if name == [] || name == ['.'] then t.walk here rest
    else if name == ['.', '.'] then t.walk here.parent rest
    else if nameLimit < byteLength name then .refused
    else match here with
      | .outside => .missing
      | .inside folder =>
        let place := folder ++ [name]
        match t.file? place with
        | some content => if rest.isEmpty then .found content else .refused
        | none => if t.isFolder place then t.walk (.inside place) rest else .missing

/-- Reads a path, which must name a file. -/
def read (t : FileTree α) (p : Path) : Reading α :=
  if p.isEmpty then .missing
  else if p.contains '\x00' || pathLimit < byteLength p then .refused
  else t.walk (if p.isAbsolute then .outside else .inside []) (components p)

theorem mem_of_walk_found {t : FileTree α} {here : Location} {names : List Path} {content : α}
    (h : t.walk here names = .found content) : content ∈ t.files.map (·.2) := by
  induction names generalizing here with
  | nil => simp [walk] at h
  | cons name rest ih =>
    unfold walk at h
    split at h
    · exact ih h
    split at h
    · exact ih h
    split at h
    · cases h
    split at h
    · cases h
    · dsimp only at h
      split at h
      · rename_i found hf
        split at h
        · cases h
          rw [file?, List.lookup_eq_some_iff] at hf
          obtain ⟨before, after, hs, _⟩ := hf
          simp [hs]
        · cases h
      · split at h
        · exact ih h
        · cases h

/-- Whatever is read is the content of a file. -/
theorem mem_of_read_found {t : FileTree α} {p : Path} {content : α}
    (h : t.read p = .found content) : content ∈ t.files.map (·.2) := by
  unfold read at h
  split at h
  · cases h
  split at h
  · cases h
  exact mem_of_walk_found h

/-! ## Building -/

/-- The place that a path inside the working directory stands for. -/
def placeOf (p : Path) : List Path := (components p).filter fun name => name != [] && name != ['.']

/-- Adds a folder with all folders on the way to it. -/
def addFolder (t : FileTree α) (p : Path) : FileTree α :=
  { t with folders := placeOf p :: t.folders }

end FileTree

end NwScript
