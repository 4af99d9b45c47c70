-- Paths with slashes: joining them, and the file name and extension at their end.

namespace NwScript

/-- A path, as the characters it is written with. -/
abbrev Path := List Char

namespace Path

def isAbsolute (p : Path) : Bool := p.head? == some '/'

/-- A path inside a folder. An absolute path stands for itself. -/
def join (folder path : Path) : Path :=
  if path.isAbsolute then path
  else if folder.isEmpty || folder.getLast? == some '/' then folder ++ path
  else folder ++ '/' :: path

/-- The last component of a path that is given backwards, with what stands before it, also
backwards. Slashes at the end and components of a single dot after a slash do not count. -/
def splitBack : Path → Option (Path × Path)
  | '/' :: before => splitBack before
  | '.' :: '/' :: before => splitBack before
  | p =>
    let name := (p.takeWhile (· != '/')).reverse
    if name.isEmpty || name == ['.'] || name == ['.', '.'] then none
    else some (p.dropWhile (· != '/'), name)

/-- The file name at the end of a path, with everything before it. -/
def split? (p : Path) : Option (Path × Path) :=
  (splitBack p.reverse).map fun (before, name) => (before.reverse, name)

/-- The stem and the extension of a file name. A dot at the very front belongs to the stem. -/
def splitName (name : Path) : Path × Option Path :=
  let extension := (name.reverse.takeWhile (· != '.')).reverse
  match name.reverse.dropWhile (· != '.') with
  | [] | ['.'] => (name, none)
  | _ :: stem => (stem.reverse, some extension)

/-- The extension of the file name at the end of a path, which may be empty. -/
def extension? (p : Path) : Option Path := p.split?.bind fun (_, name) => (splitName name).2

/-- The path with another extension, or with none if the extension is empty. Without a file name
at its end it stays as it is. -/
def withExtension (p extension : Path) : Path :=
  match p.split? with
  | none => p
  | some (before, name) =>
    let stem := before ++ (splitName name).1
    if extension.isEmpty then stem else stem ++ '.' :: extension

end Path

end NwScript
