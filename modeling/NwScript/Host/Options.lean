-- What a host chooses once for a compilation.
import NwScript.Text.Lowercase

namespace NwScript

structure Options where
  /-- The folders in which includes are looked for, in order. -/
  lookup : List String := []
  /-- The extension of an include whose name has none. -/
  extension : String := "nss"
  /-- Whether includes are looked up under the lower case of their names. -/
  lowercaseNames : Bool := false
  /-- Whether the finished listing is reported. -/
  traceListing : Bool := false
deriving DecidableEq

namespace Options

/-- One more folder to look in, after the others. -/
def withLookup (o : Options) (folder : String) : Options :=
  { o with lookup := o.lookup ++ [folder] }

/-- The key under which an include is looked up. -/
def includeKey (o : Options) (name : String) : String :=
  if o.lowercaseNames then Text.lowercase name else name

end Options

end NwScript
