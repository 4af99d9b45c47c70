-- The functions of a script: at most one prototype and one definition of each name, and what must
-- hold between the two.
import NwScript.Report.Event
import NwScript.Script.Item

namespace NwScript

/-- A function that can be called, at the instruction that its calls jump to. -/
structure Function where
  entry : Handle
  signature : Signature
  /-- Whether it has a body; otherwise it is only announced. -/
  defined : Bool

/-- A function as the table keeps it. -/
structure Entry extends Function where
  /-- Whether some call refers to it. -/
  called : Bool

structure Functions where
  entries : List Entry := []

namespace Functions

def lookup? (fs : Functions) (name : Name) : Option Entry :=
  fs.entries.find? (·.signature.name == name)

def find? (fs : Functions) (name : Name) : Option Function := (fs.lookup? name).map (·.toFunction)

/-- Whether some call refers to the function of a name. -/
def isCalled (fs : Functions) (name : Name) : Bool := (fs.lookup? name).any (·.called)

/-- The function of a name, if it has a body. -/
def defined? (fs : Functions) (name : Name) : Option Function := (fs.find? name).filter (·.defined)

/-- Puts a function in the place of the one with its name, or after all others. -/
def put (fs : Functions) (f : Entry) : Functions :=
  let same := fun g : Entry => g.signature.name == f.signature.name
  if fs.entries.any same then ⟨fs.entries.map fun g => if same g then f else g⟩
  else ⟨fs.entries ++ [f]⟩

/-- Marks the functions of some names as called. -/
def marked (fs : Functions) (names : List Name) : Functions :=
  ⟨fs.entries.map fun f => { f with called := f.called || names.contains f.signature.name }⟩

/-! ## What is known apart from the calls -/

/-- All functions, called or not. -/
def all (fs : Functions) : List Function := fs.entries.map (·.toFunction)

theorem find?_eq_all {fs : Functions} {name : Name} :
    fs.find? name = fs.all.find? (·.signature.name == name) := by
  rw [find?, lookup?, all, List.find?_map]
  rfl

theorem name_of_find? {fs : Functions} {name : Name} {f : Function} (h : fs.find? name = some f) :
    f.signature.name = name := by
  rw [find?_eq_all] at h
  simpa using List.find?_some h

theorem mem_of_find? {fs : Functions} {name : Name} {f : Function} (h : fs.find? name = some f) :
    f ∈ fs.all := by
  rw [find?_eq_all] at h
  exact List.mem_of_find?_eq_some h

/-- Marks change nothing but the marks. -/
@[simp] theorem all_marked {fs : Functions} {names : List Name} :
    (fs.marked names).all = fs.all := by
  simp [all, marked]

@[simp] theorem marked_nil {fs : Functions} : fs.marked [] = fs := by
  simp [marked]

@[simp] theorem find?_marked {fs : Functions} {names : List Name} {name : Name} :
    (fs.marked names).find? name = fs.find? name := by
  rw [find?_eq_all, find?_eq_all, all_marked]

/-! ## Prototypes -/

/-- Announces a function whose calls jump to `stub`. -/
def declare (s : Signature) (stub : Handle) : EStateM Failure Functions Event := do
  let fs ← get
  if (fs.find? s.name).isSome then throw (.semantic (.duplicatePrototype s.name))
  set (fs.put ⟨⟨stub, s, false⟩, false⟩)
  return .prototypeDeclared s.name stub

/-- The parameters at the same position that differ in type, counted from `first`. -/
def paramDifferences (first : Nat) (expected found : List Param) : List String :=
  ((expected.zip found).zipIdx first).filterMap fun ((e, f), i) =>
    if e.ty = f.ty then none
    else some s!"parameter {i} ('{f.name}'): expected {e.ty.text}, found {f.ty.text}"

/-- Everything in which a definition differs from its prototype. -/
def differences (expected found : Signature) : List String :=
  (if expected.returnType = found.returnType then [] else
    [s!"return type: expected {expected.returnType.text}, found {found.returnType.text}"]) ++
  (if expected.params.length = found.params.length then [] else
    [s!"parameter count: expected {expected.params.length}, found {found.params.length}"]) ++
  paramDifferences 1 expected.params found.params

/-- A parameter without a default takes that of the prototype. -/
def inherit (found expected : Param) : Param :=
  { found with default := found.default.or expected.default }

/-- A definition with the defaults of its prototype. -/
def merged (expected found : Signature) : Signature :=
  { found with params := List.zipWith inherit found.params expected.params }

/-- What a definition of the signature has to go with: the entry and the merged signature if there
is a prototype, nothing if the name is new. -/
def reconcile (fs : Functions) (s : Signature) :
    Except Failure (Option (Handle × Signature)) :=
  match fs.find? s.name with
  | none => .ok none
  | some f =>
    if f.defined then .error (.semantic (.redefinition s.name))
    else match differences f.signature s with
      | [] => .ok (some (f.entry, merged f.signature s))
      | ds => .error (.semantic (.prototypeMismatch s.name ds))

/-! ## Definitions -/

/-- Registers a function with a body, in the place of its prototype if there is one. Calls of the
prototype are calls of the function. -/
def define (fs : Functions) (s : Signature) (entry : Handle) : Functions :=
  fs.put ⟨⟨entry, s, true⟩, fs.isCalled s.name⟩

/-- The functions that are called but have no body. -/
def undefinedCalled (fs : Functions) : List Name :=
  Name.sorted ((fs.entries.filter fun f => !f.defined && f.called).map (·.signature.name))

end Functions

end NwScript
