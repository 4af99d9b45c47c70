-- Why a script does not compile. Errors are kept as their causes; the wording of every cause is
-- in this file.
import NwScript.Machine.Handle
import NwScript.Script.Expr

namespace NwScript

/-! ## Causes -/

/-- Where a value of another type was expected. -/
inductive Place where
  | vectorComponent (axis : Name)
  | assignment (target : Access)
  | condition (keyword : String)
  | initialization (name : Name)
  | caseLabel
  | returnFrom (function : Name)
  /-- A place that is described by its caller. -/
  | described (text : String)

/-- What is wrong with a script. -/
inductive Mistake where
  | undefinedIdentifier (name : Name) (inScope : List Name)
  | undefinedFunction (name : Name)
  | typeMismatch (place : Place) (expected actual : Ty)
  | argumentMismatch (function param : Name) (expected actual : Ty)
  | missingArguments (function : Name) (missing : List Name)
  | tooManyArguments (function : Name) (expected found : Nat)
  | redefinition (function : Name)
  | duplicatePrototype (function : Name)
  /-- A definition that differs from its prototype, with every difference. -/
  | prototypeMismatch (function : Name) (differences : List String)
  | prototypeNeverDefined (functions : List Name)
  | defaultOrder (function param : Name)
  | nonConstantDefault (function param : Name)
  | emptyStruct (name : Name)
  | duplicateStruct (name : Name)
  | duplicateMember (struct member : Name)
  | unknownStruct (name : Name)
  | unknownMember (owner : String) (member : Name) (available : List Name)
  | notComposite (access : Access) (ty : Ty)
  | unstorable (name : Name) (ty : Ty)
  | duplicateGlobal (name : Name)
  | uninitializedConst (name : Name)
  | redeclaration (name : Name)
  | constAssignment (target : Access)
  | noOperator (symbol : String) (operands : List Ty) (available : List String)
  | outsideLoop (keyword : String)
  | unswitchable (ty : Ty)
  | duplicateDefault
  | declarationInSwitchArm (name : Name)
  | unreadableInclude (name reason : String)
  /-- A mistake that is described by its caller. -/
  | described (message : String) (hint : Option String)

/-- A rule of the compiler itself that does not hold. -/
inductive Breach where
  | spliceMarkerMissing (marker : Handle)
  | instructionMissing (handle : Handle)
  | sizeOfUndefinedStruct (name : Name)
  | initializingUndefinedStruct (name : Name)
  | parameterWithoutValue (param function : Name)
  | routineOutOfRange (index : Nat)
  | tooManyRoutineArguments (routine : Name)
  | unbalanced (temporaries : Int)
  | includeLeft (name : String)
  /-- A breach that is described by its caller. -/
  | described (message : String)

inductive CompileError where
  /-- The script is wrong. -/
  | semantic (mistake : Mistake)
  /-- There is nothing to run, as in a file that is only meant to be included. -/
  | entryPoint
  /-- An include that is nowhere to be found. -/
  | missingInclude (name : String) (searched : List String)
  /-- The compiler is wrong. -/
  | internal (breach : Breach)

/-- What the compiler does not survive. -/
inductive Panic where
  /-- A number that does not fit into its 32 bits. -/
  | overflow
  /-- An instruction that is put in beyond the end of a stream. -/
  | beyondEnd
  /-- An extension of includes with a path separator in it. -/
  | separatorInExtension
deriving DecidableEq

/-- Why a step of the compiler comes to no result. -/
inductive Failure where
  /-- It answers with an error. -/
  | error (e : CompileError)
  /-- It breaks off without an answer. -/
  | panic (cause : Panic)
  /-- It never comes to an end. -/
  | endless

namespace Failure

@[match_pattern] abbrev semantic (m : Mistake) : Failure := .error (.semantic m)

@[match_pattern] abbrev entryPoint : Failure := .error .entryPoint

@[match_pattern] abbrev missingInclude (name : String) (searched : List String) : Failure :=
  .error (.missingInclude name searched)

@[match_pattern] abbrev internal (b : Breach) : Failure := .error (.internal b)

end Failure

/-! ## Wording -/

namespace Place

def text : Place → String
  | .vectorComponent axis => s!"vector component '{axis}'"
  | .assignment target => s!"assignment to '{target.text}'"
  | .condition keyword => s!"{keyword} condition"
  | .initialization name => s!"initialization of '{name}'"
  | .caseLabel => "case label"
  | .returnFrom function => s!"return from '{function}'"
  | .described text => text

end Place

namespace Mistake

/-- How many of the names in scope a message lists. -/
def suggestionLimit : Nat := 10

/-- What the script does wrong. -/
def message : Mistake → String
  | .undefinedIdentifier name _ => s!"undefined identifier '{name}'"
  | .undefinedFunction name => s!"undefined function '{name}'"
  | .typeMismatch place expected actual =>
    s!"type mismatch in {place.text}: expected {expected.text}, found {actual.text}"
  | .argumentMismatch function param expected actual =>
    s!"argument '{param}' of '{function}' expects {expected.text}, found {actual.text}"
  | .missingArguments function missing =>
    s!"call to '{function}' is missing required arguments: {Name.listed missing}"
  | .tooManyArguments function expected found =>
    s!"'{function}' takes {expected} arguments but {found} were supplied"
  | .redefinition function => s!"function '{function}' is already defined"
  | .duplicatePrototype function => s!"function '{function}' is already declared"
  | .prototypeMismatch function differences =>
    s!"definition of '{function}' does not match its prototype:\n  - " ++
      "\n  - ".intercalate differences
  | .prototypeNeverDefined functions =>
    s!"functions declared and called but never defined: {Name.listed functions}"
  | .defaultOrder function param =>
    s!"parameter '{param}' of '{function}' has no default but follows a parameter that does"
  | .nonConstantDefault function param =>
    s!"default value of parameter '{param}' of '{function}' is not a constant"
  | .emptyStruct name => s!"struct '{name}' has no members"
  | .duplicateStruct name => s!"struct '{name}' is already defined"
  | .duplicateMember struct member => s!"struct '{struct}' declares member '{member}' twice"
  | .unknownStruct name => s!"unknown struct '{name}'"
  | .unknownMember owner member _ => s!"'{owner}' has no member '{member}'"
  | .notComposite access ty => s!"'{access.text}' accesses a member of non-composite type {ty.text}"
  | .unstorable name ty => s!"'{name}' cannot have type {ty.text}"
  | .duplicateGlobal name => s!"global '{name}' is already declared"
  | .uninitializedConst name => s!"const global '{name}' needs an initializer"
  | .redeclaration name => s!"'{name}' is already declared in this block"
  | .constAssignment target => s!"cannot assign to const variable '{target.text}'"
  | .noOperator symbol operands _ =>
    s!"operator '{symbol}' is not defined for {Name.listed (operands.map Ty.text)}"
  | .outsideLoop keyword => s!"'{keyword}' used outside of a loop or switch"
  | .unswitchable ty => s!"cannot switch on a value of type {ty.text}; expected int or string"
  | .duplicateDefault => "switch has more than one default label"
  | .declarationInSwitchArm name => s!"declaration of '{name}' directly inside a switch arm"
  | .unreadableInclude name reason => s!"cannot parse include '{name}': {reason}"
  | .described message _ => message

/-- What might help. -/
def hint : Mistake → Option String
  | .undefinedIdentifier _ [] => none
  | .undefinedIdentifier _ inScope =>
    let hidden := inScope.length - suggestionLimit
    let more := if hidden = 0 then "" else s!" (and {hidden} more)"
    some (s!"in scope: {Name.listed (inScope.take suggestionLimit)}" ++ more)
  | .undefinedFunction _ => some "functions must be declared or defined before they are called"
  | .duplicatePrototype _ =>
    some "a function may have at most one prototype, placed before its definition"
  | .defaultOrder _ _ => some "parameters with default values must come last"
  | .nonConstantDefault _ _ => some "defaults may only use literals and engine constants"
  | .unknownMember _ _ available => some s!"available members: {Name.listed available}"
  | .notComposite _ _ => some "only struct and vector values have members"
  | .noOperator _ _ [] => none
  | .noOperator _ _ available => some s!"supported: {Name.listed available}"
  | .declarationInSwitchArm _ => some "wrap the arm's statements in braces to declare variables"
  | .described _ hint => hint
  | _ => none

end Mistake

def Breach.message : Breach → String
  | .spliceMarkerMissing marker => s!"splice marker {marker.text} is not in the stream"
  | .instructionMissing handle => s!"no instruction {handle.text}"
  | .sizeOfUndefinedStruct name => s!"size of undefined struct '{name}'"
  | .initializingUndefinedStruct name => s!"initializing undefined struct '{name}'"
  | .parameterWithoutValue param function => s!"parameter '{param}' of '{function}' has no value"
  | .routineOutOfRange index => s!"routine index {index} out of range"
  | .tooManyRoutineArguments routine => s!"too many arguments for '{routine}'"
  | .unbalanced temporaries => s!"temp stack is {temporaries} at end of block"
  | .includeLeft name => s!"include '{name}' survived expansion"
  | .described message => message

namespace CompileError

def message : CompileError → String
  | .semantic mistake =>
    let hint := match mistake.hint with
      | some text => "\n  hint: " ++ text
      | none => ""
    "compile error: " ++ mistake.message ++ hint
  | .entryPoint =>
    "compile error: no entry point: no 'main' or 'StartingConditional' function is defined"
  | .missingInclude name searched =>
    let places := if searched.isEmpty then "" else "\n  searched: " ++ ", ".intercalate searched
    s!"compile error: cannot find include '{name}'" ++ places
  | .internal breach => "compile error: internal error: " ++ breach.message

/-- Whether the file compiled but has nothing to run. -/
def isEntryPoint : CompileError → Bool
  | .entryPoint => true
  | _ => false

/-- Whether the compiler itself is at fault. -/
def isInternal : CompileError → Bool
  | .internal _ => true
  | _ => false

end CompileError

end NwScript
