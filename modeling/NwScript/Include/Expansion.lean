-- Replacing include directives by what they include, until none is left. The last directive goes
-- first and its items go to the front, and no key is expanded twice, so that cycles come to an end.
import NwScript.Include.Loader

namespace NwScript

/-! ## Directives -/

namespace Script

/-- The last directive of a script, with what stands before and after it. -/
def splitLast : Script → Option (Script × String × Script)
  | [] => none
  | item :: rest =>
    match splitLast rest with
    | some (before, name, after) => some (item :: before, name, after)
    | none => match item with
      | .include name => some ([], name, rest)
      | _ => none

theorem eq_of_splitLast {items before after : Script} {name : String}
    (h : splitLast items = some (before, name, after)) :
    items = before ++ .include name :: after := by
  induction items generalizing before name after with
  | nil => simp [splitLast] at h
  | cons item rest ih =>
    unfold splitLast at h
    split at h
    · rename_i b n a hr
      cases h
      simp [ih hr]
    · split at h
      · cases h; rfl
      · cases h

@[simp] theorem directives_include (name : String) (items : Script) :
    directives (.include name :: items) = name :: directives items := rfl

theorem directives_of_splitLast {items before after : Script} {name : String}
    (h : splitLast items = some (before, name, after)) :
    items.directives = before.directives ++ name :: after.directives := by
  rw [eq_of_splitLast h]
  simp

end Script

/-! ## Loading -/

/-- What an expansion starts from: where includes come from, and how they are looked up. -/
structure Setup where
  options : Options := {}
  loader : Option Loader := none

namespace Setup

def key (s : Setup) (name : String) : String := s.options.includeKey name

/-- The items of an include. Without a loader there are none. -/
def load (s : Setup) (name : String) : List Event × Except Failure Script :=
  match s.loader with
  | some l => l.load s.options name
  | none => ([], .error (.missingInclude name []))

end Setup

/-! ## Expanding -/

/-- What an expansion leaves behind, also if it fails. -/
structure Expansion where
  /-- The keys that have been expanded. -/
  included : List String
  events : List Event
  items : Except Failure Script

namespace Expansion

/-- Expands what is pending, after `included` keys and with what was reported before. Where the host
always has another file to include, there is no end to it and no result. -/
def run (s : Setup) (included : List String) (events : List Event) (pending : Script) :
    Option Expansion :=
  -- a call that is written out would leave its position in this text behind in the term
  let again : List String → List Event → Script → Option Expansion := by
    apply run
    exact s
  match pending.splitLast with
  | none => some ⟨included, events, .ok pending⟩
  | some (before, name, after) =>
    if s.key name ∈ included then
      again included (events ++ [.includeRepeated name]) (before ++ after)
    else match s.load name with
      | (reported, .error e) => some ⟨s.key name :: included, events ++ reported, .error e⟩
      | (reported, .ok items) =>
        again (s.key name :: included)
          (events ++ reported ++ [.includeExpanded name items.length]) (items ++ (before ++ after))
partial_fixpoint

/-- Expands the directives of a script, of which some keys may have been expanded before. -/
def expand (s : Setup) (included : List String) (script : Script) : Expansion :=
  (run s included [] script).getD ⟨included, [], .error .endless⟩

end Expansion

end NwScript
