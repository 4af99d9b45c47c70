-- What a failed step leaves behind. A struct, a prototype or an edit of the stream is refused
-- before anything is changed; the body of an announced function is compiled on a fork of the
-- stream, so that whatever goes wrong in it is forgotten together with the fork.
import NwScript.Proofs.Program.Registry

namespace NwScript

/-- Nothing is different but the marks on functions that were called, and what was reported. -/
def Session.Untouched (s t : Session) : Prop :=
  ∃ names events, t = { s with
    env := s.env.marked names
    out := { s.out with events } }

instance : Std.Refl Session.Untouched :=
  ⟨fun s => ⟨[], s.out.events, by simp [Env.marked]⟩⟩

instance : IsTrans Session Session.Untouched where
  trans := by
    rintro s _ _ ⟨names, events, rfl⟩ ⟨names', events', rfl⟩
    exact ⟨names ++ names', events', by simp [Env.marked, Functions.marked_marked]⟩

/-! ## Single changes -/

/-- Only a name that is new has nothing to go with. -/
theorem Functions.find?_of_reconcile {fs : Functions} {sig : Signature}
    (h : fs.reconcile sig = .ok none) : fs.find? sig.name = none := by
  cases hf : fs.find? sig.name with
  | none => rfl
  | some f =>
    simp only [reconcile, hf] at h
    split at h
    · cases h
    · split at h <;> cases h

namespace Build

/-! ## Prototypes -/

/-- The instruction of a prototype is made only when nothing can go wrong any more, unless there
are no handles left. -/
theorem prototype_refused {sig : Signature} : MovesToError Eq (prototype sig) := by
  refine checkSignature_moves.bindToError fun _ s e t h => ?_
  rw [bind_of_ok (env_ok.mpr ⟨rfl, rfl⟩)] at h
  cases hfound : (s.env.functions.find? sig.name).isSome with
  | true =>
    rw [hfound] at h
    cases h
    rfl
  | false =>
    rw [hfound, if_neg Bool.false_ne_true] at h
    dsimp only at h
    cases hadd : edit (Stream.add .nop) s with
    | error e' u =>
      rw [bind_error hadd] at h
      cases h
      obtain ⟨_, hfull, rfl⟩ := error_of_focus hadd
      rw [(Stream.add_error hfull).2]
    | ok stub u =>
      rw [bind_of_ok hadd] at h
      obtain ⟨_, _, rfl⟩ := edit_ok.mp hadd
      obtain ⟨_, hdeclare, _⟩ := register_error
        (error_of_succeeds (fun _ _ => ⟨_, _, rfl⟩) h)
      cases hfound.symm.trans (Functions.declare_error hdeclare).2

/-! ## Functions -/

section Functions

variable {s t : Session} {e : Failure} {f : FunctionDef}

theorem aside_untouched {g : Gen Unit} : Moves Session.Untouched (aside g) :=
  moves_focus fun _ u => ⟨u.marks, u.out.events, rfl⟩

theorem splice_refused {marker : Handle} {other : Stream} :
    MovesToError Session.Untouched (edit (Stream.spliceAfter marker other)) := by
  intro s e t h
  obtain ⟨_, hsplice, rfl⟩ := error_of_focus h
  rw [(Stream.spliceAfter_error hsplice).1]
  exact refl_of _ s

/-- However deep in the body the mistake lies, it was made on the fork. -/
theorem function_untouched (hfound : (s.env.functions.find? f.signature.name).isSome)
    (h : function f s = .error e t) : s.Untouched t := by
  rw [function, bind_of_ok (env_ok.mpr ⟨rfl, rfl⟩)] at h
  cases hrec : s.env.functions.reconcile f.signature with
  | error e' =>
    rw [hrec] at h
    cases h
    exact refl_of _ s
  | ok answer =>
    rw [hrec, bind_of_ok (lift_ok.mpr ⟨rfl, rfl⟩)] at h
    cases answer with
    | none => simp [Functions.find?_of_reconcile hrec] at hfound
    | some announced =>
      refine (checkSignature_moves.bindToError fun _ => env_moves.bindToError fun _ =>
        aside_untouched.bindToError fun body s e t h => ?_) s e t h
      exact splice_refused s e t (error_of_succeeds (fun _ _ => ⟨_, _, rfl⟩) h)

end Functions

/-! ## Failures -/

/-- What fails leaves things as they were. The structs, the registry of functions and the stream
refuse a change before they are changed: a struct that has no layout, a name that is taken, a handle
that has no place. A prototype is refused before its instruction is made. From the body of a
function that was announced, however deep the mistake lies, nothing stays in the session but the
marks on the functions that it has called. -/
theorem failures_undone :
    (∀ (s t : Structs) d e, Structs.define d s = .error e t → t = s) ∧
    (∀ (s t : Functions) sig stub e, Functions.declare sig stub s = .error e t →
      t = s ∧ (s.find? sig.name).isSome) ∧
    (∀ (s t : Stream) marker other e, Stream.spliceAfter marker other s = .error e t →
      t = s ∧ s.indexOf? marker = none) ∧
    (∀ (s t : Stream) handle target e, Stream.setTarget handle target s = .error e t →
      t = s ∧ s.indexOf? handle = none) ∧
    (∀ (s t : Session) sig e, prototype sig s = .error e t → t = s) ∧
    (∀ (s t : Session) f e, (s.env.functions.find? f.signature.name).isSome →
      function f s = .error e t → s.Untouched t) :=
  ⟨fun _ _ _ _ => Structs.define_error, fun _ _ _ _ _ => Functions.declare_error,
    fun _ _ _ _ _ => Stream.spliceAfter_error, fun _ _ _ _ _ => Stream.setTarget_error,
    fun s t _ e h => (prototype_refused s e t h).symm, fun _ _ _ _ => function_untouched⟩

namespace Setback

def work : Signature := ⟨.void, "work", [⟨.int, "n", none⟩]⟩

def tidy : Signature := ⟨.void, "tidy", []⟩

/-- `struct pair { int x; int x; };`. -/
def pair : StructDef := ⟨"pair", [⟨.int, "x"⟩, ⟨.int, "x"⟩]⟩

/-- `void work(int n); void tidy();`. -/
def session : Session where
  env := { functions := ⟨[⟨⟨0, work, false⟩, false⟩, ⟨⟨1, tidy, false⟩, false⟩]⟩ }
  out := { stream := ⟨[⟨0, .nop, none⟩, ⟨1, .nop, none⟩], 2⟩ }

/-- `void work(int n) { while (n) { int left = n; tidy(); right; } }`, where `right` is nothing. -/
def failing : FunctionDef where
  signature := work
  body := [.whileLoop (.access ⟨"n", []⟩)
    [.declare .int [⟨"left", some (.access ⟨"n", []⟩)⟩], .expr (.call "tidy" []),
     .expr (.access ⟨"right", []⟩)]]

end Setback

open Setback in
theorem setback_undone :
    (∃ e t, Structs.define pair {} = .error e t ∧ t = {}) ∧
    (∃ e t, Functions.declare tidy 2 session.env.functions = .error e t ∧
      t = session.env.functions) ∧
    (∃ e t, Stream.spliceAfter 2 {} session.out.stream = .error e t ∧ t = session.out.stream) ∧
    (∃ e t, Stream.setTarget 2 0 session.out.stream = .error e t ∧ t = session.out.stream) ∧
    (∃ e t, prototype tidy session = .error e t ∧ t = session) ∧
    (∃ e t, function failing session = .error e t ∧
      t.env.functions.entries.map (·.called) = [false, true] ∧ session.Untouched t) := by
  obtain ⟨hdefine, hdeclare, hsplice, haim, hprototype, hfunction⟩ := failures_undone
  refine ⟨?_, ?_, ?_, ?_, ?_, ?_⟩
  · obtain ⟨e, t, ht, _⟩ := @exists_of_failsAt _ _ _ (fun _ => true) (Structs.define pair {})
      (by decide +kernel)
    exact ⟨e, t, ht, hdefine _ _ _ _ ht⟩
  · obtain ⟨e, t, ht, _⟩ := @exists_of_failsAt _ _ _ (fun _ => true)
      (Functions.declare tidy 2 session.env.functions) (by decide +kernel)
    exact ⟨e, t, ht, (hdeclare _ _ _ _ _ ht).1⟩
  · obtain ⟨e, t, ht, _⟩ := @exists_of_failsAt _ _ _ (fun _ => true)
      (Stream.spliceAfter 2 {} session.out.stream) (by decide +kernel)
    exact ⟨e, t, ht, (hsplice _ _ _ _ _ ht).1⟩
  · obtain ⟨e, t, ht, _⟩ := @exists_of_failsAt _ _ _ (fun _ => true)
      (Stream.setTarget 2 0 session.out.stream) (by decide +kernel)
    exact ⟨e, t, ht, (haim _ _ _ _ _ ht).1⟩
  · obtain ⟨e, t, ht, _⟩ := @exists_of_failsAt _ _ _ (fun _ => true) (prototype tidy session)
      (by decide +kernel)
    exact ⟨e, t, ht, hprototype _ _ _ _ ht⟩
  · obtain ⟨e, t, ht, hcalled⟩ := @exists_of_failsAt _ _ _
      (·.env.functions.entries.map (·.called) == [false, true]) (function failing session)
      (by decide +kernel)
    exact ⟨e, t, ht, eq_of_beq hcalled, hfunction _ _ _ _ (by decide +kernel) ht⟩

end Build

end NwScript
