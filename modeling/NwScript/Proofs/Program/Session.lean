-- What each step of a compilation does to the session.
import NwScript.Proofs.Success
import NwScript.Build.Session

namespace NwScript

namespace Build

variable {α : Type} {s t : Session}

theorem lift_ok {x : Except Failure α} {a : α} : lift x s = .ok a t ↔ x = .ok a ∧ s = t := by
  cases x with
  | error e => simp [lift, throw_ok]
  | ok b => simp [lift, pure_ok]

theorem mistake_ok {m : Mistake} {a : α} : mistake m s = .ok a t ↔ False := throw_ok

theorem refuse_mistake_ok {β : Type} {c : Prop} [Decidable c] {m : Mistake} {f : α → Build β}
    {x : Build β} {b : β} :
    (if c then mistake m >>= f else x) s = .ok b t ↔ ¬c ∧ x s = .ok b t := refuse_ok

theorem require_mistake_ok {β : Type} {c : Prop} [Decidable c] {m : Mistake} {f : α → Build β}
    {x : Build β} {b : β} :
    (if c then x else mistake m >>= f) s = .ok b t ↔ c ∧ x s = .ok b t := require_ok

theorem env_ok {e : Env} : env s = .ok e t ↔ s.env = e ∧ s = t := by
  simp only [env, bind_ok, get_ok, pure_ok]
  constructor
  · rintro ⟨_, _, ⟨rfl, rfl⟩, h⟩
    exact h
  · intro h
    exact ⟨s, s, ⟨rfl, rfl⟩, h⟩

theorem stream_ok {c : Stream} : stream s = .ok c t ↔ s.out.stream = c ∧ s = t := by
  simp only [stream, bind_ok, get_ok, pure_ok]
  constructor
  · rintro ⟨_, _, ⟨rfl, rfl⟩, h⟩
    exact h
  · intro h
    exact ⟨s, s, ⟨rfl, rfl⟩, h⟩

theorem edit_ok {e : Edit α} {a : α} :
    edit e s = .ok a t ↔
      ∃ c, e s.out.stream = .ok a c ∧ t = { s with out := { s.out with stream := c } } := focus_ok

theorem edit_error {e : Edit α} {f : Failure} {c : Stream} (h : e s.out.stream = .error f c) :
    edit e s = .error f { s with out := { s.out with stream := c } } := by
  simp only [edit, focus, h]

theorem reportAll_ok {events : List Event} {u : Unit} :
    reportAll events s = .ok u t ↔
      t = { s with out := { s.out with events := s.out.events ++ events } } := modify_ok

theorem report_ok {e : Event} {u : Unit} :
    report e s = .ok u t ↔
      t = { s with out := { s.out with events := s.out.events ++ [e] } } := modify_ok

theorem generate_ok {g : Gen α} {a : α} :
    generate g s = .ok a t ↔ ∃ u, g ⟨s.out, {}, []⟩ = .ok a u ∧
      t = { s with env := s.env.marked u.marks, out := u.out } := focus_ok

theorem generate_error {g : Gen α} {e : Failure} {u : Codegen.State}
    (h : g ⟨s.out, {}, []⟩ = .error e u) :
    generate g s = .error e { s with env := s.env.marked u.marks, out := u.out } := by
  simp only [generate, focus, h]

theorem aside_ok {g : Gen Unit} {c : Stream} :
    aside g s = .ok c t ↔
      ∃ u, g ⟨{ s.out with stream := s.out.stream.fork }, {}, []⟩ = .ok () u ∧
        c = u.out.stream ∧ t = { s with
          env := s.env.marked u.marks, out := { u.out with stream := s.out.stream } } := by
  simp only [aside, focus_ok, bind_ok, get_ok, pure_ok]
  constructor
  · rintro ⟨_, ⟨_, u, hg, _, _, ⟨rfl, rfl⟩, rfl, rfl⟩, rfl⟩
    exact ⟨u, hg, rfl, rfl⟩
  · rintro ⟨u, hg, rfl, rfl⟩
    exact ⟨u, ⟨(), u, hg, u, u, ⟨rfl, rfl⟩, rfl, rfl⟩, rfl⟩

theorem aside_error {g : Gen Unit} {e : Failure} {u : Codegen.State}
    (h : g ⟨{ s.out with stream := s.out.stream.fork }, {}, []⟩ = .error e u) :
    aside g s = .error e { s with
      env := s.env.marked u.marks, out := { u.out with stream := s.out.stream } } := by
  simp only [aside, focus, bind_error h]

end Build

end NwScript
