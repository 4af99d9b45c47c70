-- What each primitive step of code generation does to the state. Steps only ever write behind the
-- code that is there, and count temporaries in the innermost block.
import NwScript.Proofs.Machine.Edits
import NwScript.Codegen.Call
import NwScript.Codegen.Operation

namespace NwScript

/-- The scope with that many more temporaries on top. -/
def Scope.grown (s : Scope) (slots : Int) : Scope :=
  { s with block := { s.block with temps := s.block.temps + slots } }

namespace Scope

@[simp] theorem grown_grown (s : Scope) (a b : Int) : (s.grown a).grown b = s.grown (a + b) := by
  simp [grown, Int.add_assoc]

@[simp] theorem grown_zero (s : Scope) : s.grown 0 = s := by simp [grown]

@[simp] theorem grown_cancel (s : Scope) (a : Int) : s.grown (a + -a) = s := by
  rw [Int.add_right_neg, grown_zero]

@[simp] theorem grown_cancel_right (s : Scope) (a b : Int) : s.grown (a + b + -b) = s.grown a := by
  rw [Int.add_neg_cancel_right]

end Scope

namespace Codegen

namespace State

def next (s : State) : Handle := s.out.stream.next

def code (s : State) : List Instruction := s.out.stream.code

/-- The state with instructions written behind the others, `n` being the next free handle. -/
def wrote (s : State) (is : List Instruction) (n : Handle) : State :=
  { s with out := { s.out with stream := ⟨s.code ++ is, n⟩ } }

def inScope (s : State) (scope : Scope) : State := { s with scope }

def reported (s : State) (e : Event) : State :=
  { s with out := { s.out with events := s.out.events ++ [e] } }

def marked (s : State) (name : Name) : State :=
  { s with marks := s.marks.insert name }

section Projections

variable (s : State) (is : List Instruction) (n : Handle) (scope : Scope) (e : Event) (name : Name)

@[simp] theorem wrote_next : (s.wrote is n).next = n := rfl
@[simp] theorem wrote_code : (s.wrote is n).code = s.code ++ is := rfl
@[simp] theorem wrote_scope : (s.wrote is n).scope = s.scope := rfl
@[simp] theorem wrote_marks : (s.wrote is n).marks = s.marks := rfl
@[simp] theorem inScope_next : (s.inScope scope).next = s.next := rfl
@[simp] theorem inScope_code : (s.inScope scope).code = s.code := rfl
@[simp] theorem inScope_scope : (s.inScope scope).scope = scope := rfl
@[simp] theorem inScope_marks : (s.inScope scope).marks = s.marks := rfl
@[simp] theorem reported_next : (s.reported e).next = s.next := rfl
@[simp] theorem reported_code : (s.reported e).code = s.code := rfl
@[simp] theorem reported_scope : (s.reported e).scope = s.scope := rfl
@[simp] theorem reported_marks : (s.reported e).marks = s.marks := rfl
@[simp] theorem marked_next : (s.marked name).next = s.next := rfl
@[simp] theorem marked_code : (s.marked name).code = s.code := rfl
@[simp] theorem marked_scope : (s.marked name).scope = s.scope := rfl

end Projections

end State

/-! ## Failing -/

section Steps

variable {α β : Type} {s t : State}

theorem lift_ok {x : Except Failure α} {a : α} : lift x s = .ok a t ↔ x = .ok a ∧ s = t := by
  cases x with
  | error e => simp [lift, throw_ok]
  | ok b => simp [lift, pure_ok]

theorem mistake_ok {m : Mistake} {a : α} : mistake m s = .ok a t ↔ False := throw_ok

theorem refuse_mistake_ok {c : Prop} [Decidable c] {m : Mistake} {f : α → Gen β} {x : Gen β}
    {b : β} : (if c then mistake m >>= f else x) s = .ok b t ↔ ¬c ∧ x s = .ok b t := refuse_ok

theorem require_mistake_ok {c : Prop} [Decidable c] {m : Mistake} {f : α → Gen β} {x : Gen β}
    {b : β} : (if c then x else mistake m >>= f) s = .ok b t ↔ c ∧ x s = .ok b t := require_ok

theorem sizeOf_ok {env : Env} {ty : Ty} {k : Nat} :
    Codegen.sizeOf env ty s = .ok k t ↔ env.sizeOf ty = .ok k ∧ s = t := lift_ok

/-! ## Emitting -/

theorem edit_ok {e : Edit α} {a : α} :
    edit e s = .ok a t ↔
      ∃ stream, e s.out.stream = .ok a stream ∧ t = { s with out := { s.out with stream } } :=
  focus_ok

theorem edit_error {e : Edit α} {f : Failure} {stream : Stream}
    (h : e s.out.stream = .error f stream) :
    edit e s = .error f { s with out := { s.out with stream } } :=
  @focus_error _ _ _ s _ (·.out.stream) _ _ _ _ h

theorem add_ok {op : Op} {h : Handle} :
    add op s = .ok h t ↔
      s.next < Handle.limit ∧ h = s.next ∧ t = s.wrote [⟨s.next, op, none⟩] (s.next + 1) := by
  simp only [add, edit_ok, Stream.add_ok]
  constructor
  · rintro ⟨_, ⟨hroom, rfl, rfl⟩, rfl⟩
    exact ⟨hroom, rfl, rfl⟩
  · rintro ⟨hroom, rfl, rfl⟩
    exact ⟨_, ⟨hroom, rfl, rfl⟩, rfl⟩

theorem emit_ok {op : Op} {u : Unit} :
    emit op s = .ok u t ↔
      s.next < Handle.limit ∧ t = s.wrote [⟨s.next, op, none⟩] (s.next + 1) := by
  simp only [emit, bind_ok, add_ok, pure_ok]
  constructor
  · rintro ⟨_, _, ⟨hroom, rfl, rfl⟩, _, rfl⟩
    exact ⟨hroom, rfl⟩
  · rintro ⟨hroom, rfl⟩
    exact ⟨_, _, ⟨hroom, rfl, rfl⟩, trivial, rfl⟩

theorem pop_ok {k : Int} {u : Unit} :
    pop k s = .ok u t ↔
      (Count.Fits (-k) ∧ s.next < Handle.limit) ∧
        t = s.wrote [⟨s.next, .moveSp (-k), none⟩] (s.next + 1) := by
  simp only [pop, bind_ok, lift_ok, Count.checked_ok, emit_ok]
  constructor
  · rintro ⟨_, _, ⟨⟨hfits, rfl⟩, rfl⟩, hroom, rfl⟩
    exact ⟨⟨hfits, hroom⟩, rfl⟩
  · rintro ⟨⟨hfits, hroom⟩, rfl⟩
    exact ⟨_, _, ⟨⟨hfits, rfl⟩, rfl⟩, hroom, rfl⟩

theorem jump_ok {code : JumpCode} {target : Handle} {u : Unit} :
    jump code target s = .ok u t ↔
      s.next < Handle.limit ∧
        t = s.wrote [⟨s.next, .jump code, some target⟩] (s.next + 1) := by
  simp only [jump, bind_ok, edit_ok, Stream.add_ok, pure_ok]
  constructor
  · rintro ⟨_, _, ⟨_, ⟨hroom, rfl, rfl⟩, rfl⟩, _, rfl⟩
    exact ⟨hroom, rfl⟩
  · rintro ⟨hroom, rfl⟩
    exact ⟨_, _, ⟨_, ⟨hroom, rfl, rfl⟩, rfl⟩, trivial, rfl⟩

theorem detached_ok {op : Op} {i : Instruction} :
    detached op s = .ok i t ↔
      s.next < Handle.limit ∧ i = ⟨s.next, op, none⟩ ∧ t = s.wrote [] (s.next + 1) := by
  simp only [detached, edit_ok, Stream.detached_ok, State.wrote, State.code, List.append_nil]
  constructor
  · rintro ⟨_, ⟨hroom, rfl, rfl⟩, rfl⟩
    exact ⟨hroom, rfl, rfl⟩
  · rintro ⟨hroom, rfl, rfl⟩
    exact ⟨_, ⟨hroom, rfl, rfl⟩, rfl⟩

theorem label_ok {i : Instruction} :
    label s = .ok i t ↔
      s.next < Handle.limit ∧ i = ⟨s.next, .nop, none⟩ ∧ t = s.wrote [] (s.next + 1) := detached_ok

theorem place_ok {i : Instruction} {u : Unit} :
    place i s = .ok u t ↔ t = s.wrote [i] s.next := by
  simp only [place, bind_ok, edit_ok, Stream.push_ok, pure_ok]
  constructor
  · rintro ⟨_, _, ⟨_, ⟨rfl, rfl⟩, rfl⟩, _, rfl⟩
    rfl
  · rintro rfl
    exact ⟨_, _, ⟨_, ⟨rfl, rfl⟩, rfl⟩, trivial, rfl⟩

@[simp] theorem wrote_wrote (is js : List Instruction) (n m : Handle) :
    (s.wrote is n).wrote js m = s.wrote (is ++ js) m := by
  simp [State.wrote, State.code]

@[simp] theorem wrote_inScope (is : List Instruction) (n : Handle) (c : Scope) :
    (s.inScope c).wrote is n = (s.wrote is n).inScope c := rfl

@[simp] theorem inScope_inScope (c d : Scope) : (s.inScope c).inScope d = s.inScope d := rfl

@[simp] theorem wrote_nil_self : s.wrote [] s.next = s := by
  simp [State.wrote, State.code, State.next]

/-- Instructions without destination, with handles from `n` on. -/
def numbered (n : Handle) : List Op → List Instruction
  | [] => []
  | op :: rest => ⟨n, op, none⟩ :: numbered (n + 1) rest

/-- Instructions can be written as long as handles are left. -/
theorem emitAll_ok {ops : List Op} {u : Unit} :
    emitAll ops s = .ok u t ↔
      (ops ≠ [] → s.next + ops.length ≤ Handle.limit) ∧
        t = s.wrote (numbered s.next ops) (s.next + ops.length) := by
  induction ops generalizing s with
  | nil => simp [emitAll, pure_ok, numbered, eq_comm]
  | cons op rest ih =>
    simp only [emitAll, bind_ok, emit_ok, ih, numbered, ne_eq, reduceCtorEq, not_false_eq_true,
      true_implies, List.length_cons]
    constructor
    · rintro ⟨_, _, ⟨hroom, rfl⟩, hrest, rfl⟩
      refine ⟨?_, by simp [Nat.add_assoc, Nat.add_comm]⟩
      cases rest with
      | nil => exact hroom
      | cons _ _ =>
        have hmore := hrest (by simp)
        rwa [State.wrote_next, Nat.add_assoc, Nat.add_comm 1] at hmore
    · rintro ⟨hroom, rfl⟩
      have hfirst : s.next < Handle.limit := Nat.lt_of_lt_of_le (by simp) hroom
      refine ⟨(), _, ⟨hfirst, rfl⟩, fun _ => ?_, by simp [Nat.add_assoc, Nat.add_comm]⟩
      rwa [State.wrote_next, Nat.add_assoc, Nat.add_comm 1]

theorem emit_full {op : Op} (h : Handle.limit ≤ s.next) :
    emit op s = .error (.panic .overflow) s := bind_error (edit_error (Stream.add_full h))

theorem emitAll_full {ops : List Op} (hops : ops ≠ []) (h : Handle.limit < s.next + ops.length) :
    ∃ t, emitAll ops s = .error (.panic .overflow) t := by
  induction ops generalizing s with
  | nil => exact absurd rfl hops
  | cons op rest ih =>
    by_cases hfull : Handle.limit ≤ s.next
    · exact ⟨s, bind_error (emit_full hfull)⟩
    · have hroom : s.next < Handle.limit := Nat.lt_of_not_le hfull
      have hrest : rest ≠ [] := by
        rintro rfl
        exact absurd (Nat.lt_of_lt_of_le h hroom) (Nat.lt_irrefl _)
      rw [emitAll, bind_of_ok (a := ()) (emit_ok.mpr ⟨hroom, rfl⟩)]
      apply ih hrest
      rwa [State.wrote_next, Nat.add_assoc, Nat.add_comm 1]

/-! ## Reporting and the scope -/

theorem report_ok {e : Event} {u : Unit} : report e s = .ok u t ↔ t = s.reported e := modify_ok

theorem markCalled_ok {name : Name} {u : Unit} :
    markCalled name s = .ok u t ↔ t = s.marked name := modify_ok

theorem scope_ok {c : Scope} : scope s = .ok c t ↔ s.scope = c ∧ s = t := by
  simp only [scope, bind_ok, get_ok, pure_ok]
  constructor
  · rintro ⟨a, u, ⟨rfl, rfl⟩, h⟩
    exact h
  · intro h
    exact ⟨s, s, ⟨rfl, rfl⟩, h⟩

theorem setBlock_ok {b : Block} {u : Unit} :
    setBlock b s = .ok u t ↔ t = s.inScope { s.scope with block := b } := modify_ok

theorem grow_ok {k : Int} {u : Unit} :
    grow k s = .ok u t ↔
      Count.Fits (s.scope.block.temps + k) ∧ t = s.inScope (s.scope.grown k) := by
  simp only [grow, bind_ok, scope_ok, lift_ok, Count.checked_ok, setBlock_ok]
  constructor
  · rintro ⟨_, _, ⟨rfl, rfl⟩, _, _, ⟨⟨hfits, rfl⟩, rfl⟩, rfl⟩
    exact ⟨hfits, rfl⟩
  · rintro ⟨hfits, rfl⟩
    exact ⟨_, _, ⟨rfl, rfl⟩, _, _, ⟨⟨hfits, rfl⟩, rfl⟩, rfl⟩

theorem within_ok {b : Block} {x : Gen α} {a : α} :
    within b x s = .ok a t ↔
      ∃ u, x (s.inScope (s.scope.child b)) = .ok a u ∧ t = u.inScope s.scope := by
  simp only [within]
  rw [show ({ s with scope := s.scope.child b } : State) = s.inScope (s.scope.child b) from rfl]
  split
  · rename_i a' u hx
    simp only [EStateM.Result.ok.injEq, hx]
    constructor
    · rintro ⟨rfl, rfl⟩
      exact ⟨u, ⟨rfl, rfl⟩, rfl⟩
    · rintro ⟨_, ⟨rfl, rfl⟩, rfl⟩
      exact ⟨rfl, rfl⟩
  · rename_i e u hx
    simp [hx]

end Steps

/-- Whether a run has given a type and written some instructions. -/
def writes (ty : Ty) (ops : List Op) : EStateM.Result Failure State Ty → Bool
  | .ok ty' t => ty' == ty && t.code.map (·.op) == ops
  | .error _ _ => false

theorem exists_of_writes {ty : Ty} {ops : List Op} {r : EStateM.Result Failure State Ty}
    (h : writes ty ops r = true) : ∃ t, r = .ok ty t ∧ t.code.map (·.op) = ops := by
  cases r with
  | error e t => cases h
  | ok ty' t =>
    obtain ⟨hty, hops⟩ := Bool.and_eq_true_iff.mp h
    cases eq_of_beq hty
    exact ⟨t, rfl, eq_of_beq hops⟩

end Codegen

end NwScript
