-- Reading, assigning, combining and stepping a variable or a member of it. However the value is
-- counted that is on its way, all of them reach the same slots; only the constants of the engine
-- hide a variable, and only from being read.
import NwScript.Proofs.Shape.Place
import NwScript.Proofs.Storage.Viewpoint

namespace NwScript

/-! ## Slots and the instructions that reach them -/

/-- Slots in a row. The first one is counted from the bottom of the stack, or from the base of the
globals if that is the anchor. -/
structure Stretch where
  anchor : Anchor
  start : Int
  size : Nat

namespace Stretch

/-- The offset of the first slot with `height` slots on the stack. -/
def offset (x : Stretch) (height : Int) : Int := x.start - x.anchor.origin height 0

def load (x : Stretch) (height : Int) : Op := .copyTop x.anchor (x.offset height) x.size

def store (x : Stretch) (height : Int) : Op := .copyDown x.anchor (x.offset height) x.size

def step (x : Stretch) (op : StepOp) (height : Int) : Op := .step op x.anchor (x.offset height)

end Stretch

namespace Resolved

variable {r : Resolved} {size : Nat} {height k : Int}

/-- What was found with `height` slots on the stack. -/
def stretch (r : Resolved) (size : Nat) (height : Int) : Stretch := ⟨r.anchor, r.start height, size⟩

@[simp] theorem under_anchor : (r.under k).anchor = r.anchor := by
  unfold under
  split <;> simp_all

theorem stretch_offset : (r.stretch size height).offset (height + k) = (r.under k).offset := by
  rcases r with ⟨_, _, anchor, _⟩
  cases anchor with
  | sp =>
    simp only [Stretch.offset, stretch, start, Anchor.origin, under]
    omega
  | bp => simp [Stretch.offset, stretch, start, Anchor.origin, under]

theorem stretch_load : (r.stretch size height).load (height + k) = (r.under k).load size := by
  simp only [Stretch.load, stretch_offset, load, under_anchor]
  rfl

theorem stretch_load_here : (r.stretch size height).load height = r.load size := by
  simpa using @stretch_load r size height 0

end Resolved

/-- The same slots are found under more temporaries. -/
theorem Resolved.stretch_under {r : Resolved} {size : Nat} {height k : Int} :
    (r.under k).stretch size (height + k) = r.stretch size height := by
  rcases r with ⟨_, _, anchor, _⟩
  cases anchor with
  | sp =>
    simp only [stretch, start, Anchor.origin, under, Stretch.mk.injEq, true_and, and_true]
    omega
  | bp => rfl

/-! ## Found, unless there is too much to count -/

/-- There is a result, unless there is too much to count. -/
def Given {α : Type} (x : Except Failure α) : Prop := ∀ e, x = .error e → e = .panic .overflow

section Given

variable {α β : Type} {x : Except Failure α} {env : Env} {name : Name} {r r' : Resolved}

theorem given_ok {a : α} : Given (.ok a) := by
  intro e he
  cases he

theorem given_checked {n : Int} : Given (Count.checked n) := by
  intro e he
  by_cases hn : Count.Fits n
  · rw [Count.checked_of_fits hn] at he
    cases he
  · rw [Count.checked_of_not_fits hn] at he
    cases he
    rfl

theorem Given.bind {f : α → Except Failure β} (hx : Given x) (hf : ∀ a, x = .ok a → Given (f a)) :
    Given (x >>= f) := by
  cases x with
  | error e =>
    intro e' he
    cases he
    exact hx e rfl
  | ok a => exact hf a rfl

/-- What is found from one place is found from every other one. -/
theorem seekGlobal_given {gs : List Global} {above above' below : Int}
    (h : env.seekGlobal name above gs below = .ok r) :
    Given (env.seekGlobal name above' gs below) := by
  induction gs generalizing below with
  | nil => simp [Env.seekGlobal] at h
  | cons g older ih =>
    simp only [Env.seekGlobal, except_bind_ok] at h
    obtain ⟨size, hsize, _, hbelow, h⟩ := h
    simp only [Env.seekGlobal, hsize]
    refine given_checked.bind fun _ hbelow' => ?_
    cases hbelow.symm.trans hbelow'
    split
    · split
      · exact given_ok
      · exact given_checked.bind fun _ _ => given_ok
    · rename_i hname
      rw [if_neg hname] at h
      exact ih h

theorem seek_given {below : Int → Except Failure Resolved} {values : List Variable}
    {offset offset' : Int}
    (hbelow : ∀ offset offset' r, below offset = .ok r → Given (below offset'))
    (h : Scope.seek env name below values offset = .ok r) :
    Given (Scope.seek env name below values offset') := by
  induction values generalizing offset offset' with
  | nil => exact hbelow _ _ _ h
  | cons v older ih =>
    simp only [Scope.seek, except_bind_ok] at h
    obtain ⟨size, hsize, _, _, h⟩ := h
    simp only [Scope.seek, hsize]
    refine given_checked.bind fun _ _ => ?_
    split
    · exact given_ok
    · rename_i hname
      rw [if_neg hname] at h
      exact ih h

theorem resolveIn_given {chain : List Block} {offset offset' : Int}
    (h : Scope.resolveIn env name chain offset = .ok r) :
    Given (Scope.resolveIn env name chain offset') := by
  induction chain generalizing offset offset' r with
  | nil => exact seekGlobal_given h
  | cons b outer ih =>
    simp only [Scope.resolveIn, except_bind_ok] at h
    obtain ⟨_, _, h⟩ := h
    exact given_checked.bind fun _ _ => seek_given (fun _ _ _ => ih) h

theorem follow_given {path : Access} {members : List Name} {r₁ : Resolved}
    (h : Codegen.follow env path r members = .ok r₁) (hty : r'.ty = r.ty) :
    Given (Codegen.follow env path r' members) := by
  induction members generalizing r r' with
  | nil => exact given_ok
  | cons m rest ih =>
    cases hr : r.ty with
    | vector =>
      simp only [Codegen.follow, hty, hr] at h ⊢
      cases hm : Codegen.axes.idxOf? m with
      | none => simp [hm] at h
      | some i =>
        simp only [hm, except_bind_ok] at h ⊢
        obtain ⟨_, _, h⟩ := h
        exact given_checked.bind fun _ _ => ih h rfl
    | struct name =>
      simp only [Codegen.follow, hty, hr, except_bind_ok] at h ⊢
      obtain ⟨o, ho, _, _, ty, ht, h⟩ := h
      simp only [ho, ht]
      exact given_checked.bind fun _ _ => ih h rfl
    | _ => simp [Codegen.follow, hr] at h

/-- What is found with more temporaries on top is found without them. -/
theorem access_given {s : Scope} {path : Access} {k : Int}
    (h : Codegen.resolveAccess env (s.grown k) path = .ok r) :
    Given (Codegen.resolveAccess env s path) := by
  simp only [Codegen.resolveAccess, except_bind_ok] at h
  obtain ⟨r₀, hr₀, hf⟩ := h
  have hhead : Given (s.resolve env path.head) := by
    obtain ⟨_, _, hseek⟩ := except_bind_ok.mp hr₀
    exact given_checked.bind fun _ _ => seek_given (fun _ _ _ => resolveIn_given) hseek
  refine hhead.bind fun r' hr' => follow_given hf ?_
  rw [resolve_grown hr' hr₀, Resolved.under_ty]

end Given

namespace Codegen

/-- The step ends with a result and a state as asked for, unless there is too much to count. -/
def Succeeds {α : Type} (x : Gen α) (s : State) (post : α → State → Prop) : Prop :=
  (∃ a t, x s = .ok a t ∧ post a t) ∨ ∃ t, x s = .error (.panic .overflow) t

section Succeeds

variable {α β : Type} {x : Gen α} {s : State} {post : α → State → Prop} {env : Env}

theorem Succeeds.bind {f : α → Gen β} {post' : β → State → Prop} (h : Succeeds x s post)
    (hf : ∀ a t, post a t → Succeeds (f a) t post') : Succeeds (x >>= f) s post' := by
  rcases h with ⟨a, t, hx, hpost⟩ | ⟨t, hx⟩
  · simp only [Succeeds, bind_of_ok hx]
    exact hf a t hpost
  · exact .inr ⟨t, bind_error hx⟩

theorem pure_succeeds {a : α} (h : post a s) : Succeeds (pure a) s post := .inl ⟨a, s, rfl, h⟩

theorem lift_succeeds {r : Except Failure α} (h : Given r) :
    Succeeds (lift r) s fun a t => r = .ok a ∧ t = s := by
  cases r with
  | ok a => exact .inl ⟨a, s, rfl, rfl, rfl⟩
  | error e =>
    cases h e rfl
    exact .inr ⟨s, rfl⟩

theorem emit_succeeds {op : Op} :
    Succeeds (emit op) s fun _ t => t = s.wrote [⟨s.next, op, none⟩] (s.next + 1) := by
  by_cases hroom : s.next < Handle.limit
  · exact .inl ⟨(), _, emit_ok.mpr ⟨hroom, rfl⟩, rfl⟩
  · exact .inr ⟨_, bind_error (edit_error (Stream.add_full (Nat.le_of_not_lt hroom)))⟩

theorem grow_succeeds {k : Int} :
    Succeeds (grow k) s fun _ t => t = s.inScope (s.scope.grown k) := by
  by_cases hfits : Count.Fits (s.scope.block.temps + k)
  · exact .inl ⟨(), _, grow_ok.mpr ⟨hfits, rfl⟩, rfl⟩
  · refine .inr ⟨s, ?_⟩
    rw [grow, bind_of_ok (scope_ok.mpr ⟨rfl, rfl⟩), Count.checked_of_not_fits hfits]
    rfl

theorem sizeOf_succeeds {ty : Ty} {size : Nat} (h : env.sizeOf ty = .ok size) :
    Succeeds (Codegen.sizeOf env ty) s fun k t => k = size ∧ t = s :=
  .inl ⟨size, s, sizeOf_ok.mpr ⟨h, rfl⟩, rfl, rfl⟩

theorem locate_succeeds {path : Access} (h : Given (resolveAccess env s.scope path)) :
    Succeeds (locate env path) s fun r t => resolveAccess env s.scope path = .ok r ∧ t = s :=
  lift_succeeds h

theorem locateMutable_succeeds {path : Access} (h : Given (resolveAccess env s.scope path))
    (hconst : ∀ r, resolveAccess env s.scope path = .ok r → r.const = false) :
    Succeeds (locateMutable env path) s fun r t =>
      resolveAccess env s.scope path = .ok r ∧ t = s := by
  refine (locate_succeeds h).bind ?_
  rintro r t ⟨hr, rfl⟩
  rw [hconst r hr]
  exact pure_succeeds ⟨hr, rfl⟩

end Succeeds

/-! ## Targets -/

/-- The target is found, wherever it is found with its value on top: it is not constant and has a
size. -/
structure Reachable (env : Env) (s : Scope) (target : Access) (r : Resolved) (size : Nat) :
    Prop where
  found : resolveAccess env (s.grown size) target = .ok r
  const : r.const = false
  size_eq : env.sizeOf r.ty = .ok size

section Targets

variable {env : Env} {s t : State} {target : Access} {r r' : Resolved} {ty : Ty} {size : Nat}
  {height : Int}

/-- Whatever is assigned, the target is the same. -/
theorem Reachable.unique {s : Scope} {size' : Nat} (h : Reachable env s target r size)
    (h' : Reachable env s target r' size') : r' = r ∧ size' = size := by
  have hgrown : s.grown size' = (s.grown size).grown (size' - size) := by
    rw [Scope.grown_grown]
    congr 1
    omega
  have hsame := h'.found
  rw [hgrown] at hsame
  obtain rfl := access_grown h.found hsame
  have hsize : env.sizeOf r.ty = .ok size' := by simpa using h'.size_eq
  cases h.size_eq.symm.trans hsize
  simp

theorem Reachable.here {s : Scope} (h : Reachable env s target r size)
    (hr : resolveAccess env s target = .ok r') :
    r'.const = false ∧ env.sizeOf r'.ty = .ok size ∧ r'.ty = r.ty ∧
      r.stretch size (height + size) = r'.stretch size height := by
  obtain rfl := access_grown hr h.found
  have hconst := h.const
  have hsize := h.size_eq
  simp only [Resolved.under_const, Resolved.under_ty] at hconst hsize
  exact ⟨hconst, hsize, by simp, Resolved.stretch_under⟩

theorem Reachable.loaded (h : Reachable env s.scope target r size)
    (hfree : target.identifier?.bind env.engine.constant? = none) :
    Succeeds (expr env (.access target)) s fun ty' t => ty' = r.ty ∧
      t.code = s.code ++ [⟨s.next, (r.stretch size (height + size)).load height, none⟩] := by
  simp only [expr, exprWith, access, hfree]
  refine (locate_succeeds (access_given h.found)).bind ?_
  rintro r' _ ⟨hr, rfl⟩
  obtain ⟨_, hsize, hty, hstretch⟩ := @Reachable.here _ _ _ _ _ height _ h hr
  rw [hstretch, Resolved.stretch_load_here]
  refine (sizeOf_succeeds hsize).bind ?_
  rintro _ _ ⟨rfl, rfl⟩
  refine emit_succeeds.bind ?_
  rintro _ _ rfl
  refine grow_succeeds.bind ?_
  rintro _ _ rfl
  exact pure_succeeds ⟨hty, by simp⟩

theorem Reachable.loadTarget (h : Reachable env s.scope target r size) :
    Succeeds (loadTarget env target) s fun ty' u => ty' = r.ty ∧
      u.code = s.code ++ [⟨s.next, (r.stretch size (height + size)).load height, none⟩] := by
  refine (locateMutable_succeeds (access_given h.found) fun r' hr =>
    (@Reachable.here _ _ _ _ _ height _ h hr).1).bind ?_
  rintro r' _ ⟨hr, rfl⟩
  obtain ⟨_, hsize, hty, hstretch⟩ := @Reachable.here _ _ _ _ _ height _ h hr
  rw [hstretch, Resolved.stretch_load_here]
  refine (sizeOf_succeeds hsize).bind ?_
  rintro _ _ ⟨rfl, rfl⟩
  refine emit_succeeds.bind ?_
  rintro _ _ rfl
  refine grow_succeeds.bind ?_
  rintro _ _ rfl
  exact pure_succeeds ⟨hty, by simp⟩

end Targets

namespace Counting

/-- An int behind a string. -/
def env : Env where
  structs := ⟨[⟨"tally", [⟨"label", .string, 0⟩, ⟨"count", .int, 1⟩], 2⟩]⟩

/-- A block with a variable and two temporaries, in a block with a tally. -/
def start : State :=
  ⟨{}, { block := { values := [⟨"n", .int⟩], temps := 2 },
         outer := [{ values := [⟨"mine", .struct "tally"⟩] }] }, []⟩

def target : Access := ⟨"mine", ["count"]⟩

end Counting

namespace Hiding

/-- An engine with a constant that is the name of a variable. -/
def env : Env where
  engine := { constants := [⟨.int, "TRUE", .int 1⟩] }

def start : State := ⟨{}, { block := { values := [⟨"TRUE", .int⟩] } }, []⟩

def target : Access := ⟨"TRUE", []⟩

end Hiding

end Codegen

end NwScript
