-- The variables of a block are recorded twice: what is on the stack, to be searched from the top,
-- and by name with a distance from the bottom. A name that is declared again is overwritten in one
-- record and piles up in the other. After any declarations, refused ones too, both mean the
-- same variable.
import Mathlib.Data.List.Induction
import NwScript.Proofs.Storage.Sized

namespace NwScript

/-! ## Records of the same variables -/

/-- What is on the stack and what was declared, one for one, up to a cursor. -/
inductive Records (env : Env) : List Variable → List (Name × Local) → Nat → Prop
  | nil : Records env [] [] 0
  | cons {values : List Variable} {locals : List (Name × Local)} {cursor size : Nat} {name : Name}
      {ty : Ty} : Records env values locals cursor → env.sizeOf ty = .ok size →
      Records env (⟨name, ty⟩ :: values) ((name, ⟨ty, cursor⟩) :: locals) (cursor + size)

section Records

variable {env : Env} {values : List Variable} {locals : List (Name × Local)} {cursor : Nat}
  {name : Name} {l : Local}

/-- The cursor is where the variables on the stack end. -/
theorem Records.size (h : Records env values locals cursor) :
    env.sizeOfAll (values.reverse.map (·.ty)) = .ok cursor := by
  induction h with
  | nil => rfl
  | @cons values _ cursor size name ty _ hsize ih =>
    rw [List.reverse_cons, List.map_append, sizeOfAll_append]
    refine ⟨cursor, size, ih, ?_, rfl⟩
    simp [Env.sizeOfAll, hsize, bind, Except.bind, pure, Except.pure]

theorem Records.names (h : Records env values locals cursor) :
    (locals.lookup name).isSome = true ↔ ∃ v ∈ values, v.name = name := by
  induction h with
  | nil => simp
  | @cons _ _ _ _ declared _ _ _ ih =>
    rw [List.lookup_cons]
    by_cases hname : name = declared
    · simp [hname]
    · rw [beq_false_of_ne hname, ih]
      simp [Ne.symm hname]

theorem Records.offset_le (h : Records env values locals cursor)
    (hl : locals.lookup name = some l) : l.offset ≤ cursor := by
  induction h with
  | nil => simp at hl
  | @cons _ _ _ _ declared _ _ _ ih =>
    rw [List.lookup_cons] at hl
    by_cases hname : name = declared
    · rw [hname, beq_self_eq_true] at hl
      cases hl
      exact Nat.le_add_right _ _
    · rw [beq_false_of_ne hname] at hl
      exact Nat.le_trans (ih hl) (Nat.le_add_right _ _)

/-- From the top of the stack, a declared variable is as far down as the cursor is above it. -/
theorem Records.seek {below : Int → Except Failure Resolved} {offset : Int}
    (hoffset : Count.Fits offset) (h : Records env values locals cursor)
    (hl : locals.lookup name = some l) :
    Scope.seek env name below values offset =
      (Count.checked (offset - (cursor - l.offset)) >>= fun o => .ok ⟨l.ty, o, .sp, false⟩) := by
  induction h generalizing offset with
  | nil => simp at hl
  | @cons values locals cursor size declared ty hrest hsize ih =>
    rw [List.lookup_cons] at hl
    simp only [Scope.seek, hsize]
    by_cases hname : name = declared
    · rw [hname, beq_self_eq_true] at hl
      cases hl
      have hdistance : ((cursor + size : Nat) : Int) - cursor = size := by omega
      simp only [hdistance, if_pos hname.symm]
      rfl
    · rw [beq_false_of_ne hname] at hl
      have hle := hrest.offset_le hl
      have hdistance : ((cursor + size : Nat) : Int) - l.offset = size + (cursor - l.offset) := by
        omega
      simp only [if_neg (Ne.symm hname), hdistance]
      exact Count.checked_down hoffset (by omega) (by omega) fun hfits => ih hfits hl

end Records

/-! ## Declarations one after another -/

namespace Block

/-- The block after a declaration, which leaves it as it was if it is refused. -/
def attempt (env : Env) (b : Block) (v : Variable) : Except Failure Block :=
  match b.declare env v.name v.ty with
  | .error (.error _) => .ok b
  | result => result

/-- A new block after some declarations. -/
def built (env : Env) (breakTo continueTo : Option Handle) (calls : List Variable) :
    Except Failure Block := calls.foldlM (attempt env) { breakTo, continueTo }

section Attempt

variable {env : Env} {b : Block} {v : Variable} {size : Nat}

theorem attempt_sized (h : env.sizeOf v.ty = .ok size) :
    b.attempt env v = Count.within [(b.cursor + size : Int)] { b.push v.name v.ty with
      locals := (v.name, ⟨v.ty, b.cursor⟩) :: b.locals
      cursor := b.cursor + size } := by
  simp only [attempt, declare, h, bind, Except.bind, Count.sum, Count.within,
    List.forall_mem_singleton]
  by_cases hfits : Count.Fits (b.cursor + size)
  · simp only [if_pos hfits, pure, Except.pure]
  · simp only [if_neg hfits]

theorem attempt_unsized (h : ¬env.Sized v.ty) : b.attempt env v = .ok b := by
  unfold attempt declare
  cases hty : v.ty with
  | struct name =>
    cases hfind : env.structs.find? name with
    | some l =>
      exact absurd ⟨l.size, by simp [hty, Env.sizeOf, Structs.sizeOf, Structs.size, hfind]⟩ h
    | none => simp only [Env.sizeOf, Structs.sizeOf, Structs.size, hfind, bind, Except.bind]
  | _ =>
    rw [hty] at h
    exact absurd (Env.sized_builtin rfl) h

theorem extent_unsized (h : ¬env.Sized v.ty) : env.extent v.ty = 0 := by
  unfold Env.extent
  cases hsize : env.sizeOf v.ty with
  | ok n => exact absurd ⟨n, hsize⟩ h
  | error e => rfl

end Attempt

section Built

variable {env : Env} {breakTo continueTo : Option Handle} {calls before : List Variable}
  {name : Name} {v w : Variable} {b : Block} {l : Local}

theorem built_concat : built env breakTo continueTo (calls ++ [w]) =
    (built env breakTo continueTo calls >>= fun b => b.attempt env w) := by
  simp [built, List.foldlM_append]

theorem extents_concat : env.extents (calls ++ [w]) = env.extents calls + env.extent w.ty :=
  env.extents_append calls [w]

/-- The last of some declarations finds the block that the others have built, and is refused or
declares one more variable. -/
theorem built_last (h : built env breakTo continueTo (calls ++ [w]) = .ok b) :
    ∃ c, built env breakTo continueTo calls = .ok c ∧
      ((¬env.Sized w.ty ∧ b = c) ∨
        ∃ size, env.sizeOf w.ty = .ok size ∧ b = { c.push w.name w.ty with
          locals := (w.name, ⟨w.ty, c.cursor⟩) :: c.locals
          cursor := c.cursor + size }) := by
  rw [built_concat, except_bind_ok] at h
  obtain ⟨c, hc, h⟩ := h
  refine ⟨c, hc, ?_⟩
  by_cases hw : env.Sized w.ty
  · obtain ⟨size, hsize⟩ := hw
    rw [attempt_sized hsize, Count.within_ok] at h
    exact .inr ⟨size, hsize, h.2.symm⟩
  · rw [attempt_unsized hw] at h
    exact .inl ⟨hw, (Except.ok.inj h).symm⟩

theorem built_records (h : built env breakTo continueTo calls = .ok b) :
    Records env b.values b.locals b.cursor ∧ b.cursor = env.extents calls := by
  induction calls using List.reverseRecOn generalizing b with
  | nil =>
    cases h
    exact ⟨.nil, rfl⟩
  | append_singleton calls w ih =>
    rw [extents_concat]
    obtain ⟨c, hc, ⟨hw, rfl⟩ | ⟨size, hsize, rfl⟩⟩ := built_last h
    · rw [extent_unsized hw]
      exact ih hc
    · obtain ⟨hrecords, hcursor⟩ := ih hc
      have hextent : env.extent w.ty = size := by
        rw [Env.extent, hsize]
        rfl
      exact ⟨.cons hrecords hsize, by rw [hextent, ← hcursor]⟩

/-- Declarations go through as long as the cursor can be counted. -/
theorem built_of_fits (h : Count.Fits (env.extents calls)) :
    ∃ b, built env breakTo continueTo calls = .ok b := by
  induction calls using List.reverseRecOn with
  | nil => exact ⟨_, rfl⟩
  | append_singleton calls w ih =>
    rw [extents_concat] at h
    obtain ⟨c, hc⟩ := ih (Count.fits_zero.between h (by omega) (by omega))
    rw [built_concat, hc]
    by_cases hw : env.Sized w.ty
    · have hcursor := (built_records hc).2
      refine ⟨_, (attempt_sized (Env.sizeOf_extent hw)).trans (Count.within_of_fits ?_)⟩
      rw [List.forall_mem_singleton, hcursor]
      exact h
    · exact ⟨c, attempt_unsized hw⟩

theorem built_of_not_fits (h : ¬Count.Fits (env.extents calls)) :
    built env breakTo continueTo calls = .error (.panic .overflow) := by
  induction calls using List.reverseRecOn with
  | nil => exact absurd Count.fits_zero h
  | append_singleton calls w ih =>
    rw [extents_concat] at h
    rw [built_concat]
    by_cases hbefore : Count.Fits (env.extents calls)
    · obtain ⟨c, hc⟩ := @built_of_fits env breakTo continueTo calls hbefore
      by_cases hw : env.Sized w.ty
      · have hcursor := (built_records hc).2
        rw [hc]
        refine (attempt_sized (Env.sizeOf_extent hw)).trans (if_neg ?_)
        rw [List.forall_mem_singleton, hcursor]
        exact h
      · rw [extent_unsized hw] at h
        exact absurd hbefore h
    · rw [ih hbefore]
      rfl

/-! ## The latest declaration -/

/-- Of some declarations, the one that a name means: the last one of that name that is not refused,
and those before it. -/
def Latest (env : Env) (calls : List Variable) (name : Name) (v : Variable)
    (before : List Variable) : Prop :=
  ∃ after, calls = before ++ v :: after ∧ v.name = name ∧ env.Sized v.ty ∧
    ∀ w ∈ after, w.name = name → ¬env.Sized w.ty

theorem latest_nil : ¬Latest env [] name v before := by
  rintro ⟨after, hcalls, _⟩
  simp at hcalls

/-- One of some declarations is the last one or stands before it. -/
theorem split_concat {after : List Variable} (h : calls ++ [w] = before ++ v :: after) :
    (after = [] ∧ before = calls ∧ v = w) ∨
      ∃ rest, after = rest ++ [w] ∧ calls = before ++ v :: rest := by
  rcases List.eq_nil_or_concat after with rfl | ⟨rest, last, rfl⟩
  · obtain ⟨rfl, hv⟩ := List.append_inj' h rfl
    exact .inl ⟨rfl, rfl, (List.singleton_inj.mp hv).symm⟩
  · rw [List.concat_eq_append, ← List.cons_append, ← List.append_assoc] at h
    obtain ⟨hcalls, hlast⟩ := List.append_inj' h rfl
    cases List.singleton_inj.mp hlast
    exact .inr ⟨rest, List.concat_eq_append, hcalls⟩

theorem latest_hit (hname : w.name = name) (hw : env.Sized w.ty) :
    Latest env (calls ++ [w]) name v before ↔ v = w ∧ before = calls := by
  constructor
  · rintro ⟨after, hcalls, _, _, hafter⟩
    rcases split_concat hcalls with ⟨_, hbefore, hv⟩ | ⟨rest, rfl, _⟩
    · exact ⟨hv, hbefore⟩
    · exact absurd hw (hafter w (by simp) hname)
  · rintro ⟨rfl, rfl⟩
    exact ⟨[], rfl, hname, hw, by simp⟩

theorem latest_miss (hw : w.name = name → ¬env.Sized w.ty) :
    Latest env (calls ++ [w]) name v before ↔ Latest env calls name v before := by
  constructor
  · rintro ⟨after, hcalls, hname, hv, hafter⟩
    rcases split_concat hcalls with ⟨_, _, rfl⟩ | ⟨rest, rfl, rfl⟩
    · exact absurd hv (hw hname)
    · exact ⟨rest, rfl, hname, hv, fun u hu => hafter u (by simp [hu])⟩
  · rintro ⟨after, rfl, hname, hv, hafter⟩
    refine ⟨after ++ [w], by simp, hname, hv, ?_⟩
    rw [List.forall_mem_append]
    exact ⟨hafter, by simpa using hw⟩

/-- By name, the latest declaration is found, above all those before it. -/
theorem built_local? (h : built env breakTo continueTo calls = .ok b) :
    b.local? name = some l ↔
      ∃ v before, Latest env calls name v before ∧ l = ⟨v.ty, env.extents before⟩ := by
  induction calls using List.reverseRecOn generalizing b with
  | nil =>
    cases h
    simp [latest_nil, local?]
  | append_singleton calls w ih =>
    obtain ⟨c, hc, ⟨hw, rfl⟩ | ⟨size, hsize, rfl⟩⟩ := built_last h
    · simp only [latest_miss fun _ => hw, ih hc]
    · by_cases hname : w.name = name
      · simp [latest_hit hname ⟨size, hsize⟩, local?, hname, (built_records hc).2, eq_comm]
      · simp only [latest_miss fun h => absurd h hname, ← ih hc]
        simp [local?, List.lookup_cons, beq_false_of_ne (Ne.symm hname)]

/-- From the top of the stack, the latest declaration is found first. -/
theorem built_find? (h : built env breakTo continueTo calls = .ok b) :
    b.values.find? (·.name == name) = some v ↔ ∃ before, Latest env calls name v before := by
  induction calls using List.reverseRecOn generalizing b with
  | nil =>
    cases h
    simp [latest_nil]
  | append_singleton calls w ih =>
    obtain ⟨c, hc, ⟨hw, rfl⟩ | ⟨size, hsize, rfl⟩⟩ := built_last h
    · simp only [latest_miss fun _ => hw, ih hc]
    · by_cases hname : w.name = name
      · subst hname
        simp [latest_hit rfl ⟨size, hsize⟩, push, eq_comm]
      · simp only [latest_miss fun h => absurd h hname, ← ih hc]
        simp [push, hname]

end Built

end Block

/-! ## Agreement -/

/-- The two records of a block agree, inside any other blocks: the cursor is where the variables on
the stack end, both know the same names, and a name leads to the same slots in both, as far as
these can be counted from the top of the stack. For both, the latest declaration counts. -/
structure Block.Agrees (env : Env) (calls : List Variable) (b : Block) : Prop where
  size : b.size env = .ok b.cursor
  names : ∀ name, (b.local? name).isSome = true ↔ ∃ v ∈ b.values, v.name = name
  found : ∀ name l outer, b.local? name = some l →
    (Scope.mk b outer).resolve env name =
      Count.within [-b.temps, l.offset - b.cursor - b.temps]
        ⟨l.ty, l.offset - b.cursor - b.temps, .sp, false⟩
  latestLocal : ∀ name l, b.local? name = some l ↔
    ∃ v before, Latest env calls name v before ∧ l = ⟨v.ty, env.extents before⟩
  latestValue : ∀ name v, b.values.find? (·.name == name) = some v ↔
    ∃ before, Latest env calls name v before

/-- Declarations in a new block, of which some may repeat a name and some may be refused, go
through as long as their slots can be counted. With any temporaries pending, the two records of the
block's variables then agree. -/
theorem locals_match_stack {env : Env} {breakTo continueTo : Option Handle}
    {calls : List Variable} :
    (Count.Fits (env.extents calls) → ∃ b, Block.built env breakTo continueTo calls = .ok b ∧
      ∀ temps : Int, { b with temps }.Agrees env calls) ∧
    (¬Count.Fits (env.extents calls) →
      Block.built env breakTo continueTo calls = .error (.panic .overflow)) := by
  refine ⟨fun hfits => ?_, Block.built_of_not_fits⟩
  obtain ⟨b, hb⟩ := @Block.built_of_fits env breakTo continueTo calls hfits
  obtain ⟨h, hcursor⟩ := Block.built_records hb
  refine ⟨b, hb, fun temps => ⟨?_, fun name => h.names, ?_,
    fun name l => @Block.built_local? env breakTo continueTo calls name b l hb,
    fun name v => @Block.built_find? env breakTo continueTo calls name v b hb⟩⟩
  · have hsize := stacked_within Count.fits_zero h.size
    rw [Int.natCast_zero, Int.zero_add, Nat.zero_add] at hsize
    refine hsize.trans (Count.within_of_fits ?_)
    rw [List.forall_mem_singleton, hcursor]
    exact hfits
  · intro name l outer hl
    rw [Scope.resolve, Scope.resolveFrom, Scope.chain, Scope.resolveIn, Count.checked_within,
      Int.zero_sub]
    refine Count.within_bind (l := [l.offset - b.cursor - temps]) fun htemps => ?_
    rw [h.seek (htemps _ (by simp)) hl, Count.checked_within]
    have hdistance : -temps - (b.cursor - l.offset) = l.offset - b.cursor - temps := by omega
    rw [hdistance]
    exact (Count.within_bind (l := []) fun _ => by rfl).trans (Count.within_congr (by simp))

namespace Pile

/-- A name twice with different types, and twice a type that no struct has. -/
def calls : List Variable :=
  [⟨"n", .int⟩, ⟨"place", .vector⟩, ⟨"lost", .struct "ghost"⟩, ⟨"n", .float⟩,
   ⟨"n", .struct "ghost"⟩]

/-- The block of these declarations inside one that has a variable of the same name. -/
def around (b : Block) : Scope := ⟨b, [{ values := [⟨"n", .string⟩], temps := 1 }]⟩

end Pile

open Pile in
/-- Of the name that was declared again, both records know the second declaration. -/
theorem pile_match_stack :
    ∃ b, Block.built {} none none calls = .ok b ∧ { b with temps := 2 }.Agrees {} calls ∧
      b.cursor = 5 ∧ b.local? "n" = some ⟨.float, 4⟩ ∧ b.local? "lost" = none ∧
      (around { b with temps := 2 }).resolve {} "n" = .ok ⟨.float, -3, .sp, false⟩ ∧
      (around { b with temps := 2 }).resolve {} "place" = .ok ⟨.vector, -6, .sp, false⟩ := by
  obtain ⟨b, hb, hagrees⟩ := (@locals_match_stack {} none none calls).1 (by decide)
  have hb' := hb
  cases hb'
  exact ⟨_, hb, hagrees 2, rfl, rfl, rfl, (hagrees 2).found "n" ⟨.float, 4⟩ _ rfl,
    (hagrees 2).found "place" ⟨.vector, 1⟩ _ rfl⟩

end NwScript
