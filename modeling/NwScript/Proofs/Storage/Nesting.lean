-- Structs in structs. A struct can only have members of structs that were there before it, so
-- nesting comes to an end. So does the reservation of a value, which follows it and looks structs
-- up by name among all that there are.
import NwScript.Proofs.Storage.Members

namespace NwScript

namespace Structs

/-- One struct has a member of another. -/
def Uses (s : Structs) (inner outer : Name) : Prop :=
  ∃ l, s.find? outer = some l ∧ ∃ m ∈ l.members, m.ty = .struct inner

section Uses

variable {s : Structs} {l : Layout} {older : List Layout} {inner outer : Name}

theorem Row.known {n size : Nat} {ms : List Member} {m : Member} (h : Row older n ms size)
    (hm : m ∈ ms) (hty : m.ty = .struct inner) : ∃ k ∈ older, k.name = inner := by
  obtain ⟨before, after, hsplit⟩ := List.append_of_mem hm
  obtain ⟨ks, hks, _⟩ := h.split hsplit
  rw [hty] at hks
  exact name_of_structSlots hks

/-- What is used is there. -/
theorem Laid.known (h : Laid s.layouts) (hu : s.Uses inner outer) :
    ∃ k ∈ s.layouts, k.name = inner := by
  obtain ⟨l, hl, m, hm, hty⟩ := hu
  exact (row_of_find h hl).1.known hm hty

theorem contains_iff : s.contains inner = true ↔ ∃ k ∈ s.layouts, k.name = inner := by
  simp [contains, find?]

/-- A struct with another name than the newest one was there before. -/
theorem uses_older (hne : l.name ≠ outer) (hu : Uses ⟨l :: older⟩ inner outer) :
    Uses ⟨older⟩ inner outer := by
  obtain ⟨k, hk, hmember⟩ := hu
  rw [find?, List.find?_cons, beq_false_of_ne hne] at hk
  exact ⟨k, hk, hmember⟩

/-- A struct that is used by others is never the newest one. -/
theorem Laid.acc {ls : List Layout} (h : Laid ls) (name : Name) : Acc (Uses ⟨ls⟩) name := by
  induction h generalizing name with
  | nil =>
    constructor
    rintro inner ⟨l, hl, _⟩
    cases hl
  | @cons l older holder hnew hrow ih =>
    -- an older struct uses older ones only, as it did before the newest was there
    have hold (name : Name) (hne : l.name ≠ name) : Acc (Uses ⟨l :: older⟩) name := by
      induction ih name with
      | intro name _ hbelow =>
        constructor
        intro inner hu
        have hu := uses_older hne hu
        obtain ⟨k, hk, rfl⟩ := @Laid.known ⟨older⟩ _ _ holder hu
        exact hbelow _ hu (hnew k hk).symm
    by_cases hname : l.name = name
    · constructor
      rintro inner ⟨k, hk, m, hm, hty⟩
      have hkl : k = l := by
        rw [find?, List.find?_cons, hname, beq_self_eq_true] at hk
        exact (Option.some.inj hk).symm
      subst hkl
      obtain ⟨k', hk', rfl⟩ := hrow.known hm hty
      exact hold _ (hnew k' hk').symm
    · exact hold name hname

theorem Laid.uses_wellFounded (h : Laid s.layouts) : WellFounded s.Uses := ⟨h.acc⟩

end Uses

/-! ## Reservation as a recursion -/

/-- What the reservation of a value calls: itself for a type, the initialization of a struct, and
that of some members one after another. -/
inductive Task where
  | value (ty : Ty)
  | struct (name : Name)
  | members (ms : List Member)

/-- A run that comes to an end, with the instructions it has emitted and whether it failed. Nothing
bounds how deep the calls go: a struct is looked up among all that there are. -/
inductive Ends (s : Structs) : Task → List Op → Except Failure Unit → Prop
  | builtin {ty : Ty} {ks : List SlotKind} :
      ty.builtinSlots = some ks → Ends s (.value ty) (ks.map .reserve) (.ok ())
  | struct {name : Name} {ops : List Op} {r : Except Failure Unit} :
      Ends s (.struct name) ops r → Ends s (.value (.struct name)) ops r
  | undefined {name : Name} : s.find? name = none →
      Ends s (.struct name) [] (.error (.internal (.initializingUndefinedStruct name)))
  | defined {name : Name} {l : Layout} {ops : List Op} {r : Except Failure Unit} :
      s.find? name = some l → Ends s (.members l.members) ops r → Ends s (.struct name) ops r
  | done : Ends s (.members []) [] (.ok ())
  | next {m : Member} {rest : List Member} {ops more : List Op} {r : Except Failure Unit} :
      Ends s (.value m.ty) ops (.ok ()) → Ends s (.members rest) more r →
      Ends s (.members (m :: rest)) (ops ++ more) r
  | stopped {m : Member} {rest : List Member} {ops : List Op} {e : Failure} :
      Ends s (.value m.ty) ops (.error e) → Ends s (.members (m :: rest)) ops (.error e)

section Ends

variable {s : Structs} {task : Task} {ops more : List Op} {r q : Except Failure Unit}

/-- A run has no choice. -/
theorem Ends.unique (h : s.Ends task ops r) (h' : s.Ends task more q) : (more, q) = (ops, r) := by
  induction h generalizing more q with
  | builtin hks =>
    cases h' with
    | builtin hks' =>
      cases hks.symm.trans hks'
      rfl
    | struct _ => cases hks
  | struct _ ih =>
    cases h' with
    | builtin hks => cases hks
    | struct h' => exact ih h'
  | undefined hfind =>
    cases h' with
    | undefined _ => rfl
    | defined hfind' _ => cases hfind.symm.trans hfind'
  | defined hfind _ ih =>
    cases h' with
    | undefined hfind' => cases hfind.symm.trans hfind'
    | defined hfind' h' =>
      cases hfind.symm.trans hfind'
      exact ih h'
  | done =>
    cases h'
    rfl
  | next _ _ ihFirst ihRest =>
    cases h' with
    | next hfirst hrest =>
      cases ihFirst hfirst
      cases ihRest hrest
      rfl
    | stopped hfirst => cases ihFirst hfirst
  | stopped _ ih =>
    cases h' with
    | next hfirst _ => cases ih hfirst
    | stopped hfirst =>
      cases ih hfirst
      rfl

/-- What a run has to show for its result: all instructions, or an error and no instruction. -/
def outcome : Except Failure (List Op) → List Op × Except Failure Unit
  | .ok ops => (ops, .ok ())
  | .error e => ([], .error e)

/-- A run comes to an end with this result, and to no other. -/
structure Settles (s : Structs) (task : Task) (result : Except Failure (List Op)) : Prop where
  ends : s.Ends task (outcome result).1 (outcome result).2
  only : ∀ ops r, s.Ends task ops r → (ops, r) = outcome result

theorem Ends.settles {result : Except Failure (List Op)}
    (h : s.Ends task (outcome result).1 (outcome result).2) : s.Settles task result :=
  ⟨h, fun _ _ h' => h.unique h'⟩

/-- A value of a built-in type needs no struct. -/
theorem ends_value {ty : Ty} (h : ∀ name, ty = .struct name →
      s.Ends (.struct name) (outcome (s.zeroed name)).1 (outcome (s.zeroed name)).2) :
    s.Ends (.value ty) (outcome (s.reserve ty)).1 (outcome (s.reserve ty)).2 := by
  cases ty with
  | struct name => exact .struct (h name rfl)
  | _ => exact .builtin rfl

theorem ends_members {slots : Member → Except Failure (List SlotKind)} {ms : List Member}
    {kss : List (List SlotKind)} (hms : ms.mapM slots = .ok kss)
    (h : ∀ m ∈ ms, ∀ ks, slots m = .ok ks → s.Ends (.value m.ty) (ks.map .reserve) (.ok ())) :
    s.Ends (.members ms) (kss.flatten.map .reserve) (.ok ()) := by
  induction ms generalizing kss with
  | nil =>
    cases hms
    exact .done
  | cons m rest ih =>
    simp only [List.mapM_cons, except_bind_ok, except_pure_ok] at hms
    obtain ⟨ks, hks, kss, hrest, rfl⟩ := hms
    rw [List.flatten_cons, List.map_append]
    exact .next (h m List.mem_cons_self ks hks)
      (ih hrest fun m hm => h m (List.mem_cons_of_mem _ hm))

theorem structSlots_undefined {ls : List Layout} {name : Name}
    (h : ls.find? (·.name == name) = none) :
    structSlots ls name = .error (.internal (.initializingUndefinedStruct name)) := by
  induction ls with
  | nil => rfl
  | cons l older ih =>
    rw [List.find?_eq_none, List.forall_mem_cons] at h
    rw [structSlots, if_neg (by simpa using h.1), ih (List.find?_eq_none.mpr h.2)]

/-- The induction is on the structs that a struct uses. -/
theorem Laid.ends_struct (h : Laid s.layouts) (name : Name) :
    s.Ends (.struct name) (outcome (s.zeroed name)).1 (outcome (s.zeroed name)).2 := by
  induction name using h.uses_wellFounded.induction with
  | h name ih =>
    cases hfind : s.find? name with
    | none =>
      have hzeroed : s.zeroed name = .error (.internal (.initializingUndefinedStruct name)) := by
        simp only [zeroed, structSlots_undefined hfind, bind, Except.bind]
      rw [hzeroed]
      exact .undefined hfind
    | some l =>
      obtain ⟨_, kss, hkss, hslots⟩ := row_of_find h hfind
      have hzeroed : s.zeroed name = .ok (kss.flatten.map .reserve) := by
        simp only [zeroed, hslots, bind, Except.bind, pure, Except.pure]
      rw [hzeroed]
      refine .defined hfind (ends_members hkss fun m hm ks hks => ?_)
      have hm := @ends_value s m.ty fun inner hty => ih inner ⟨l, hfind, m, hm, hty⟩
      rw [reserve_of_slots hks] at hm
      exact hm

end Ends

end Structs

/-- After any definitions, failed ones included: a struct never contains itself, neither directly
nor through others, since the way from structs to the structs of their members comes to an end; and
all structs on the way are there. So the reservation of a value ends for every type, and so does the
initialization of every struct, whether there is such a struct or not. -/
theorem structs_never_circular {s : Structs} {defs : List StructDef}
    (hs : Structs.defined defs = s) :
    WellFounded s.Uses ∧ (∀ inner outer, s.Uses inner outer → s.contains inner = true) ∧
      (∀ ty, s.Settles (.value ty) (s.reserve ty)) ∧
      ∀ name, s.Settles (.struct name) (s.zeroed name) := by
  have hlaid : Structs.Laid s.layouts := by
    rw [← hs]
    exact (Structs.regular_defined defs).laid
  refine ⟨hlaid.uses_wellFounded, ?_, ?_, ?_⟩
  · intro inner outer hu
    exact Structs.contains_iff.mpr (hlaid.known hu)
  · intro ty
    exact (Structs.ends_value fun name _ => hlaid.ends_struct name).settles
  · intro name
    exact (hlaid.ends_struct name).settles

namespace Bracelet

/-- Two structs, one inside the other, and three definitions that fail: of a struct whose member is
not there yet, of one that would contain itself, and of one that would close a circle. -/
def defs : List StructDef := [
  ⟨"bracelet", [⟨.struct "link", "first"⟩]⟩,
  ⟨"link", [⟨.int, "weight"⟩, ⟨.struct "link", "next"⟩]⟩,
  ⟨"link", [⟨.int, "weight"⟩, ⟨.object, "holder"⟩]⟩,
  ⟨"bracelet", [⟨.struct "link", "first"⟩, ⟨.vector, "place"⟩, ⟨.struct "link", "last"⟩]⟩,
  ⟨"link", [⟨.struct "bracelet", "around"⟩]⟩]

/-- The slots of a bracelet: those of a link, of a vector and of another link. -/
def slots : List SlotKind := [.int, .object, .float, .float, .float, .int, .object]

end Bracelet

open Bracelet in
theorem bracelet_never_circular :
    (Structs.defined defs).Uses "link" "bracelet" ∧ WellFounded (Structs.defined defs).Uses ∧
      (Structs.defined defs).Settles (.value (.struct "bracelet")) (.ok (slots.map .reserve)) ∧
      (Structs.defined defs).Settles (.value (.struct "chain"))
        (.error (.internal (.initializingUndefinedStruct "chain"))) := by
  obtain ⟨hwell, _, hvalue, _⟩ := structs_never_circular (s := .defined defs) rfl
  have hbracelet : (Structs.defined defs).reserve (.struct "bracelet") =
      .ok (slots.map .reserve) := rfl
  have hchain : (Structs.defined defs).reserve (.struct "chain") =
      .error (.internal (.initializingUndefinedStruct "chain")) := rfl
  exact ⟨⟨_, rfl, ⟨"first", .struct "link", 0⟩, List.mem_cons_self, rfl⟩, hwell,
    hbracelet ▸ hvalue (.struct "bracelet"), hchain ▸ hvalue (.struct "chain")⟩

end NwScript
