-- The slots of types. A struct is laid out once, when it is defined, while its slots are read off
-- its members each time; in every registry that definitions have built the two agree.
import NwScript.Proofs.Success

namespace NwScript

namespace Structs

/-! ## Registries that definitions have built -/

/-- The registries that definitions lead to. -/
inductive Built : Structs → Prop
  | empty : Built {}
  | define {s t : Structs} {d : StructDef} {e : Event} :
      Built s → Structs.define d s = .ok e t → Built t

/-- Members that stand in a row from an offset up to a size, all of types whose slots are known
among older structs. -/
inductive Row (older : List Layout) : Nat → List Member → Nat → Prop
  | nil {n : Nat} : Row older n [] n
  | cons {n size : Nat} {m : Member} {ks : List SlotKind} {rest : List Member} :
      slotsWith (structSlots older) m.ty = .ok ks → m.offset = n →
      Row older (n + ks.length) rest size → Row older n (m :: rest) size

/-- Every struct has a new name, and its members stand in a row. -/
inductive Laid : List Layout → Prop
  | nil : Laid []
  | cons {l : Layout} {older : List Layout} :
      Laid older → (∀ k ∈ older, k.name ≠ l.name) → Row older 0 l.members l.size →
      Laid (l :: older)

/-! ## The members of one struct -/

theorem row_slots {older : List Layout} {n size : Nat} {ms : List Member}
    (h : Row older n ms size) :
    ∃ kss, ms.mapM (fun m => slotsWith (structSlots older) m.ty) = .ok kss ∧
      n + kss.flatten.length = size := by
  induction h with
  | nil => exact ⟨[], rfl, by simp⟩
  | @cons n size m ks rest hm _ _ ih =>
    obtain ⟨kss, hk, hsize⟩ := ih
    refine ⟨ks :: kss, ?_, ?_⟩
    · simp [List.mapM_cons, hm, hk, bind, Except.bind, pure, Except.pure]
    · simp only [List.flatten_cons, List.length_append]
      omega

/-- A member of the row has its slots at its offset. -/
theorem row_member {older : List Layout} {n size : Nat} {ms : List Member}
    {kss : List (List SlotKind)} {name : Name} {m : Member} (h : Row older n ms size)
    (hk : ms.mapM (fun m => slotsWith (structSlots older) m.ty) = .ok kss)
    (hm : ms.find? (·.name == name) = some m) :
    ∃ before ks after, kss.flatten = before ++ ks ++ after ∧ n + before.length = m.offset ∧
      slotsWith (structSlots older) m.ty = .ok ks := by
  induction h generalizing kss with
  | nil => simp at hm
  | @cons n size head ks rest hs ho _ ih =>
    simp only [List.mapM_cons, except_bind_ok, except_pure_ok] at hk
    obtain ⟨ks', hks', kss', hrest, rfl⟩ := hk
    rw [hs] at hks'
    cases hks'
    simp only [List.find?_cons] at hm
    split at hm
    · cases hm
      exact ⟨[], ks, kss'.flatten, by simp, by simp [ho], hs⟩
    · obtain ⟨before, ks', after, hf, hb, hm'⟩ := ih hrest hm
      refine ⟨ks ++ before, ks', after, by simp [hf], ?_, hm'⟩
      simp only [List.length_append]
      omega

/-! ## The slots of a struct -/

theorem name_of_structSlots {ls : List Layout} {name : Name} {ks : List SlotKind}
    (h : structSlots ls name = .ok ks) : ∃ l ∈ ls, l.name = name := by
  induction ls with
  | nil => simp [structSlots] at h
  | cons l older ih =>
    by_cases hn : l.name = name
    · exact ⟨l, by simp, hn⟩
    · rw [structSlots, if_neg hn] at h
      obtain ⟨k, hk, hkn⟩ := ih h
      exact ⟨k, List.mem_cons_of_mem _ hk, hkn⟩

/-- What was known among the older structs stays as it was. -/
theorem slotsWith_older {l : Layout} {older : List Layout} {ty : Ty} {ks : List SlotKind}
    (hnew : ∀ k ∈ older, k.name ≠ l.name) (h : slotsWith (structSlots older) ty = .ok ks) :
    slotsWith (structSlots (l :: older)) ty = .ok ks := by
  cases ty with
  | struct name =>
    simp only [slotsWith] at h ⊢
    obtain ⟨k, hk, hkn⟩ := name_of_structSlots h
    rw [structSlots, if_neg]
    · exact h
    · intro hl
      exact hnew k hk (hkn.trans hl.symm)
  | _ => exact h

theorem mapM_older {l : Layout} {older : List Layout} {ms : List Member}
    {kss : List (List SlotKind)} (hnew : ∀ k ∈ older, k.name ≠ l.name)
    (h : ms.mapM (fun m => slotsWith (structSlots older) m.ty) = .ok kss) :
    ms.mapM (fun m => slotsWith (structSlots (l :: older)) m.ty) = .ok kss := by
  induction ms generalizing kss with
  | nil => exact h
  | cons m rest ih =>
    simp only [List.mapM_cons, except_bind_ok, except_pure_ok] at h ⊢
    obtain ⟨ks, hk, kss', hrest, rfl⟩ := h
    exact ⟨ks, slotsWith_older hnew hk, kss', ih hrest, rfl⟩

theorem Row.older {l : Layout} {older : List Layout} {n size : Nat} {ms : List Member}
    (h : Row older n ms size) (hnew : ∀ k ∈ older, k.name ≠ l.name) :
    Row (l :: older) n ms size := by
  induction h with
  | nil => exact .nil
  | cons hs ho _ ih => exact .cons (slotsWith_older hnew hs) ho ih

/-- The members of a struct stand in a row, and its slots are theirs. -/
theorem row_of_find {ls : List Layout} {name : Name} {l : Layout} (h : Laid ls)
    (hl : ls.find? (·.name == name) = some l) :
    Row ls 0 l.members l.size ∧
      ∃ kss, l.members.mapM (fun m => slotsWith (structSlots ls) m.ty) = .ok kss ∧
        structSlots ls name = .ok kss.flatten := by
  induction h with
  | nil => simp at hl
  | @cons top older _ hnew hrow ih =>
    by_cases hn : top.name = name
    · simp only [List.find?_cons, hn, beq_self_eq_true] at hl
      cases hl
      obtain ⟨kss, hk, _⟩ := row_slots hrow
      refine ⟨hrow.older hnew, kss, mapM_older hnew hk, ?_⟩
      rw [structSlots, if_pos hn, except_bind_ok]
      exact ⟨kss, hk, rfl⟩
    · have : (top.name == name) = false := by simpa using hn
      simp only [List.find?_cons, this] at hl
      obtain ⟨hrow', kss, hk, hs⟩ := ih hl
      refine ⟨hrow'.older hnew, kss, mapM_older hnew hk, ?_⟩
      rw [structSlots, if_neg hn]
      exact hs

theorem structSlots_of_find {ls : List Layout} {name : Name} {l : Layout} (h : Laid ls)
    (hl : ls.find? (·.name == name) = some l) :
    ∃ ks, structSlots ls name = .ok ks ∧ ks.length = l.size := by
  obtain ⟨hrow, kss, hk, hs⟩ := row_of_find h hl
  obtain ⟨kss', hk', hsize⟩ := row_slots hrow
  rw [hk] at hk'
  cases hk'
  exact ⟨_, hs, by omega⟩

/-- A member of a struct has its slots at its offset among the slots of the struct. -/
theorem structSlots_member {ls : List Layout} {struct name : Name} {l : Layout} {m : Member}
    (h : Laid ls) (hl : ls.find? (·.name == struct) = some l)
    (hm : l.members.find? (·.name == name) = some m) :
    ∃ before ks after, structSlots ls struct = .ok (before ++ ks ++ after) ∧
      before.length = m.offset ∧ slotsWith (structSlots ls) m.ty = .ok ks := by
  obtain ⟨hrow, kss, hk, hs⟩ := row_of_find h hl
  obtain ⟨before, ks, after, hf, ho, hm'⟩ := row_member hrow hk hm
  exact ⟨before, ks, after, by rw [hs, hf], by omega, hm'⟩

/-! ## Sizes count slots -/

theorem slots_of_sizeOf {s : Structs} {ty : Ty} {n : Nat} (h : Laid s.layouts)
    (hn : s.sizeOf ty = .ok n) : ∃ ks, s.slots ty = .ok ks ∧ ks.length = n := by
  cases ty with
  | struct name =>
    simp only [sizeOf, size, find?] at hn
    split at hn
    · rename_i l hl
      cases hn
      exact structSlots_of_find h hl
    · cases hn
  | _ => cases hn; exact ⟨_, rfl, rfl⟩

theorem sizeOf_of_slots {s : Structs} {ty : Ty} {ks : List SlotKind} (h : Laid s.layouts)
    (hk : s.slots ty = .ok ks) : s.sizeOf ty = .ok ks.length := by
  cases ty with
  | struct name =>
    obtain ⟨k, hmem, hname⟩ := name_of_structSlots (show structSlots s.layouts name =
      .ok ks from hk)
    obtain ⟨l, hl⟩ : ∃ l, s.layouts.find? (·.name == name) = some l := by
      rw [← Option.isSome_iff_exists, List.find?_isSome]
      exact ⟨k, hmem, by simpa using hname⟩
    obtain ⟨ks', hk', hsize⟩ := structSlots_of_find h hl
    rw [show s.slots (.struct name) = structSlots s.layouts name from rfl, hk'] at hk
    cases hk
    simp [sizeOf, size, find?, hl, hsize]
  | _ => cases hk; rfl

theorem slots_of_check {s : Structs} {ty : Ty} (h : Laid s.layouts) (hc : s.check ty = .ok ()) :
    ∃ ks, s.slots ty = .ok ks := by
  cases ty with
  | struct name =>
    by_cases hf : s.contains name = true
    · obtain ⟨l, hl⟩ := Option.isSome_iff_exists.mp hf
      obtain ⟨ks, hk, _⟩ := structSlots_of_find h hl
      exact ⟨ks, hk⟩
    · simp [check, hf] at hc
  | _ => exact ⟨_, rfl⟩

theorem member_found {s : Structs} {struct name : Name} {offset : Nat} {ty : Ty}
    (ho : s.memberOffset struct name = .ok offset) (ht : s.memberType struct name = .ok ty) :
    ∃ l m, s.find? struct = some l ∧ l.members.find? (·.name == name) = some m ∧
      m.offset = offset ∧ m.ty = ty := by
  simp only [memberOffset, memberType, except_bind_ok, except_pure_ok] at ho ht
  obtain ⟨l, hl, m, hm, rfl⟩ := ho
  obtain ⟨l', hl', m', hm', rfl⟩ := ht
  rw [hl] at hl'
  cases hl'
  rw [hm] at hm'
  cases hm'
  simp only [layout] at hl
  simp only [Layout.member] at hm
  split at hl
  · cases hl
    rename_i hfind
    split at hm
    · cases hm
      rename_i hmem
      exact ⟨l, m, hfind, hmem, rfl, rfl⟩
    · cases hm
  · cases hl

/-! ## Parts of values -/

/-- Among the slots of a type lie those of a part of it, behind `offset` others. -/
def Contains (s : Structs) (ty part : Ty) (offset : Nat) : Prop :=
  ∃ before ks after, s.slots ty = .ok (before ++ ks ++ after) ∧ before.length = offset ∧
    s.slots part = .ok ks

/-- The members of a struct lie inside it, each at its offset and with the slots of its type. -/
theorem slots_member {s : Structs} {struct name : Name} {offset : Nat} {ty : Ty}
    (h : Laid s.layouts) (ho : s.memberOffset struct name = .ok offset)
    (ht : s.memberType struct name = .ok ty) : s.Contains (.struct struct) ty offset := by
  obtain ⟨l, m, hl, hm, rfl, rfl⟩ := member_found ho ht
  exact structSlots_member h hl hm

theorem contains_self {s : Structs} {ty : Ty} {ks : List SlotKind} (h : s.slots ty = .ok ks) :
    s.Contains ty ty 0 := ⟨[], ks, [], by simpa using h, rfl, h⟩

theorem contains_float (s : Structs) {i : Nat} (h : i < 3) : s.Contains .vector .float i := by
  refine ⟨List.replicate i .float, [.float], List.replicate (2 - i) .float, ?_, by simp, rfl⟩
  obtain rfl | rfl | rfl : i = 0 ∨ i = 1 ∨ i = 2 := by omega
  all_goals rfl

theorem Contains.part {s : Structs} {ty part : Ty} {offset : Nat} (h : s.Contains ty part offset) :
    ∃ ks, s.slots part = .ok ks := by
  obtain ⟨_, ks, _, _, _, hks⟩ := h
  exact ⟨ks, hks⟩

/-- A part of a part lies as far up as both together. -/
theorem Contains.trans {s : Structs} {a b c : Ty} {i j : Nat} (hab : s.Contains a b i)
    (hbc : s.Contains b c j) : s.Contains a c (i + j) := by
  obtain ⟨before, ks, after, ha, rfl, hb⟩ := hab
  obtain ⟨before', ks', after', hb', rfl, hc⟩ := hbc
  cases hb.symm.trans hb'
  exact ⟨before ++ before', ks', after' ++ after, by simpa using ha, by simp, hc⟩

/-! ## Definitions keep the registry laid out -/

theorem place_row {s : Structs} {struct : Name} {fields : List Field} {placed : List Member}
    {n : Nat} {l : Layout} (h : Laid s.layouts)
    (hl : s.place struct placed n fields = .ok l) :
    ∃ ms, l.members = placed ++ ms ∧ l.name = struct ∧ Row s.layouts n ms l.size ∧
      ms.map (·.ty) = fields.map (·.ty) := by
  induction fields generalizing placed n with
  | nil =>
    cases hl
    exact ⟨[], by simp, rfl, .nil, rfl⟩
  | cons field rest ih =>
    simp only [place, except_require_ok, except_refuse_ok, except_bind_ok, Count.sum_ok] at hl
    obtain ⟨_, _, _, _, size, hsize, _, ⟨-, rfl⟩, hrest⟩ := hl
    obtain ⟨ms, hms, hname, hrow, htys⟩ := ih hrest
    obtain ⟨ks, hk, rfl⟩ := slots_of_sizeOf h hsize
    exact ⟨⟨field.name, field.ty, n⟩ :: ms, by simp [hms], hname, .cons hk rfl hrow, by simp [htys]⟩

theorem define_ok {s t : Structs} {d : StructDef} {e : Event} :
    define d s = .ok e t ↔
      ∃ l, s.layOut d = .ok l ∧ e = .structDefined l.name l.size ∧ t = ⟨l :: s.layouts⟩ := by
  simp only [define, bind_ok, get_ok]
  constructor
  · rintro ⟨_, _, ⟨rfl, rfl⟩, hrest⟩
    cases hl : s.layOut d with
    | error e => simp only [hl, throw_ok] at hrest
    | ok l =>
      simp only [hl, bind_ok, set_ok, pure_ok] at hrest
      obtain ⟨_, _, rfl, rfl, rfl⟩ := hrest
      exact ⟨l, rfl, rfl, rfl⟩
  · rintro ⟨l, hl, rfl, rfl⟩
    refine ⟨_, _, ⟨rfl, rfl⟩, ?_⟩
    rw [hl]
    rfl

/-- A refused definition leaves the registry as it was. -/
theorem define_error {s t : Structs} {d : StructDef} {e : Failure} (h : define d s = .error e t) :
    t = s := by
  rw [define, bind_of_ok (get_ok.mpr ⟨rfl, rfl⟩)] at h
  cases hl : s.layOut d with
  | error e =>
    rw [hl] at h
    cases h
    rfl
  | ok l =>
    rw [hl] at h
    cases h

theorem define_eq {s t : Structs} {d : StructDef} {e : Event} (h : Laid s.layouts)
    (hd : define d s = .ok e t) :
    ∃ l, t.layouts = l :: s.layouts ∧ (∀ k ∈ s.layouts, k.name ≠ l.name) ∧
      Row s.layouts 0 l.members l.size ∧ l.name = d.name ∧
      l.members.map (·.ty) = d.fields.map (·.ty) := by
  obtain ⟨l, hl, _, rfl⟩ := define_ok.mp hd
  simp only [layOut, except_refuse_ok] at hl
  obtain ⟨_, hnew, hplace⟩ := hl
  obtain ⟨ms, hms, hname, hrow, htys⟩ := place_row h hplace
  refine ⟨l, rfl, ?_, by simpa [hms] using hrow, hname, by simpa [hms] using htys⟩
  intro k hk hkn
  apply hnew
  simp only [contains, find?, List.find?_isSome]
  exact ⟨k, hk, by simp [hkn, hname]⟩

theorem laid_define {s t : Structs} {d : StructDef} {e : Event} (h : Laid s.layouts)
    (hd : define d s = .ok e t) : Laid t.layouts := by
  obtain ⟨l, ht, hnew, hrow, _⟩ := define_eq h hd
  rw [ht]
  exact .cons h hnew hrow

theorem Built.laid {s : Structs} (h : Built s) : Laid s.layouts := by
  induction h with
  | empty => exact .nil
  | define _ hd ih => exact laid_define ih hd

/-- A definition leaves the slots of all known types as they were. -/
theorem slots_define {s t : Structs} {d : StructDef} {e : Event} {ty : Ty} {ks : List SlotKind}
    (h : Laid s.layouts) (hd : define d s = .ok e t) (hk : s.slots ty = .ok ks) :
    t.slots ty = .ok ks := by
  obtain ⟨l, ht, hnew, _⟩ := define_eq h hd
  unfold slots
  rw [ht]
  exact slotsWith_older hnew hk

/-- So it leaves their sizes. -/
theorem sizeOf_define {s t : Structs} {d : StructDef} {e : Event} {ty : Ty} {n : Nat}
    (h : Laid s.layouts) (hd : define d s = .ok e t) (hn : s.sizeOf ty = .ok n) :
    t.sizeOf ty = .ok n := by
  obtain ⟨ks, hks, rfl⟩ := slots_of_sizeOf h hn
  exact sizeOf_of_slots (laid_define h hd) (slots_define h hd hks)

theorem row_kinds {older : List Layout} {n size : Nat} {ms : List Member}
    {kinds : Ty → List SlotKind} (h : Row older n ms size)
    (hk : ∀ ty ks, slotsWith (structSlots older) ty = .ok ks → kinds ty = ks) :
    (∀ m ∈ ms, slotsWith (structSlots older) m.ty = .ok (kinds m.ty)) ∧
      ms.mapM (fun m => slotsWith (structSlots older) m.ty) = .ok (ms.map fun m => kinds m.ty) := by
  induction h with
  | nil => exact ⟨by simp, rfl⟩
  | cons hs _ _ ih =>
    rw [← hk _ _ hs] at hs
    exact ⟨by simpa [hs] using ih.1, by simp [List.mapM_cons, hs, ih.2, bind, Except.bind,
      pure, Except.pure]⟩

/-- The slots of a new struct are those of its fields, one after another. -/
theorem slots_defined {s t : Structs} {d : StructDef} {e : Event} {kinds : Ty → List SlotKind}
    (h : Laid s.layouts) (hd : define d s = .ok e t)
    (hk : ∀ ty ks, s.slots ty = .ok ks → kinds ty = ks) :
    (∀ ty ∈ d.fields.map (·.ty), s.slots ty = .ok (kinds ty)) ∧
      t.slots (.struct d.name) = .ok ((d.fields.map (·.ty)).flatMap kinds) := by
  obtain ⟨l, ht, _, hrow, hname, htys⟩ := define_eq h hd
  obtain ⟨hknown, hall⟩ := row_kinds hrow hk
  rw [← htys]
  refine ⟨by simpa [slots] using hknown, ?_⟩
  show structSlots t.layouts d.name = _
  rw [ht, structSlots, if_pos hname, except_bind_ok]
  exact ⟨_, hall, by simp [List.flatMap_def, Function.comp_def, except_pure_ok]⟩

end Structs

end NwScript
