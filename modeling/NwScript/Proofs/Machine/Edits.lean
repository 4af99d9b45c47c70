-- What each edit does to a stream that it succeeds on, and which streams it fails on.
import NwScript.Proofs.Success
import NwScript.Machine.Stream

namespace NwScript

namespace Stream

variable {s t : Stream} {op : Op} {target : Option Handle} {i : Instruction} {h : Handle}

/-! ## New instructions -/

theorem allocate_ok :
    allocate s = .ok h t ↔ s.next < Handle.limit ∧ h = s.next ∧ t = ⟨s.code, s.next + 1⟩ := by
  simp only [allocate, bind_ok, get_ok]
  constructor
  · rintro ⟨_, _, ⟨rfl, rfl⟩, hrest⟩
    split at hrest
    · simp only [bind_ok, set_ok, pure_ok] at hrest
      obtain ⟨_, _, rfl, rfl, rfl⟩ := hrest
      exact ⟨‹_›, rfl, rfl⟩
    · cases hrest
  · rintro ⟨hroom, rfl, rfl⟩
    refine ⟨_, _, ⟨rfl, rfl⟩, ?_⟩
    rw [if_pos hroom]
    rfl

theorem detached_ok :
    detached op target s = .ok i t ↔
      s.next < Handle.limit ∧ i = ⟨s.next, op, target⟩ ∧ t = ⟨s.code, s.next + 1⟩ := by
  simp only [detached, bind_ok, allocate_ok, pure_ok]
  constructor
  · rintro ⟨_, _, ⟨hroom, rfl, rfl⟩, rfl, rfl⟩
    exact ⟨hroom, rfl, rfl⟩
  · rintro ⟨hroom, rfl, rfl⟩
    exact ⟨_, _, ⟨hroom, rfl, rfl⟩, rfl, rfl⟩

theorem push_ok : push i s = .ok h t ↔ h = i.handle ∧ t = ⟨s.code ++ [i], s.next⟩ := by
  simp only [push, bind_ok, modify_ok, pure_ok]
  constructor
  · rintro ⟨_, _, rfl, rfl, rfl⟩
    exact ⟨rfl, rfl⟩
  · rintro ⟨rfl, rfl⟩
    exact ⟨(), _, rfl, rfl, rfl⟩

theorem add_ok :
    add op target s = .ok h t ↔
      s.next < Handle.limit ∧ h = s.next ∧
        t = ⟨s.code ++ [⟨s.next, op, target⟩], s.next + 1⟩ := by
  simp only [add, bind_ok, detached_ok, push_ok]
  constructor
  · rintro ⟨_, _, ⟨hroom, rfl, rfl⟩, rfl, rfl⟩
    exact ⟨hroom, rfl, rfl⟩
  · rintro ⟨hroom, rfl, rfl⟩
    exact ⟨_, _, ⟨hroom, rfl, rfl⟩, rfl, rfl⟩

theorem insert_ok {index : Nat} :
    insert index op target s = .ok h t ↔
      (s.next < Handle.limit ∧ index ≤ s.code.length) ∧ h = s.next ∧
        t = ⟨s.code.take index ++ ⟨s.next, op, target⟩ :: s.code.drop index, s.next + 1⟩ := by
  simp only [insert, bind_ok, detached_ok, get_ok]
  constructor
  · rintro ⟨_, _, ⟨hroom, rfl, rfl⟩, _, _, ⟨rfl, rfl⟩, hrest⟩
    split at hrest
    · simp only [bind_ok, set_ok, pure_ok] at hrest
      obtain ⟨_, _, rfl, rfl, rfl⟩ := hrest
      exact ⟨⟨hroom, ‹_›⟩, rfl, rfl⟩
    · cases hrest
  · rintro ⟨⟨hroom, hindex⟩, rfl, rfl⟩
    refine ⟨_, _, ⟨hroom, rfl, rfl⟩, _, _, ⟨rfl, rfl⟩, ?_⟩
    rw [if_pos hindex]
    rfl

/-- Once all handles are given out, no instruction can be made. -/
theorem detached_full (hfull : Handle.limit ≤ s.next) :
    detached op target s = .error (.panic .overflow) s := by
  refine bind_error ?_
  rw [allocate, bind_of_ok (get_ok.mpr ⟨rfl, rfl⟩), if_neg (Nat.not_lt.mpr hfull)]
  rfl

theorem add_full (hfull : Handle.limit ≤ s.next) :
    add op target s = .error (.panic .overflow) s := bind_error (detached_full hfull)

theorem detached_error {e : Failure} (h : detached op target s = .error e t) :
    (e = .panic .overflow ∧ Handle.limit ≤ s.next) ∧ t = s := by
  by_cases hroom : s.next < Handle.limit
  · cases (detached_ok.mpr ⟨hroom, rfl, rfl⟩).symm.trans h
  · have hfull := Nat.le_of_not_lt hroom
    cases (detached_full hfull).symm.trans h
    exact ⟨⟨rfl, hfull⟩, rfl⟩

theorem add_error {e : Failure} (h : add op target s = .error e t) :
    (e = .panic .overflow ∧ Handle.limit ≤ s.next) ∧ t = s := by
  by_cases hroom : s.next < Handle.limit
  · cases (add_ok.mpr ⟨hroom, rfl, rfl⟩).symm.trans h
  · have hfull := Nat.le_of_not_lt hroom
    cases (add_full hfull).symm.trans h
    exact ⟨⟨rfl, hfull⟩, rfl⟩

/-- An index beyond the end is noticed when the handle is already given out. -/
theorem insert_error {index : Nat} {e : Failure} (h : insert index op target s = .error e t) :
    (e = .panic .overflow ∧ Handle.limit ≤ s.next) ∧ t = s ∨
      e = .panic .beyondEnd ∧ s.next < Handle.limit ∧ t = ⟨s.code, s.next + 1⟩ := by
  by_cases hroom : s.next < Handle.limit
  · rw [insert, bind_of_ok (detached_ok.mpr ⟨hroom, rfl, rfl⟩),
      bind_of_ok (get_ok.mpr ⟨rfl, rfl⟩)] at h
    dsimp only at h
    split at h
    · cases h
    · cases h
      exact .inr ⟨rfl, hroom, rfl⟩
  · have hfull := Nat.le_of_not_lt hroom
    have hinsert : insert index op target s = .error (.panic .overflow) s :=
      bind_error (detached_full hfull)
    cases hinsert.symm.trans h
    exact .inl ⟨⟨rfl, hfull⟩, rfl⟩

/-! ## Changes -/

theorem spliceAfter_ok {marker : Handle} {other : Stream} {u : Unit} :
    spliceAfter marker other s = .ok u t ↔ ∃ index, s.indexOf? marker = some index ∧
      t = ⟨s.code.take (index + 1) ++ other.code ++ s.code.drop (index + 1),
        max s.next other.next⟩ := by
  simp only [spliceAfter, bind_ok, get_ok]
  constructor
  · rintro ⟨_, _, ⟨rfl, rfl⟩, hrest⟩
    cases hindex : s.indexOf? marker with
    | none => simp only [hindex, throw_ok] at hrest
    | some index =>
      simp only [hindex, set_ok] at hrest
      exact ⟨index, rfl, hrest⟩
  · rintro ⟨index, hindex, rfl⟩
    refine ⟨_, _, ⟨rfl, rfl⟩, ?_⟩
    rw [hindex]
    rfl

theorem setTarget_ok {handle target : Handle} {u : Unit} :
    setTarget handle target s = .ok u t ↔ ∃ index, s.indexOf? handle = some index ∧
      t = { s with code := s.code.modify index fun i => { i with target := some target } } := by
  simp only [setTarget, bind_ok, get_ok]
  constructor
  · rintro ⟨_, _, ⟨rfl, rfl⟩, hrest⟩
    cases hindex : s.indexOf? handle with
    | none => simp only [hindex, throw_ok] at hrest
    | some index =>
      simp only [hindex, set_ok] at hrest
      exact ⟨index, rfl, hrest⟩
  · rintro ⟨index, hindex, rfl⟩
    refine ⟨_, _, ⟨rfl, rfl⟩, ?_⟩
    rw [hindex]
    rfl

/-- A stream is edited at a handle only if the handle has a place. -/
theorem spliceAfter_error {other : Stream} {marker : Handle} {e : Failure}
    (h : spliceAfter marker other s = .error e t) : t = s ∧ s.indexOf? marker = none := by
  rw [spliceAfter, bind_of_ok (get_ok.mpr ⟨rfl, rfl⟩)] at h
  cases hm : s.indexOf? marker with
  | none =>
    rw [hm] at h
    cases h
    exact ⟨rfl, rfl⟩
  | some index =>
    rw [hm] at h
    cases h

theorem setTarget_error {handle target : Handle} {e : Failure}
    (h : setTarget handle target s = .error e t) : t = s ∧ s.indexOf? handle = none := by
  rw [setTarget, bind_of_ok (get_ok.mpr ⟨rfl, rfl⟩)] at h
  cases hm : s.indexOf? handle with
  | none =>
    rw [hm] at h
    cases h
    exact ⟨rfl, rfl⟩
  | some index =>
    rw [hm] at h
    cases h

end Stream

end NwScript
