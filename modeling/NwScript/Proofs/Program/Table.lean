-- The table of the functions: what a change does to each of its entries. An entry is reached by its
-- name alone, and calls that were noted stay noted whatever is put under the name.
import NwScript.Proofs.Success
import NwScript.Function.Table

namespace NwScript

namespace Functions

variable {fs : Functions} {f : Entry} {name : Name} {names : List Name}

/-! ## Putting -/

section Put

variable {entries : List Entry}

theorem find?_replaced (h : entries.any (·.signature.name == f.signature.name)) :
    (entries.map fun g => if g.signature.name == f.signature.name then f else g).find?
      (·.signature.name == f.signature.name) = some f := by
  induction entries with
  | nil => simp at h
  | cons g rest ih => grind

theorem find?_replaced_other (h : f.signature.name ≠ name) :
    (entries.map fun g => if g.signature.name == f.signature.name then f else g).find?
      (·.signature.name == name) = entries.find? (·.signature.name == name) := by
  induction entries with
  | nil => rfl
  | cons g rest ih => grind

/-- What is put under a name is found there, and all else stays. -/
theorem lookup?_put (fs : Functions) (f : Entry) (name : Name) :
    (fs.put f).lookup? name = if f.signature.name = name then some f else fs.lookup? name := by
  obtain ⟨entries⟩ := fs
  unfold put
  dsimp only
  split
  · rename_i hany
    by_cases hname : f.signature.name = name
    · subst hname
      simpa [lookup?] using find?_replaced hany
    · simpa [lookup?, hname] using find?_replaced_other hname
  · rename_i hnone
    simp only [lookup?, List.find?_append]
    by_cases hname : f.signature.name = name
    · have hfree : entries.find? (·.signature.name == name) = none := by
        simpa [hname] using hnone
      simp [hfree, hname]
    · simp [hname]

theorem all_put_new (h : fs.find? f.signature.name = none) :
    (fs.put f).all = fs.all ++ [f.toFunction] := by
  have hany : fs.entries.any (·.signature.name == f.signature.name) = false := by
    simpa [find?, lookup?] using h
  simp [put, all, hany]

theorem all_put_known (h : (fs.find? f.signature.name).isSome) :
    (fs.put f).all = fs.all.map fun g =>
      if g.signature.name == f.signature.name then f.toFunction else g := by
  have hany : fs.entries.any (·.signature.name == f.signature.name) = true := by
    simpa [find?, lookup?] using h
  simp only [put, all, hany, if_true, List.map_map]
  refine List.map_congr_left fun g _ => ?_
  simp only [Function.comp_apply, beq_iff_eq]
  split
  · rfl
  · rfl

end Put

/-! ## Marks -/

theorem lookup?_marked : (fs.marked names).lookup? name =
    (fs.lookup? name).map fun f => { f with called := f.called || names.contains name } := by
  obtain ⟨entries⟩ := fs
  simp only [lookup?, marked]
  induction entries with
  | nil => rfl
  | cons g rest ih =>
    by_cases hg : g.signature.name = name
    · simp [hg]
    · simpa [hg] using ih

theorem marked_marked {more : List Name} :
    (fs.marked names).marked more = fs.marked (names ++ more) := by
  simp [marked, Bool.or_assoc]

theorem isCalled_marked (h : fs.isCalled name = true) : (fs.marked names).isCalled name = true := by
  simp only [isCalled, lookup?_marked]
  cases he : fs.lookup? name with
  | none => simp [isCalled, he] at h
  | some e =>
    have hcalled : e.called = true := by simpa [isCalled, he] using h
    simp [hcalled]

/-- A name that is marked is called, if there is a function of that name. -/
theorem isCalled_of_marked (h : (fs.find? name).isSome) (hname : name ∈ names) :
    (fs.marked names).isCalled name = true := by
  obtain ⟨e, he⟩ := Option.isSome_iff_exists.mp (by simpa [find?] using h)
  simp [isCalled, lookup?_marked, he, hname]

/-! ## Announcing and defining -/

theorem declare_ok {gs : Functions} {s : Signature} {stub : Handle} {e : Event} :
    declare s stub fs = .ok e gs ↔ fs.find? s.name = none ∧ e = .prototypeDeclared s.name stub ∧
      gs = fs.put ⟨⟨stub, s, false⟩, false⟩ := by
  simp only [declare, bind_ok, get_ok]
  constructor
  · rintro ⟨_, _, ⟨rfl, rfl⟩, h⟩
    simp only [refuse_ok, bind_ok, set_ok, pure_ok] at h
    obtain ⟨hfree, _, _, rfl, rfl, rfl⟩ := h
    exact ⟨by simpa using hfree, rfl, rfl⟩
  · rintro ⟨hfree, rfl, rfl⟩
    refine ⟨fs, fs, ⟨rfl, rfl⟩, ?_⟩
    simp only [refuse_ok, bind_ok, set_ok, pure_ok]
    exact ⟨by simp [hfree], (), _, rfl, trivial, rfl⟩

/-- An announcement is refused before anything is changed. -/
theorem declare_known {s : Signature} {stub : Handle} (h : (fs.find? s.name).isSome) :
    declare s stub fs = .error (.semantic (.duplicatePrototype s.name)) fs := by
  rw [declare, bind_of_ok (get_ok.mpr ⟨rfl, rfl⟩), if_pos h]
  rfl

theorem declare_error {gs : Functions} {s : Signature} {stub : Handle} {e : Failure}
    (h : declare s stub fs = .error e gs) : gs = fs ∧ (fs.find? s.name).isSome := by
  by_cases hfound : (fs.find? s.name).isSome
  · rw [declare_known hfound] at h
    cases h
    exact ⟨rfl, hfound⟩
  · have hfree : fs.find? s.name = none := by simpa using hfound
    rw [declare_ok.mpr ⟨hfree, rfl, rfl⟩] at h
    cases h

/-- An announcement under a free name is not called yet, and changes no other entry. -/
theorem isCalled_announced {stub : Handle} {s : Signature} (h : fs.find? s.name = none) :
    (fs.put ⟨⟨stub, s, false⟩, false⟩).isCalled name = fs.isCalled name := by
  simp only [isCalled, lookup?_put]
  split
  · rename_i hname
    have hfree : fs.lookup? name = none := by simpa [find?, ← hname] using h
    simp [hfree]
  · rfl

/-- The calls of an announced function are calls of the one that is defined in its place. -/
theorem isCalled_define {entry : Handle} {s : Signature} :
    (fs.define s entry).isCalled name = fs.isCalled name := by
  rw [define, isCalled, lookup?_put]
  split
  · rename_i hname
    simp [← hname]
  · rfl

end Functions

end NwScript
