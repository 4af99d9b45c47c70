-- Where code stands in a stream, and where its handles are found.
import NwScript.Machine.Stream

namespace NwScript

namespace Stream

/-- The code stands in the stream from an index on. -/
def Stands (s : Stream) (pc : Nat) (code : List Instruction) : Prop :=
  ∃ before after, s.code = before ++ code ++ after ∧ before.length = pc

section Stands

variable {s : Stream} {pc : Nat} {code more : List Instruction} {i : Instruction}

theorem Stands.left (h : s.Stands pc (code ++ more)) : s.Stands pc code := by
  obtain ⟨before, after, hcode, hpc⟩ := h
  exact ⟨before, more ++ after, by simp [hcode], hpc⟩

theorem Stands.right (h : s.Stands pc (code ++ more)) : s.Stands (pc + code.length) more := by
  obtain ⟨before, after, hcode, hpc⟩ := h
  exact ⟨before ++ code, after, by simp [hcode], by simp [hpc]⟩

theorem Stands.tail (h : s.Stands pc (i :: code)) : s.Stands (pc + 1) code :=
  @Stands.right _ _ [i] _ h

theorem Stands.get (h : s.Stands pc (i :: code)) : s.code[pc]? = some i := by
  obtain ⟨before, after, hcode, rfl⟩ := h
  simp [hcode]

/-- An instruction stands where it is, in front of all that follows. -/
theorem stands_of_get (h : s.code[pc]? = some i) : s.Stands pc (i :: s.code.drop (pc + 1)) := by
  obtain ⟨hpc, rfl⟩ := List.getElem?_eq_some_iff.mp h
  refine ⟨s.code.take pc, [], ?_, by simp [Nat.le_of_lt hpc]⟩
  rw [List.append_nil, List.getElem_cons_drop, List.take_append_drop]

theorem indexOf?_at {before after : List Instruction} {next : Handle}
    (hi : i.handle ∉ before.map (·.handle)) :
    indexOf? ⟨before ++ i :: after, next⟩ i.handle = some before.length := by
  have hnone : before.findIdx? (·.handle == i.handle) = none := by
    rw [List.findIdx?_eq_none_iff]
    intro j hj
    have hne : j.handle ≠ i.handle := fun he => hi (List.mem_map.mpr ⟨j, hj, he⟩)
    simpa using hne
  simp [indexOf?, List.findIdx?_append, hnone, List.findIdx?_cons]

/-- What is found for a handle has that handle. -/
theorem get_of_indexOf? {x : Handle} {k : Nat} (h : s.indexOf? x = some k) :
    ∃ j, s.code[k]? = some j ∧ j.handle = x := by
  obtain ⟨hk, hx, _⟩ := List.findIdx?_eq_some_iff_getElem.mp h
  exact ⟨s.code[k], List.getElem?_eq_getElem hk, by simpa using hx⟩

/-- An instruction is found where it stands. -/
theorem Stands.index (h : s.Stands pc (i :: code)) (hn : (s.code.map (·.handle)).Nodup) :
    s.indexOf? i.handle = some pc := by
  obtain ⟨before, after, hcode, rfl⟩ := h
  rw [List.append_assoc, List.cons_append] at hcode
  rw [hcode, List.map_append, List.nodup_append] at hn
  rw [show s = ⟨s.code, s.next⟩ from rfl, hcode]
  exact indexOf?_at fun hmem => hn.2.2 _ hmem i.handle (by simp) rfl

/-- A handle of some code is found in that code. -/
theorem Stands.found {x : Handle} (h : s.Stands pc code) (hn : (s.code.map (·.handle)).Nodup)
    (hx : x ∈ code.map (·.handle)) : ∃ k < code.length, s.indexOf? x = some (pc + k) := by
  obtain ⟨i, hi, rfl⟩ := List.mem_map.mp hx
  obtain ⟨before, after, rfl⟩ := List.append_of_mem hi
  exact ⟨before.length, by simp, h.right.index hn⟩

end Stands

end Stream

end NwScript
