-- Where the jumps of a whole program lead: each has one destination in the stream, and nothing but
-- jumps has any.
import NwScript.Proofs.Program.Layout

namespace NwScript

namespace Stream

/-- A stream in which no jump dangles and none could lead to two places. -/
structure Aimed (s : Stream) : Prop where
  distinct : (s.code.map (·.handle)).Nodup
  below : ∀ i ∈ s.code, i.handle < s.next
  targets : ∀ i ∈ s.code, i.target.isSome ↔ i.op.isJump
  lands : ∀ i ∈ s.code, i.op.isJump →
    ∃ k j, s.landing? i = some k ∧ s.code[k]? = some j ∧ i.target = some j.handle

end Stream

theorem Op.jump_of_isJump {op : Op} (h : op.isJump = true) : ∃ c, op = .jump c := by
  cases op with
  | jump c => exact ⟨c, rfl⟩
  | _ => cases h

namespace Build

open Codegen

section Jumps

variable {engine : Engine} {items : Script} {env : Env} {p : Program} {s : Session}
  {i : Instruction}

theorem Compiled.plain {base : Env} {table : Functions} {f : FunctionDef} {g : Segment}
    {code : List Instruction} (h : Compiled base table f g)
    (hg : g.body = some code) (hi : i ∈ code) (hop : i.op.isJump = false) : i.target = none := by
  obtain ⟨_, code', _, st, st', hbody, _, hscope, hrun, hcode, _⟩ := h
  rw [hg] at hbody
  cases hbody
  obtain ⟨first, hcode', _, htidy, _⟩ := body_code hrun hscope
  cases List.append_cancel_left (hcode.symm.trans hcode')
  exact htidy.plain i hi hop

theorem Starts.jumps {segs : List Segment} {start : List Instruction} (h : Starts segs start)
    (hi : i ∈ start) : i.op = .jump .jsr ∨ i.op.isJump = false ∧ i.target = none := by
  cases h with
  | main =>
    simp only [List.mem_cons, List.not_mem_nil, or_false] at hi
    rcases hi with rfl | rfl
    · exact .inl rfl
    · exact .inr ⟨rfl, rfl⟩
  | conditional =>
    simp only [List.mem_cons, List.not_mem_nil, or_false] at hi
    rcases hi with rfl | rfl | rfl
    · exact .inr ⟨rfl, rfl⟩
    · exact .inl rfl
    · exact .inr ⟨rfl, rfl⟩

/-- Instructions of a program that are no jumps have no destination. -/
theorem Assembled.plain (h : Assembled engine items env p s) (hi : i ∈ p.code)
    (hop : i.op.isJump = false) : i.target = none := by
  simp only [Program.code, Program.head, List.mem_append, List.mem_flatMap] at hi
  rcases hi with ((hi | hi) | hi) | ⟨g, hg, hi⟩
  · obtain ⟨n, hglobals⟩ := h.globals
    exact (globalsCode_tidy hglobals).2.plain i hi hop
  · exact h.aimless i hi
  · rcases h.start.jumps hi with hcall | ⟨_, htarget⟩
    · rw [hcall] at hop
      cases hop
    · exact htarget
  · rcases List.mem_cons.mp hi with rfl | hmem
    · rfl
    · cases hb : g.body with
      | none => simp [hb] at hmem
      | some code =>
        obtain ⟨mid, hsegs, _⟩ := h.segmented
        obtain ⟨f, _, hc⟩ := hsegs.origin g hg (by simp [hb])
        exact hc.plain hb (by simpa [hb] using hmem) hop

/-- Calls lead to entries, and other jumps to the part of the program that they stand in. -/
theorem Assembled.lands (h : Assembled engine items env p s) (hi : i ∈ p.code)
    (hop : i.op.isJump = true) : ∃ k, s.out.stream.landing? i = some k := by
  have hl := h.laidOut
  obtain ⟨c, hc⟩ := Op.jump_of_isJump hop
  by_cases hcall : c = .jsr
  · subst hcall
    obtain ⟨g, hg, _, htarget⟩ := hl.calls i hi hc
    obtain ⟨l, r, hsplit⟩ := List.append_of_mem hg
    rw [Stream.landing?, htarget]
    exact ⟨_, hl.entries l g r hsplit⟩
  · simp only [Program.code, Program.head, List.mem_append, List.mem_flatMap] at hi
    rcases hi with ((hi | hi) | hi) | ⟨g, hg, hi⟩
    · obtain ⟨_, k, _, hk⟩ := hl.globalJumps i hi c hc
      exact ⟨k, hk⟩
    · have hclose : i.op ∈ p.close.map (·.op) := List.mem_map.mpr ⟨i, hi, rfl⟩
      rw [h.close, hc] at hclose
      split at hclose <;> simp at hclose
    · rcases h.start.jumps hi with hjsr | ⟨hno, _⟩
      · rw [hjsr] at hc
        cases hc
        exact absurd rfl hcall
      · rw [hno] at hop
        cases hop
    · obtain ⟨l, r, hsplit⟩ := List.append_of_mem hg
      obtain ⟨k, _, hk⟩ := hl.jumps l g r hsplit i hi c hc hcall
      exact ⟨_, hk⟩

theorem Assembled.aimed (h : Assembled engine items env p s) : s.out.stream.Aimed := by
  have hlands {i : Instruction} (hi : i ∈ p.code) (hop : i.op.isJump = true) :
      ∃ k j, s.out.stream.landing? i = some k ∧ s.out.stream.code[k]? = some j ∧
        i.target = some j.handle := by
    obtain ⟨k, hk⟩ := h.lands hi hop
    obtain ⟨x, hx, hindex⟩ := Option.bind_eq_some_iff.mp hk
    obtain ⟨j, hj, rfl⟩ := Stream.get_of_indexOf? hindex
    exact ⟨k, j, hk, hj, hx⟩
  constructor
  · rw [h.code_eq]
    exact h.nodup
  · rw [h.code_eq]
    exact h.below
  · rw [h.code_eq]
    intro i hi
    cases hop : i.op.isJump with
    | true =>
      obtain ⟨_, j, _, _, hj⟩ := hlands hi hop
      simp [hj]
    | false => simp [h.plain hi hop]
  · intro i hi hop
    rw [h.code_eq] at hi
    exact hlands hi hop

end Jumps

end Build

/-! ## Whole programs -/

/-- A script that compiles on its own ends with a stream in its session. -/
theorem compile_ok {setup : Setup} {engine : Engine} {script : Script} {stream : Stream}
    (h : (compile setup engine script).1 = .ok stream) :
    ∃ u s, Build.script setup script { env := { engine } } = .ok u s ∧ s.out.stream = stream := by
  unfold compile at h
  split at h
  · rename_i u s hs
    exact ⟨u, s, hs, Except.ok.inj h⟩
  · cases h

/-- Jumps of a compiled script neither dangle nor are ambiguous. -/
theorem compiled_jumps_aimed {setup : Setup} {engine : Engine} {script : Script} {stream : Stream}
    (h : (compile setup engine script).1 = .ok stream) : stream.Aimed := by
  obtain ⟨u, s, hs, rfl⟩ := compile_ok h
  obtain ⟨items, env, p, _, ha⟩ := Build.script_assembled hs
  exact ha.aimed

/-- Two functions that call each other, and jumps over conditional code. -/
theorem parity_jumps_aimed :
    ∃ stream, (compile {} {} Build.parity).1 = .ok stream ∧ stream.Aimed := by
  obtain ⟨s, hs⟩ :=
    @Build.compiles_of_gives Build.parity { env := { engine := {} } } rfl (by decide +kernel)
  have hc : (compile {} {} Build.parity).1 = .ok s.out.stream := by rw [compile, hs]
  exact ⟨s.out.stream, hc, compiled_jumps_aimed hc⟩

end NwScript
