-- Programs that compile verify. Every instruction of the globals and of the functions has a shape
-- of the stack, whichever way control gets to it.
import NwScript.Proofs.Shape.Program

namespace NwScript

/-! ## Shapes by index -/

namespace Stream

variable (stream : Stream) (env : Env) (shape : Nat → Shape)

/-- The instruction at an index finds its operands. What it leaves is found by the instruction
behind it, if control goes on there, and where it jumps to. -/
def Proceeds (k : Nat) (i : Instruction) : Prop :=
  ∃ next, i.after? env (shape k) = some next ∧
    (i.op.fallsThrough = true → k + 1 < stream.code.length → shape (k + 1) = next) ∧
    (i.op.branches = true → ∃ t, stream.landing? i = some t ∧ shape t = next)

/-- A command that is deferred at one index and ends with the return at another one. The jump before
it leads behind it, and it begins and ends with the shape that was there when it was deferred. -/
def DefersAt (k e : Nat) : Prop :=
  ∃ skip retn, stream.code[k + 1]? = some skip ∧ skip.op = .jump .jmp ∧
    stream.landing? skip = some (e + 1) ∧ k + 1 < e ∧ stream.code[e]? = some retn ∧
    retn.op = .retn ∧ shape (k + 2) = shape k ∧ shape e = shape k

end Stream

/-- The shape that the instruction at an index finds. -/
def shapeAt (spots : List Spot) (k : Nat) : Shape := entering (spots.drop k) []

section Indices

variable {stream : Stream} {env : Env} {spots : List Spot} {x y : Spot} {k j : Nat}
  {i : Instruction}

theorem shapeAt_append {l r : List Spot} : shapeAt (l ++ r) (l.length + k) = shapeAt r k := by
  rw [shapeAt, shapeAt, List.drop_append, List.drop_eq_nil_of_le (Nat.le_add_right _ _)]
  simp

/-- An instruction stands at one index only. -/
theorem index_unique (hn : (stream.code.map (·.handle)).Nodup) (hj : stream.code[j]? = some i)
    (hk : stream.code[k]? = some i) : j = k := by
  have hlt : j < (stream.code.map (·.handle)).length := by
    simpa using (List.getElem?_eq_some_iff.mp hj).1
  exact (List.getElem?_inj hlt hn).mp (by simp [hj, hk])

theorem spotted_at (hcode : spots.map Spot.instr = stream.code)
    (hn : (stream.code.map (·.handle)).Nodup) {t : Handle} {shape : Shape}
    (h : Spotted spots t shape) : ∃ k, stream.indexOf? t = some k ∧ shapeAt spots k = shape := by
  obtain ⟨x, hx, rfl, rfl⟩ := h
  obtain ⟨l, r, rfl⟩ := List.append_of_mem hx
  have hstands : stream.Stands l.length (x.instr :: r.map Spot.instr) :=
    ⟨l.map Spot.instr, [], by simp [← hcode], by simp⟩
  exact ⟨l.length, hstands.index hn, @shapeAt_append 0 l _⟩

/-- What is linked in one part of the code is found at its indices. -/
theorem proceeds_at {before part rest : List Spot} (hspots : spots = before ++ part ++ rest)
    (hcode : spots.map Spot.instr = stream.code) (hn : (stream.code.map (·.handle)).Nodup)
    (hl : Linked env (Spotted part) part (entering rest [])) (hi : stream.code[k]? = some i)
    (hlow : before.length ≤ k) (hhigh : k < (before ++ part).length) :
    stream.Proceeds env (shapeAt spots) k i := by
  obtain ⟨j, rfl⟩ := Nat.le.dest hlow
  have hj : j < part.length := by simpa using hhigh
  obtain ⟨l, x, r, rfl, rfl⟩ : ∃ l x r, part = l ++ x :: r ∧ l.length = j :=
    ⟨part.take j, part[j], part.drop (j + 1), by simp, by simp; omega⟩
  have hsplit : spots = (before ++ l) ++ x :: (r ++ rest) := by simp [hspots]
  have hinstr : i = x.instr := by
    rw [← hcode, hsplit, ← List.length_append, ← List.length_map Spot.instr, List.map_append] at hi
    simpa using hi.symm
  have hhere : shapeAt spots (before.length + l.length) = x.shape := by
    rw [hsplit, ← List.length_append]
    exact @shapeAt_append 0 (before ++ l) _
  have hbehind : shapeAt spots (before.length + l.length + 1) = entering r (entering rest []) := by
    rw [← entering_append, hsplit, ← List.length_append]
    exact shapeAt_append
  obtain ⟨⟨next, hafter, hfalls, hjumps⟩, _⟩ := (linked_append.mp hl).2
  refine ⟨next, by rw [hhere, hinstr]; exact hafter, ?_, ?_⟩
  · intro hop _
    rw [hbehind]
    exact hfalls (hinstr ▸ hop)
  · intro hop
    obtain ⟨t, ht, haim⟩ := hjumps (hinstr ▸ hop)
    have hwhole : Spotted spots t next := haim.mono fun y hy => by
      rw [hspots]
      exact List.mem_append_left _ (List.mem_append_right _ hy)
    obtain ⟨k, hk, hshape⟩ := spotted_at hcode hn hwhole
    exact ⟨k, by simp [Stream.landing?, hinstr, ht, hk], hshape⟩

theorem Defers.at (hcode : spots.map Spot.instr = stream.code)
    (hn : (stream.code.map (·.handle)).Nodup) (h : Defers spots x y) :
    ∃ k e, stream.code[k]? = some x.instr ∧ stream.code[e]? = some y.instr ∧
      stream.DefersAt (shapeAt spots) k e := by
  obtain ⟨l, jump, command, land, r, hspots, hop, htarget, hretn, hfirst, hlast⟩ := h
  let start := l ++ x :: jump :: command
  have hend : spots = start ++ y :: land :: r := by simp [hspots, start]
  have hindex : stream.indexOf? land.instr.handle = some (start.length + 1) := by
    have hstands : stream.Stands (start.length + 1) (land.instr :: r.map Spot.instr) :=
      ⟨(start ++ [y]).map Spot.instr, [], by simp [← hcode, hend], by simp⟩
    exact hstands.index hn
  have hstore : shapeAt spots l.length = x.shape := hspots ▸ @shapeAt_append 0 l _
  refine ⟨l.length, start.length, by simp [← hcode, hspots], by simp [← hcode, hend],
    jump.instr, y.instr, by simp [← hcode, hspots], hop,
    by simp [Stream.landing?, htarget, hindex], by simp [start], by simp [← hcode, hend], hretn,
    ?_, ?_⟩
  · rw [hstore, hspots, shapeAt_append, ← hfirst]
    exact entering_append
  · rw [hstore, ← hlast, hend]
    exact @shapeAt_append 0 start _

theorem Defers.from_store (hcode : spots.map Spot.instr = stream.code)
    (hn : (stream.code.map (·.handle)).Nodup) (h : Defers spots x y)
    (hk : stream.code[k]? = some x.instr) : ∃ e, stream.DefersAt (shapeAt spots) k e := by
  obtain ⟨j, e, hj, _, hat⟩ := h.at hcode hn
  exact ⟨e, index_unique hn hj hk ▸ hat⟩

theorem Defers.to_return (hcode : spots.map Spot.instr = stream.code)
    (hn : (stream.code.map (·.handle)).Nodup) (h : Defers spots x y)
    (hk : stream.code[k]? = some y.instr) : ∃ j, stream.DefersAt (shapeAt spots) j k := by
  obtain ⟨j, e, _, he, hat⟩ := h.at hcode hn
  exact ⟨j, index_unique hn he hk ▸ hat⟩

end Indices

/-! ## Programs -/

/-- Whether an index lies in the code of the globals, which ends where they are closed, or in that
of the functions. -/
def Program.Holds (p : Program) (k : Nat) : Prop :=
  k < p.head.length ∨ (p.head ++ p.start).length ≤ k

namespace Build

open Codegen

/-- The shapes of a program. The globals start with an empty stack, and are closed when just they
are on it; a function starts with the slots of its result and its parameters, and the return at its
end finds the result alone. -/
structure Verified (env : Env) (stream : Stream) (p : Program) (shape : Nat → Shape) : Prop where
  first : shape 0 = []
  globals : env.globalShape? = some (shape p.globals.length)
  entries : ∀ l g r, p.segments = l ++ g :: r → g.body.isSome →
    Enters env g.signature (shape (p.head ++ p.start ++ l.flatMap Segment.code).length)
  steps : ∀ k i, stream.code[k]? = some i → p.Holds k → stream.Proceeds env shape k i
  commands : ∀ k i globals locals, stream.code[k]? = some i → p.Holds k →
    i.op = .storeState globals locals → ∃ e, stream.DefersAt shape k e
  returns : ∀ e i, stream.code[e]? = some i → p.Holds e → i.op = .retn →
    (∃ k, stream.DefersAt shape k e) ∨ ∃ l g r, p.segments = l ++ g :: r ∧
      e + 1 = (p.head ++ p.start ++ (l ++ [g]).flatMap Segment.code).length ∧
      env.shape? g.signature.returnType = some (shape e)

/-- An environment with just what a script declares. A struct has the slots of its fields, one after
another. -/
structure Declared (engine : Engine) (items : Script) (p : Program) (env : Env) : Prop where
  engine : env.engine = engine
  structs : ∀ d, .struct d ∈ items → ∃ ks, env.shape? (.struct d.name) = some ks ∧
    env.shapes? (d.fields.map (·.ty)) = some ks
  globals : env.globals = items.filterMap Item.global?
  functions : env.functions.all = p.segments.map Segment.function
  signatures : ∀ f, .function f ∈ items → ∃ g ∈ p.segments, g.body.isSome ∧
    g.signature.Agrees f.signature

section Programs

variable {engine : Engine} {items : Script} {env : Env} {p : Program} {s : Session}

/-- Every function is found by its entry. -/
theorem Assembled.callee (h : Assembled engine items env p s) {g : Segment} (hg : g ∈ p.segments) :
    s.env.callee? g.entry = some g.function := by
  obtain ⟨l, r, hsplit⟩ := List.append_of_mem hg
  have hn := h.nodup
  simp only [Program.code, hsplit, List.flatMap_append, List.flatMap_cons, List.map_append,
    List.nodup_append] at hn
  have hnone : (l.map Segment.function).find? (·.entry == g.entry) = none := by
    simp only [List.find?_eq_none, List.mem_map, beq_iff_eq]
    rintro _ ⟨k, hk, rfl⟩ heq
    refine hn.2.1.2.2 k.entry ?_ g.entry ?_ heq
    · exact List.mem_map.mpr ⟨⟨k.entry, .nop, none⟩,
        List.mem_flatMap.mpr ⟨k, hk, by simp [Segment.code]⟩, rfl⟩
    · simp [Segment.code]
  have hfound : (l.map Segment.function ++ g.function :: r.map Segment.function).find?
      (·.entry == g.entry) = some g.function := by
    simp [List.find?_append, hnone, Segment.function]
  rw [Env.callee?, h.table]
  simpa [hsplit] using hfound

theorem Assembled.early (h : Assembled engine items env p s) (ht : engine.Typed) :
    Early env s.env ∧ s.env.globalShape? = some (s.env.globalKinds s.env.globals) := by
  obtain ⟨n, hglobals⟩ := h.globals
  obtain ⟨hengine, _⟩ := h.sees
  obtain ⟨hearly, _⟩ := globalsCode_early hglobals (early_empty ht hengine)
  exact ⟨hearly, hearly.globalShape (by rw [h.env_eq]; rfl) (by rw [h.env_eq]; rfl)⟩

/-- The globals go from an empty stack to one that holds just them. -/
theorem Assembled.globals_inOrder (h : Assembled engine items env p s) (ht : engine.Typed) :
    InOrder s.env (fun _ _ => False) [] [] p.globals (s.env.globalKinds s.env.globals) := by
  obtain ⟨n, hglobals⟩ := h.globals
  obtain ⟨hengine, _⟩ := h.sees
  obtain ⟨_, hshape⟩ := h.early ht
  have hsame : s.env.globals = env.globals ∧ s.env.structs = env.structs := by
    rw [h.env_eq]
    exact ⟨rfl, rfl⟩
  have hall := @Build.globals_inOrder _ _ _ (fun _ _ => False) _ _ _ _ hglobals
    (early_empty ht hengine) (by simp [hsame.2]) (by simp [hsame.1]) hshape
  rw [← hsame.1] at hall
  exact hall

/-- Functions are compiled with what is known when the program is complete. -/
theorem Assembled.partOf (h : Assembled engine items env p s) (ht : engine.Typed) {fs : Functions}
    (hgrows : Functions.Grows fs.all (p.segments.map Segment.function)) :
    ({ s.env with functions := fs } : Env).PartOf s.env := by
  obtain ⟨hearly, hshape⟩ := h.early ht
  obtain ⟨hengine, _, hbuilt, _⟩ := h.sees
  refine ⟨hbuilt.laid, hengine ▸ ht, rfl, fun _ _ h => h, ?_, List.prefix_refl _, fun _ => rfl,
    hshape, ?_⟩
  · intro g hg
    have hsame : s.env.structs = env.structs := by rw [h.env_eq]; rfl
    have hmem : g ∈ env.globals := by rw [h.env_eq] at hg; exact hg
    obtain ⟨ks, hks⟩ := hearly.known g hmem
    rw [← hsame] at hks
    rw [Env.kinds_of_slots hks]
    exact hks
  · intro f hf
    obtain ⟨k, hk, hentry, _, hret, hparams⟩ := hgrows f hf
    obtain ⟨g, hg, rfl⟩ := List.mem_map.mp hk
    exact ⟨g.function, hentry ▸ h.callee hg, hret, hparams⟩

theorem Assembled.checked (h : Assembled engine items env p s) (ht : engine.Typed) :
    ∃ spots, Checked s.env p.segments [] spots := by
  obtain ⟨mid, hsegs, _⟩ := h.segmented
  obtain ⟨_, _, hbuilt, hsealed⟩ := h.sees
  refine checked_all fun g hg behind => ?_
  cases hb : g.body with
  | none => exact ⟨_, checked_announced hb⟩
  | some code =>
    obtain ⟨f, _, hc⟩ := hsegs.origin g hg (by simp [hb])
    obtain ⟨fs, s₁, s₂, n, m, retn, flow, first, hbody, hgrows, hbinds, hlays⟩ := h.laid hc
    have hret : ∃ ks, s.env.structs.slots g.signature.returnType = .ok ks := by
      have htypes := (hsegs.accepted g hg).types
      have hsame : s.env.structs = env.closed.structs := by rw [h.env_eq]
      simp only [checkTypes, except_bind_ok] at htypes
      obtain ⟨_, hcheck, _⟩ := htypes
      rw [← hsame] at hcheck
      exact Structs.slots_of_check hbuilt.laid hcheck
    rw [hsegs.table] at hgrows
    exact checked_defined (h.partOf ht hgrows) hsealed hret hbody hbinds hlays

/-- The stack stays as it is where the globals are closed. -/
theorem linked_close {whole : Env} {aims : Handle → Shape → Prop} {base : Shape}
    {close : List Instruction} (hops : close.map (·.op) = [] ∨ close.map (·.op) = [.saveBp])
    (hshape : whole.globalShape? = some base) :
    Linked whole aims (close.map (Spot.mk · base)) base ∧
      entering (close.map (Spot.mk · base)) base = base ∧ ∀ i ∈ close, i.op = .saveBp := by
  rcases hops with hops | hops
  · rw [List.map_eq_nil_iff.mp hops]
    exact ⟨trivial, rfl, by simp⟩
  · obtain ⟨i, rfl, hi⟩ : ∃ i, close = [i] ∧ i.op = .saveBp := by
      cases close with
      | nil => cases hops
      | cons i rest => simp_all
    refine ⟨⟨⟨base, ?_, fun _ => rfl, ?_⟩, trivial⟩, rfl, by simp [hi]⟩
    · simp [Instruction.after?, hi, hshape]
    · simp [hi, Op.branches]

theorem Starts.first {segs : List Segment} {start : List Instruction} (h : Starts segs start) :
    ∃ i rest, start = i :: rest := by
  cases h <;> exact ⟨_, _, rfl⟩

/-- The instructions of a program with their shapes, part by part. -/
structure Sketch (whole : Env) (p : Program) (globals close start rest : List Spot) : Prop where
  globals_code : globals.map Spot.instr = p.globals
  close_code : close.map Spot.instr = p.close
  start_code : start.map Spot.instr = p.start
  first : entering (globals ++ close ++ start ++ rest) [] = []
  base : whole.globalShape? = some (entering (close ++ start ++ rest) [])
  linked : Linked whole (Spotted (globals ++ close)) (globals ++ close)
    (entering (start ++ rest) [])
  paired : ∀ x ∈ globals ++ close, Paired (globals ++ close) x
  checked : Checked whole p.segments [] rest

theorem Assembled.sketch (h : Assembled engine items env p s) (ht : engine.Typed) :
    ∃ globals close start rest, Sketch s.env p globals close start rest := by
  obtain ⟨_, hshape⟩ := h.early ht
  obtain ⟨globals, hglobals, _, hchain⟩ := h.globals_inOrder ht
  obtain ⟨rest, hrest⟩ := h.checked ht
  obtain ⟨i, more, hstart⟩ := h.start.first
  let base := s.env.globalKinds s.env.globals
  let close := p.close.map (Spot.mk · base)
  let start := p.start.map (Spot.mk · base)
  have hsame (xs : List Instruction) : (xs.map (Spot.mk · base)).map Spot.instr = xs := by
    simp [Function.comp_def]
  have hops : p.close.map (·.op) = [] ∨ p.close.map (·.op) = [.saveBp] := by
    rw [h.close]
    split
    · exact .inl rfl
    · exact .inr rfl
  have hbehind : entering (start ++ rest) [] = base := by simp [start, hstart, entering]
  obtain ⟨hlinked, hentering, hsave⟩ := @linked_close _ (Spotted (globals ++ close)) _ _ hops hshape
  refine ⟨globals, close, start, rest, hglobals, hsame _, hsame _, ?_, ?_, ?_, ?_, hrest⟩
  · rw [List.append_assoc, entering_append, hbehind, entering_append, hentering]
    exact hchain.entering
  · rw [List.append_assoc, entering_append, hbehind, hentering]
    exact hshape
  · rw [hbehind, linked_append, hentering]
    refine ⟨hchain.linked.mono fun t x hx => ?_, hlinked⟩
    exact (hx.resolve_left id).mono fun y => List.mem_append_left _
  · intro x hx
    rcases List.mem_append.mp hx with hx | hx
    · simpa using (hchain.paired x hx).within [] close
    · obtain ⟨i, hi, rfl⟩ := List.mem_map.mp hx
      exact ⟨by simp [hsave i hi], by simp [hsave i hi]⟩

section Sketch

variable {whole : Env} {globals close start rest : List Spot}

theorem Sketch.head_code (h : Sketch whole p globals close start rest) :
    (globals ++ close).map Spot.instr = p.head := by
  simp [h.globals_code, h.close_code, Program.head]

theorem Sketch.code (h : Sketch whole p globals close start rest) :
    (globals ++ close ++ start ++ rest).map Spot.instr = p.code := by
  rw [Program.code, List.map_append, List.map_append, h.head_code, h.start_code, h.checked.code]

theorem Sketch.length_before (h : Sketch whole p globals close start rest) :
    (p.head ++ p.start).length = (globals ++ close ++ start).length := by
  rw [← h.head_code, ← h.start_code, ← List.map_append, List.length_map]

/-- Outside the call that a run starts with, an instruction is one of the globals or of a
function. -/
theorem Sketch.part {k : Nat} {i : Instruction} (h : Sketch whole p globals close start rest)
    (hi : p.code[k]? = some i) (hk : p.Holds k) :
    ∃ x, x.instr = i ∧ (x ∈ globals ++ close ∨ x ∈ rest) := by
  rw [← h.code, List.getElem?_map, Option.map_eq_some_iff] at hi
  obtain ⟨x, hx, rfl⟩ := hi
  refine ⟨x, rfl, ?_⟩
  rcases hk with hk | hk
  · rw [← h.head_code, List.length_map] at hk
    rw [List.append_assoc (globals ++ close), List.getElem?_append_left hk] at hx
    exact .inl (List.mem_of_getElem? hx)
  · rw [h.length_before] at hk
    rw [List.getElem?_append_right hk] at hx
    exact .inr (List.mem_of_getElem? hx)

/-- The shapes of the parts are shapes of the program. -/
theorem Sketch.verified {stream : Stream} (h : Sketch whole p globals close start rest)
    (hsame : stream.code = p.code) (hn : (stream.code.map (·.handle)).Nodup) :
    Verified whole stream p (shapeAt (globals ++ close ++ start ++ rest)) := by
  let spots := globals ++ close ++ start ++ rest
  have hcode : spots.map Spot.instr = stream.code := h.code.trans hsame.symm
  have hlength := h.length_before
  have hleft {x y : Spot} (hd : Defers (globals ++ close) x y) : Defers spots x y := by
    simpa [spots] using hd.within [] (start ++ rest)
  have hright {x y : Spot} (hd : Defers rest x y) : Defers spots x y := by
    simpa [spots] using hd.within (globals ++ close ++ start) []
  refine ⟨h.first, ?_, ?_, ?_, ?_, ?_⟩
  · have hbase := @shapeAt_append 0 globals (close ++ start ++ rest)
    simp only [← List.append_assoc, Nat.add_zero] at hbase
    rw [← h.globals_code, List.length_map, h.base, hbase]
    rfl
  · intro l g r hsplit hb
    obtain ⟨front, x, back, rfl, hfront, henters⟩ := h.checked.entries l g r hsplit hb
    rw [List.length_append, hlength, ← hfront, List.length_map, shapeAt_append]
    exact (@shapeAt_append 0 front (x :: back)).symm ▸ henters
  · intro k i hi hk
    rcases hk with hk | hk
    · rw [← h.head_code, List.length_map] at hk
      exact proceeds_at (show spots = [] ++ (globals ++ close) ++ (start ++ rest) by simp [spots])
        hcode hn h.linked hi (Nat.zero_le _) hk
    · rw [hlength] at hk
      have hlt : k < spots.length := by
        have := (List.getElem?_eq_some_iff.mp hi).1
        rwa [← hcode, List.length_map] at this
      exact proceeds_at (show spots = globals ++ close ++ start ++ rest ++ [] by simp [spots])
        hcode hn h.checked.linked hi hk hlt
  · intro k i a b hi hk hop
    obtain ⟨x, rfl, hx | hx⟩ := h.part (hsame ▸ hi) hk
    · obtain ⟨y, hy⟩ := (h.paired x hx).1 a b hop
      exact (hleft hy).from_store hcode hn hi
    · obtain ⟨y, hy⟩ := h.checked.snapshots x hx a b hop
      exact (hright hy).from_store hcode hn hi
  · intro e i hi hk hop
    obtain ⟨x, rfl, hx | hx⟩ := h.part (hsame ▸ hi) hk
    · obtain ⟨y, hy⟩ := (h.paired x hx).2 hop
      exact .inl ((hleft hy).to_return hcode hn hi)
    · rcases h.checked.returns x hx hop with ⟨y, hy⟩ | hreturns
      · exact .inl ((hright hy).to_return hcode hn hi)
      · obtain ⟨l, g, r, front, back, hsplit, rfl, hfront, hshape⟩ := hreturns
        have hx : stream.code[(globals ++ close ++ start).length + front.length]? =
            some x.instr := by
          rw [← hcode, List.getElem?_map, List.getElem?_append_right (Nat.le_add_right _ _)]
          simp
        obtain rfl := index_unique hn hx hi
        refine .inr ⟨l, g, r, hsplit, ?_, ?_⟩
        · have hend := congrArg List.length hfront
          simp only [List.length_append, List.length_map, List.length_singleton] at hlength hend ⊢
          omega
        · rw [shapeAt_append]
          exact (@shapeAt_append 0 front (x :: back)).symm ▸ hshape

end Sketch

theorem Assembled.declared (h : Assembled engine items env p s) (ht : engine.Typed) :
    Declared engine items p s.env := by
  obtain ⟨n, hglobals⟩ := h.globals
  obtain ⟨mid, hsegs, _⟩ := h.segmented
  obtain ⟨hengine, hitems, _⟩ := h.sees
  have hsame : s.env.structs = env.structs := by rw [h.env_eq]; rfl
  refine ⟨hengine, fun d hd => ?_, hitems, h.table, fun f hf => ?_⟩
  · exact globalsCode_structs hglobals (early_empty ht hengine) (by simp [hsame]) hd
  · obtain ⟨g, hg, hc⟩ := hsegs.defined f hf
    obtain ⟨code, hbody, _⟩ := hc.body
    exact ⟨g, hg, by simp [hbody], hc.1⟩

/-- Every script that compiles gives a program that verifies. -/
theorem program_verifies {setup : Setup} {script : Script} {u : Unit} (ht : engine.Typed)
    (h : Build.script setup script { env := { engine } } = .ok u s) :
    ∃ items p shape, (Expansion.expand setup [] script).items = .ok items ∧
      LaidOut items s.out.stream s.entryIndex p ∧ Declared engine items p s.env ∧
      Verified s.env s.out.stream p shape := by
  obtain ⟨items, env, p, hitems, ha⟩ := script_assembled h
  obtain ⟨globals, close, start, rest, hsketch⟩ := ha.sketch ht
  have hn : (s.out.stream.code.map (·.handle)).Nodup := by
    rw [ha.code_eq]
    exact ha.nodup
  exact ⟨items, p, _, hitems, ha.laidOut, ha.declared ht, hsketch.verified ha.code_eq hn⟩

end Programs

/-! ## A script with a deferred command -/

/-- A script that defers a call of a function, which leaves a loop and a switch in it early. -/
def alarm : Script :=
  let int (n : Int32) : Expr := .literal (.int n)
  let times : Access := ⟨"times", []⟩
  [.struct ⟨"Place", [⟨.int, "room"⟩, ⟨.vector, "spot"⟩]⟩,
   .global ⟨false, .struct "Place", "last", none⟩,
   .global ⟨false, .int, "count", some (int 2)⟩,
   .prototype ⟨.void, "unused", []⟩,
   .function ⟨⟨.int, "ring", [⟨.struct "Place", "place", none⟩, ⟨.int, "times", none⟩]⟩,
     [.whileLoop (.access times)
       [.declare .int [⟨"left", some (.access times)⟩],
        .switch (.access ⟨"left", []⟩)
          [([.case (int 1)], [.breakOut]),
           ([.default], [.expr (.step .dec .post times), .ret (some (.access times))])],
        .expr (.assign .set ⟨"last", []⟩ (.access ⟨"place", []⟩))],
      .ret (some (int 0))]⟩,
   .function ⟨⟨.void, "main", []⟩,
     [.expr (.call "DelayCommand" [.literal (.float ⟨1⟩),
       .call "ring" [.access ⟨"last", []⟩, .access ⟨"count", []⟩]])]⟩]

def delaying : Engine :=
  { routines := [⟨.void, "DelayCommand", [⟨.float, "seconds", none⟩, ⟨.action, "command", none⟩]⟩] }

theorem alarm_verifies :
    ∃ s, Build.script {} alarm { env := { engine := delaying } } = .ok () s ∧
      ∃ p shape, LaidOut alarm s.out.stream s.entryIndex p ∧ Verified s.env s.out.stream p shape ∧
        shape p.globals.length = [.int, .float, .float, .float, .int] := by
  obtain ⟨s, hs⟩ := @compiles_of_gives alarm { env := { engine := delaying } } rfl
    (by decide +kernel)
  obtain ⟨items, p, shape, hitems, hlaid, hdeclared, hverified⟩ :=
    program_verifies (by simp [Engine.Typed, delaying]) hs
  rw [Expansion.expand_plain rfl] at hitems
  cases hitems
  refine ⟨s, hs, p, shape, hlaid, hverified, ?_⟩
  obtain ⟨ks, hstruct, hfields⟩ := hdeclared.structs ⟨"Place", _⟩ List.mem_cons_self
  obtain rfl : [.int, .float, .float, .float] = ks := Option.some.inj hfields
  have hglobals : s.env.shapes? [.struct "Place", .int] = some (shape p.globals.length) := by
    rw [← hverified.globals, Env.globalShape?, hdeclared.globals]
    rfl
  have hint : s.env.shape? .int = some [.int] := rfl
  simpa [Env.shapes?, hstruct, hint] using hglobals.symm

end Build

end NwScript
