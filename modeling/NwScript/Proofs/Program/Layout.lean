-- Where everything of a program stands in the stream, and where its jumps lead.
import NwScript.Proofs.Program.Assembly

namespace NwScript

namespace Build

open Codegen

/-! ## Layouts -/

/-- The parts of a program stand where they should, and jumps stay inside their part. The segments
before `g` are `l` wherever a program is split at a segment. -/
structure LaidOut (items : Script) (stream : Stream) (entryIndex : Nat) (p : Program) : Prop where
  stands : stream.code = p.code
  entry : entryIndex = p.head.length
  close : p.close.map (·.op) = if items.filterMap Item.global? = [] then [] else [.saveBp]
  base : ∀ i ∈ p.globals ++ p.start ++ p.segments.flatMap Segment.code, i.op ≠ .saveBp
  start : Starts p.segments p.start
  order : p.segments.map Segment.name = (items.filterMap Item.functionName?).eraseDups
  bodies : ∀ g ∈ p.segments,
    g.body.isSome ↔ ∃ f, .function f ∈ items ∧ f.signature.name = g.name
  returns : ∀ g ∈ p.segments, ∀ code, g.body = some code →
    ∃ first h, code = first ++ [⟨h, .retn, none⟩]
  entries : ∀ l g r, p.segments = l ++ g :: r →
    stream.indexOf? g.entry = some (p.head ++ p.start ++ l.flatMap Segment.code).length
  globalJumps : ∀ i ∈ p.globals, ∀ c, i.op = .jump c → c ≠ .jsr ∧
    ∃ k < p.globals.length, stream.landing? i = some k
  jumps : ∀ l g r, p.segments = l ++ g :: r → ∀ i ∈ g.code, ∀ c, i.op = .jump c → c ≠ .jsr →
    ∃ k < g.code.length, stream.landing? i =
      some ((p.head ++ p.start ++ l.flatMap Segment.code).length + k)
  calls : ∀ i ∈ p.code, i.op = .jump .jsr → ∃ g ∈ p.segments, g.body.isSome ∧
    i.target = some g.entry

section Layout

variable {engine : Engine} {items : Script} {env : Env} {p : Program} {s : Session}

/-! ## Bodies and calls -/

/-- A body that was compiled ends with a return, jumps only inside itself, and leaves the base of
the globals alone. -/
theorem Compiled.body {base : Env} {table : Functions} {f : FunctionDef} {g : Segment}
    (h : Compiled base table f g) :
    ∃ code, g.body = some code ∧ (∃ first r, code = first ++ [⟨r, .retn, none⟩]) ∧
      (∀ i ∈ code, ∀ c, i.op = .jump c → c ≠ .jsr →
        ∃ x, i.target = some x ∧ x ∈ code.map (·.handle)) ∧
      ∀ i ∈ code, i.op ≠ .saveBp := by
  obtain ⟨_, code, fs, st, st', hbody, _, hscope, hrun, hcode, _⟩ := h
  obtain ⟨first, hcode', _, htidy, _⟩ := body_code hrun hscope
  cases List.append_cancel_left (hcode.symm.trans hcode')
  refine ⟨_, hbody, ⟨first, st.next, rfl⟩, ?_, htidy.base⟩
  intro i hi c hc hne
  obtain ⟨x, hx, hin⟩ := htidy.aims i hi c hc hne
  exact ⟨x, hx, (htidy.handles x).mpr hin⟩

/-- A call of a script function ends with the jump to its entry. -/
theorem call_code {name : Name} {args : List Expr} {ty : Ty} {st st' : State} {f : Function}
    (hf : env.functions.find? name = some f)
    (h : Codegen.expr env (.call name args) st = .ok ty st') :
    ∃ first n, st'.code = st.code ++ (first ++ [⟨n, .jump .jsr, some f.entry⟩]) := by
  obtain ⟨code, k, hcode, _, _, hwrites⟩ := expr_written h
  rw [hwrites.code_eq]
  generalize st'.next = m at hcode
  cases hcode with
  | callFunction hf' =>
    rw [hf] at hf'
    cases hf'
    exact ⟨_, _, rfl⟩
  | callRoutine hnone =>
    rw [hf] at hnone
    cases hnone

/-! ## The parts of a program -/

theorem Starts.ops {segs : List Segment} {start : List Instruction} (h : Starts segs start)
    {i : Instruction} (hi : i ∈ start) :
    i.op ≠ .saveBp ∧ (i.op = .jump .jsr → ∃ g ∈ segs, g.body.isSome ∧ i.target = some g.entry) := by
  cases h with
  | main hg _ hb =>
    simp only [List.mem_cons, List.not_mem_nil, or_false] at hi
    rcases hi with rfl | rfl
    · exact ⟨nofun, fun _ => ⟨_, hg, hb, rfl⟩⟩
    · exact ⟨nofun, nofun⟩
  | conditional _ hg _ hb =>
    simp only [List.mem_cons, List.not_mem_nil, or_false] at hi
    rcases hi with rfl | rfl | rfl
    · exact ⟨nofun, nofun⟩
    · exact ⟨nofun, fun _ => ⟨_, hg, hb, rfl⟩⟩
    · exact ⟨nofun, nofun⟩

theorem Assembled.segment (h : Assembled engine items env p s) {l r : List Segment} {g : Segment}
    (hg : p.segments = l ++ g :: r) :
    s.out.stream.Stands (p.head ++ p.start ++ l.flatMap Segment.code).length g.code :=
  ⟨_, r.flatMap Segment.code, by simp [h.code_eq, Program.code, hg], rfl⟩

/-- What the globals leave behind is what all functions see. -/
theorem Assembled.sees (h : Assembled engine items env p s) :
    s.env.engine = engine ∧ s.env.globals = items.filterMap Item.global? ∧ s.env.structs.Built ∧
      (s.env.sealed = true ∨ s.env.globals = []) := by
  obtain ⟨n, hglobals⟩ := h.globals
  obtain ⟨hbuilt, hitems, henv⟩ := globalsCode_env hglobals .empty
  rw [h.env_eq]
  refine ⟨by rw [Env.closed, henv], by simpa [Env.closed] using hitems, hbuilt, ?_⟩
  cases hg : env.globals <;> simp [Env.closed, hg]

/-- The code of a function: its block, laid out where the globals are known, and behind it the
return instruction. -/
theorem Assembled.laid (h : Assembled engine items env p s) {table : Functions}
    {f : FunctionDef} {g : Segment} (hc : Compiled env.closed table f g) :
    ∃ (fs : Functions) (scope scope' : Scope) (n m retn : Handle) (flow : Flow)
      (first : List Instruction), g.body = some (first ++ [⟨retn, .retn, none⟩]) ∧
      Functions.Grows fs.all table.all ∧
      Binds { s.env with functions := fs } {} g.signature.params scope ∧
      Lays { s.env with functions := fs } ⟨g.signature.name, g.signature.returnType, retn⟩ scope n
        (.block f.body) scope' flow first m := by
  obtain ⟨_, code, fs, st, st', hbody, hgrows, hscope, hrun, hcode, _⟩ := hc
  obtain ⟨s₁, s₂, flow, first, hbinds, hlays, hwrites⟩ := body_laid hrun
  cases List.append_cancel_left (hcode.symm.trans hwrites.code_eq)
  rw [h.env_eq]
  rw [hscope] at hbinds
  exact ⟨fs, s₁, s₂, _, _, _, flow, first, hbody, hgrows, hbinds, hlays⟩

/-- Instructions of a segment behind its entry come from the definition of its function. -/
theorem Assembled.origin (h : Assembled engine items env p s) {g : Segment} (hg : g ∈ p.segments)
    {i : Instruction} (hi : i ∈ g.code) (hop : i.op ≠ .nop) :
    ∃ f code, Compiled env.closed s.env.functions f g ∧ g.body = some code ∧ i ∈ code := by
  obtain ⟨mid, hsegs, henv⟩ := h.segmented
  rcases List.mem_cons.mp hi with rfl | hi
  · exact absurd rfl hop
  cases hb : g.body with
  | none => simp [hb] at hi
  | some code =>
    obtain ⟨f, _, hc⟩ := hsegs.origin g hg (by simp [hb])
    rw [henv] at hc
    exact ⟨f, code, hc, rfl, by simpa [hb] using hi⟩

theorem Assembled.base (h : Assembled engine items env p s) :
    ∀ i ∈ p.globals ++ p.start ++ p.segments.flatMap Segment.code, i.op ≠ .saveBp := by
  intro i hi hop
  simp only [List.mem_append, List.mem_flatMap] at hi
  rcases hi with (hi | hi) | ⟨g, hg, hi⟩
  · obtain ⟨n, hglobals⟩ := h.globals
    exact (globalsCode_tidy hglobals).2.base i hi hop
  · exact (h.start.ops hi).1 hop
  · obtain ⟨f, code, hc, hcode, hmem⟩ := h.origin hg hi (by simp [hop])
    obtain ⟨code', hcode', _, _, hbase⟩ := hc.body
    rw [hcode] at hcode'
    cases hcode'
    exact hbase i hmem hop

theorem Assembled.bodies (h : Assembled engine items env p s) {g : Segment}
    (hg : g ∈ p.segments) :
    g.body.isSome ↔ ∃ f, .function f ∈ items ∧ f.signature.name = g.name := by
  obtain ⟨mid, hsegs, _⟩ := h.segmented
  constructor
  · intro hb
    obtain ⟨f, hf, hc⟩ := hsegs.origin g hg hb
    exact ⟨f, hf, hc.1.1.symm⟩
  · rintro ⟨f, hf, hname⟩
    obtain ⟨k, hk, hc⟩ := hsegs.defined f hf
    obtain ⟨code, hbody, _⟩ := hc.body
    have hsame : k.name = g.name := hc.1.1.trans hname
    have hkg := find?_of_mem hsegs.table hsegs.distinct hk
    rw [hsame, find?_of_mem hsegs.table hsegs.distinct hg] at hkg
    have hb := congrArg Function.defined (Option.some.inj hkg)
    simpa [Segment.function, hbody] using hb

/-- Every call leads to a function with a body. -/
theorem Assembled.called (h : Assembled engine items env p s) {i : Instruction} (hi : i ∈ p.code)
    (hop : i.op = .jump .jsr) : ∃ g ∈ p.segments, g.body.isSome ∧ i.target = some g.entry := by
  simp only [Program.code, Program.head, List.mem_append, List.mem_flatMap] at hi
  rcases hi with ((hi | hi) | hi) | ⟨g, hg, hi⟩
  · exact absurd hop (h.uncalling i hi)
  · have hmem : i.op ∈ p.close.map (·.op) := List.mem_map.mpr ⟨i, hi, rfl⟩
    rw [h.close, hop] at hmem
    split at hmem <;> simp at hmem
  · exact (h.start.ops hi).2 hop
  · obtain ⟨_, code, hc, hcode, hmem⟩ := h.origin hg hi (by simp [hop])
    obtain ⟨_, code', fs, _, _, hcode', hgrows, _, _, _, hcalls⟩ := hc
    rw [hcode] at hcode'
    cases hcode'
    obtain ⟨k, hk, htarget, hcalled⟩ := hcalls i hmem hop
    rw [h.table] at hgrows
    obtain ⟨k', hk', hentry, hname, _⟩ := hgrows k (Functions.mem_of_find? hk)
    obtain ⟨g', hg', rfl⟩ := List.mem_map.mp hk'
    refine ⟨g', hg', h.answered g' hg' ?_, by rw [htarget, ← hentry]; rfl⟩
    rw [← Segment.function_name, hname]
    exact hcalled

theorem Assembled.laidOut (h : Assembled engine items env p s) :
    LaidOut items s.out.stream s.entryIndex p := by
  obtain ⟨mid, hsegs, _⟩ := h.segmented
  obtain ⟨n, hglobals⟩ := h.globals
  obtain ⟨_, hitems, _⟩ := globalsCode_env hglobals .empty
  obtain ⟨_, htidy⟩ := globalsCode_tidy hglobals
  have hn : (s.out.stream.code.map (·.handle)).Nodup := by
    rw [h.code_eq]
    exact h.nodup
  refine ⟨h.code_eq, h.entry_eq, ?_, h.base, h.start, hsegs.names, fun g hg => h.bodies hg, ?_, ?_,
    ?_, ?_, fun i hi => h.called hi⟩
  · simpa [hitems] using h.close
  · intro g hg code hcode
    obtain ⟨f, _, hc⟩ := hsegs.origin g hg (by simp [hcode])
    obtain ⟨code', hbody, hreturns, _⟩ := hc.body
    rw [hcode] at hbody
    cases hbody
    exact hreturns
  · intro l g r hg
    exact (h.segment hg).index hn
  · intro i hi c hc
    have hne : c ≠ .jsr := by
      rintro rfl
      exact h.uncalling i hi hc
    obtain ⟨x, hx, hin⟩ := htidy.aims i hi c hc hne
    have hstands : s.out.stream.Stands 0 p.globals :=
      ⟨[], p.close ++ p.start ++ p.segments.flatMap Segment.code,
        by simp [h.code_eq, Program.code, Program.head], rfl⟩
    obtain ⟨k, hk, hl⟩ := hstands.found hn ((htidy.handles x).mpr hin)
    exact ⟨hne, k, hk, by simp [Stream.landing?, hx, hl]⟩
  · intro l g r hg i hi c hc hne
    obtain ⟨_, code, hcomp, hcode, hmem⟩ := h.origin (by simp [hg]) hi (by simp [hc])
    obtain ⟨code', hcode', _, haims, _⟩ := hcomp.body
    rw [hcode] at hcode'
    cases hcode'
    obtain ⟨x, hx, hin⟩ := haims i hmem c hc hne
    have hown : x ∈ g.code.map (·.handle) := by
      simp only [Segment.code, hcode, Option.getD_some, List.map_cons]
      exact List.mem_cons_of_mem _ hin
    obtain ⟨k, hk, hl⟩ := (h.segment hg).found hn hown
    exact ⟨k, hk, by simp [Stream.landing?, hx, hl]⟩

/-! ## Every script -/

/-- The layout of a program: the code of the globals, closed if there are any, the call of the
function that a run starts with, and one segment for each function. The bodies are what the
definitions compile to, and every call in them leads to the segment of the function that it names.
-/
theorem program_laid_out {setup : Setup} {script : Script} {u : Unit}
    (h : Build.script setup script { env := { engine } } = .ok u s) :
    ∃ items env p, (Expansion.expand setup [] script).items = .ok items ∧
      LaidOut items s.out.stream s.entryIndex p ∧
      (∃ s₁ s₂, s₁.env = { engine } ∧ Build.globals items s₁ = .ok () s₂ ∧ s₂.env = env ∧
        s₂.out.stream.code = s₁.out.stream.code ++ p.globals) ∧
      ∀ f, .function f ∈ items → ∃ g ∈ p.segments, ∃ functions code st st',
        g.signature.Agrees f.signature ∧ g.body = some code ∧ st.scope = {} ∧
        Codegen.body { env.closed with functions } g.signature f.body st = .ok () st' ∧
        st'.code = st.code ++ code ∧
        ∀ name args ty t t', (functions.find? name).isSome →
          Codegen.expr { env.closed with functions } (.call name args) t = .ok ty t' →
          ∃ k ∈ p.segments, k.name = name ∧
            ∃ first n, t'.code = t.code ++ (first ++ [⟨n, .jump .jsr, some k.entry⟩]) := by
  obtain ⟨items, env, p, hitems, ha⟩ := script_assembled h
  refine ⟨items, env, p, hitems, ha.laidOut, ha.written, ?_⟩
  intro f hf
  obtain ⟨mid, hsegs, _⟩ := ha.segmented
  obtain ⟨g, hg, hagrees, code, fs, st, st', hbody, hgrows, hscope, hrun, hcode, _⟩ :=
    hsegs.defined f hf
  refine ⟨g, hg, fs, code, st, st', hagrees, hbody, hscope, hrun, hcode, ?_⟩
  intro name args ty t t' hknown hcall
  obtain ⟨k, hk⟩ := Option.isSome_iff_exists.mp hknown
  rw [hsegs.table] at hgrows
  obtain ⟨k', hk', hentry, hname, _⟩ := hgrows k (Functions.mem_of_find? hk)
  obtain ⟨g', hg', rfl⟩ := List.mem_map.mp hk'
  obtain ⟨first, n, hlast⟩ := call_code hk hcall
  rw [← hentry] at hlast
  exact ⟨g', hg', hname.trans (Functions.name_of_find? hk), first, n, hlast⟩

end Layout

/-! ## A script whose functions call each other -/

/-- Two functions that call each other, one of which is announced first, and one that never gets a
body. -/
def parity : Script :=
  let n : Access := ⟨"n", []⟩
  let one : Expr := .literal (.int 1)
  let odd : Signature := ⟨.int, "odd", [⟨.int, "n", none⟩]⟩
  let even : Signature := ⟨.int, "even", [⟨.int, "n", none⟩]⟩
  [.global ⟨false, .int, "turns", some (.literal (.int 0))⟩,
   .prototype odd,
   .prototype ⟨.void, "unused", []⟩,
   .function ⟨even, [.ifElse (.access n) [.expr (.step .inc .post ⟨"turns", []⟩),
     .ret (some (.call "odd" [.binary .sub (.access n) one]))] none, .ret (some one)]⟩,
   .function ⟨⟨.void, "main", []⟩, [.expr (.call "even" [.literal (.int 3)])]⟩,
   .function ⟨odd, [.ifElse (.access n) [.ret (some (.call "even" [.binary .sub (.access n) one]))]
     none, .ret (some (.literal (.int 0)))]⟩]

/-- Compiles the items of a script without directives. -/
def assemble (script : Script) : Build Unit := do
  Build.globals script
  sealGlobals
  functions script
  checkCalled
  trampoline

/-- What is read off the stream of a script without directives. -/
def assembleAndRead {α : Type} (script : Script) (read : Stream → α) : Build α := do
  assemble script
  return read (← stream)

/-- A script without directives compiles if its items do. -/
theorem script_of_assemble {script : Script} {s t : Session} (hplain : script.splitLast = none)
    (h : assemble script (plainly script s) = .ok () t) : Build.script {} script s = .ok () t := by
  simp only [assemble, bind_ok] at h
  obtain ⟨_, s₁, h₁, _, s₂, h₂, _, s₃, h₃, _, s₄, h₄, h₅⟩ := h
  simp only [Build.script, bind_ok]
  exact ⟨_, _, items_plain hplain, _, s₁, h₁, _, s₂, h₂, _, s₃, h₃, _, s₄, h₄, _, t, h₅, rfl⟩

theorem compiles_of_gives {script : Script} {s : Session} (hplain : script.splitLast = none)
    (h : gives () (assemble script (plainly script s)) = true) :
    ∃ t, Build.script {} script s = .ok () t := by
  obtain ⟨t, ht⟩ := exists_of_gives h
  exact ⟨t, script_of_assemble hplain ht⟩

/-- Anything that can be read off the stream can be read off that of its items. -/
theorem compiles_reading {α : Type} [DecidableEq α] {script : Script} {s : Session}
    {read : Stream → α} {a : α} (hplain : script.splitLast = none)
    (h : gives a (assembleAndRead script read (plainly script s)) = true) :
    ∃ t, Build.script {} script s = .ok () t ∧ read t.out.stream = a := by
  obtain ⟨t, ht⟩ := exists_of_gives h
  simp only [assembleAndRead, bind_ok, stream_ok, pure_ok] at ht
  obtain ⟨_, t, ht, _, _, ⟨rfl, rfl⟩, hread, rfl⟩ := ht
  exact ⟨t, script_of_assemble hplain ht, hread⟩

/-- A script without directives compiles to some instructions if its items do. -/
theorem compiles_to_of_gives {script : Script} {s : Session} {ops : List Op}
    (hplain : script.splitLast = none)
    (h : gives ops (assembleAndRead script (·.code.map (·.op)) (plainly script s)) = true) :
    ∃ t, Build.script {} script s = .ok () t ∧ t.out.stream.code.map (·.op) = ops :=
  compiles_reading hplain h

theorem parity_laid_out :
    ∃ s, Build.script {} parity { env := { engine := {} } } = .ok () s ∧
      ∃ p, LaidOut parity s.out.stream s.entryIndex p ∧
        p.segments.map Segment.name = ["odd", "unused", "even", "main"] := by
  obtain ⟨s, hs⟩ := @compiles_of_gives parity { env := { engine := {} } } rfl (by decide +kernel)
  obtain ⟨items, env, p, hitems, hp, _⟩ := program_laid_out hs
  rw [Expansion.expand_plain rfl] at hitems
  cases hitems
  exact ⟨s, hs, p, hp, hp.order.trans (by decide)⟩

end Build

end NwScript
