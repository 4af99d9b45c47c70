-- A program as it stands in the stream: the globals, the call of the function that a run starts
-- with, and the segments of the functions.
import NwScript.Proofs.Include.Order
import NwScript.Proofs.Program.Segments
import NwScript.Build.Script

namespace NwScript

/-! ## Programs -/

/-- The parts of a program, in the order in which they stand in the stream. -/
structure Program where
  globals : List Instruction
  /-- The instruction that closes the globals, if there are any. -/
  close : List Instruction
  /-- The call of the function that a run starts with. -/
  start : List Instruction
  segments : List Segment

namespace Program

def head (p : Program) : List Instruction := p.globals ++ p.close

def code (p : Program) : List Instruction := p.head ++ p.start ++ p.segments.flatMap Segment.code

end Program

/-- The environment of the functions: the globals are complete, and closed if there are any. -/
def Env.closed (env : Env) : Env := { env with sealed := !env.globals.isEmpty }

namespace Build

open Codegen

/-- The call of the function that a run starts with. The conditional is called only if the main
function has no body, and room is made for its answer. -/
inductive Starts (segs : List Segment) : List Instruction → Prop
  | main {g : Segment} {h h' : Handle} :
      g ∈ segs → g.name = mainName → g.body.isSome →
      Starts segs [⟨h, .jump .jsr, some g.entry⟩, ⟨h', .retn, none⟩]
  | conditional {g : Segment} {h h' h'' : Handle} :
      (∀ k ∈ segs, k.name = mainName → k.body = none) →
      g ∈ segs → g.name = conditionalName → g.body.isSome →
      Starts segs [⟨h, .reserve .int, none⟩, ⟨h', .jump .jsr, some g.entry⟩, ⟨h'', .retn, none⟩]

/-- How the parts of a program come about. `env` is what the globals leave behind. -/
structure Assembled (engine : Engine) (items : Script) (env : Env) (p : Program) (s : Session) :
    Prop where
  code_eq : s.out.stream.code = p.code
  entry_eq : s.entryIndex = p.head.length
  env_eq : s.env = { env.closed with functions := s.env.functions }
  table : s.env.functions.all = p.segments.map Segment.function
  nodup : (p.code.map (·.handle)).Nodup
  below : ∀ i ∈ p.code, i.handle < s.out.stream.next
  globals : ∃ n, GlobalsCode { engine } 0 items env p.globals n
  run : ∃ s₁ s₂, s₁.env = { engine } ∧ s₁.out.stream = {} ∧ Build.globals items s₁ = .ok () s₂ ∧
    s₂.env = env ∧ s₂.out.stream.code = p.globals
  uncalling : ∀ i ∈ p.globals, i.op ≠ .jump .jsr
  close : p.close.map (·.op) = if env.globals = [] then [] else [.saveBp]
  aimless : ∀ i ∈ p.close, i.target = none
  start : Starts p.segments p.start
  segmented : ∃ mid, Segmented env.closed p.head items p.segments mid ∧ mid.env = s.env
  answered : ∀ g ∈ p.segments, s.env.functions.isCalled g.name = true → g.body.isSome

theorem Assembled.written {engine : Engine} {items : Script} {env : Env} {p : Program} {s : Session}
    (h : Assembled engine items env p s) :
    ∃ s₁ s₂, s₁.env = { engine } ∧ Build.globals items s₁ = .ok () s₂ ∧ s₂.env = env ∧
      s₂.out.stream.code = s₁.out.stream.code ++ p.globals := by
  obtain ⟨s₁, s₂, henv, hstream, hrun, henv', hcode⟩ := h.run
  exact ⟨s₁, s₂, henv, hrun, henv', by simp [hstream, hcode]⟩

/-! ## The call that a run starts with -/

section Start

variable {segs : List Segment} {s t : Session} {u : Unit}

/-- An instruction that is put in where calls start stands before all that was there. -/
theorem insertEntry_ok {op : Op} {target : Option Handle} {head rest : List Instruction}
    (hentry : s.entryIndex = head.length) (hcode : s.out.stream.code = head ++ rest)
    (h : insertEntry op target s = .ok u t) :
    t.env = s.env ∧ t.entryIndex = head.length ∧
      t.out.stream.code = head ++ ⟨s.out.stream.next, op, target⟩ :: rest ∧
      t.out.stream.next = s.out.stream.next + 1 := by
  simp only [insertEntry, bind_ok, get_ok, edit_ok, Stream.insert_ok, pure_ok] at h
  obtain ⟨_, _, ⟨rfl, rfl⟩, _, _, ⟨_, ⟨-, rfl, rfl⟩, rfl⟩, -, rfl⟩ := h
  exact ⟨rfl, hentry, by simp [hentry, hcode], rfl⟩

theorem find?_of_mem {fs : Functions} {g : Segment} (hfs : fs.all = segs.map Segment.function)
    (hd : (segs.map Segment.name).Nodup) (hg : g ∈ segs) :
    fs.find? g.name = some g.function := by
  obtain ⟨l, r, rfl⟩ := List.append_of_mem hg
  simp only [List.map_append, List.map_cons, List.nodup_append] at hd
  have hl : ∀ k ∈ l, k.name ≠ g.name := fun k hk =>
    hd.2.2 _ (List.mem_map.mpr ⟨k, hk, rfl⟩) _ List.mem_cons_self
  have hnone : (l.map Segment.function).find? (·.signature.name == g.name) = none := by
    simpa using hl
  simp [Functions.find?_eq_all, hfs, List.find?_append, hnone]

/-- A new instruction has a handle that no other one has. -/
theorem insert_nodup {head rest : List Instruction} {next : Handle} {op : Op}
    {target : Option Handle} (hn : ((head ++ rest).map (·.handle)).Nodup)
    (hb : ∀ i ∈ head ++ rest, i.handle < next) :
    ((head ++ ⟨next, op, target⟩ :: rest).map (·.handle)).Nodup ∧
      ∀ i ∈ head ++ ⟨next, op, target⟩ :: rest, i.handle < next + 1 := by
  have hperm : (head ++ ⟨next, op, target⟩ :: rest).Perm (⟨next, op, target⟩ :: (head ++ rest)) :=
    List.perm_middle
  refine ⟨?_, ?_⟩
  · rw [(hperm.map _).nodup_iff, List.map_cons, List.nodup_cons]
    refine ⟨fun hmem => ?_, hn⟩
    obtain ⟨i, hi, he⟩ := List.mem_map.mp hmem
    exact Nat.ne_of_lt (hb i hi) he
  · intro i hi
    rcases List.mem_cons.mp (hperm.mem_iff.mp hi) with rfl | hi
    · exact Nat.lt_succ_self _
    · exact Nat.lt_succ_of_lt (hb i hi)

theorem defined?_segment {fs : Functions} {name : Name} {f : Function}
    (hfs : fs.all = segs.map Segment.function) (h : fs.defined? name = some f) :
    ∃ g ∈ segs, g.function = f ∧ g.name = name ∧ g.body.isSome := by
  obtain ⟨hf, hd⟩ := Option.filter_eq_some_iff.mp h
  obtain ⟨l, g, r, rfl, rfl, hname⟩ := find?_segment hfs hf
  exact ⟨g, by simp, rfl, hname, hd⟩

theorem defined?_segment_none {fs : Functions} {name : Name}
    (hfs : fs.all = segs.map Segment.function) (hd : (segs.map Segment.name).Nodup)
    (h : fs.defined? name = none) : ∀ g ∈ segs, g.name = name → g.body = none := by
  rintro g hg rfl
  have hfilter := Option.filter_eq_none_iff.mp h _ (find?_of_mem hfs hd hg)
  simpa [Segment.function] using hfilter

theorem trampoline_started {head : List Instruction} (hd : (segs.map Segment.name).Nodup)
    (htable : s.env.functions.all = segs.map Segment.function)
    (hentry : s.entryIndex = head.length)
    (hcode : s.out.stream.code = head ++ segs.flatMap Segment.code)
    (hnodup : (s.out.stream.code.map (·.handle)).Nodup)
    (hbelow : ∀ i ∈ s.out.stream.code, i.handle < s.out.stream.next)
    (h : trampoline s = .ok u t) :
    ∃ start, Starts segs start ∧ t.env = s.env ∧ t.entryIndex = head.length ∧
      t.out.stream.code = head ++ start ++ segs.flatMap Segment.code ∧
      (t.out.stream.code.map (·.handle)).Nodup ∧
      ∀ i ∈ t.out.stream.code, i.handle < t.out.stream.next := by
  rw [hcode] at hnodup hbelow
  -- The instructions are put in last one first, always in the same place.
  obtain ⟨hn₁, hb₁⟩ := @insert_nodup _ _ _ .retn none hnodup hbelow
  simp only [trampoline, bind_ok, get_ok] at h
  obtain ⟨_, _, ⟨rfl, rfl⟩, h⟩ := h
  cases hmain : s.env.functions.defined? mainName with
  | some f =>
    simp only [hmain, bind_ok, report_ok] at h
    obtain ⟨_, s₁, h₁, _, s₂, h₂, rfl⟩ := h
    obtain ⟨g, hg, rfl, hname, hbody⟩ := defined?_segment htable hmain
    obtain ⟨henv₁, hentry₁, hcode₁, hnext₁⟩ := insertEntry_ok hentry hcode h₁
    obtain ⟨henv₂, hentry₂, hcode₂, hnext₂⟩ := insertEntry_ok hentry₁ hcode₁ h₂
    rw [hnext₁] at hcode₂ hnext₂
    obtain ⟨hn₂, hb₂⟩ := @insert_nodup _ _ _ (.jump .jsr) g.entry hn₁ hb₁
    refine ⟨[⟨s.out.stream.next + 1, .jump .jsr, some g.entry⟩, ⟨s.out.stream.next, .retn, none⟩],
      .main hg hname hbody, henv₂.trans henv₁, hentry₂, ?_⟩
    simp only [hcode₂, hnext₂]
    exact ⟨by simp [Segment.function], hn₂, hb₂⟩
  | none =>
    cases hcond : s.env.functions.defined? conditionalName with
    | none => simp [hmain, hcond, throw_ok] at h
    | some f =>
      simp only [hmain, hcond, bind_ok, report_ok] at h
      obtain ⟨_, s₁, h₁, _, s₂, h₂, _, s₃, h₃, rfl⟩ := h
      obtain ⟨g, hg, rfl, hname, hbody⟩ := defined?_segment htable hcond
      obtain ⟨henv₁, hentry₁, hcode₁, hnext₁⟩ := insertEntry_ok hentry hcode h₁
      obtain ⟨henv₂, hentry₂, hcode₂, hnext₂⟩ := insertEntry_ok hentry₁ hcode₁ h₂
      obtain ⟨henv₃, hentry₃, hcode₃, hnext₃⟩ := insertEntry_ok hentry₂ hcode₂ h₃
      rw [hnext₂, hnext₁] at hcode₃ hnext₃
      obtain ⟨hn₂, hb₂⟩ := @insert_nodup _ _ _ (.jump .jsr) g.entry hn₁ hb₁
      obtain ⟨hn₃, hb₃⟩ := @insert_nodup _ _ _ (.reserve .int) none hn₂ hb₂
      refine ⟨[⟨s.out.stream.next + 2, .reserve .int, none⟩,
        ⟨s.out.stream.next + 1, .jump .jsr, some g.entry⟩, ⟨s.out.stream.next, .retn, none⟩],
        .conditional (defined?_segment_none htable hd hmain) hg hname hbody,
        henv₃.trans (henv₂.trans henv₁), hentry₃, ?_⟩
      simp only [hcode₃, hnext₃]
      exact ⟨by simp [Segment.function], hn₃, hb₃⟩

end Start

/-! ## Whole programs -/

section Script

variable {s t : Session} {u : Unit}

theorem items_ok {setup : Setup} {script items : Script}
    (h : Build.items setup script s = .ok items t) :
    (Expansion.expand setup s.included script).items = .ok items ∧ t.env = s.env ∧
      t.out.stream = s.out.stream := by
  simp only [Build.items, bind_ok, get_ok, modify_ok, reportAll_ok, lift_ok,
    report_ok, pure_ok] at h
  obtain ⟨_, _, ⟨rfl, rfl⟩, _, _, rfl, _, _, rfl, _, _, ⟨hitems, rfl⟩, _, _, rfl, rfl, rfl⟩ := h
  exact ⟨hitems, rfl, rfl⟩

/-- The session in which the items of a script without directives are compiled. -/
def plainly (script : Script) (s : Session) : Session :=
  { s with out := { s.out with events :=
      s.out.events ++ [.includesProcessed script.length s.included.length] } }

/-- A script without directives is all there is to compile. -/
theorem items_plain {setup : Setup} {script : Script} (h : script.splitLast = none) :
    Build.items setup script s = .ok script (plainly script s) := by
  have hrun : ∀ t, t = plainly script s → Build.items setup script s = .ok script t := by
    intro t ht
    simp only [Build.items, bind_ok, get_ok, modify_ok, reportAll_ok, lift_ok, report_ok, pure_ok,
      Expansion.expand_plain h]
    exact ⟨s, s, ⟨rfl, rfl⟩, (), _, rfl, (), _, rfl, script, _, ⟨rfl, rfl⟩, (), _, rfl, rfl, by
      simp [ht, plainly]⟩
  exact hrun _ rfl

theorem sorted_eq_nil {names : List Name} (h : (Name.sorted names).isEmpty = true) :
    names = [] := by
  have hlength := congrArg List.length (List.isEmpty_iff.mp h)
  simpa [Name.sorted] using hlength

/-- Every function that is called has a body. -/
theorem checkCalled_ok (h : checkCalled s = .ok u t) :
    s = t ∧ ∀ name f, s.env.functions.isCalled name = true →
      s.env.functions.find? name = some f → f.defined = true := by
  simp only [checkCalled, bind_ok, env_ok] at h
  obtain ⟨_, _, ⟨rfl, rfl⟩, h⟩ := h
  split at h
  · rename_i hempty
    simp only [pure_ok] at h
    refine ⟨h.2, fun name f hcalled hf => ?_⟩
    have hnone := List.map_eq_nil_iff.mp (sorted_eq_nil hempty)
    obtain ⟨e, he, rfl⟩ := Option.map_eq_some_iff.mp hf
    have hmark : e.called = true := by simpa [Functions.isCalled, he] using hcalled
    have hall := List.filter_eq_nil_iff.mp hnone e (List.mem_of_find?_eq_some he)
    simpa [hmark] using hall
  · simp [mistake_ok] at h

/-- Right behind the globals no function has been named yet. -/
theorem sealed_segmented {engine : Engine} {items : Script} {globals : List Instruction}
    (hglobals : GlobalsCode { engine } 0 items s.env globals s.out.stream.next)
    (hcode : s.out.stream.code = globals) (h : sealGlobals s = .ok u t) :
    ∃ close : List Instruction,
      close.map (·.op) = (if s.env.globals = [] then [] else [.saveBp]) ∧
        (∀ i ∈ close, i.target = none) ∧ Segmented s.env.closed (globals ++ close) [] [] t := by
  obtain ⟨close, hclose, hcode', hnext, henv, hentry⟩ := sealGlobals_ok h
  obtain ⟨hle, htidy⟩ := globalsCode_tidy hglobals
  obtain ⟨_, _, hrest⟩ := globalsCode_env hglobals .empty
  rw [hcode] at hcode'
  have hbefore : ∀ i ∈ globals, i.handle < s.out.stream.next := fun i hi =>
    ((htidy.handles _).mp (List.mem_map.mpr ⟨i, hi, rfl⟩)).2
  refine ⟨close, by rw [hclose]; split <;> rfl, by rw [hclose]; split <;> simp, ?_⟩
  have hnone : s.env.functions = {} := by rw [hrest]
  refine ⟨?_, ?_, by rw [hentry, hcode'], by simp [hcode'], rfl, .nil, ?_, ?_, by simp, by simp,
    by simp⟩
  · rw [henv, hrest]
    cases s.env.globals <;> simp [Env.closed]
  · rw [henv, hnone]
    rfl
  · rw [hcode', List.map_append, List.nodup_append]
    refine ⟨htidy.nodup, by rw [hclose]; split <;> simp, ?_⟩
    rintro x hx y hy rfl
    obtain ⟨i, hi, rfl⟩ := List.mem_map.mp hx
    have hlt := hbefore i hi
    rw [hclose] at hy
    split at hy
    · cases hy
    · simp only [List.map_cons, List.map_nil, List.mem_singleton] at hy
      exact Nat.ne_of_lt hlt hy
  · intro i hi
    rw [hcode'] at hi
    rw [hnext]
    rcases List.mem_append.mp hi with hi | hi
    · exact Nat.lt_of_lt_of_le (hbefore i hi) (Nat.le_add_right _ _)
    · rw [hclose] at hi ⊢
      split at hi
      · cases hi
      · rename_i hne
        cases List.mem_singleton.mp hi
        simp [hne]

/-- Every script that compiles on its own gives a program. -/
theorem script_assembled {setup : Setup} {engine : Engine} {script : Script}
    (h : Build.script setup script { env := { engine } } = .ok u s) :
    ∃ items env p, (Expansion.expand setup [] script).items = .ok items ∧
      Assembled engine items env p s := by
  simp only [Build.script, bind_ok] at h
  obtain ⟨items, s₁, hi, _, s₂, hg, _, s₃, hs, _, s₄, hf, _, s₅, hc, _, s₆, ht, h⟩ := h
  obtain ⟨hitems, henv₁, hstream₁⟩ := items_ok hi
  obtain ⟨globals, hglobals, hwrites⟩ := globals_written (by rw [henv₁]) hg
  have hcode := hwrites.code_eq
  simp only [hstream₁, henv₁, List.nil_append] at hglobals hcode
  obtain ⟨close, hclose, haimless, hstart⟩ := sealed_segmented hglobals hcode hs
  obtain ⟨segs, hsegs⟩ := functions_segmented hstart hf
  rw [List.nil_append] at hsegs
  obtain ⟨rfl, hdefined⟩ := checkCalled_ok hc
  obtain ⟨start, hstarts, henv₆, hentry, hcode₆, hnodup, hbelow⟩ :=
    trampoline_started hsegs.distinct hsegs.table hsegs.entry_eq hsegs.code_eq hsegs.nodup
      hsegs.below ht
  have hlast : s.out.stream = s₆.out.stream ∧ s.entryIndex = s₆.entryIndex ∧ s.env = s₆.env := by
    split at h
    · simp only [bind_ok, stream_ok, report_ok] at h
      obtain ⟨_, _, ⟨rfl, rfl⟩, rfl⟩ := h
      exact ⟨rfl, rfl, rfl⟩
    · simp only [pure_ok] at h
      exact ⟨by rw [h.2], by rw [h.2], by rw [h.2]⟩
  have henv : s.env = s₄.env := hlast.2.2.trans henv₆
  refine ⟨items, s₂.env, ⟨globals, close, start, segs⟩, hitems, ?_⟩
  refine ⟨by rw [hlast.1]; exact hcode₆, by rw [hlast.2.1]; exact hentry,
    by rw [henv]; exact hsegs.env_eq, by rw [henv]; exact hsegs.table, ?_, ?_, ⟨_, hglobals⟩,
    ⟨s₁, s₂, henv₁, hstream₁, hg, rfl, hcode⟩, ?_, hclose, haimless, hstarts,
    ⟨s₄, hsegs, henv.symm⟩, ?_⟩
  · rw [hcode₆] at hnodup
    exact hnodup
  · rw [hcode₆] at hbelow
    rw [hlast.1]
    exact hbelow
  · intro i hi hop
    obtain ⟨f, hf, _⟩ := hwrites.calls i hi hop
    cases hf
  · intro g hg hcalled
    rw [henv] at hcalled
    exact hdefined g.name g.function hcalled (find?_of_mem hsegs.table hsegs.distinct hg)

end Script

end Build

end NwScript
