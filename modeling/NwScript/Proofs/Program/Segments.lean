-- The functions of a script lie one behind the other in the stream, each in a segment of its own.
-- A segment starts with the instruction that calls jump to; the body comes right behind it, also if
-- it is compiled long after the function was announced.
import NwScript.Proofs.Machine.Stands
import NwScript.Proofs.Program.Globals
import NwScript.Proofs.Program.Table
import NwScript.Build.Function

namespace NwScript

/-! ## Segments -/

/-- A function in the stream. One that is only announced has no body yet. -/
structure Segment where
  entry : Handle
  signature : Signature
  body : Option (List Instruction)

namespace Segment

def name (g : Segment) : Name := g.signature.name

def code (g : Segment) : List Instruction := ⟨g.entry, .nop, none⟩ :: g.body.getD []

def function (g : Segment) : Function := ⟨g.entry, g.signature, g.body.isSome⟩

@[simp] theorem function_name (g : Segment) : g.function.signature.name = g.name := rfl

end Segment

/-- The function that an item announces or defines. -/
def Item.functionName? : Item → Option Name
  | .prototype s => some s.name
  | .function f => some f.signature.name
  | _ => none

/-- A function table in which nothing that calls need has changed: every function of the older one
is still there, with its entry and its types. -/
def Functions.Grows (older newer : List Function) : Prop :=
  ∀ f ∈ older, ∃ g ∈ newer, g.entry = f.entry ∧ g.signature.name = f.signature.name ∧
    g.signature.returnType = f.signature.returnType ∧
    g.signature.params.map (·.ty) = f.signature.params.map (·.ty)

/-- A signature with the names and types of another; the default values may differ. -/
def Signature.Agrees (s t : Signature) : Prop :=
  s.name = t.name ∧ s.returnType = t.returnType ∧
    s.params.map (fun p => (p.name, p.ty)) = t.params.map (fun p => (p.name, p.ty))

namespace Build

open Codegen

/-- The signature has passed the tests for default values and types. -/
structure Accepted (engine : Engine) (structs : Structs) (sig : Signature) : Prop where
  defaults : sig.checkDefaults engine = .ok ()
  types : checkTypes structs sig = .ok ()

/-- The segment holds the code of a definition, compiled against an older table of functions. Every
function that it calls is noted in the table. -/
def Compiled (base : Env) (table : Functions) (f : FunctionDef) (g : Segment) : Prop :=
  g.signature.Agrees f.signature ∧ ∃ code fs st st', g.body = some code ∧
    Functions.Grows fs.all table.all ∧ st.scope = {} ∧
    Codegen.body { base with functions := fs } g.signature f.body st = .ok () st' ∧
    st'.code = st.code ++ code ∧
    ∀ i ∈ code, i.op = .jump .jsr → ∃ h, fs.find? h.signature.name = some h ∧
      i.target = some h.entry ∧ table.isCalled h.signature.name = true

/-- The stream holds some code and then one segment for each function that the items name, in the
order of the names. -/
structure Segmented (base : Env) (head : List Instruction) (items : Script) (segs : List Segment)
    (s : Session) : Prop where
  env_eq : s.env = { base with functions := s.env.functions }
  table : s.env.functions.all = segs.map Segment.function
  entry_eq : s.entryIndex = head.length
  code_eq : s.out.stream.code = head ++ segs.flatMap Segment.code
  names : segs.map Segment.name = (items.filterMap Item.functionName?).eraseDups
  distinct : (segs.map Segment.name).Nodup
  nodup : (s.out.stream.code.map (·.handle)).Nodup
  below : ∀ i ∈ s.out.stream.code, i.handle < s.out.stream.next
  accepted : ∀ g ∈ segs, Accepted base.engine base.structs g.signature
  origin : ∀ g ∈ segs, g.body.isSome → ∃ f, .function f ∈ items ∧
    Compiled base s.env.functions f g
  defined : ∀ f, .function f ∈ items → ∃ g ∈ segs, Compiled base s.env.functions f g

/-! ## Tables that grow -/

theorem grows_refl (fs : List Function) : Functions.Grows fs fs :=
  fun f hf => ⟨f, hf, rfl, rfl, rfl, rfl⟩

theorem grows_trans {fs gs hs : List Function} (h : Functions.Grows fs gs)
    (h' : Functions.Grows gs hs) : Functions.Grows fs hs := by
  intro f hf
  obtain ⟨g, hg, he, hn, hr, hp⟩ := h f hf
  obtain ⟨k, hk, he', hn', hr', hp'⟩ := h' g hg
  exact ⟨k, hk, he'.trans he, hn'.trans hn, hr'.trans hr, hp'.trans hp⟩

theorem Compiled.later {base : Env} {table table' : Functions} {f : FunctionDef} {g : Segment}
    (h : Compiled base table f g) (ht : Functions.Grows table.all table'.all)
    (hc : ∀ name, table.isCalled name = true → table'.isCalled name = true) :
    Compiled base table' f g := by
  obtain ⟨hsig, code, fs, st, st', hbody, hgrows, hscope, hrun, hcode, hcalls⟩ := h
  refine ⟨hsig, code, fs, st, st', hbody, grows_trans hgrows ht, hscope, hrun, hcode, ?_⟩
  intro i hi hop
  obtain ⟨k, hk, htarget, hcalled⟩ := hcalls i hi hop
  exact ⟨k, hk, htarget, hc _ hcalled⟩

/-! ## Steps -/

/-- Default values that have passed the test are constant. -/
theorem Accepted.constant {engine : Engine} {structs : Structs} {sig : Signature}
    (h : Accepted engine structs sig) :
    ∀ p ∈ sig.params, ∀ e, p.default = some e → e.constant engine = true := by
  intro p hp e he
  have hdefaults := h.defaults
  unfold Signature.checkDefaults at hdefaults
  split at hdefaults
  · cases hdefaults
  · split at hdefaults
    · cases hdefaults
    · rename_i hnone
      simpa [Signature.constantDefault, he] using List.find?_eq_none.mp hnone p hp

section Steps

variable {s t : Session} {u : Unit}

theorem checkSignature_ok {sig : Signature} (h : checkSignature sig s = .ok u t) :
    Accepted s.env.engine s.env.structs sig ∧ s = t := by
  simp only [checkSignature, bind_ok, env_ok, lift_ok] at h
  obtain ⟨_, _, ⟨rfl, rfl⟩, _, _, ⟨hd, rfl⟩, hc, rfl⟩ := h
  exact ⟨⟨hd, hc⟩, rfl⟩

theorem register_ok {α : Type} {x : EStateM Failure Functions α} {a : α} :
    register x s = .ok a t ↔ ∃ fs, x s.env.functions = .ok a fs ∧
      t = { s with env := { s.env with functions := fs } } := focus_ok

theorem register_error {α : Type} {x : EStateM Failure Functions α} {e : Failure}
    (h : register x s = .error e t) : ∃ fs, x s.env.functions = .error e fs ∧
      t = { s with env := { s.env with functions := fs } } := error_of_focus h

/-- An announcement puts one instruction at the end. -/
theorem prototype_ok {sig : Signature} (h : prototype sig s = .ok u t) :
    s.env.functions.find? sig.name = none ∧ Accepted s.env.engine s.env.structs sig ∧
      t.env = { s.env with
        functions := s.env.functions.put ⟨⟨s.out.stream.next, sig, false⟩, false⟩ } ∧
      t.entryIndex = s.entryIndex ∧
      t.out.stream = ⟨s.out.stream.code ++ [⟨s.out.stream.next, .nop, none⟩],
        s.out.stream.next + 1⟩ := by
  simp only [prototype, bind_ok, env_ok, refuse_mistake_ok, edit_ok, Stream.add_ok, register_ok,
    Functions.declare_ok, report_ok] at h
  obtain ⟨_, _, hc, _, _, ⟨rfl, rfl⟩, _, _, _, ⟨_, ⟨-, rfl, rfl⟩, rfl⟩, _, _,
    ⟨_, ⟨hnone, rfl, rfl⟩, rfl⟩, rfl⟩ := h
  obtain ⟨haccepted, rfl⟩ := checkSignature_ok hc
  exact ⟨hnone, haccepted, rfl, rfl, rfl⟩

/-- A definition without an announcement puts its code at the end. -/
theorem function_new_ok {f : FunctionDef} (h : function f s = .ok u t)
    (hf : s.env.functions.find? f.signature.name = none) :
    Accepted s.env.engine s.env.structs f.signature ∧ ∃ st',
      Codegen.body s.env f.signature f.body ⟨{ s.out with stream :=
        ⟨s.out.stream.code ++ [⟨s.out.stream.next, .nop, none⟩], s.out.stream.next + 1⟩ }, {}, []⟩ =
          .ok () st' ∧
      t.env = { s.env with
        functions := (s.env.functions.marked st'.marks).define f.signature s.out.stream.next } ∧
      t.entryIndex = s.entryIndex ∧ t.out.stream = st'.out.stream := by
  simp only [function, Functions.reconcile, bind_ok, env_ok, lift_ok] at h
  obtain ⟨_, _, ⟨rfl, rfl⟩, found, _, ⟨hfound, rfl⟩, h⟩ := h
  simp only [hf, Except.ok.injEq] at hfound
  subst hfound
  simp only [bind_ok, env_ok, edit_ok, Stream.add_ok, generate_ok, report_ok, define, register_ok,
    modify_ok] at h
  obtain ⟨_, _, hc, _, _, ⟨_, ⟨-, rfl, rfl⟩, rfl⟩, _, _, ⟨rfl, rfl⟩, _, _, ⟨st', hst, rfl⟩, _, _,
    rfl, _, rfl, rfl⟩ := h
  obtain ⟨haccepted, rfl⟩ := checkSignature_ok hc
  exact ⟨haccepted, st', hst, rfl, rfl, rfl⟩

/-- The definition of an announced function puts its body behind the announcement. -/
theorem function_announced_ok {f : FunctionDef} {k : Function} (h : function f s = .ok u t)
    (hf : s.env.functions.find? f.signature.name = some k) :
    k.defined = false ∧ Functions.differences k.signature f.signature = [] ∧
      Accepted s.env.engine s.env.structs (Functions.merged k.signature f.signature) ∧
      ∃ st' stream, Codegen.body s.env (Functions.merged k.signature f.signature) f.body
          ⟨{ s.out with stream := s.out.stream.fork }, {}, []⟩ = .ok () st' ∧
        Stream.spliceAfter k.entry st'.out.stream s.out.stream = .ok () stream ∧
        t.env = { s.env with
          functions := (s.env.functions.marked st'.marks).define
            (Functions.merged k.signature f.signature) k.entry } ∧
        t.entryIndex = s.entryIndex ∧ t.out.stream = stream := by
  simp only [function, bind_ok, env_ok, lift_ok] at h
  obtain ⟨_, _, ⟨rfl, rfl⟩, found, _, ⟨hfound, rfl⟩, h⟩ := h
  simp only [Functions.reconcile, hf] at hfound
  split at hfound
  · cases hfound
  rename_i hdefined
  split at hfound
  · rename_i hdiff
    cases hfound
    simp only [bind_ok, env_ok, aside_ok, edit_ok, report_ok, define, register_ok, modify_ok] at h
    obtain ⟨_, _, hc, _, _, ⟨rfl, rfl⟩, _, _, ⟨st', hst, rfl, rfl⟩, _, _, ⟨stream, hstream, rfl⟩, _,
      _, rfl, _, rfl, rfl⟩ := h
    obtain ⟨haccepted, rfl⟩ := checkSignature_ok hc
    exact ⟨by simpa using hdefined, hdiff, haccepted, st', stream, hst, hstream, rfl, rfl, rfl⟩
  · cases hfound

end Steps

/-! ## Bodies -/

/-- The code of a body ends with a return, holds the handles that were given out for it, and jumps
only inside itself. -/
theorem body_code {env : Env} {sig : Signature} {stmts : List Stmt} {v : Unit} {st st' : State}
    (h : Codegen.body env sig stmts st = .ok v st') (hs : st.scope = {}) :
    ∃ code, st'.code = st.code ++ (code ++ [⟨st.next, .retn, none⟩]) ∧ st.next ≤ st'.next ∧
      Tidy (Between st.next st'.next) (Between st.next st'.next)
        (code ++ [⟨st.next, .retn, none⟩]) ∧
      Marks env (code ++ [⟨st.next, .retn, none⟩]) st st' := by
  obtain ⟨s₁, s₂, flow, code, hbinds, hlays, hwrites⟩ := body_laid h
  rw [hs] at hbinds
  obtain ⟨hle, htidy⟩ := body_tidy hbinds rfl hlays
  exact ⟨code, hwrites.code_eq, hle, htidy, hwrites.marks⟩

/-! ## Signatures that agree -/

theorem types_of_paramDifferences {ps qs : List Param} {first : Nat}
    (hl : ps.length = qs.length) (h : Functions.paramDifferences first ps qs = []) :
    ps.map (·.ty) = qs.map (·.ty) := by
  induction ps generalizing qs first with
  | nil => cases qs <;> simp_all
  | cons p ps ih =>
    cases qs with
    | nil => simp at hl
    | cons q qs =>
      simp only [Functions.paramDifferences, List.zip_cons_cons, List.zipIdx_cons,
        List.filterMap_cons] at h
      by_cases hty : p.ty = q.ty
      · simp only [hty, if_true] at h
        simpa [hty] using ih (by simpa using hl) h
      · simp [hty] at h

theorem types_of_differences {sig sig' : Signature} (h : Functions.differences sig sig' = []) :
    sig.returnType = sig'.returnType ∧ sig.params.map (·.ty) = sig'.params.map (·.ty) := by
  simp only [Functions.differences, List.append_eq_nil_iff] at h
  obtain ⟨⟨hr, hl⟩, hp⟩ := h
  have hlen : sig.params.length = sig'.params.length := by
    by_cases hlen : sig.params.length = sig'.params.length
    · exact hlen
    · simp [hlen] at hl
  refine ⟨?_, types_of_paramDifferences hlen hp⟩
  by_cases hret : sig.returnType = sig'.returnType
  · exact hret
  · simp [hret] at hr

theorem map_inherit {α : Type} {ps qs : List Param} (hl : ps.length = qs.length) (f : Param → α)
    (hf : ∀ p q, f (Functions.inherit p q) = f p) :
    (List.zipWith Functions.inherit ps qs).map f = ps.map f := by
  induction ps generalizing qs with
  | nil => simp
  | cons p ps ih =>
    cases qs with
    | nil => simp at hl
    | cons q qs => simp [hf, ih (by simpa using hl)]

/-- A definition that agrees with its announcement keeps its own names and types. -/
theorem merged_agrees {sig sig' : Signature} (h : Functions.differences sig sig' = []) :
    (Functions.merged sig sig').Agrees sig' ∧
      (Functions.merged sig sig').params.map (·.ty) = sig.params.map (·.ty) := by
  obtain ⟨_, hp⟩ := types_of_differences h
  have hl : sig'.params.length = sig.params.length := by
    simpa using (congrArg List.length hp).symm
  refine ⟨⟨rfl, rfl, map_inherit hl _ fun _ _ => rfl⟩, ?_⟩
  rw [hp]
  exact map_inherit hl _ fun _ _ => rfl

/-! ## The table of the segments -/

section Table

variable {fs : Functions} {segs : List Segment}

theorem find?_segment {name : Name} {f : Function} (hfs : fs.all = segs.map Segment.function)
    (h : fs.find? name = some f) :
    ∃ l g r, segs = l ++ g :: r ∧ g.function = f ∧ g.name = name := by
  simp only [Functions.find?_eq_all, hfs, List.find?_map] at h
  obtain ⟨g, hg, rfl⟩ := Option.map_eq_some_iff.mp h
  obtain ⟨hname, l, r, rfl, _⟩ := List.find?_eq_some_iff_append.mp hg
  exact ⟨l, g, r, rfl, rfl, by simpa using hname⟩

theorem find?_segment_none {name : Name} (hfs : fs.all = segs.map Segment.function) :
    fs.find? name = none ↔ name ∉ segs.map Segment.name := by
  simp [Functions.find?_eq_all, hfs]

theorem put_known {l r : List Segment} {old g : Segment} {f : Entry}
    (hfs : fs.all = (l ++ old :: r).map Segment.function) (hf : f.toFunction = g.function)
    (hname : old.name = g.name) (hd : ((l ++ old :: r).map Segment.name).Nodup) :
    (fs.put f).all = (l ++ g :: r).map Segment.function := by
  have hknown : (fs.find? f.signature.name).isSome := by
    rw [Option.isSome_iff_ne_none, Ne, find?_segment_none hfs, hf]
    simp [hname]
  have hkeep (segs : List Segment) (h : g.name ∉ segs.map Segment.name) :
      (segs.map Segment.function).map (fun k => if k.signature.name == g.function.signature.name
        then g.function else k) = segs.map Segment.function := by
    rw [List.map_map]
    refine List.map_congr_left fun k hk => ?_
    have hne : k.name ≠ g.name := fun he => h (List.mem_map.mpr ⟨k, hk, he⟩)
    simp [hne]
  simp only [List.map_append, List.map_cons, List.nodup_append, List.nodup_cons, hname] at hd
  obtain ⟨_, ⟨hr, _⟩, hl⟩ := hd
  have hl' : g.name ∉ l.map Segment.name := fun hg => hl _ hg _ (by simp) rfl
  rw [Functions.all_put_known hknown, hfs, hf, List.map_append, List.map_append, hkeep l hl',
    List.map_cons, List.map_cons, hkeep r hr]
  simp [hname]

end Table

/-! ## Items, one after another -/

/-- Code that is spliced in stands right behind the marker. -/
theorem spliceAfter_at {a b : List Instruction} {i : Instruction} {next : Handle}
    {other stream : Stream} {u : Unit} (hi : i.handle ∉ a.map (·.handle))
    (h : Stream.spliceAfter i.handle other ⟨a ++ i :: b, next⟩ = .ok u stream) :
    stream = ⟨a ++ i :: (other.code ++ b), max next other.next⟩ := by
  obtain ⟨index, hindex, rfl⟩ := Stream.spliceAfter_ok.mp h
  rw [Stream.indexOf?_at hi, Option.some.injEq] at hindex
  subst hindex
  simp [List.take_append, List.drop_append, List.take_of_length_le (Nat.le_succ a.length),
    List.drop_of_length_le (Nat.le_succ a.length)]

section Segmented

variable {base : Env} {head : List Instruction} {items : Script} {segs segs' : List Segment}
  {s t : Session}

/-- What an item has to do to the segments: functions with a body stay as they are, and the new ones
belong to the item. -/
theorem Segmented.step {item : Item} (h : Segmented base head items segs s)
    (hgrows : Functions.Grows (segs.map Segment.function) (segs'.map Segment.function))
    (hcalled : ∀ name, s.env.functions.isCalled name = true →
      t.env.functions.isCalled name = true)
    (henv : t.env = { base with functions := t.env.functions })
    (htable : t.env.functions.all = segs'.map Segment.function)
    (hentry : t.entryIndex = s.entryIndex)
    (hcode : t.out.stream.code = head ++ segs'.flatMap Segment.code)
    (hnames : segs'.map Segment.name =
      ((items ++ [item]).filterMap Item.functionName?).eraseDups)
    (hdistinct : (segs'.map Segment.name).Nodup)
    (hnodup : (t.out.stream.code.map (·.handle)).Nodup)
    (hbelow : ∀ i ∈ t.out.stream.code, i.handle < t.out.stream.next)
    (haccepted : ∀ g ∈ segs', g ∈ segs ∨ Accepted base.engine base.structs g.signature)
    (hold : ∀ g ∈ segs, g.body.isSome → g ∈ segs')
    (hnew : ∀ g ∈ segs', g.body.isSome → g ∈ segs ∨ ∃ f, item = .function f ∧
      Compiled base t.env.functions f g)
    (hitem : ∀ f, item = .function f → ∃ g ∈ segs', Compiled base t.env.functions f g) :
    Segmented base head (items ++ [item]) segs' t where
  env_eq := henv
  table := htable
  entry_eq := hentry.trans h.entry_eq
  code_eq := hcode
  names := hnames
  distinct := hdistinct
  nodup := hnodup
  below := hbelow
  accepted g hg := (haccepted g hg).elim (h.accepted g) id
  origin g hg hb := by
    rcases hnew g hg hb with hmem | ⟨f, rfl, hf⟩
    · obtain ⟨f, hf, hcompiled⟩ := h.origin g hmem hb
      exact ⟨f, by simp [hf], hcompiled.later (by rwa [h.table, htable]) hcalled⟩
    · exact ⟨f, by simp, hf⟩
  defined f hf := by
    rcases List.mem_append.mp hf with hf | hf
    · obtain ⟨g, hg, hcompiled⟩ := h.defined f hf
      have hbody : g.body.isSome := by
        obtain ⟨_, code, _, _, _, hbody, _⟩ := hcompiled
        simp [hbody]
      exact ⟨g, hold g hg hbody, hcompiled.later (by rwa [h.table, htable]) hcalled⟩
    · exact hitem f (List.mem_singleton.mp hf).symm

theorem names_new {item : Item} {name : Name} (hitem : item.functionName? = some name)
    (hnot : name ∉ (items.filterMap Item.functionName?).eraseDups) :
    ((items ++ [item]).filterMap Item.functionName?).eraseDups =
      (items.filterMap Item.functionName?).eraseDups ++ [name] := by
  rw [List.mem_eraseDups] at hnot
  have hrest : [name].removeAll (items.filterMap Item.functionName?) = [name] := by
    simp only [List.removeAll, List.filter_cons, List.filter_nil]
    rw [if_pos (by simpa using hnot)]
  rw [List.filterMap_append, List.eraseDups_append]
  simp only [List.filterMap_cons, hitem, List.filterMap_nil, hrest, List.eraseDups_cons]
  simp

theorem names_known {item : Item} {name : Name} (hitem : item.functionName? = some name)
    (hin : name ∈ (items.filterMap Item.functionName?).eraseDups) :
    ((items ++ [item]).filterMap Item.functionName?).eraseDups =
      (items.filterMap Item.functionName?).eraseDups := by
  rw [List.mem_eraseDups] at hin
  have hrest : [name].removeAll (items.filterMap Item.functionName?) = [] := by
    simp only [List.removeAll, List.filter_cons, List.filter_nil]
    rw [if_neg (by simpa using hin)]
  rw [List.filterMap_append, List.eraseDups_append]
  simp only [List.filterMap_cons, hitem, List.filterMap_nil, hrest]
  simp

/-- Code with new handles keeps the handles of the stream distinct, wherever it is put. -/
theorem Segmented.fresh {code : List Instruction} (h : Segmented base head items segs s)
    (hperm : t.out.stream.code.Perm (code ++ s.out.stream.code))
    (hnodup : (code.map (·.handle)).Nodup)
    (hfresh : ∀ i ∈ code, Between s.out.stream.next t.out.stream.next i.handle)
    (hle : s.out.stream.next ≤ t.out.stream.next) :
    (t.out.stream.code.map (·.handle)).Nodup ∧
      ∀ i ∈ t.out.stream.code, i.handle < t.out.stream.next := by
  constructor
  · rw [(hperm.map _).nodup_iff, List.map_append, List.nodup_append]
    refine ⟨hnodup, h.nodup, ?_⟩
    rintro x hx y hy rfl
    obtain ⟨i, hi, rfl⟩ := List.mem_map.mp hx
    obtain ⟨j, hj, he⟩ := List.mem_map.mp hy
    have hlt := h.below j hj
    rw [he] at hlt
    exact absurd (hfresh i hi).1 (Nat.not_le.mpr hlt)
  · intro i hi
    rcases List.mem_append.mp (hperm.mem_iff.mp hi) with hi | hi
    · exact (hfresh i hi).2
    · exact Nat.lt_of_lt_of_le (h.below i hi) hle

/-- An item that names a new function puts its segment at the end. -/
theorem Segmented.extend {item : Item} (g : Segment) (h : Segmented base head items segs s)
    (hitem : item.functionName? = some g.name)
    (hfind : s.env.functions.find? g.name = none)
    (henv : t.env = { s.env with functions := t.env.functions })
    (htable : t.env.functions.all = s.env.functions.all ++ [g.function])
    (hentry : t.entryIndex = s.entryIndex)
    (hcalled : ∀ name, s.env.functions.isCalled name = true →
      t.env.functions.isCalled name = true)
    (hcode : t.out.stream.code = s.out.stream.code ++ g.code)
    (hnodup : (g.code.map (·.handle)).Nodup)
    (hfresh : ∀ i ∈ g.code, Between s.out.stream.next t.out.stream.next i.handle)
    (hle : s.out.stream.next ≤ t.out.stream.next)
    (haccepted : Accepted base.engine base.structs g.signature)
    (hbody : g.body.isSome → ∃ f, item = .function f ∧ Compiled base t.env.functions f g)
    (hfun : ∀ f, item = .function f → Compiled base t.env.functions f g) :
    Segmented base head (items ++ [item]) (segs ++ [g]) t := by
  have hnotin := (find?_segment_none h.table).mp hfind
  obtain ⟨hdistinct, hbelow⟩ := h.fresh (hcode ▸ List.perm_append_comm) hnodup hfresh hle
  refine h.step ?_ hcalled ?_ ?_ hentry ?_ ?_ ?_ hdistinct hbelow ?_ ?_ ?_ ?_
  · intro f hf
    exact ⟨f, by simp only [List.map_append, List.mem_append]; exact .inl hf, rfl, rfl, rfl, rfl⟩
  · rw [henv, h.env_eq]
  · simp [htable, h.table]
  · simp [hcode, h.code_eq]
  · rw [names_new hitem (h.names ▸ hnotin), ← h.names]
    simp
  · simp only [List.map_append, List.map_cons, List.map_nil, List.nodup_append]
    refine ⟨h.distinct, by simp, ?_⟩
    rintro x hx y hy rfl
    cases List.mem_singleton.mp hy
    exact hnotin hx
  · intro k hk
    rcases List.mem_append.mp hk with hk | hk
    · exact .inl hk
    · cases List.mem_singleton.mp hk
      exact .inr haccepted
  · intro k hk _
    exact List.mem_append_left _ hk
  · intro k hk hkb
    rcases List.mem_append.mp hk with hk | hk
    · exact .inl hk
    · cases List.mem_singleton.mp hk
      exact .inr (hbody hkb)
  · intro f hf
    exact ⟨g, by simp, hfun f hf⟩

/-- An item that defines an announced function puts its body behind the announcement. -/
theorem Segmented.fill {f : FunctionDef} {l r : List Segment} {old : Segment}
    {code : List Instruction} (g : Segment) (h : Segmented base head items (l ++ old :: r) s)
    (hname : g.name = f.signature.name) (hsame : old.name = g.name)
    (hannounced : old.body = none) (hentry : g.entry = old.entry) (hbody : g.body = some code)
    (hret : g.signature.returnType = old.signature.returnType)
    (hparams : g.signature.params.map (·.ty) = old.signature.params.map (·.ty))
    (henv : t.env = { s.env with functions := t.env.functions })
    (htable : t.env.functions.all = (l ++ g :: r).map Segment.function)
    (hindex : t.entryIndex = s.entryIndex)
    (hcalled : ∀ name, s.env.functions.isCalled name = true →
      t.env.functions.isCalled name = true)
    (hcode : t.out.stream.code = head ++ (l ++ g :: r).flatMap Segment.code)
    (hnodup : (code.map (·.handle)).Nodup)
    (hfresh : ∀ i ∈ code, Between s.out.stream.next t.out.stream.next i.handle)
    (hle : s.out.stream.next ≤ t.out.stream.next)
    (haccepted : Accepted base.engine base.structs g.signature)
    (hfun : Functions.Grows ((l ++ old :: r).map Segment.function)
        ((l ++ g :: r).map Segment.function) →
      Compiled base t.env.functions f g) :
    Segmented base head (items ++ [.function f]) (l ++ g :: r) t := by
  have hgrows : Functions.Grows ((l ++ old :: r).map Segment.function)
      ((l ++ g :: r).map Segment.function) := by
    intro k hk
    simp only [List.map_append, List.map_cons, List.mem_append, List.mem_cons] at hk
    rcases hk with hk | rfl | hk
    · exact ⟨k, by simp only [List.map_append, List.mem_append]; exact .inl hk, rfl, rfl, rfl, rfl⟩
    · exact ⟨g.function, by simp, hentry, hsame.symm, hret, hparams⟩
    · refine ⟨k, ?_, rfl, rfl, rfl, rfl⟩
      simp only [List.map_append, List.map_cons, List.mem_append, List.mem_cons]
      exact .inr (.inr hk)
  have hnames : (l ++ g :: r).map Segment.name = (l ++ old :: r).map Segment.name := by simp [hsame]
  have hmem : ∀ k ∈ l ++ g :: r, k ∈ l ++ old :: r ∨ k = g := by
    simp only [List.mem_append, List.mem_cons]
    rintro k (hk | rfl | hk)
    · exact .inl (.inl hk)
    · exact .inr rfl
    · exact .inl (.inr (.inr hk))
  -- The stream is the old one with the body between the announcement and the rest.
  have hsplit : s.out.stream.code = (head ++ l.flatMap Segment.code ++ [⟨old.entry, .nop, none⟩]) ++
      r.flatMap Segment.code := by
    simp [h.code_eq, Segment.code, hannounced]
  have hsplit' : t.out.stream.code = (head ++ l.flatMap Segment.code ++
      [⟨old.entry, .nop, none⟩]) ++ (code ++ r.flatMap Segment.code) := by
    simp [hcode, Segment.code, hbody, hentry]
  have hperm : t.out.stream.code.Perm (code ++ s.out.stream.code) := by
    rw [hsplit, hsplit', ← List.append_assoc, ← List.append_assoc]
    exact List.perm_append_comm.append_right _
  obtain ⟨hdistinct, hbelow⟩ := h.fresh hperm hnodup hfresh hle
  refine h.step hgrows hcalled ?_ htable hindex hcode ?_ ?_ hdistinct hbelow ?_ ?_ ?_ ?_
  · rw [henv, h.env_eq]
  · have hin : f.signature.name ∈ (items.filterMap Item.functionName?).eraseDups := by
      rw [← h.names, ← hname]
      simp [hsame]
    rw [hnames, h.names, names_known rfl hin]
  · rw [hnames]
    exact h.distinct
  · intro k hk
    rcases hmem k hk with hk | rfl
    · exact .inl hk
    · exact .inr haccepted
  · intro k hk hkb
    simp only [List.mem_append, List.mem_cons] at hk ⊢
    rcases hk with hk | rfl | hk
    · exact .inl hk
    · simp [hannounced] at hkb
    · exact .inr (.inr hk)
  · intro k hk _
    rcases hmem k hk with hk | rfl
    · exact .inl hk
    · exact .inr ⟨f, rfl, hfun hgrows⟩
  · rintro _ ⟨⟩
    exact ⟨g, by simp, hfun hgrows⟩

theorem prototype_segmented {sig : Signature} {u : Unit} (h : Segmented base head items segs s)
    (hp : prototype sig s = .ok u t) :
    ∃ segs', Segmented base head (items ++ [.prototype sig]) segs' t := by
  obtain ⟨hfind, haccepted, henv, hindex, hstream⟩ := prototype_ok hp
  refine ⟨_, h.extend ⟨s.out.stream.next, sig, none⟩ rfl hfind (by rw [henv]) ?_ hindex ?_ ?_ ?_ ?_
    ?_ ?_ (by simp) (by simp)⟩
  · rw [henv]
    exact Functions.all_put_new hfind
  · intro name hcalled
    rw [henv]
    exact (Functions.isCalled_announced hfind).trans hcalled
  · rw [hstream]
    rfl
  · simp [Segment.code]
  · simp [Segment.code, hstream, Between]
  · simp [hstream]
  · rwa [h.env_eq] at haccepted

/-- What is noted while a body is compiled stays noted when the function is defined. -/
theorem called_of_marks {fs : Functions} {names : List Name} {sig : Signature} {entry : Handle}
    {name : Name} (h : (fs.find? name).isSome) (hname : name ∈ names) :
    ((fs.marked names).define sig entry).isCalled name = true := by
  rw [Functions.isCalled_define]
  exact Functions.isCalled_of_marked h hname

theorem called_after_body {fs : Functions} {names : List Name} {sig : Signature} {entry : Handle}
    {name : Name} (h : fs.isCalled name = true) :
    ((fs.marked names).define sig entry).isCalled name = true := by
  rw [Functions.isCalled_define]
  exact Functions.isCalled_marked h

theorem function_new_segmented {f : FunctionDef} {u : Unit}
    (h : Segmented base head items segs s) (hf : function f s = .ok u t)
    (hfind : s.env.functions.find? f.signature.name = none) :
    ∃ segs', Segmented base head (items ++ [.function f]) segs' t := by
  obtain ⟨haccepted, st', hrun, henv, hindex, hstream⟩ := function_new_ok hf hfind
  obtain ⟨code, hcode, hle, htidy, hmarks⟩ := body_code hrun rfl
  generalize hend : code ++ [_] = code' at hcode htidy hmarks
  have hnext : s.out.stream.next + 1 ≤ st'.next := hle
  have hfresh (i : Instruction) (hi : i ∈ code') :
      Between (s.out.stream.next + 1) st'.next i.handle :=
    (htidy.handles _).mp (List.mem_map.mpr ⟨i, hi, rfl⟩)
  have htable : t.env.functions.all =
      s.env.functions.all ++ [⟨s.out.stream.next, f.signature, true⟩] := by
    rw [henv, Functions.define, Functions.all_put_new (by simpa using hfind), Functions.all_marked]
  have hcompiled :
      Compiled base t.env.functions f ⟨s.out.stream.next, f.signature, some code'⟩ := by
    rw [h.env_eq] at hrun
    refine ⟨⟨rfl, rfl, rfl⟩, code', s.env.functions, _, st', rfl, ?_, rfl, hrun, hcode, ?_⟩
    · intro k hk
      exact ⟨k, by rw [htable]; exact List.mem_append_left _ hk, rfl, rfl, rfl, rfl⟩
    · intro i hi hop
      obtain ⟨k, hk, htarget, hmark⟩ := hmarks.2 i hi hop
      rw [henv]
      exact ⟨k, hk, htarget, called_of_marks (by simp [hk]) hmark⟩
  refine ⟨_, h.extend ⟨s.out.stream.next, f.signature, some code'⟩ rfl hfind (by rw [henv]) htable
    hindex ?_ ?_ ?_ ?_ ?_ ?_ (fun _ => ⟨f, rfl, hcompiled⟩) ?_⟩
  · intro name hcalled
    rw [henv]
    exact called_after_body hcalled
  · rw [hstream, show st'.out.stream.code = _ from hcode]
    simp [State.code, Segment.code]
  · simp only [Segment.code, Option.getD_some, List.map_cons, List.nodup_cons]
    refine ⟨fun hmem => ?_, htidy.nodup⟩
    have := ((htidy.handles _).mp hmem).1
    exact absurd this (Nat.not_succ_le_self _)
  · intro i hi
    rw [hstream]
    rcases List.mem_cons.mp hi with rfl | hi
    · exact ⟨Nat.le_refl _, hnext⟩
    · exact ⟨Nat.le_trans (Nat.le_succ _) (hfresh i hi).1, (hfresh i hi).2⟩
  · rw [hstream]
    exact Nat.le_trans (Nat.le_succ _) hnext
  · rwa [h.env_eq] at haccepted
  · rintro _ ⟨⟩
    exact hcompiled

theorem function_announced_segmented {f : FunctionDef} {k : Function} {u : Unit}
    (h : Segmented base head items segs s) (hf : function f s = .ok u t)
    (hfind : s.env.functions.find? f.signature.name = some k) :
    ∃ segs', Segmented base head (items ++ [.function f]) segs' t := by
  obtain ⟨hk, hdiff, haccepted, st', stream, hrun, hsplice, henv, hindex, hstream⟩ :=
    function_announced_ok hf hfind
  obtain ⟨code, hcode, hle, htidy, hmarks⟩ := body_code hrun rfl
  generalize hend : code ++ [_] = code' at hcode htidy hmarks
  obtain ⟨hagrees, hparams⟩ := merged_agrees hdiff
  obtain ⟨hret, _⟩ := types_of_differences hdiff
  obtain ⟨l, old, r, rfl, rfl, hname⟩ := find?_segment h.table hfind
  have hannounced : old.body = none := by simpa [Segment.function] using hk
  have hat := h.code_eq
  simp only [List.flatMap_append, List.flatMap_cons, Segment.code, hannounced, Option.getD_none,
    List.cons_append, List.nil_append, ← List.append_assoc] at hat
  have hnotin : old.entry ∉ (head ++ l.flatMap Segment.code).map (·.handle) := by
    intro hmem
    have hnodup := h.nodup
    rw [hat, List.map_append, List.nodup_append] at hnodup
    exact hnodup.2.2 _ hmem old.entry (by simp) rfl
  have hspliced : stream = ⟨(head ++ l.flatMap Segment.code) ++ ⟨old.entry, .nop, none⟩ ::
      (code' ++ r.flatMap Segment.code), max s.out.stream.next st'.next⟩ := by
    rw [show s.out.stream = ⟨s.out.stream.code, s.out.stream.next⟩ from rfl, hat] at hsplice
    have hown : st'.out.stream.code = code' := by simpa [State.code, Stream.fork] using hcode
    have hat' := @spliceAfter_at _ _ ⟨old.entry, .nop, none⟩ _ _ _ _ hnotin hsplice
    rwa [hown] at hat'
  have hnext : t.out.stream.next = st'.next := by
    rw [hstream, hspliced]
    exact Nat.max_eq_right hle
  have htable : t.env.functions.all = (l ++ ⟨old.entry,
      Functions.merged old.signature f.signature, some code'⟩ :: r).map Segment.function := by
    rw [henv]
    exact put_known (by simpa using h.table) rfl hname h.distinct
  refine ⟨_, h.fill ⟨old.entry, Functions.merged old.signature f.signature, some code'⟩ rfl hname
    hannounced rfl rfl hret.symm hparams (by rw [henv]) htable hindex ?_ ?_ htidy.nodup ?_ ?_ ?_ ?_⟩
  · intro name hcalled
    rw [henv]
    exact called_after_body hcalled
  · simp [hstream, hspliced, Segment.code]
  · intro i hi
    rw [hnext]
    exact (htidy.handles _).mp (List.mem_map.mpr ⟨i, hi, rfl⟩)
  · rw [hnext]
    exact hle
  · rwa [h.env_eq] at haccepted
  · intro hgrows
    rw [h.env_eq] at hrun
    refine ⟨hagrees, code', s.env.functions, _, st', rfl, by rwa [h.table, htable], rfl, hrun,
      hcode, ?_⟩
    intro i hi hop
    obtain ⟨k, hk, htarget, hmark⟩ := hmarks.2 i hi hop
    rw [henv]
    exact ⟨k, hk, htarget, called_of_marks (by simp [hk]) hmark⟩

theorem function_segmented {f : FunctionDef} {u : Unit} (h : Segmented base head items segs s)
    (hf : function f s = .ok u t) :
    ∃ segs', Segmented base head (items ++ [.function f]) segs' t := by
  cases hfind : s.env.functions.find? f.signature.name with
  | none => exact function_new_segmented h hf hfind
  | some k => exact function_announced_segmented h hf hfind

/-- The functions of a script stand one behind the other. -/
theorem functions_segmented {more : Script} {u : Unit} (h : Segmented base head items segs s)
    (hf : functions more s = .ok u t) : ∃ segs', Segmented base head (items ++ more) segs' t := by
  induction more generalizing items segs s with
  | nil =>
    simp only [functions, pure_ok] at hf
    obtain ⟨_, rfl⟩ := hf
    exact ⟨segs, by simpa using h⟩
  | cons item rest ih =>
    have hone : ∃ w, functions rest w = .ok u t ∧
        ∃ segs', Segmented base head (items ++ [item]) segs' w := by
      cases item with
      | prototype sig =>
        simp only [functions, bind_ok] at hf
        obtain ⟨_, w, hw, hf⟩ := hf
        exact ⟨w, hf, prototype_segmented h hw⟩
      | function f =>
        simp only [functions, bind_ok] at hf
        obtain ⟨_, w, hw, hf⟩ := hf
        exact ⟨w, hf, function_segmented h hw⟩
      | «include» name => simp [functions, bind_ok, throw_ok] at hf
      | global _ | struct _ =>
        refine ⟨s, hf, segs, { h with names := ?_, origin := ?_, defined := ?_ }⟩
        · simpa [List.filterMap_append, List.filterMap_cons, Item.functionName?] using h.names
        · intro g hg hb
          obtain ⟨f, hf, hc⟩ := h.origin g hg hb
          exact ⟨f, List.mem_append_left _ hf, hc⟩
        · intro f hf
          exact h.defined f (by simpa using hf)
    obtain ⟨w, hw, segs', hsegs'⟩ := hone
    simpa using ih hsegs' hw

end Segmented

end Build

end NwScript
