-- The code of globals, told as a relation: each global is reserved and gets its first value on top
-- of those before it.
import NwScript.Proofs.Codegen.Handles
import NwScript.Proofs.Program.Session
import NwScript.Proofs.Storage.Slots
import NwScript.Build.Global

namespace NwScript

/-- The environment with one more global. -/
def Env.withGlobal (env : Env) (g : GlobalDef) : Env :=
  { env with globals := env.globals ++ [⟨g.name, g.ty, g.const⟩] }

namespace Build

open Codegen

/-! ## The relation -/

/-- The code of one global, where the environment already has it. -/
inductive GlobalCode (env : Env) : Handle → GlobalDef → List Instruction → Handle → Prop
  | plain {n : Handle} {g : GlobalDef} {ks : List SlotKind} :
      g.init = none → env.structs.slots g.ty = .ok ks →
      GlobalCode env n g (numbered n (ks.map .reserve)) (n + ks.length)
  | initialized {n n₁ : Handle} {g : GlobalDef} {ks : List SlotKind} {k : Nat} {e : Expr}
      {r : Resolved} {value : List Instruction} :
      g.init = some e → env.structs.slots g.ty = .ok ks → env.sizeOf g.ty = .ok k →
      Emits env {} (n + ks.length) (.value e) [g.ty] value n₁ →
      (({} : Scope).grown k).resolve env g.name = .ok r →
      GlobalCode env n g (numbered n (ks.map .reserve) ++ (value ++
        [⟨n₁, .copyDown .sp r.offset k, none⟩, ⟨n₁ + 1, .moveSp (-k), none⟩])) (n₁ + 2)

/-- `GlobalsCode env n items env' code m`: the globals and structs among the items lead from one
environment to the other, and give the code with handles from `n` up to `m`. -/
inductive GlobalsCode : Env → Handle → Script → Env → List Instruction → Handle → Prop
  | nil {env : Env} {n : Handle} : GlobalsCode env n [] env [] n
  | skip {env env' : Env} {n m : Handle} {item : Item} {rest : Script} {code : List Instruction} :
      (∀ g, item ≠ .global g) → (∀ d, item ≠ .struct d) → GlobalsCode env n rest env' code m →
      GlobalsCode env n (item :: rest) env' code m
  | struct {env env' : Env} {n m : Handle} {d : StructDef} {structs : Structs} {e : Event}
      {rest : Script} {code : List Instruction} :
      Structs.define d env.structs = .ok e structs →
      GlobalsCode { env with structs } n rest env' code m →
      GlobalsCode env n (.struct d :: rest) env' code m
  | global {env env' : Env} {n n₁ m : Handle} {g : GlobalDef} {rest : Script}
      {code more : List Instruction} :
      GlobalCode (env.withGlobal g) n g code n₁ →
      GlobalsCode (env.withGlobal g) n₁ rest env' more m →
      GlobalsCode env n (.global g :: rest) env' (code ++ more) m

/-! ## Whatever is written is related -/

/-- The code was written behind the rest, and every call in it is one of a function that is known.
-/
structure Writes (functions : Functions) (s t : Session) (code : List Instruction) : Prop where
  code_eq : t.out.stream.code = s.out.stream.code ++ code
  calls : ∀ i ∈ code, i.op = .jump .jsr → ∃ f, functions.find? f.signature.name = some f ∧
    i.target = some f.entry

section Soundness

variable {s t u : Session} {code more : List Instruction} {functions : Functions}

theorem Writes.append (h : Writes functions s t code) (h' : Writes functions t u more) :
    Writes functions s u (code ++ more) := by
  refine ⟨by simp [h'.code_eq, h.code_eq], ?_⟩
  intro i hi
  rcases List.mem_append.mp hi with hi | hi
  · exact h.calls i hi
  · exact h'.calls i hi

theorem writes_of_marks {env : Env} {a b : State} (hc : b.code = a.code ++ code)
    (hm : Marks env code a b) (hs : s.out.stream = a.out.stream)
    (ht : t.out.stream = b.out.stream) :
    Writes env.functions s t code := by
  refine ⟨?_, ?_⟩
  · rw [hs, ht]
    exact hc
  · intro i hi hop
    obtain ⟨f, hf, htarget, _⟩ := hm.2 i hi hop
    exact ⟨f, hf, htarget⟩

/-- The initial value of a global can note calls, but changes nothing else in the environment. -/
theorem global_written {g : GlobalDef} {v : Unit} (h : global g s = .ok v t) :
    (∃ names, t.env = (s.env.withGlobal g).marked names) ∧
    ∃ code, GlobalCode (s.env.withGlobal g) s.out.stream.next g code t.out.stream.next ∧
      Writes s.env.functions s t code := by
  simp only [global, bind_ok, env_ok, require_mistake_ok, refuse_mistake_ok, lift_ok, generate_ok,
    emitAll_ok, modify_ok] at h
  obtain ⟨_, _, ⟨rfl, rfl⟩, _, _, _, ⟨_, rfl⟩, _, _, ops, _, ⟨hops, rfl⟩, _, _, ⟨_, ⟨-, rfl⟩, rfl⟩,
    _, _, rfl, h⟩ := h
  simp only [Structs.reserve, except_bind_ok, except_pure_ok] at hops
  obtain ⟨ks, hks, rfl⟩ := hops
  simp only [Env.marked, State.wrote_marks, Functions.marked_nil] at h
  rw [show ({ s.env with globals := s.env.globals ++ [⟨g.name, g.ty, g.const⟩] } : Env) =
    s.env.withGlobal g from rfl, List.length_map] at h
  generalize hmid : ({ s with env := s.env.withGlobal g, out := _ } : Session) = mid at h
  have hnext : mid.out.stream.next = s.out.stream.next + ks.length := by rw [← hmid]; rfl
  have henv : mid.env = s.env.withGlobal g := by rw [← hmid]
  have hreserve : Writes s.env.functions s mid (numbered s.out.stream.next (ks.map .reserve)) := by
    refine ⟨by rw [← hmid]; rfl, fun i hi hop => ?_⟩
    have := numbered_op hi
    simp [hop] at this
  cases hi : g.init with
  | none =>
    simp only [hi, report_ok] at h
    subst h
    refine ⟨⟨[], by simp [Env.marked, henv]⟩, _, ?_, hreserve.code_eq, hreserve.calls⟩
    show GlobalCode _ _ _ _ mid.out.stream.next
    rw [hnext]
    exact .plain hi hks
  | some e =>
    simp only [hi, bind_ok, env_ok, report_ok, generate_ok] at h
    obtain ⟨_, _, ⟨rfl, rfl⟩, _, _, ⟨w, hw, rfl⟩, rfl⟩ := h
    rw [henv] at hw
    obtain ⟨value, n₁, r, k, hk, hvalue, hr, hn, _, hwrites⟩ := initialValue_written hw
    have hall : Writes s.env.functions s { mid with out := w.out } _ :=
      hreserve.append (writes_of_marks hwrites.code_eq hwrites.marks rfl rfl)
    refine ⟨⟨w.marks, by simp [henv]⟩, _, ?_, hall.code_eq, hall.calls⟩
    show GlobalCode _ _ _ _ w.out.stream.next
    rw [show w.out.stream.next = n₁ + 2 from hn]
    rw [show State.next ⟨mid.out, {}, []⟩ = s.out.stream.next + ks.length from hnext] at hvalue
    exact .initialized hi hks hk hvalue hr

/-- Before there is a function, no call can be noted. -/
theorem global_env {g : GlobalDef} {v : Unit} (hnone : s.env.functions = {})
    (h : global g s = .ok v t) : t.env = s.env.withGlobal g := by
  obtain ⟨⟨names, henv⟩, _⟩ := global_written h
  simp [henv, Env.marked, Env.withGlobal, hnone, Functions.marked]

/-- Before there is a function, nothing is called. -/
theorem globals_written {items : Script} {v : Unit} (hnone : s.env.functions = {})
    (h : globals items s = .ok v t) :
    ∃ code, GlobalsCode s.env s.out.stream.next items t.env code t.out.stream.next ∧
      Writes {} s t code := by
  induction items generalizing s with
  | nil =>
    simp only [globals, pure_ok] at h
    obtain ⟨_, rfl⟩ := h
    exact ⟨[], .nil, by simp, by simp⟩
  | cons item rest ih =>
    cases item with
    | global g =>
      simp only [globals, bind_ok] at h
      obtain ⟨_, w, hw, h⟩ := h
      obtain ⟨_, code, hcode, hwrites⟩ := global_written hw
      have henv := global_env hnone hw
      obtain ⟨more, hmore, hwrites'⟩ := ih (by simp [henv, Env.withGlobal, hnone]) h
      rw [henv] at hmore
      rw [hnone] at hwrites
      exact ⟨_, .global hcode hmore, hwrites.append hwrites'⟩
    | struct d =>
      simp only [globals, struct, bind_ok, focus_ok, report_ok] at h
      obtain ⟨_, _, ⟨_, _, ⟨structs, hd, rfl⟩, rfl⟩, h⟩ := h
      obtain ⟨code, hcode, hwrites⟩ := ih (by exact hnone) h
      exact ⟨code, .struct hd hcode, hwrites.code_eq, hwrites.calls⟩
    | «include» _ | prototype _ | function _ =>
      simp only [globals] at h
      obtain ⟨code, hcode, hwrites⟩ := ih hnone h
      exact ⟨code, .skip (by simp) (by simp) hcode, hwrites⟩

end Soundness

/-! ## What globals leave behind -/

end Build

/-- The global that an item declares. -/
def Item.global? : Item → Option Global
  | .global g => some ⟨g.name, g.ty, g.const⟩
  | _ => none

namespace Build

open Codegen

section Globals

variable {env env' : Env} {n m : Nat} {items : Script} {code : List Instruction}

theorem globalCode_tidy {g : GlobalDef} (h : GlobalCode env n g code m) :
    n ≤ m ∧ Tidy (Between n m) (Between n m) code := by
  have hreserve {ks : List SlotKind} :
      Tidy (Between n (n + ks.length)) (fun _ => False) (numbered n (ks.map .reserve)) := by
    have hall : Tidy (Between n (n + (ks.map Op.reserve).length)) _ _ :=
      tidy_numbered (by simp [Op.isJump])
    rwa [List.length_map] at hall
  cases h with
  | plain => exact ⟨Nat.le_add_right _ _, hreserve.mono (fun _ => Iff.rfl) (by simp)⟩
  | initialized _ _ _ he _ =>
    obtain ⟨hle, hvalue⟩ := emits_tidy he
    refine ⟨by omega, (hreserve.append (hvalue.append ((tidy_op (by simp) rfl).append
      (tidy_op (by simp) rfl) ?_) ?_) ?_).mono ?_ ?_⟩
    all_goals grind [Between]

theorem globalsCode_tidy (h : GlobalsCode env n items env' code m) :
    n ≤ m ∧ Tidy (Between n m) (Between n m) code := by
  induction h with
  | nil =>
    refine ⟨Nat.le_refl _, tidy_nil.mono ?_ (by simp)⟩
    grind [Between]
  | skip _ _ _ ih | struct _ _ ih => exact ih
  | global hg _ ih =>
    obtain ⟨hle, hcode⟩ := globalCode_tidy hg
    refine ⟨by omega, (hcode.append ih.2 ?_).mono ?_ ?_⟩
    all_goals grind [Between]

/-- Only the structs and the globals change, and structs are changed by definitions alone. -/
theorem globalsCode_env (h : GlobalsCode env n items env' code m) (hb : env.structs.Built) :
    env'.structs.Built ∧ env'.globals = env.globals ++ items.filterMap Item.global? ∧
      env' = { env with structs := env'.structs, globals := env'.globals } := by
  induction h with
  | nil => exact ⟨hb, by simp, rfl⟩
  | @skip env env' n m item rest code hg hd _ ih =>
    obtain ⟨hb', hglobals, henv⟩ := ih hb
    refine ⟨hb', ?_, henv⟩
    cases item with
    | global g => exact absurd rfl (hg g)
    | _ => simpa [List.filterMap_cons, Item.global?] using hglobals
  | struct hd _ ih =>
    obtain ⟨hb', hglobals, henv⟩ := ih (.define hb hd)
    exact ⟨hb', by simpa [List.filterMap_cons, Item.global?] using hglobals, henv⟩
  | global _ _ ih =>
    obtain ⟨hb', hglobals, henv⟩ := ih hb
    exact ⟨hb', by simpa [Item.global?, Env.withGlobal] using hglobals, henv⟩

end Globals

/-- The globals are closed if there are any, and calls start right behind them. -/
theorem sealGlobals_ok {s t : Session} {u : Unit} (h : sealGlobals s = .ok u t) :
    ∃ close, (close = if s.env.globals = [] then [] else [⟨s.out.stream.next, .saveBp, none⟩]) ∧
      t.out.stream.code = s.out.stream.code ++ close ∧
      t.out.stream.next = s.out.stream.next + close.length ∧
      t.env = { s.env with sealed := if s.env.globals = [] then s.env.sealed else true } ∧
      t.entryIndex = t.out.stream.code.length := by
  simp only [sealGlobals, bind_ok, env_ok] at h
  obtain ⟨_, _, ⟨rfl, rfl⟩, h⟩ := h
  by_cases hg : s.env.globals = []
  · simp only [hg, List.isEmpty_nil, if_true, bind_ok, stream_ok, modify_ok, report_ok] at h
    obtain ⟨_, _, ⟨rfl, rfl⟩, _, _, rfl, rfl⟩ := h
    exact ⟨[], by simp [hg], by simp, by simp, by rw [if_pos hg], rfl⟩
  · have hne : s.env.globals.isEmpty = false := by simpa using hg
    simp only [hne, Bool.false_eq_true, if_false, bind_ok, edit_ok, Stream.add_ok, stream_ok,
      modify_ok, report_ok] at h
    obtain ⟨_, _, ⟨_, ⟨-, rfl, rfl⟩, rfl⟩, _, _, rfl, _, _, ⟨rfl, rfl⟩, _, _, rfl, rfl⟩ := h
    exact ⟨_, by simp [hg], rfl, rfl, by simp [hg], rfl⟩

end Build

end NwScript
