-- What a run starts with, and what the function that it calls relies on. Calls set up the frame
-- that the signature asks for; the start sets up the same one for every signature.
import NwScript.Proofs.Program.Registry
import NwScript.Proofs.Shape.Program

namespace NwScript

/-! ## Frames of few slots -/

/-- The types that make up the frame of a call: that of the result, then those of the parameters. -/
def Signature.types (s : Signature) : List Ty := s.returnType :: s.params.map (·.ty)

section Frames

variable {env : Env} {sig : Signature} {frame : Shape} {tys : List Ty} {ty : Ty} {k : SlotKind}

theorem Env.shapes?_cons : env.shapes? (ty :: tys) = some frame ↔
    ∃ first rest, env.shape? ty = some first ∧ env.shapes? tys = some rest ∧
      frame = first ++ rest := by
  simp only [Env.shapes?, Option.bind_eq_bind, Option.bind_eq_some_iff, Option.pure_def,
    Option.some.injEq]
  grind

theorem enters_iff : Enters env sig frame ↔ env.shapes? sig.types = some frame := by
  simp only [Enters, Signature.types, Env.shapes?_cons]

/-- A frame without slots. -/
theorem Env.shapes?_eq_nil : env.shapes? tys = some [] ↔ ∀ ty ∈ tys, env.shape? ty = some [] := by
  induction tys with
  | nil => simp [Env.shapes?]
  | cons ty rest ih =>
    rw [Env.shapes?_cons, List.forall_mem_cons, ← ih]
    constructor
    · rintro ⟨first, more, hfirst, hmore, hnil⟩
      obtain ⟨rfl, rfl⟩ := List.append_eq_nil_iff.mp hnil.symm
      exact ⟨hfirst, hmore⟩
    · rintro ⟨hfirst, hmore⟩
      exact ⟨[], [], hfirst, hmore, rfl⟩

/-- A frame of one slot, which belongs to just one of the types. -/
theorem Env.shapes?_eq_singleton : env.shapes? tys = some [k] ↔
    ∃ l ty r, tys = l ++ ty :: r ∧ env.shape? ty = some [k] ∧
      ∀ t ∈ l ++ r, env.shape? t = some [] := by
  induction tys with
  | nil => simp [Env.shapes?]
  | cons ty rest ih =>
    rw [Env.shapes?_cons]
    constructor
    · rintro ⟨first, more, hfirst, hmore, hone⟩
      rcases List.append_eq_cons_iff.mp hone.symm with ⟨rfl, rfl⟩ | ⟨tail, rfl, htail⟩
      · obtain ⟨l, t, r, rfl, ht, hothers⟩ := ih.mp hmore
        exact ⟨ty :: l, t, r, rfl, ht, by simpa [hfirst] using hothers⟩
      · obtain ⟨rfl, rfl⟩ := List.append_eq_nil_iff.mp htail.symm
        exact ⟨[], ty, rest, rfl, hfirst, Env.shapes?_eq_nil.mp hmore⟩
    · rintro ⟨l, t, r, hsplit, ht, hothers⟩
      cases l with
      | nil =>
        cases hsplit
        exact ⟨[k], [], ht, Env.shapes?_eq_nil.mpr hothers, rfl⟩
      | cons _ l =>
        cases hsplit
        simp only [List.cons_append, List.forall_mem_cons] at hothers
        exact ⟨[], [k], hothers.1, ih.mpr ⟨l, t, r, rfl, ht, hothers.2⟩, rfl⟩

end Frames

namespace Build

open Codegen

/-! ## The frame of a function -/

theorem checkParams_ok {structs : Structs} {params : List Param}
    (h : checkParams structs params = .ok ()) : ∀ p ∈ params, structs.check p.ty = .ok () := by
  induction params with
  | nil => simp
  | cons p rest ih =>
    simp only [checkParams, except_require_ok, except_bind_ok] at h
    obtain ⟨_, _, hp, hrest⟩ := h
    exact List.forall_mem_cons.mpr ⟨hp, ih hrest⟩

theorem checkTypes_ok {structs : Structs} {sig : Signature}
    (h : checkTypes structs sig = .ok ()) : ∀ ty ∈ sig.types, structs.check ty = .ok () := by
  simp only [checkTypes, except_refuse_ok, except_bind_ok] at h
  obtain ⟨_, hret, _, hparams⟩ := h
  rw [Signature.types, List.forall_mem_cons, List.forall_mem_map]
  exact ⟨hret, checkParams_ok hparams⟩

/-- A function whose types exist has a frame. -/
theorem enters_of_checkTypes {env : Env} {sig : Signature} (hl : Structs.Laid env.structs.layouts)
    (h : checkTypes env.structs sig = .ok ()) : ∃ frame, Enters env sig frame := by
  refine ⟨_, enters_iff.mpr (Env.shapes?_of_slots fun ty hty => ?_)⟩
  obtain ⟨ks, hks⟩ := Structs.slots_of_check hl (checkTypes_ok h ty hty)
  rw [Env.kinds_of_slots hks]
  exact hks

section Start

variable {engine : Engine} {items : Script} {env : Env} {p : Program} {s : Session}

/-- Every function of a program has a frame, and every call of it is code for that frame. -/
theorem Assembled.frame (h : Assembled engine items env p s) {g : Segment} (hg : g ∈ p.segments)
    (hbody : g.body.isSome) :
    (∃ f, .function f ∈ items ∧ g.signature.Agrees f.signature) ∧
      (∃ frame, Enters s.env g.signature frame) ∧
      ∀ args st ty st', Codegen.expr s.env (.call g.name args) st = .ok ty st' →
        ∃ code, st'.code = st.code ++ code ∧
          CallCode s.env g.function st.scope st.next code := by
  obtain ⟨mid, hsegs, _⟩ := h.segmented
  obtain ⟨_, _, hbuilt, _⟩ := h.sees
  have hstructs : s.env.structs = env.closed.structs := by rw [h.env_eq]
  obtain ⟨f, hf, hagrees, _⟩ := hsegs.origin g hg hbody
  have htypes := (hsegs.accepted g hg).types
  refine ⟨⟨f, hf, hagrees⟩, enters_of_checkTypes hbuilt.laid (hstructs ▸ htypes), ?_⟩
  intro args st ty st' hcall
  have hf := find?_of_mem h.table hsegs.distinct hg
  obtain ⟨code, _, hcode, hwrote, _⟩ := expr_emitted hcall
  exact ⟨code, hwrote, (callCode_of_emits hf hcode).2⟩

/-- The function that a run starts with has a frame of its own, which every call of it sets up. The
start sets up no slot for the main function and one int for a conditional, whatever its signature.
So it sets up the right frame just if the types of the signature take these slots. -/
theorem start_sets_up_frame_iff {setup : Setup} {script : Script} {u : Unit}
    (h : Build.script setup script { env := { engine } } = .ok u s) :
    ∃ items p g pushed frame, (Expansion.expand setup [] script).items = .ok items ∧
      LaidOut items s.out.stream s.entryIndex p ∧ g ∈ p.segments ∧
      (∃ f, .function f ∈ items ∧ g.signature.Agrees f.signature) ∧
      p.start.map (fun i => (i.op, i.target)) = pushed.map (fun k => (.reserve k, none)) ++
        [(.jump .jsr, some g.entry), (.retn, none)] ∧
      Enters s.env g.signature frame ∧
      (∀ args st ty st', Codegen.expr s.env (.call g.name args) st = .ok ty st' →
        ∃ code, st'.code = st.code ++ code ∧ CallCode s.env g.function st.scope st.next code) ∧
      (g.name = mainName ∧ pushed = [] ∧
          (pushed = frame ↔ ∀ ty ∈ g.signature.types, s.env.shape? ty = some []) ∨
        g.name = conditionalName ∧ pushed = [.int] ∧
          (∀ k ∈ p.segments, k.name = mainName → k.body = none) ∧
          (pushed = frame ↔ ∃ l ty r, g.signature.types = l ++ ty :: r ∧
            s.env.shape? ty = some [.int] ∧ ∀ t ∈ l ++ r, s.env.shape? t = some [])) := by
  obtain ⟨items, env, p, hitems, ha⟩ := script_assembled h
  have hstart := ha.start
  generalize hcode : p.start = start at hstart
  cases hstart with
  | @main g h h' hg hname hbody =>
    obtain ⟨horigin, ⟨frame, hframe⟩, hcalls⟩ := ha.frame hg hbody
    refine ⟨items, p, g, [], frame, hitems, ha.laidOut, hg, horigin, by simp [hcode], hframe,
      hcalls, .inl ⟨hname, rfl, ?_⟩⟩
    rw [← Env.shapes?_eq_nil, enters_iff.mp hframe, Option.some.injEq, eq_comm]
  | @conditional g h h' h'' hmain hg hname hbody =>
    obtain ⟨horigin, ⟨frame, hframe⟩, hcalls⟩ := ha.frame hg hbody
    refine ⟨items, p, g, [.int], frame, hitems, ha.laidOut, hg, horigin, by simp [hcode], hframe,
      hcalls, .inr ⟨hname, rfl, hmain, ?_⟩⟩
    rw [← Env.shapes?_eq_singleton, enters_iff.mp hframe, Option.some.injEq, eq_comm]

end Start

/-- A conditional as it should be. -/
def greeting : Script :=
  [.function ⟨⟨.int, "StartingConditional", []⟩, [.ret (some (.literal (.int 1)))]⟩]

theorem greeting_sets_up_frame :
    ∃ s, Build.script {} greeting { env := { engine := {} } } = .ok () s ∧
      ∃ (p : Program) (g : Segment), LaidOut greeting s.out.stream s.entryIndex p ∧
        p.start.map (·.op) = [.reserve .int, .jump .jsr, .retn] ∧
        Enters s.env g.signature [.int] := by
  obtain ⟨s, hs⟩ := @compiles_of_gives greeting { env := { engine := {} } } rfl (by decide +kernel)
  obtain ⟨items, p, g, pushed, frame, hitems, hlaid, hg, ⟨f, hf, hagrees⟩, hstart, hframe, _,
    hiff⟩ := start_sets_up_frame_iff hs
  rw [Expansion.expand_plain rfl] at hitems
  cases hitems
  cases List.mem_singleton.mp hf
  obtain ⟨hname, hret, hparams⟩ := hagrees
  have htypes : g.signature.types = [.int] := by
    simp [Signature.types, hret, List.map_eq_nil_iff.mp hparams]
  rcases hiff with ⟨hmain, _⟩ | ⟨_, rfl, _, hiff⟩
  · exact absurd (hname.symm.trans hmain) (by decide)
  · have hsame : [.int] = frame := hiff.mpr ⟨[], .int, [], htypes, rfl, by simp⟩
    refine ⟨s, hs, p, g, hlaid, ?_, hsame ▸ hframe⟩
    simpa [Function.comp_def] using congrArg (List.map Prod.fst) hstart

/-- A main function with a result, after a global. -/
def answering : Script :=
  [.global ⟨false, .int, "count", some (.literal (.int 7))⟩,
   .function ⟨⟨.int, "main", []⟩, [.ret (some (.literal (.int 1)))]⟩]

/-- A result goes to the slot right below it, whatever the caller has there. -/
theorem effects_answer {alu : Alu} {base : Nat} {stack : List Cell} {cell : Cell} {n : Int32} :
    Op.effects alu base [.constI n, .copyDown .sp (-2) 1, .moveSp (-1), .moveSp 0]
      (stack ++ [cell]) = some (stack ++ [.int n]) := by
  have hpush : Op.effect alu base (stack ++ [cell]) (.constI n) =
      some (stack ++ [cell] ++ [.int n]) := rfl
  have hstore : Op.effect alu base (stack ++ [cell] ++ [.int n]) (.copyDown .sp (-2) 1) =
      some (stack ++ [.int n] ++ [] ++ [.int n]) := by
    have hsplit : stack ++ [cell] = stack ++ [cell] ++ [] := by simp
    refine effect_copyDown hsplit ?_ rfl rfl
    simp only [Anchor.position, List.length_append, List.length_cons, List.length_nil]
    omega
  have hpop : Op.effect alu base (stack ++ [.int n] ++ [] ++ [.int n]) (.moveSp (-1)) =
      some (stack ++ [.int n]) := by
    rw [List.append_nil]
    exact effect_moveSp rfl
  have hrest : Op.effect alu base (stack ++ [.int n]) (.moveSp 0) = some (stack ++ [.int n]) := by
    simpa using @effect_moveSp alu base (stack ++ [.int n]) [] 0 rfl
  simp only [Op.effects, hpush, hstore, hpop, hrest, Option.bind_some]

/-- The main function is called without room for its result. It stores it in the topmost slot of its
caller, whatever that is. -/
theorem answering_overwrites_caller :
    ∃ s, Build.script {} answering { env := { engine := {} } } = .ok () s ∧
      s.out.stream.code.map (·.op) =
        [.reserve .int, .constI 7, .copyDown .sp (-2) 1, .moveSp (-1), .saveBp, .jump .jsr, .retn,
         .nop, .constI 1, .copyDown .sp (-2) 1, .moveSp (-1), .moveSp 0, .jump .jmp, .retn] ∧
      ∀ alu base stack cell,
        Op.effects alu base [.constI 1, .copyDown .sp (-2) 1, .moveSp (-1), .moveSp 0]
          (stack ++ [cell]) = some (stack ++ [.int 1]) := by
  refine (compiles_to_of_gives rfl ?_).imp fun s h => ⟨h.1, h.2, fun _ _ _ _ => effects_answer⟩
  decide +kernel

end Build

end NwScript
