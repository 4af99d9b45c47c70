-- The code of statements does what they mean: whenever a statement ends in some way, so does its
-- code, with the same variables on the stack.
import NwScript.Proofs.Meaning.Activation

namespace NwScript

open Codegen

namespace Activation

/-! ## What is shown of each piece -/

section Claims

variable (a : Activation)

/-- Wherever the code of the piece stands, it ends as the piece does. -/
def Follows (piece : Piece) (σ : Store Datum) (o : Outcome) (τ : Store Datum) : Prop :=
  ∀ {s s' : Scope} {n m : Handle} {flow : Flow} {code : List Instruction} {tss : List (List Cell)}
    {pc : Nat}, Lays a.env a.frame s n piece s' flow code m → a.stream.Stands pc code →
    a.Targets s → a.Holds s ([] :: tss) σ →
    a.Ends s tss ⟨pc, a.stack σ ([] :: tss)⟩ ⟨pc + code.length, a.stack τ ([] :: tss)⟩ (· = s') o τ

/-- The code of a whole block ends as the block does; its variables are gone then. -/
def Closes (body : List Stmt) (σ : Store Datum) (o : Outcome) (τ : Store Datum) : Prop :=
  ∀ {s s' : Scope} {n m : Handle} {flow : Flow} {code : List Instruction} {tss : List (List Cell)}
    {pc : Nat}, Lays a.env a.frame s n (.block body) s' flow code m → a.stream.Stands pc code →
    a.Targets s → a.Holds s ([] :: tss) σ →
    a.Ends s tss ⟨pc, a.stack σ ([] :: tss)⟩ ⟨pc + code.length, a.stack τ.leave tss⟩
      (fun _ => True) o τ

end Claims

variable {a : Activation} {s s' : Scope} {n m : Handle} {flow : Flow} {code : List Instruction}
  {tss : List (List Cell)} {pc : Nat} {σ τ : Store Datum} {o : Outcome}
  {body : List Stmt} {b : Block}

/-! ## Blocks inside -/

theorem targets_child (h : a.Targets s)
    (hb : ∀ x, b.breakTo = some x → ∃ i, a.stream.indexOf? x = some i)
    (hc : ∀ x, b.continueTo = some x → ∃ i, a.stream.indexOf? x = some i) :
    a.Targets (s.child b) := by
  intro x hx
  rcases leaves_child.mp hx with (hx | hx) | hx
  · exact hb x hx
  · exact hc x hx
  · exact h x hx

/-- The code of a block inside the scope. -/
theorem child_ends (hv : b.values = []) (ht : b.temps = 0) (ih : a.Closes body σ.enter o τ)
    (hl : Lays a.env a.frame (s.child b) n (.block body) s' flow code m)
    (hs : a.stream.Stands pc code) (htargets : a.Targets (s.child b))
    (hh : a.Holds s ([] :: tss) σ) :
    ∃ t c, a.Holds t ([] :: [] :: tss) τ ∧ a.Holds s ([] :: tss) τ.leave ∧
      a.Arrives (s.child b) ([] :: [] :: tss) τ ⟨pc + code.length,
        a.stack τ.leave ([] :: tss)⟩ o c ∧
      a.Runs ⟨pc, a.stack σ ([] :: tss)⟩ c := by
  obtain ⟨t, c, he, _, ht', ha, hr⟩ := ih hl hs htargets (enter_holds hh hv ht)
  rw [stack_enter] at hr
  exact ⟨t, c, ht', leave_holds ht' he.outer, ha, hr⟩

theorem block_ends (ih : a.Closes body σ.enter o τ)
    (hl : Lays a.env a.frame (s.child {}) n (.block body) s' flow code m)
    (hs : a.stream.Stands pc code) (htargets : a.Targets s) (hh : a.Holds s ([] :: tss) σ) :
    a.Ends s tss ⟨pc, a.stack σ ([] :: tss)⟩ ⟨pc + code.length, a.stack τ.leave ([] :: tss)⟩
      (· = s) o τ.leave := by
  obtain ⟨t, c, ht, hh', ha, hr⟩ := child_ends rfl rfl ih hl hs
    (targets_child htargets (by simp) (by simp)) hh
  exact ⟨s, c, .refl s, fun _ => rfl, hh', ha.outward ht rfl rfl, hr⟩

/-- The body of a loop: it leads on to where `continue` leads, or out of the loop. -/
theorem loop_body {done next fin : Nat} {d k : Handle} (ih : a.Closes body σ.enter o τ)
    (hl : Lays a.env a.frame (s.child { breakTo := some d, continueTo := some k }) n
      (.block body) s' flow code m)
    (hs : a.stream.Stands pc code) (htargets : a.Targets s) (hh : a.Holds s ([] :: tss) σ)
    (hd : a.stream.indexOf? d = some done) (hk : a.stream.indexOf? k = some next)
    (hnext : ∀ stack, a.Runs ⟨pc + code.length, stack⟩ ⟨next, stack⟩)
    (hdone : ∀ stack, a.Runs ⟨done, stack⟩ ⟨fin, stack⟩) :
    a.Holds s ([] :: tss) τ.leave ∧
      (o.goesOn = true →
        a.Runs ⟨pc, a.stack σ ([] :: tss)⟩ ⟨next, a.stack τ.leave ([] :: tss)⟩) ∧
      (o.goesOn = false → a.Ends s tss ⟨pc, a.stack σ ([] :: tss)⟩
        ⟨fin, a.stack τ.leave ([] :: tss)⟩ (· = s) o.leaving τ.leave) := by
  obtain ⟨t, c, ht, hh', ha, hr⟩ := child_ends rfl rfl ih hl hs
    (targets_child htargets (by rintro x ⟨⟩; exact ⟨_, hd⟩) (by rintro x ⟨⟩; exact ⟨_, hk⟩)) hh
  obtain ⟨vs, vss, _, _, hvs, _⟩ := ht.blocks.inv
  refine ⟨hh', ?_, ?_⟩
  · intro hgo
    cases ha with
    | normal => exact hr.trans (hnext _)
    | continued hleft hi =>
      simp only [Scope.child, Scope.chain, hvs, leftAt, Option.some.injEq, Prod.mk.injEq] at hleft
      obtain ⟨rfl, rfl, rfl⟩ := hleft
      rw [hk] at hi
      cases hi
      simpa [Store.leave, hvs] using hr
    | broke => cases hgo
    | returned => cases hgo
  · intro hstop
    cases ha with
    | normal => cases hstop
    | continued => cases hstop
    | broke hleft hi =>
      simp only [Scope.child, Scope.chain, hvs, leftAt, Option.some.injEq, Prod.mk.injEq] at hleft
      obtain ⟨rfl, rfl, rfl⟩ := hleft
      rw [hd] at hi
      cases hi
      have hout : a.Runs ⟨pc, a.stack σ ([] :: tss)⟩ ⟨done, a.stack τ.leave ([] :: tss)⟩ := by
        simpa [Store.leave, hvs] using hr
      exact ends_normal hh' (.refl s) (hout.trans (hdone _))
    | returned hv => exact ⟨s, _, .refl s, fun _ => rfl, hh', .returned hv, hr⟩

/-! ## Conditions -/

/-- A condition and the jump that is taken if it does not hold. -/
theorem unless_runs {e : Expr} {test more : List Instruction} {holds : Bool} {h target : Handle}
    {there : Nat} (hc : Emits a.env s n (.value e) [.int] test m)
    (he : tested a.alu a.env.engine (some e) σ = some (holds, τ))
    (hs : a.stream.Stands pc (test ++ ⟨h, .jump .jz, some target⟩ :: more))
    (ht : a.stream.indexOf? target = some there) (hh : a.Holds s ([] :: tss) σ) :
    a.Holds s ([] :: tss) τ ∧ a.Runs ⟨pc, a.stack σ ([] :: tss)⟩
      ⟨if holds then pc + test.length + 1 else there, a.stack τ ([] :: tss)⟩ := by
  obtain ⟨hτ, x, rfl, heff⟩ := condition_runs a.laid a.typed hc he hh
  refine ⟨hτ, (Stream.runs_effects hs.left heff).trans ?_⟩
  have hjump : a.Runs ⟨_, a.stack τ ([] :: tss) ++ [.int x]⟩ _ := Stream.runs_jz hs.right ht
  by_cases hx : x = 0
  · simpa [hx] using hjump
  · simpa [hx] using hjump

/-! ## Loops -/

/-- The code of a loop from its condition on: that of `while`, or that of `for` behind its first
expression. -/
inductive LoopCode (env : Env) (frame : Frame) (s : Scope) :
    Option Expr → Option Expr → List Stmt → List Instruction → Prop
  | whileLoop {s' : Scope} {n n₁ m : Handle} {e : Expr} {body : List Stmt} {flow : Flow}
      {test code : List Instruction} :
      Emits env s (n + 1) (.value e) [.int] test n₁ →
      Lays env frame (s.child { breakTo := some n₁, continueTo := some n }) (n₁ + 2) (.block body)
        s' flow code m →
      LoopCode env frame s (some e) none body
        (⟨n, .nop, none⟩ :: (test ++ ⟨n₁ + 1, .jump .jz, some n₁⟩ :: (code ++
          [⟨m, .jump .jmp, some n⟩, ⟨n₁, .nop, none⟩])))
  | forLoop {s' : Scope} {n₁ n₂ n₃ m : Handle} {e step : Option Expr} {body : List Stmt}
      {flow : Flow} {test code last : List Instruction} :
      Guards env s (n₁ + 1) (n₁ + 3) e test n₂ →
      Lays env frame (s.child { breakTo := some (n₁ + 1), continueTo := some (n₁ + 2) }) n₂
        (.block body) s' flow code n₃ →
      Discards env s n₃ step last m →
      LoopCode env frame s e step body
        (⟨n₁, .nop, none⟩ :: (test ++ code ++ ⟨n₁ + 2, .nop, none⟩ :: (last ++
          [⟨m, .jump .jmp, some n₁⟩, ⟨n₁ + 1, .nop, none⟩])))

/-- What the code of a loop does, apart from its body: where the condition and the step lead, and
where the loop is left to. -/
structure LoopAt (a : Activation) (s : Scope) (e step : Option Expr) (body : List Stmt)
    (start fin : Nat) where
  scope : Scope
  flow : Flow
  n : Handle
  m : Handle
  code : List Instruction
  breakTo : Handle
  continueTo : Handle
  inside : Nat
  next : Nat
  done : Nat
  lays : Lays a.env a.frame (s.child { breakTo := some breakTo, continueTo := some continueTo }) n
    (.block body) scope flow code m
  stands : a.stream.Stands inside code
  breakAt : a.stream.indexOf? breakTo = some done
  continueAt : a.stream.indexOf? continueTo = some next
  falls : ∀ stack, a.Runs ⟨inside + code.length, stack⟩ ⟨next, stack⟩
  leaves : ∀ stack, a.Runs ⟨done, stack⟩ ⟨fin, stack⟩
  guard : ∀ {σ τ : Store Datum} {holds : Bool} {tss : List (List Cell)},
    tested a.alu a.env.engine e σ = some (holds, τ) → a.Holds s ([] :: tss) σ →
    a.Holds s ([] :: tss) τ ∧ a.Runs ⟨start, a.stack σ ([] :: tss)⟩
      ⟨if holds then inside else done, a.stack τ ([] :: tss)⟩
  steps : ∀ {σ τ : Store Datum} {tss : List (List Cell)},
    dropped a.alu a.env.engine step σ = some τ → a.Holds s ([] :: tss) σ →
    a.Holds s ([] :: tss) τ ∧ a.Runs ⟨next, a.stack σ ([] :: tss)⟩ ⟨start, a.stack τ ([] :: tss)⟩

theorem loop_at {e step : Option Expr} (h : LoopCode a.env a.frame s e step body code)
    (hs : a.stream.Stands pc code) : Nonempty (LoopAt a s e step body pc (pc + code.length)) := by
  cases h with
  | @whileLoop s' n n₁ m e body flow test code hc hl =>
    have hstart := hs.index a.distinct
    have htest := hs.tail
    have hbody := htest.right.tail
    have hdone := hbody.right.tail.index a.distinct
    refine ⟨⟨s', flow, _, _, code, n₁, n, _, _, _, hl, hbody.left, hdone, hstart, ?_, ?_, ?_, ?_⟩⟩
    · exact fun stack => Stream.runs_jmp hbody.right hstart
    · intro stack
      have hlast : a.Runs ⟨_, stack⟩ _ := Stream.runs_nop hbody.right.tail
      simpa [Nat.add_assoc, Nat.add_comm, Nat.add_left_comm] using hlast
    · intro σ τ holds tss he hh
      obtain ⟨hτ, hr⟩ := unless_runs hc he htest hdone hh
      exact ⟨hτ, (Stream.runs_nop hs).trans hr⟩
    · intro σ τ tss he hh
      cases he
      exact ⟨hh, .refl _⟩
  | @forLoop s' n₁ n₂ n₃ m e step body flow test code last hg hl hd =>
    have hstart := hs.index a.distinct
    rw [List.append_assoc] at hs
    have htest := hs.tail
    have hbody := htest.right
    have hnext := hbody.right.index a.distinct
    have hlast := hbody.right.tail
    have hdone := hlast.right.tail.index a.distinct
    refine ⟨⟨s', flow, _, _, code, n₁ + 1, n₁ + 2, _, _, _, hl, hbody.left, hdone, hnext,
      fun _ => .refl _, ?_, ?_, ?_⟩⟩
    · intro stack
      have hnop : a.Runs ⟨_, stack⟩ _ := Stream.runs_nop hlast.right.tail
      simpa [Nat.add_assoc, Nat.add_comm, Nat.add_left_comm] using hnop
    · intro σ τ holds tss he hh
      cases hg with
      | none =>
        cases he
        exact ⟨hh, Stream.runs_nop hs⟩
      | some hc =>
        rw [List.append_assoc] at htest
        obtain ⟨hτ, hr⟩ := unless_runs hc he htest hdone hh
        refine ⟨hτ, (Stream.runs_nop hs).trans ?_⟩
        simpa [Nat.add_assoc] using hr
    · intro σ τ tss he hh
      obtain ⟨hτ, heff⟩ := discards_runs a.laid a.typed hd he hh
      refine ⟨hτ, (Stream.runs_nop hbody.right).trans ?_⟩
      exact (Stream.runs_effects hlast.left heff).trans (Stream.runs_jmp hlast.right hstart)

/-! ## Switches -/

theorem labelled_armLabels {cases : List (List SwitchLabel × List Stmt)} {first i : Nat} :
    labelled cases (List.range' (first + i) cases.length) =
      (armLabels cases i).map fun l => (l.1, first + l.2) := by
  induction cases generalizing i with
  | nil => rfl
  | cons one rest ih =>
    obtain ⟨labels, body⟩ := one
    simp only [List.length_cons, List.range'_succ, labelled, armLabels, List.map_append,
      List.map_map]
    rw [Nat.add_assoc first i 1, ih]
    rfl

theorem selected_map {γ δ : Type} {alu : Alu} {engine : Engine} {v : Datum} (f : γ → δ)
    {labels : List (SwitchLabel × γ)} {default : Option γ} {σ : Store Datum} :
    selected alu engine v (labels.map fun l => (l.1, f l.2)) (default.map f) σ =
      (selected alu engine v labels default σ).map fun r => (r.1.map f, r.2) := by
  induction labels generalizing default σ with
  | nil => rfl
  | cons l rest ih =>
    obtain ⟨label, arm⟩ := l
    cases label with
    | default => exact @ih (some arm) σ
    | case e =>
      simp only [List.map_cons, selected, Option.bind_eq_bind, Option.map_bind, Function.comp_def]
      refine Option.bind_congr fun r _ => Option.bind_congr fun d _ =>
        Option.bind_congr fun x _ => ?_
      cases x with
      | true => rfl
      | false => exact @ih default r.2

/-- A comparison of the value on top of the stack with a label. -/
theorem compare_runs {ty : Ty} {c : BinaryCode} {v w : Datum} (hty : switchOn? ty = some c)
    (hv : Datum.Fits a.env.structs ty v) (hw : Datum.Fits a.env.structs ty w) (stack : List Cell) :
    ∃ x : Int32, a.alu.binary? .eq v w = some (.cell (.int x)) ∧
      Op.effect a.alu a.base (stack ++ v.cells ++ w.cells) (.binary c) =
        some (stack ++ [.int x]) := by
  have hcode : BinaryOp.eq.code? ty ty = some c ∧ c.result = .int ∧
      BinaryOp.eq.composite? ty ty 1 = none := by
    cases ty <;> simp only [switchOn?, Option.some.injEq, reduceCtorEq] at hty
    · subst hty
      exact ⟨rfl, rfl, rfl⟩
    · subst hty
      exact ⟨rfl, rfl, rfl⟩
  obtain ⟨d, hd, hfits, heff⟩ := overloaded_runs a.alu a.base stack hcode.1 hv hw
  rw [hcode.2.1] at hfits
  obtain ⟨x, rfl⟩ := hfits.int
  exact ⟨x, by rw [binary_of_composite a.alu hcode.2.2 hv hw, hd], heff⟩

/-- What is switched on takes one slot. -/
theorem switched_cell {ty : Ty} {c : BinaryCode} {v : Datum} (hty : switchOn? ty = some c)
    (hv : Datum.Fits a.env.structs ty v) : ∃ top, v.cells = [top] := by
  have hsize : a.env.structs.sizeOf ty = .ok 1 := by
    cases ty <;> simp only [switchOn?, reduceCtorEq] at hty <;> rfl
  have hlen := Except.ok.inj (hsize.symm.trans (hv.size a.laid))
  exact List.length_eq_one_iff.mp hlen.symm

/-- A label of a switch: the value is copied, the label is evaluated on top of it, and the two are
compared. -/
theorem label_runs {ty : Ty} {c : BinaryCode} {v w : Datum} {e : Expr} {h : Handle}
    {value : List Instruction} {temps : List (List Cell)} (hty : switchOn? ty = some c)
    (he : Emits a.env (s.grown 1) n (.value e) [ty] value m)
    (heval : eval a.alu a.env.engine e σ = some (w, τ)) (hv : Datum.Fits a.env.structs ty v)
    (hh : a.Holds s (pushTemps v.cells temps) σ) :
    a.Holds s (pushTemps v.cells temps) τ ∧
      ∃ x : Int32, a.alu.binary? .eq v w = some (.cell (.int x)) ∧
        Op.effects a.alu a.base (List.map (·.op) (⟨h, .copyTop .sp (-1) 1, none⟩ ::
          (value ++ [⟨m, .binary c, none⟩]))) (a.stack σ (pushTemps v.cells temps)) =
            some (a.stack τ (pushTemps v.cells temps) ++ [.int x]) := by
  have hlen : (1 : Int) = v.cells.length := by
    obtain ⟨top, htop⟩ := switched_cell hty hv
    simp [htop]
  have hne : temps ≠ [] := by
    rintro rfl
    exact hh.temps_ne rfl
  obtain ⟨hw, hheld, heff⟩ := value_runs a.laid a.typed he heval (hh.push hlen)
  have hτ := hheld.pop hlen hh.temps_ne
  obtain ⟨x, hx, hcompare⟩ := compare_runs hty hv hw (a.stack τ (pushTemps v.cells temps))
  have hstack : a.stack σ (pushTemps v.cells temps) = a.stack σ temps ++ v.cells ++ [] := by
    simp [stack_pushTemps hh.blocks_ne hne]
  have hcopy : Op.effect a.alu a.base (a.stack σ (pushTemps v.cells temps)) (.copyTop .sp (-1) 1) =
      some (a.stack σ (pushTemps v.cells temps) ++ v.cells) := by
    refine effect_copyTop hstack ?_ hlen
    simp only [Anchor.position, hstack, List.length_append, List.length_nil]
    omega
  rw [hh.stack_push, hτ.stack_push] at heff
  refine ⟨hτ, x, hx, ?_⟩
  simp only [List.map_cons, List.map_append, List.map_nil, Op.effects, hcopy, Option.bind_some]
  rw [Op.effects_append heff, Op.effects_one]
  exact hcompare

/-- The tests of a switch: either a label is equal and control is at its arm, or control falls
through to the end of the tests and the default is known. -/
theorem tests_run {ty : Ty} {c : BinaryCode} {v : Datum} {labels : List (SwitchLabel × Handle)}
    {default default' arm : Option Handle} {temps : List (List Cell)} (hty : switchOn? ty = some c)
    (h : Tests a.env s ty c n labels default default' code m)
    (hsel : selected a.alu a.env.engine v labels default σ = some (arm, τ))
    (hv : Datum.Fits a.env.structs ty v) (hh : a.Holds s (pushTemps v.cells temps) σ)
    (hs : a.stream.Stands pc code)
    (hi : ∀ x ∈ labels.map (·.2), ∃ i, a.stream.indexOf? x = some i) :
    a.Holds s (pushTemps v.cells temps) τ ∧
      ((arm = default' ∧ a.Runs ⟨pc, a.stack σ (pushTemps v.cells temps)⟩
          ⟨pc + code.length, a.stack τ (pushTemps v.cells temps)⟩) ∨
        ∃ x i, arm = some x ∧ x ∈ labels.map (·.2) ∧ a.stream.indexOf? x = some i ∧
          a.Runs ⟨pc, a.stack σ (pushTemps v.cells temps)⟩
            ⟨i, a.stack τ (pushTemps v.cells temps)⟩) := by
  induction h generalizing σ pc with
  | nil =>
    cases hsel
    exact ⟨hh, .inl ⟨rfl, .refl _⟩⟩
  | default _ ih =>
    simp only [selected] at hsel
    obtain ⟨hτ, hrun⟩ := ih hsel hh hs fun x hx => hi x (by simp [hx])
    refine ⟨hτ, hrun.imp id ?_⟩
    rintro ⟨x, i, harm, hx, hindex, hr⟩
    exact ⟨x, i, harm, by simp [hx], hindex, hr⟩
  | @case n n₁ m target e rest default default' value code hvalue _ ih =>
    simp only [selected, Option.bind_eq_bind, Option.bind_eq_some_iff] at hsel
    obtain ⟨⟨w, σ₁⟩, heval, d, hd, equal, hequal, hsel⟩ := hsel
    obtain ⟨hh₁, x, hx, htest⟩ := @label_runs _ _ _ _ _ _ _ _ _ _ _ n _ _ hty hvalue heval hv hh
    rw [hd] at hx
    cases hx
    cases hequal
    have hs' : a.stream.Stands pc ((⟨n, .copyTop .sp (-1) 1, none⟩ ::
        (value ++ [⟨n₁, .binary c, none⟩])) ++ (⟨n₁ + 1, .jump .jnz, some target⟩ :: code)) := by
      simpa using hs
    have hruns := Stream.runs_effects hs'.left htest
    obtain ⟨there, hthere⟩ := hi target (by simp)
    have hjump : a.Runs ⟨_, a.stack σ₁ (pushTemps v.cells temps) ++ [.int x]⟩ _ :=
      Stream.runs_jnz hs'.right hthere
    by_cases hzero : x = 0
    · simp only [hzero, bne_self_eq_false, Bool.false_eq_true, if_false] at hsel
      rw [if_pos hzero] at hjump
      obtain ⟨hτ, hrest⟩ := ih hsel hh₁ hs'.right.tail fun y hy => hi y (by simp [hy])
      refine ⟨hτ, hrest.imp ?_ ?_⟩
      · rintro ⟨harm, hr⟩
        refine ⟨harm, (hruns.trans hjump).trans ?_⟩
        simpa [Nat.add_assoc, Nat.add_comm, Nat.add_left_comm] using hr
      · rintro ⟨y, i, harm, hy, hindex, hr⟩
        exact ⟨y, i, harm, by simp [hy], hindex, (hruns.trans hjump).trans hr⟩
    · simp only [bne_iff_ne, ne_eq, hzero, not_false_eq_true, if_true] at hsel
      cases hsel
      rw [if_neg hzero] at hjump
      exact ⟨hh₁, .inr ⟨target, there, rfl, by simp, hthere, hruns.trans hjump⟩⟩

/-- The code of the arms from one of them on, which starts with the label of that arm. -/
theorem arms_from {env : Env} {frame : Frame} {arms : List (Handle × List Stmt)} {i : Nat}
    {label : Handle} {body : List Stmt} (h : Lays env frame s n (.arms arms) s' flow code m)
    (hi : arms[i]? = some (label, body)) :
    ∃ first n' more, code = first ++ ⟨label, .nop, none⟩ :: more ∧
      Lays env frame s n' (.arms (arms.drop i)) s .next (⟨label, .nop, none⟩ :: more) m := by
  induction i generalizing arms n code with
  | zero =>
    cases h with
    | noArms => cases hi
    | arms harm hrest =>
      cases hi
      exact ⟨[], n, _, rfl, .arms harm hrest⟩
  | succ i ih =>
    cases h with
    | noArms => cases hi
    | @arms _ _ _ _ other _ _ _ code _ harm hrest =>
      obtain ⟨first, n', more, rfl, hl⟩ := ih hrest (by simpa using hi)
      exact ⟨⟨other, .nop, none⟩ :: (code ++ first), n', more, by simp, hl⟩

/-- The arms of a switch, and what pops the value that was switched on. -/
theorem arms_end {arms : List (Handle × List Stmt)} {d h : Handle} {top : Cell}
    (ih : a.Follows (.arms arms) σ.enter o τ)
    (hl : Lays a.env a.frame ((s.grown 1).child { breakTo := some d }) n
      (.arms arms) s' flow code m)
    (hs : a.stream.Stands pc (code ++ [⟨d, .nop, none⟩, ⟨h, .moveSp (-1), none⟩]))
    (htargets : a.Targets s) (hh : a.Holds s ([] :: tss) σ) :
    a.Ends s tss ⟨pc, a.stack σ ([] :: tss) ++ [top]⟩
      ⟨pc + code.length + 2, a.stack τ.leave ([] :: tss)⟩ (· = s) o.leaving τ.leave := by
  have hd := hs.right.index a.distinct
  have hpushed : a.Holds (s.grown 1) ([top] :: tss) σ := hh.push rfl
  have htargets' : a.Targets ((s.grown 1).child { breakTo := some d }) :=
    targets_child (fun x hx => htargets x (leaves_grown.mp hx)) (by rintro x ⟨⟩; exact ⟨_, hd⟩)
      (by simp)
  obtain ⟨t, c, he, hlast, ht, ha, hr⟩ := ih hl hs.left htargets' (enter_holds hpushed rfl rfl)
  rw [stack_enter, show a.stack σ ([top] :: tss) = a.stack σ ([] :: tss) ++ [top] from
    hh.stack_push] at hr
  have hleft : a.Holds (s.grown [top].length) (pushTemps [top] ([] :: tss)) τ.leave :=
    leave_holds ht he.outer
  have hh' : a.Holds s ([] :: tss) τ.leave := hleft.pop rfl (by simp)
  have hpop : a.Runs ⟨pc + code.length, a.stack τ.leave ([top] :: tss)⟩
      ⟨pc + code.length + 2, a.stack τ.leave ([] :: tss)⟩ := by
    rw [show a.stack τ.leave ([top] :: tss) = a.stack τ.leave ([] :: tss) ++ [top]
      from hh'.stack_push]
    exact (Stream.runs_nop hs.right).trans (Stream.runs_effect hs.right.tail (effect_moveSp rfl))
  obtain ⟨vs, vss, _, _, hvs, _, hagree, _⟩ := ht.blocks.inv
  have hblocks : τ.leave.blocks = vss := by simp [Store.leave, hvs]
  cases ha with
  | normal =>
    -- No variable can be declared in an arm itself.
    have hnone : vs = [] := by
      rw [hlast rfl, scope_of_arms hl] at hagree
      cases hagree
      rfl
    have hsame : a.stack τ ([] :: [top] :: tss) = a.stack τ.leave ([top] :: tss) := by
      simp [stack, Store.stack, Store.frame, Store.leave, hvs, hnone, Named.cells]
    rw [hsame] at hr
    exact ends_normal hh' (.refl s) (hr.trans hpop)
  | broke hleftAt hi =>
    simp only [Scope.child, Scope.chain, hvs, leftAt, Option.some.injEq, Prod.mk.injEq] at hleftAt
    obtain ⟨rfl, rfl, rfl⟩ := hleftAt
    rw [hd] at hi
    cases hi
    have hout : a.Runs ⟨pc, a.stack σ ([] :: tss) ++ [top]⟩
        ⟨pc + code.length, a.stack τ.leave ([top] :: tss)⟩ := by
      simpa [Store.leave, hvs] using hr
    exact ends_normal hh' (.refl s) (hout.trans hpop)
  | continued hleftAt hi =>
    simp only [Scope.child, Scope.chain, hvs, leftAt] at hleftAt
    refine ⟨s, _, .refl s, fun _ => rfl, hh', .continued ?_ hi, hr⟩
    rw [hblocks]
    cases vss with
    | nil => cases hleftAt
    | cons => simpa [Scope.chain, leftAt, Scope.grown] using hleftAt
  | returned hv => exact ⟨s, _, .refl s, fun _ => rfl, hh', .returned hv, hr⟩

/-- Up to the arm that is selected, or to the end of the switch if none is. -/
theorem switch_selects {e : Expr} {ty : Ty} {c : BinaryCode} {v : Datum} {σ₁ : Store Datum}
    {cases : List (List SwitchLabel × List Stmt)} {default : Option Handle} {arm : Option Nat}
    {n₁ n₂ : Handle} {value tests rest : List Instruction}
    (he : Emits a.env s n (.value e) [ty] value n₁) (hty : switchOn? ty = some c)
    (htests : Tests a.env (s.grown 1) ty c m
      (labelled cases (List.range' (n₁ + 1) cases.length)) none default tests n₂)
    (heval : eval a.alu a.env.engine e σ = some (v, σ₁))
    (hsel : selected a.alu a.env.engine v (armLabels cases 0) none σ₁ = some (arm, τ))
    (hs : a.stream.Stands pc (value ++ tests ++
      ⟨n₂, .jump .jmp, some (default.getD n₁)⟩ :: rest))
    (hlabels : ∀ i < cases.length, ∃ there, a.stream.indexOf? (n₁ + 1 + i) = some there)
    (hend : ∃ there, a.stream.indexOf? n₁ = some there) (hh : a.Holds s ([] :: tss) σ) :
    a.Holds s ([] :: tss) τ ∧ ∃ top there,
      a.stream.indexOf? ((arm.map (n₁ + 1 + ·)).getD n₁) = some there ∧
      a.Runs ⟨pc, a.stack σ ([] :: tss)⟩ ⟨there, a.stack τ ([] :: tss) ++ [top]⟩ := by
  obtain ⟨hv, hh₁, heff⟩ := value_runs a.laid a.typed he heval hh
  obtain ⟨top, htop⟩ := switched_cell hty hv
  have hstack (ρ : Store Datum) (hρ : a.Holds s ([] :: tss) ρ) :
      a.stack ρ (pushTemps v.cells ([] :: tss)) = a.stack ρ ([] :: tss) ++ [top] := by
    rw [← htop]
    exact hρ.stack_push
  rw [← hh₁.stack_push] at heff
  rw [List.append_assoc] at hs
  have hvalue := Stream.runs_effects hs.left heff
  have hlabelled : labelled cases (List.range' (n₁ + 1) cases.length) =
      (armLabels cases 0).map fun l => (l.1, n₁ + 1 + l.2) := @labelled_armLabels cases (n₁ + 1) 0
  have hsel' := @selected_map _ _ a.alu a.env.engine v (n₁ + 1 + ·) (armLabels cases 0) none σ₁
  rw [hsel, ← hlabelled] at hsel'
  have hlen : (1 : Int) = v.cells.length := by rw [htop]; rfl
  have hin : ∀ x ∈ (labelled cases (List.range' (n₁ + 1) cases.length)).map (·.2),
      ∃ there, a.stream.indexOf? x = some there := by
    intro x hx
    obtain ⟨hlow, hhigh⟩ := List.mem_range'_1.mp (labelled_handles hx)
    obtain ⟨there, hthere⟩ := hlabels (x - (n₁ + 1)) (by omega)
    exact ⟨there, by rwa [Nat.add_sub_cancel' hlow] at hthere⟩
  obtain ⟨hheld, hrun⟩ := tests_run hty htests hsel' hv (hh₁.push hlen) hs.right.left hin
  have hτ := hheld.pop hlen hh₁.temps_ne
  refine ⟨hτ, top, ?_⟩
  rw [← hstack τ hτ]
  rcases hrun with ⟨hdefault, hr⟩ | ⟨x, there, harm, _, hthere, hr⟩
  · -- No label is equal: the jump behind the tests leads to the default or to the end.
    obtain ⟨there, hthere⟩ : ∃ there, a.stream.indexOf? (default.getD n₁) = some there := by
      cases hd : default with
      | none => exact hend
      | some x =>
        rcases default_of_tests htests hd with hnone | hx
        · cases hnone
        · exact hin x hx
    rw [← hdefault] at hthere hs
    exact ⟨there, hthere, (hvalue.trans hr).trans (Stream.runs_jmp hs.right.right hthere)⟩
  · exact ⟨there, by simpa [harm] using hthere, hvalue.trans hr⟩

/-! ## Leaving -/

theorem size_fits : ∀ ty (d : Datum), Datum.Fits a.env.structs ty d →
    a.env.sizeOf ty = .ok d.cells.length := fun _ _ h => h.size a.laid

/-- A jump to a target pops everything down to the bottom of the block of the target. -/
theorem unwind_runs {target : Block → Option Handle} {h h₁ h₂ : Handle} {size : Int} {i : Nat}
    {temps : List (List Cell)} (hu : Scope.unwind a.env target s.chain 0 = .ok (some (h, size)))
    (hi : a.stream.indexOf? h = some i)
    (hs : a.stream.Stands pc [⟨h₁, .moveSp (-size), none⟩, ⟨h₂, .jump .jmp, some h⟩])
    (hh : a.Holds s temps σ) :
    ∃ vss tss, leftAt target s.chain σ.blocks temps = some (h, vss, tss) ∧
      a.Runs ⟨pc, a.stack σ temps⟩ ⟨i, a.stack { σ with blocks := vss } tss⟩ := by
  obtain ⟨vss, tss, top, hleft, hframe, hsize⟩ := unwind_frame size_fits hh.blocks hu
  refine ⟨vss, tss, hleft, ?_⟩
  have hstack : a.stack σ temps = a.stack { σ with blocks := vss } tss ++ top := by
    simp [Store.stack, hframe]
  have hpop : Op.effect a.alu a.base (a.stack σ temps) (.moveSp (-size)) =
      some (a.stack { σ with blocks := vss } tss) := by
    rw [hstack]
    exact effect_moveSp (by omega)
  exact (Stream.runs_effect hs hpop).trans (Stream.runs_jmp hs.tail hi)

/-- The return from a function pops its frame. -/
theorem exit_runs {height : Int} {h₁ h₂ : Handle} {temps : List (List Cell)} {below : List Cell}
    (hheight : s.fullSize a.env = .ok height)
    (hs : a.stream.Stands pc [⟨h₁, .moveSp (-height), none⟩, ⟨h₂, .jump .jmp, some a.frame.retn⟩])
    (hh : a.Holds s temps σ) :
    a.Runs ⟨pc, below ++ Store.frame Datum.cells σ.blocks temps⟩ ⟨a.exit, below⟩ := by
  have hframe := height_frame size_fits hh.blocks hheight
  exact (Stream.runs_effect hs (effect_moveSp (by rw [hframe]))).trans
    (Stream.runs_jmp hs.tail a.exit_eq)

/-- A returned value is moved to the slots of the result. -/
theorem returning_runs {height : Int} {k : Nat} {v : Datum} {temps : List (List Cell)}
    (hheight : s.fullSize a.env = .ok height) (hh : a.Holds s temps σ)
    (hv : Datum.Fits a.env.structs a.frame.returnType v)
    (hk : a.env.sizeOf a.frame.returnType = .ok k) :
    Op.effects a.alu a.base ((returning n height k).map (·.op)) (a.stack σ temps ++ v.cells) =
      some (a.low ++ σ.globals.cells Datum.cells ++ a.callers ++ v.cells ++
        Store.frame Datum.cells σ.blocks temps) := by
  have hlen : k = v.cells.length := size_eq a.laid hv hk
  have hroom : k = a.result.length := Except.ok.inj (hk.symm.trans a.room)
  have hframe := height_frame size_fits hh.blocks hheight
  have hstack : a.stack σ temps = (a.low ++ σ.globals.cells Datum.cells ++ a.callers) ++ a.result ++
      Store.frame Datum.cells σ.blocks temps := by
    simp [Store.stack]
  unfold returning
  split
  · have hcopy : Op.effect a.alu a.base (a.stack σ temps ++ v.cells)
        (.copyDown .sp (-(height + 2 * k)) k) = _ := effect_copyDown hstack (by
          simp only [Anchor.position, hstack, List.length_append]
          omega) (by rw [hlen]) (by omega)
    simp only [List.map_cons, List.map_nil, Op.effects, hcopy, Option.bind_some]
    rw [effect_moveSp (by rw [hlen])]
    rfl
  · have hnil : v.cells = [] := List.eq_nil_of_length_eq_zero (by omega)
    have hnone : a.result = [] := List.eq_nil_of_length_eq_zero (by omega)
    simp [Op.effects, hstack, hnil, hnone]

/-- What the code of a piece executes. -/
def fragment : Piece → Fragment
  | .stmt st => .stmt st
  | .block body | .arm body => .seq body
  | .arms arms => .arms (arms.map (·.2))

/-- A piece that always returns never ends normally. -/
theorem abrupt_of_returned {env : Env} {frame : Frame} {piece : Piece} {alu : Alu} {engine : Engine}
    {structs : Structs} (h : Lays env frame s n piece s' flow code m) (hflow : flow = .returned) :
    ¬ Exec alu engine structs σ (fragment piece) .normal τ := by
  intro hexec
  induction h generalizing σ τ with
  | block _ ih =>
    cases hexec with
    | block hbody => exact ih hflow hbody
  | exit | exitWith => cases hexec
  | blockNext _ _ _ ih | armNext _ _ _ ih =>
    cases hexec with
    | seqNext _ hrest => exact ih hflow hrest
    | seqLeft _ hne => exact hne rfl
  | blockReturned _ ih | armReturned _ ih =>
    cases hexec with
    | seqNext hfirst _ => exact ih rfl hfirst
    | seqLeft _ hne => exact hne rfl
  | _ => cases hflow

/-! ## Statements -/

theorem ifTrue_follows {e : Expr} {onTrue : List Stmt} {onFalse : Option (List Stmt)}
    {σ₁ : Store Datum} (he : tested a.alu a.env.engine (some e) σ = some (true, σ₁))
    (ih : a.Closes onTrue σ₁.enter o τ) :
    a.Follows (.stmt (.ifElse e onTrue onFalse)) σ o τ.leave := by
  intro s s' n m flow code tss pc hl hs ht hh
  cases hl with
  | ifThen hc hb =>
    have hbody := hs.right.tail
    obtain ⟨hh₁, hr⟩ := unless_runs hc he hs (hbody.right.index a.distinct) hh
    refine ((block_ends ih hb hbody.left ht hh₁).before hr).after fun _ => ?_
    have hlast : a.Runs ⟨_, a.stack τ.leave ([] :: tss)⟩ _ := Stream.runs_nop hbody.right
    simpa [Nat.add_assoc, Nat.add_comm, Nat.add_left_comm] using hlast
  | ifElse hc hb _ =>
    have hbody := hs.right.tail
    have helse := hbody.right.tail
    obtain ⟨hh₁, hr⟩ := unless_runs hc he hs (helse.index a.distinct) hh
    refine ((block_ends ih hb hbody.left ht hh₁).before hr).after fun _ => ?_
    have hend := helse.tail.right
    have hlast : a.Runs ⟨_, a.stack τ.leave ([] :: tss)⟩ _ :=
      (Stream.runs_jmp hbody.right (hend.index a.distinct)).trans (Stream.runs_nop hend)
    simpa [Nat.add_assoc, Nat.add_comm, Nat.add_left_comm] using hlast

theorem ifFalse_follows {e : Expr} {onTrue onFalse : List Stmt} {σ₁ : Store Datum}
    (he : tested a.alu a.env.engine (some e) σ = some (false, σ₁))
    (ih : a.Closes onFalse σ₁.enter o τ) :
    a.Follows (.stmt (.ifElse e onTrue (some onFalse))) σ o τ.leave := by
  intro s s' n m flow code tss pc hl hs ht hh
  cases hl with
  | ifElse hc _ hb =>
    have helse := hs.right.tail.right.tail
    obtain ⟨hh₁, hr⟩ := unless_runs hc he hs (helse.index a.distinct) hh
    have hbody := helse.tail
    refine ((block_ends ih hb hbody.left ht hh₁).before
      (hr.trans (Stream.runs_nop helse))).after fun _ => ?_
    have hlast : a.Runs ⟨_, a.stack τ.leave ([] :: tss)⟩ _ := Stream.runs_nop hbody.right
    simpa [Nat.add_assoc, Nat.add_comm, Nat.add_left_comm] using hlast

theorem ifNone_follows {e : Expr} {onTrue : List Stmt}
    (he : tested a.alu a.env.engine (some e) σ = some (false, τ)) :
    a.Follows (.stmt (.ifElse e onTrue none)) σ .normal τ := by
  intro s s' n m flow code tss pc hl hs ht hh
  cases hl with
  | ifThen hc hb =>
    have hend := hs.right.tail.right
    obtain ⟨hh₁, hr⟩ := unless_runs hc he hs (hend.index a.distinct) hh
    refine ends_normal hh₁ (.refl s) (hr.trans ?_)
    have hlast : a.Runs ⟨_, a.stack τ ([] :: tss)⟩ _ := Stream.runs_nop hend
    simpa [Nat.add_assoc, Nat.add_comm, Nat.add_left_comm] using hlast

/-! ### Loops -/

variable (a) in
/-- Wherever the code of the loop stands, it ends as the loop does. -/
def LoopFollows (e step : Option Expr) (body : List Stmt) (σ : Store Datum) (o : Outcome)
    (τ : Store Datum) : Prop :=
  ∀ {s : Scope} {code : List Instruction} {tss : List (List Cell)} {pc : Nat},
    LoopCode a.env a.frame s e step body code → a.stream.Stands pc code → a.Targets s →
    a.Holds s ([] :: tss) σ →
    a.Ends s tss ⟨pc, a.stack σ ([] :: tss)⟩ ⟨pc + code.length, a.stack τ ([] :: tss)⟩ (· = s) o τ

theorem loopDone_follows {e step : Option Expr}
    (he : tested a.alu a.env.engine e σ = some (false, τ)) :
    a.LoopFollows e step body σ .normal τ := by
  intro s code tss pc hl hs ht hh
  obtain ⟨l⟩ := loop_at hl hs
  obtain ⟨hτ, hr⟩ := l.guard he hh
  exact ends_normal hτ (.refl s) (hr.trans (l.leaves _))

theorem loopNext_follows {e step : Option Expr} {σ₁ σ₂ σ₃ : Store Datum} {o₁ : Outcome}
    (he : tested a.alu a.env.engine e σ = some (true, σ₁)) (ih : a.Closes body σ₁.enter o₁ σ₂)
    (hgo : o₁.goesOn = true) (hstep : dropped a.alu a.env.engine step σ₂.leave = some σ₃)
    (ih' : a.LoopFollows e step body σ₃ o τ) : a.LoopFollows e step body σ o τ := by
  intro s code tss pc hl hs ht hh
  obtain ⟨l⟩ := loop_at hl hs
  obtain ⟨hh₁, hguard⟩ := l.guard he hh
  obtain ⟨hh₂, hbody, _⟩ :=
    loop_body ih l.lays l.stands ht hh₁ l.breakAt l.continueAt l.falls l.leaves
  obtain ⟨hh₃, hback⟩ := l.steps hstep hh₂
  exact (ih' hl hs ht hh₃).before ((hguard.trans (hbody hgo)).trans hback)

theorem loopLeft_follows {e step : Option Expr} {σ₁ : Store Datum}
    (he : tested a.alu a.env.engine e σ = some (true, σ₁)) (ih : a.Closes body σ₁.enter o τ)
    (hstop : o.goesOn = false) : a.LoopFollows e step body σ o.leaving τ.leave := by
  intro s code tss pc hl hs ht hh
  obtain ⟨l⟩ := loop_at hl hs
  obtain ⟨hh₁, hguard⟩ := l.guard he hh
  obtain ⟨_, _, hleft⟩ :=
    loop_body ih l.lays l.stands ht hh₁ l.breakAt l.continueAt l.falls l.leaves
  exact (hleft hstop).before hguard

/-- One round of a loop that is tested after its body. -/
theorem do_round {e : Expr} {σ₁ : Store Datum} (ih : a.Closes body σ.enter o σ₁)
    (hl : Lays a.env a.frame s n (.stmt (.doWhile body e)) s' flow code m)
    (hs : a.stream.Stands pc code) (ht : a.Targets s) (hh : a.Holds s ([] :: tss) σ) :
    s' = s ∧
      (o.goesOn = true → ∀ {holds τ},
        tested a.alu a.env.engine (some e) σ₁.leave = some (holds, τ) →
        a.Holds s ([] :: tss) τ ∧ a.Runs ⟨pc, a.stack σ ([] :: tss)⟩
          ⟨if holds then pc else pc + code.length, a.stack τ ([] :: tss)⟩) ∧
      (o.goesOn = false → a.Ends s tss ⟨pc, a.stack σ ([] :: tss)⟩
        ⟨pc + code.length, a.stack σ₁.leave ([] :: tss)⟩ (· = s) o.leaving σ₁.leave) := by
  cases hl with
  | doWhile hb hc =>
    have hstart := hs.index a.distinct
    have hbody := hs.tail
    have htest := hbody.right.tail
    have hend := htest.right.tail
    obtain ⟨hh₁, hgo, hleft⟩ := loop_body ih hb hbody.left ht hh (hend.index a.distinct)
      (hbody.right.index a.distinct) (fun _ => .refl _) (fun _ => Stream.runs_nop hend)
    refine ⟨rfl, ?_, ?_⟩
    · intro hgoes holds τ he
      obtain ⟨hτ, x, rfl, heff⟩ := condition_runs a.laid a.typed hc he hh₁
      have hround := (((Stream.runs_nop hs).trans (hgo hgoes)).trans
        (Stream.runs_nop hbody.right)).trans (Stream.runs_effects htest.left heff)
      have hjump : a.Runs ⟨_, a.stack τ ([] :: tss) ++ [.int x]⟩ _ :=
        Stream.runs_jnz htest.right hstart
      refine ⟨hτ, hround.trans (hjump.trans ?_)⟩
      by_cases hx : x = 0
      · have hlast : a.Runs ⟨_, a.stack τ ([] :: tss)⟩ _ := Stream.runs_nop hend
        simpa [hx, Nat.add_assoc, Nat.add_comm, Nat.add_left_comm] using hlast
      · simpa [hx] using Stream.Runs.refl _
    · intro hstop
      have hout := (hleft hstop).before (Stream.runs_nop hs)
      simpa [Nat.add_assoc, Nat.add_comm, Nat.add_left_comm] using hout

theorem doNext_follows {e : Expr} {σ₁ σ₂ : Store Datum} {o₁ : Outcome}
    (ih : a.Closes body σ.enter o₁ σ₁) (hgo : o₁.goesOn = true)
    (he : tested a.alu a.env.engine (some e) σ₁.leave = some (true, σ₂))
    (ih' : a.Follows (.stmt (.doWhile body e)) σ₂ o τ) :
    a.Follows (.stmt (.doWhile body e)) σ o τ := by
  intro s s' n m flow code tss pc hl hs ht hh
  obtain ⟨_, hround, _⟩ := do_round ih hl hs ht hh
  obtain ⟨hh₂, hr⟩ := hround hgo he
  exact (ih' hl hs ht hh₂).before hr

theorem doDone_follows {e : Expr} {σ₁ : Store Datum} {o₁ : Outcome}
    (ih : a.Closes body σ.enter o₁ σ₁) (hgo : o₁.goesOn = true)
    (he : tested a.alu a.env.engine (some e) σ₁.leave = some (false, τ)) :
    a.Follows (.stmt (.doWhile body e)) σ .normal τ := by
  intro s s' n m flow code tss pc hl hs ht hh
  obtain ⟨rfl, hround, _⟩ := do_round ih hl hs ht hh
  obtain ⟨hτ, hr⟩ := hround hgo he
  exact ends_normal hτ (.refl _) hr

theorem doLeft_follows {e : Expr} (ih : a.Closes body σ.enter o τ) (hstop : o.goesOn = false) :
    a.Follows (.stmt (.doWhile body e)) σ o.leaving τ.leave := by
  intro s s' n m flow code tss pc hl hs ht hh
  obtain ⟨rfl, _, hleft⟩ := do_round ih hl hs ht hh
  exact hleft hstop

/-! ### Switches -/

/-- The label of an arm, and the arms from there on. -/
theorem switch_arm {env : Env} {frame : Frame} {cases : List (List SwitchLabel × List Stmt)}
    {first i : Nat} (h : Lays env frame s n
      (.arms ((List.range' first cases.length).zip (cases.map (·.2)))) s' flow code m)
    (hi : i < cases.length) :
    ∃ before n' more arms, code = before ++ ⟨first + i, .nop, none⟩ :: more ∧
      arms.map (·.2) = (cases.drop i).map (·.2) ∧
      Lays env frame s n' (.arms arms) s .next (⟨first + i, .nop, none⟩ :: more) m := by
  have hat : ((List.range' first cases.length).zip (cases.map (·.2)))[i]? =
      some (first + i, cases[i].2) := by
    simp [hi]
  obtain ⟨before, n', more, hcode, hl⟩ := arms_from h hat
  refine ⟨before, n', more, _, hcode, ?_, hl⟩
  rw [List.map_drop, List.map_snd_zip (by simp), List.map_drop]

theorem switch_labels {cases : List (List SwitchLabel × List Stmt)} {first i : Nat}
    (h : Lays a.env a.frame s n (.arms ((List.range' first cases.length).zip (cases.map (·.2)))) s'
      flow code m)
    (hs : a.stream.Stands pc code) (hi : i < cases.length) :
    ∃ there, a.stream.indexOf? (first + i) = some there := by
  obtain ⟨before, _, more, _, rfl, _⟩ := switch_arm h hi
  exact ⟨_, hs.right.index a.distinct⟩

theorem selected_mem {γ : Type} {alu : Alu} {engine : Engine} {v : Datum}
    {labels : List (SwitchLabel × γ)} {default : Option γ} {arm : γ}
    (h : selected alu engine v labels default σ = some (some arm, τ)) :
    default = some arm ∨ arm ∈ labels.map (·.2) := by
  induction labels generalizing default σ with
  | nil =>
    cases h
    exact .inl rfl
  | cons l rest ih =>
    obtain ⟨label, target⟩ := l
    cases label with
    | default =>
      rcases ih h with hd | hmem
      · cases hd
        exact .inr (by simp)
      · exact .inr (by simp [hmem])
    | case e =>
      simp only [selected, Option.bind_eq_bind, Option.bind_eq_some_iff] at h
      obtain ⟨_, _, _, _, equal, _, h⟩ := h
      split at h
      · cases h
        exact .inr (by simp)
      · exact (ih h).imp id fun hmem => by simp [hmem]

theorem armLabels_lt {cases : List (List SwitchLabel × List Stmt)} {i x : Nat}
    (h : x ∈ (armLabels cases i).map (·.2)) : x < i + cases.length := by
  induction cases generalizing i with
  | nil => cases h
  | cons one rest ih =>
    simp only [armLabels, List.map_append, List.map_map, List.mem_append] at h
    rw [List.length_cons]
    rcases h with h | h
    · simp only [List.mem_map, Function.comp_apply] at h
      obtain ⟨_, _, rfl⟩ := h
      omega
    · have := ih h
      omega

theorem switch_follows {e : Expr} {cases : List (List SwitchLabel × List Stmt)} {v : Datum}
    {arm : Nat} {σ₁ σ₂ : Store Datum} (heval : eval a.alu a.env.engine e σ = some (v, σ₁))
    (hsel : selected a.alu a.env.engine v (armLabels cases 0) none σ₁ = some (some arm, σ₂))
    (ih : ∀ arms : List (Handle × List Stmt), arms.map (·.2) = (cases.drop arm).map (·.2) →
      a.Follows (.arms arms) σ₂.enter o τ) :
    a.Follows (.stmt (.switch e cases)) σ o.leaving τ.leave := by
  intro s s' n m flow code tss pc hl hs ht hh
  cases hl with
  | switch he hty htests harms =>
    have hin : arm < cases.length := by
      rcases selected_mem hsel with hd | hmem
      · cases hd
      · simpa using armLabels_lt hmem
    have hstands := hs.right.tail
    obtain ⟨hh₂, top, there, hthere, hr⟩ := switch_selects he hty htests heval hsel hs
      (fun _ hi => switch_labels harms hstands.left hi) ⟨_, hstands.right.index a.distinct⟩ hh
    obtain ⟨before, n', more, arms, rfl, hbodies, harm⟩ := switch_arm harms hin
    rw [List.append_assoc] at hstands
    have hat := hstands.right
    have hpos : there = _ := Option.some.inj (hthere.symm.trans (hat.index a.distinct))
    rw [hpos] at hr
    have hends := (arms_end (ih arms hbodies) harm hat ht hh₂).before hr
    simpa [Nat.add_assoc, Nat.add_comm, Nat.add_left_comm] using hends

theorem switchNone_follows {e : Expr} {cases : List (List SwitchLabel × List Stmt)} {v : Datum}
    {σ₁ : Store Datum} (heval : eval a.alu a.env.engine e σ = some (v, σ₁))
    (hsel : selected a.alu a.env.engine v (armLabels cases 0) none σ₁ = some (none, τ)) :
    a.Follows (.stmt (.switch e cases)) σ .normal τ := by
  intro s s' n m flow code tss pc hl hs ht hh
  cases hl with
  | switch he hty htests harms =>
    have hstands := hs.right.tail
    have hend := hstands.right
    obtain ⟨hτ, top, there, hthere, hr⟩ := switch_selects he hty htests heval hsel hs
      (fun _ hi => switch_labels harms hstands.left hi) ⟨_, hend.index a.distinct⟩ hh
    have hpos : there = _ := Option.some.inj (hthere.symm.trans (hend.index a.distinct))
    rw [hpos] at hr
    have hpop : a.Runs ⟨_, a.stack τ ([] :: tss) ++ [top]⟩ _ :=
      (Stream.runs_nop hend).trans (Stream.runs_effect hend.tail (effect_moveSp rfl))
    refine ends_normal hτ (.refl s) (hr.trans ?_)
    simpa [Nat.add_assoc, Nat.add_comm, Nat.add_left_comm] using hpop

/-! ### Statements one after another -/

theorem seqEnd_simulates : a.Closes [] σ .normal σ ∧ a.Follows (.arm []) σ .normal σ := by
  refine ⟨?_, ?_⟩
  · intro s s' n m flow code tss pc hl hs ht hh
    cases hl with
    | blockEnd hk _ =>
      obtain ⟨vs, vss, _, _, hvs, hts, ha, _, _⟩ := hh.blocks.inv
      have hsize := size_block size_fits ha hk
      have hstack : a.stack σ ([] :: tss) = a.stack σ.leave tss ++ vs.cells Datum.cells := by
        simp [Store.stack, Store.frame, Store.leave, hvs]
      refine ⟨s, _, .refl s, fun _ => trivial, hh, .normal, ?_⟩
      rw [hstack]
      exact Stream.runs_effect hs (effect_moveSp (by rw [hsize]))
  · intro s s' n m flow code tss pc hl hs ht hh
    cases hl with
    | armEnd => exact ends_normal hh (.refl s) (.refl _)

theorem targets_lays {st : Stmt} (h : Lays a.env a.frame s n (.stmt st) s' flow code m)
    (ht : a.Targets s) : a.Targets s' := fun x hx => ht x ((leaves_of_lays h).mp hx)

theorem seqNext_simulates {st : Stmt} {rest : List Stmt} {σ₁ : Store Datum}
    (hexec : Exec a.alu a.env.engine a.env.structs σ (.stmt st) .normal σ₁)
    (ih : a.Follows (.stmt st) σ .normal σ₁)
    (ih' : a.Closes rest σ₁ o τ ∧ a.Follows (.arm rest) σ₁ o τ) :
    a.Closes (st :: rest) σ o τ ∧ a.Follows (.arm (st :: rest)) σ o τ := by
  refine ⟨?_, ?_⟩
  · intro s s' n m flow code tss pc hl hs ht hh
    cases hl with
    | blockReturned hst => exact absurd hexec (abrupt_of_returned hst rfl)
    | blockNext hst hrest =>
      obtain ⟨t, c, he, hlast, hh₁, harrives, hr⟩ := ih hst hs.left ht hh
      cases hlast rfl
      cases harrives
      have hends := (ih'.1 hrest hs.right (targets_lays hst ht) hh₁).before hr
      simpa [Nat.add_assoc] using hends.extends he
  · intro s s' n m flow code tss pc hl hs ht hh
    cases hl with
    | armReturned hst => exact absurd hexec (abrupt_of_returned hst rfl)
    | armNext hst hrest =>
      obtain ⟨t, c, he, hlast, hh₁, harrives, hr⟩ := ih hst hs.left ht hh
      cases hlast rfl
      cases harrives
      have hends := (ih'.2 hrest hs.right ht hh₁).before hr
      simpa [Nat.add_assoc] using hends

theorem seqLeft_simulates {st : Stmt} {rest : List Stmt} (ho : o ≠ .normal)
    (ih : a.Follows (.stmt st) σ o τ) :
    a.Closes (st :: rest) σ o τ ∧ a.Follows (.arm (st :: rest)) σ o τ := by
  refine ⟨?_, ?_⟩
  · intro s s' n m flow code tss pc hl hs ht hh
    cases hl with
    | blockReturned hst => exact (ih hst hs ht hh).abrupt ho
    | blockNext hst _ => exact (ih hst hs.left ht hh).abrupt ho
  · intro s s' n m flow code tss pc hl hs ht hh
    cases hl with
    | armReturned hst => exact (ih hst hs ht hh).abrupt ho
    | armNext hst _ => exact (ih hst hs.left ht hh).abrupt ho

theorem armsNext_follows {arms : List (Handle × List Stmt)} {rest : List (List Stmt)}
    {σ₁ : Store Datum} (harms : arms.map (·.2) = body :: rest)
    (ih : a.Follows (.arm body) σ .normal σ₁)
    (ih' : ∀ arms : List (Handle × List Stmt), arms.map (·.2) = rest →
      a.Follows (.arms arms) σ₁ o τ) : a.Follows (.arms arms) σ o τ := by
  intro s s' n m flow code tss pc hl hs ht hh
  cases hl with
  | noArms => cases harms
  | arms harm hrest =>
    obtain ⟨rfl, hmap⟩ := List.cons.inj harms
    obtain ⟨t, c, he, hlast, hh₁, harrives, hr⟩ := ih harm hs.tail.left ht hh
    cases hlast rfl
    cases harrives
    have hends := (ih' _ hmap hrest hs.tail.right ht hh₁).before ((Stream.runs_nop hs).trans hr)
    simpa [Nat.add_assoc, Nat.add_comm, Nat.add_left_comm] using hends

theorem armsLeft_follows {arms : List (Handle × List Stmt)} {rest : List (List Stmt)}
    (harms : arms.map (·.2) = body :: rest) (ho : o ≠ .normal) (ih : a.Follows (.arm body) σ o τ) :
    a.Follows (.arms arms) σ o τ := by
  intro s s' n m flow code tss pc hl hs ht hh
  cases hl with
  | noArms => cases harms
  | arms harm hrest =>
    obtain ⟨rfl, _⟩ := List.cons.inj harms
    exact ((ih harm hs.tail.left ht hh).before (Stream.runs_nop hs)).abrupt ho

/-! ### Leaving -/

theorem breakOut_follows : a.Follows (.stmt .breakOut) σ .broke σ := by
  intro s s' n m flow code tss pc hl hs ht hh
  cases hl with
  | breakOut hu =>
    obtain ⟨b, hb, hx⟩ := unwind_target hu
    obtain ⟨i, hi⟩ := ht _ ⟨b, hb, .inl hx⟩
    obtain ⟨vss, tss', hleft, hr⟩ := unwind_runs hu hi hs hh
    exact ⟨s, _, .refl s, nofun, hh, .broke hleft hi, hr⟩

theorem continueLoop_follows : a.Follows (.stmt .continueLoop) σ .continued σ := by
  intro s s' n m flow code tss pc hl hs ht hh
  cases hl with
  | continueLoop hu =>
    obtain ⟨b, hb, hx⟩ := unwind_target hu
    obtain ⟨i, hi⟩ := ht _ ⟨b, hb, .inr hx⟩
    obtain ⟨vss, tss', hleft, hr⟩ := unwind_runs hu hi hs hh
    exact ⟨s, _, .refl s, nofun, hh, .continued hleft hi, hr⟩

theorem exit_follows : a.Follows (.stmt (.ret none)) σ (.returned none) σ := by
  intro s s' n m flow code tss pc hl hs ht hh
  cases hl with
  | exit _ hheight =>
    refine ⟨s, _, .refl s, nofun, hh, .returned nofun, ?_⟩
    have hr := @exit_runs _ _ _ _ _ _ _ _ (a.low ++ σ.globals.cells Datum.cells ++ a.callers ++
      a.result) hheight hs hh
    simpa [Store.stack, returned] using hr

theorem exitWith_follows {e : Expr} {v : Datum}
    (heval : eval a.alu a.env.engine e σ = some (v, τ)) :
    a.Follows (.stmt (.ret (some e))) σ (.returned (some v)) τ := by
  intro s s' n m flow code tss pc hl hs ht hh
  cases hl with
  | exitWith hheight he hk hn =>
    obtain ⟨hv, hτ, heff⟩ := value_runs a.laid a.typed he heval hh
    have hvalue := Stream.runs_effects hs.left.left heff
    have hmove := Stream.runs_effects hs.left.right (returning_runs hheight hτ hv hk)
    have hlast := hs.right
    rw [List.length_append, ← Nat.add_assoc] at hlast
    exact ⟨s, _, .refl s, nofun, hτ, .returned (by rintro _ ⟨⟩; exact hv),
      (hvalue.trans hmove).trans (exit_runs hheight hlast hτ)⟩

/-! ## All of them -/

variable (a) in
/-- What is shown of everything that is executed. -/
def Simulates (σ : Store Datum) : Fragment → Outcome → Store Datum → Prop
  | .stmt st, o, τ => a.Follows (.stmt st) σ o τ
  | .seq body, o, τ => a.Closes body σ o τ ∧ a.Follows (.arm body) σ o τ
  | .arms bodies, o, τ => ∀ arms : List (Handle × List Stmt), arms.map (·.2) = bodies →
      a.Follows (.arms arms) σ o τ
  | .loop e step body, o, τ => a.LoopFollows e step body σ o τ

/-- Whatever is executed, its code does the same. -/
theorem exec_simulated {fragment : Fragment}
    (h : Exec a.alu a.env.engine a.env.structs σ fragment o τ) : a.Simulates σ fragment o τ := by
  induction h with
  | expr he =>
    intro s s' n m flow code tss pc hl hs ht hh
    cases hl with
    | expr hd =>
      obtain ⟨hτ, heff⟩ := discards_runs a.laid a.typed hd he hh
      exact ends_normal hτ (.refl s) (Stream.runs_effects hs heff)
  | declare hi =>
    intro s s' n m flow code tss pc hl hs ht hh
    cases hl with
    | declare hd =>
      obtain ⟨hτ, heff⟩ := declares_runs a.laid a.typed hd hi hh
      exact ends_normal hτ (.of_declares hd) (Stream.runs_effects hs heff)
  | block _ ih =>
    intro s s' n m flow code tss pc hl hs ht hh
    cases hl with
    | block hb => exact block_ends ih.1 hb hs ht hh
  | ifTrue he _ ih => exact ifTrue_follows he ih.1
  | ifFalse he _ ih => exact ifFalse_follows he ih.1
  | ifNone he => exact ifNone_follows he
  | whileLoop _ ih =>
    intro s s' n m flow code tss pc hl hs ht hh
    cases hl with
    | whileLoop hc hb => exact ih (.whileLoop hc hb) hs ht hh
  | forLoop he _ ih =>
    intro s s' n m flow code tss pc hl hs ht hh
    cases hl with
    | forLoop hd hg hb hstep =>
      obtain ⟨hh₁, heff⟩ := discards_runs a.laid a.typed hd he hh
      have hends := (ih (.forLoop hg hb hstep) hs.right ht hh₁).before
        (Stream.runs_effects hs.left heff)
      simpa [Nat.add_assoc] using hends
  | loopDone he => exact loopDone_follows he
  | loopNext he _ hgo hstep _ ih ih' => exact loopNext_follows he ih.1 hgo hstep ih'
  | loopLeft he _ hstop ih => exact loopLeft_follows he ih.1 hstop
  | doNext _ hgo he _ ih ih' => exact doNext_follows ih.1 hgo he ih'
  | doDone _ hgo he ih => exact doDone_follows ih.1 hgo he
  | doLeft _ hstop ih => exact doLeft_follows ih.1 hstop
  | switch heval hsel _ ih => exact switch_follows heval hsel ih
  | switchNone heval hsel => exact switchNone_follows heval hsel
  | breakOut => exact breakOut_follows
  | continueLoop => exact continueLoop_follows
  | exit => exact exit_follows
  | exitWith heval => exact exitWith_follows heval
  | seqEnd => exact seqEnd_simulates
  | seqNext hst _ ih ih' => exact seqNext_simulates hst ih ih'
  | seqLeft _ ho ih => exact seqLeft_simulates ho ih
  | armsEnd =>
    intro arms harms s s' n m flow code tss pc hl hs ht hh
    cases List.map_eq_nil_iff.mp harms
    cases hl with
    | noArms => exact ends_normal hh (.refl s) (.refl _)
  | armsNext _ _ ih ih' => exact fun arms harms => armsNext_follows harms ih.2 ih'
  | armsLeft _ ho ih => exact fun arms harms => armsLeft_follows harms ho ih.2

end Activation

end NwScript
