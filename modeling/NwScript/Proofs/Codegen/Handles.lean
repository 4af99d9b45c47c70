-- The handles of generated code: every handle that was given out stands in the code once, and every
-- jump aims at the code itself or at a target of an enclosing statement.
import NwScript.Proofs.Codegen.Lays

namespace NwScript

namespace Codegen

/-! ## Tidy code -/

/-- Code in which just the handles of `S` stand, each once, and whose jumps, calls apart, aim at
handles of `A`. Other instructions aim at nothing, and the base of the globals is never touched. -/
structure Tidy (S A : Nat → Prop) (code : List Instruction) : Prop where
  nodup : (code.map (·.handle)).Nodup
  handles : ∀ x, x ∈ code.map (·.handle) ↔ S x
  aims : ∀ i ∈ code, ∀ c, i.op = .jump c → c ≠ .jsr → ∃ x, i.target = some x ∧ A x
  base : ∀ i ∈ code, i.op ≠ .saveBp
  plain : ∀ i ∈ code, i.op.isJump = false → i.target = none

/-- The handles from `n` up to `m`. -/
def Between (n m x : Nat) : Prop := n ≤ x ∧ x < m

section Tidiness

variable {S T A B : Nat → Prop} {code more : List Instruction} {i : Instruction} {n m : Nat}

theorem tidy_nil : Tidy (fun _ => False) (fun _ => False) [] := by
  constructor <;> simp

theorem Tidy.mono (h : Tidy S A code) (hs : ∀ x, S x ↔ T x) (ha : ∀ x, A x → B x) :
    Tidy T B code := by
  refine ⟨h.nodup, fun x => (h.handles x).trans (hs x), ?_, h.base, h.plain⟩
  intro i hi c hc hne
  obtain ⟨x, hx, hax⟩ := h.aims i hi c hc hne
  exact ⟨x, hx, ha x hax⟩

theorem Tidy.append (h : Tidy S A code) (h' : Tidy T B more) (hd : ∀ x, S x → ¬ T x) :
    Tidy (fun x => S x ∨ T x) (fun x => A x ∨ B x) (code ++ more) := by
  refine ⟨?_, ?_, ?_, ?_, ?_⟩
  · rw [List.map_append, List.nodup_append]
    refine ⟨h.nodup, h'.nodup, ?_⟩
    rintro x hx y hy rfl
    exact hd x ((h.handles x).mp hx) ((h'.handles x).mp hy)
  · intro x
    rw [List.map_append, List.mem_append, h.handles, h'.handles]
  · intro i hi c hc hne
    rcases List.mem_append.mp hi with hi | hi
    · obtain ⟨x, hx, hax⟩ := h.aims i hi c hc hne
      exact ⟨x, hx, .inl hax⟩
    · obtain ⟨x, hx, hax⟩ := h'.aims i hi c hc hne
      exact ⟨x, hx, .inr hax⟩
  · intro i hi
    rcases List.mem_append.mp hi with hi | hi
    · exact h.base i hi
    · exact h'.base i hi
  · intro i hi
    rcases List.mem_append.mp hi with hi | hi
    · exact h.plain i hi
    · exact h'.plain i hi

theorem tidy_one (hb : i.op ≠ .saveBp) (hj : ∀ c, i.op = .jump c → i.target ≠ none)
    (hp : i.op.isJump = false → i.target = none) :
    Tidy (fun x => x = i.handle) (fun x : Nat => i.op ≠ .jump .jsr ∧ i.target = some x) [i] := by
  refine ⟨by simp, by simp, ?_, by simpa using hb, by simpa using hp⟩
  simp only [List.mem_singleton, forall_eq]
  intro c hc hne
  obtain ⟨x, hx⟩ := Option.ne_none_iff_exists'.mp (hj c hc)
  refine ⟨x, hx, ?_, hx⟩
  rw [hc]
  intro h
  cases h
  exact hne rfl

/-- An instruction that is no jump. -/
theorem tidy_op {op : Op} (hb : op ≠ .saveBp) (hj : op.isJump = false) :
    Tidy (fun x => x = n) (fun _ => False) [⟨n, op, none⟩] := by
  refine (tidy_one hb ?_ fun _ => rfl).mono (fun _ => Iff.rfl) (by simp)
  rintro c rfl
  simp [Op.isJump] at hj

theorem tidy_jump {c : JumpCode} {target : Nat} :
    Tidy (fun x => x = n) (fun x => x = target) [⟨n, .jump c, some target⟩] := by
  refine (tidy_one (by simp) (by simp) (by simp [Op.isJump])).mono (fun _ => Iff.rfl) ?_
  rintro x ⟨_, h⟩
  exact (Option.some.inj h).symm

theorem tidy_call {target : Handle} :
    Tidy (fun x => x = n) (fun _ => False) [⟨n, .jump .jsr, some target⟩] :=
  (tidy_one (by simp) (by simp) (by simp [Op.isJump])).mono (fun _ => Iff.rfl) (by simp)

theorem tidy_numbered {ops : List Op} (h : ∀ op ∈ ops, op ≠ .saveBp ∧ op.isJump = false) :
    Tidy (Between n (n + ops.length)) (fun _ => False) (numbered n ops) := by
  induction ops generalizing n with
  | nil => exact tidy_nil.mono (by simp only [Between, List.length_nil, false_iff]; omega) (by simp)
  | cons op rest ih =>
    have hhead := h op (by simp)
    have htail : Tidy (Between (n + 1) (n + 1 + rest.length)) (fun _ => False) _ :=
      ih fun op hop => h op (List.mem_cons_of_mem _ hop)
    refine ((tidy_op hhead.1 hhead.2).append htail ?_).mono ?_ (by simp)
    · intro x
      simp only [Between]
      omega
    · intro x
      simp only [Between, List.length_cons]
      omega

theorem tidy_popping {k : Nat} :
    Tidy (Between n (n + (popping n k).length)) (fun _ => False) (popping n k) := by
  unfold popping
  split
  · refine (tidy_op (by simp) rfl).mono ?_ (by simp)
    intro x
    simp only [Between, List.length_singleton]
    omega
  · refine tidy_nil.mono ?_ (by simp)
    intro x
    simp only [Between, List.length_nil, false_iff]
    omega

end Tidiness

/-! ## Expressions -/

theorem pushing_plain (v : Value) : ∀ op ∈ Op.pushing v, op ≠ .saveBp ∧ op.isJump = false := by
  cases v <;> simp [Op.pushing, Op.isJump]

theorem composite_plain {op : BinaryOp} {left right : Ty} {k : Int} {c : Op}
    (h : op.composite? left right k = some c) : c ≠ .saveBp ∧ c.isJump = false := by
  rcases composite_cases h with rfl | rfl <;> simp [Op.isJump]

theorem emits_tidy {env : Env} {s : Scope} {n m : Nat} {phrase : Phrase} {tys : List Ty}
    {code : List Instruction} (h : Emits env s n phrase tys code m) :
    n ≤ m ∧ Tidy (Between n m) (Between n m) code := by
  induction h with
  | literal | constant =>
    exact ⟨Nat.le_add_right _ _, (tidy_numbered (pushing_plain _)).mono
      (fun _ => Iff.rfl) (by simp)⟩
  | vector _ _ _ ihx ihy ihz =>
    refine ⟨by omega, ((ihx.2.append ihy.2 ?_).append ihz.2 ?_).mono ?_ ?_⟩
    all_goals grind [Between]
  | access =>
    refine ⟨by omega, (tidy_op (by simp [Resolved.load]) rfl).mono ?_ (by simp)⟩
    intro x
    simp only [Between]
    omega
  | assign _ _ _ _ _ ih | unary _ _ ih =>
    refine ⟨by omega, (ih.2.append (tidy_op (by simp [Resolved.store]) rfl) ?_).mono ?_ ?_⟩
    all_goals grind [Between]
  | combine _ _ _ _ _ _ _ _ _ ih =>
    refine ⟨by omega, ((tidy_op (by simp [Resolved.load]) rfl).append (ih.2.append
      ((tidy_op (by simp) rfl).append (tidy_op (by simp [Resolved.store]) rfl) ?_) ?_)
        ?_).mono ?_ ?_⟩
    all_goals grind [Between]
  | composite _ _ _ _ hc ihl ihr =>
    obtain ⟨hb, hj⟩ := composite_plain hc
    refine ⟨by omega, ((ihl.2.append ihr.2 ?_).append (tidy_op hb hj) ?_).mono ?_ ?_⟩
    all_goals grind [Between]
  | binary _ _ _ _ _ _ _ ihl ihr =>
    refine ⟨by omega, ((ihl.2.append ihr.2 ?_).append (tidy_op (by simp) rfl) ?_).mono ?_ ?_⟩
    all_goals grind [Between]
  | stepPre | stepPost =>
    refine ⟨by omega, ((tidy_op (by simp [Resolved.load]) rfl).append
      (tidy_op (by simp [Resolved.load]) rfl) ?_).mono ?_ ?_⟩
    all_goals grind [Between]
  | @callFunction s n n₁ name args f bound ks k tys code _ _ _ _ _ ih =>
    have hreserve : Tidy (Between n (n + (ks.map Op.reserve).length)) _ _ :=
      tidy_numbered (by simp [Op.isJump])
    rw [List.length_map] at hreserve
    refine ⟨by omega, ((hreserve.append ih.2 ?_).append tidy_call ?_).mono ?_ ?_⟩
    all_goals grind [Between]
  | callRoutine _ _ _ _ _ _ _ ih =>
    refine ⟨by omega, (ih.2.append (tidy_op (by simp) rfl) ?_).mono ?_ ?_⟩
    all_goals grind [Between]
  | noArguments =>
    refine ⟨Nat.le_refl _, tidy_nil.mono ?_ (by simp)⟩
    intro x
    simp only [Between, false_iff]
    omega
  | pushed _ _ _ _ ihe ihrest =>
    refine ⟨by omega, (ihe.2.append ihrest.2 ?_).mono ?_ ?_⟩
    all_goals grind [Between]
  | @deferred s n n₁ m p e bound globals locals ty k tys code rest _ _ _ _ _ _ ihe ihrest =>
    have hpop := @tidy_popping n₁ k
    have hstore : Tidy _ _ [⟨n, .storeState (-globals) locals, none⟩] := tidy_op (by simp) rfl
    have hretn : Tidy _ _ [⟨n₁ + (popping n₁ k).length, .retn, none⟩] := tidy_op (by simp) rfl
    have hnop : Tidy _ _ [⟨n + 1, .nop, none⟩] := tidy_op (by simp) rfl
    refine ⟨by omega, (hstore.append (tidy_jump.append (((ihe.2.append hpop ?_).append
      (hretn.append (hnop.append ihrest.2 ?_) ?_) ?_)) ?_) ?_).mono ?_ ?_⟩
    all_goals grind [Between]

/-! ## Parts of statements -/

section Parts

variable {env : Env} {s s' : Scope} {n m : Nat} {code : List Instruction}

theorem discards_tidy {e : Option Expr} (h : Discards env s n e code m) :
    n ≤ m ∧ Tidy (Between n m) (Between n m) code := by
  cases h with
  | none =>
    refine ⟨Nat.le_refl _, tidy_nil.mono ?_ (by simp)⟩
    grind [Between]
  | some he _ =>
    obtain ⟨hle, htidy⟩ := emits_tidy he
    refine ⟨by omega, (htidy.append tidy_popping ?_).mono ?_ ?_⟩
    all_goals grind [Between]

theorem guards_tidy {done : Nat} {e : Option Expr} (h : Guards env s done n e code m) :
    n ≤ m ∧ Tidy (Between n m) (fun x => Between n m x ∨ x = done) code := by
  cases h with
  | none =>
    refine ⟨Nat.le_refl _, tidy_nil.mono ?_ (by simp)⟩
    grind [Between]
  | some he =>
    obtain ⟨hle, htidy⟩ := emits_tidy he
    refine ⟨by omega, (htidy.append tidy_jump ?_).mono ?_ ?_⟩
    all_goals grind [Between]

theorem declares_tidy {ty : Ty} {ds : List Declarator} (h : Declares env ty s n ds s' code m) :
    n ≤ m ∧ Tidy (Between n m) (Between n m) code := by
  induction h with
  | nil =>
    refine ⟨Nat.le_refl _, tidy_nil.mono ?_ (by simp)⟩
    grind [Between]
  | @plain s s' n m d rest ks k code _ _ _ _ ih =>
    have hreserve : Tidy (Between n (n + (ks.map Op.reserve).length)) _ _ :=
      tidy_numbered (by simp [Op.isJump])
    rw [List.length_map] at hreserve
    refine ⟨by omega, (hreserve.append ih.2 ?_).mono ?_ ?_⟩
    all_goals grind [Between]
  | @initialized s s' n n₁ m d rest ks k e r value code _ _ _ he _ _ ih =>
    obtain ⟨hle, htidy⟩ := emits_tidy he
    have hreserve : Tidy (Between n (n + (ks.map Op.reserve).length)) _ _ :=
      tidy_numbered (by simp [Op.isJump])
    rw [List.length_map] at hreserve
    refine ⟨by omega, (((hreserve.append htidy ?_).append ((tidy_op (by simp) rfl).append
      (tidy_op (by simp) rfl) ?_) ?_).append ih.2 ?_).mono ?_ ?_⟩
    all_goals grind [Between]

theorem tests_tidy {ty : Ty} {c : BinaryCode} {ls : List (SwitchLabel × Handle)}
    {default default' : Option Handle} (h : Tests env s ty c n ls default default' code m) :
    n ≤ m ∧ Tidy (Between n m) (fun x => Between n m x ∨ x ∈ ls.map (·.2)) code := by
  induction h with
  | nil =>
    refine ⟨Nat.le_refl _, tidy_nil.mono ?_ (by simp)⟩
    grind [Between]
  | case he _ ih =>
    obtain ⟨hle, htidy⟩ := emits_tidy he
    refine ⟨by omega, ((tidy_op (by simp) rfl).append ((htidy.append ((tidy_op (by simp) rfl).append
      tidy_jump ?_) ?_).append ih.2 ?_) ?_).mono ?_ ?_⟩
    all_goals grind [Between]
  | default _ ih => exact ⟨ih.1, ih.2.mono (fun _ => Iff.rfl) (by grind)⟩

theorem default_of_tests {ty : Ty} {c : BinaryCode} {ls : List (SwitchLabel × Handle)}
    {default default' : Option Handle} {x : Handle}
    (h : Tests env s ty c n ls default default' code m) (hx : default' = some x) :
    default = some x ∨ x ∈ ls.map (·.2) := by
  induction h with
  | nil => exact .inl hx
  | case _ _ ih => grind
  | default _ ih => grind

theorem labelled_handles {cases : List (List SwitchLabel × List Stmt)} {arms : List Handle}
    {x : Handle} (h : x ∈ (labelled cases arms).map (·.2)) : x ∈ arms := by
  induction cases generalizing arms with
  | nil => simp [labelled] at h
  | cons one rest ih =>
    cases arms with
    | nil => simp [labelled] at h
    | cons arm arms =>
      simp only [labelled, List.map_append, List.map_map, List.mem_append] at h
      rcases h with h | h
      · simp only [List.mem_map, Function.comp_apply] at h
        obtain ⟨_, _, rfl⟩ := h
        simp
      · exact List.mem_cons_of_mem _ (ih h)

end Parts

/-! ## Statements -/

/-- Whether a block of the chain can be left for a target. -/
def Leaves (s : Scope) (x : Nat) : Prop :=
  ∃ b ∈ s.chain, b.breakTo = some x ∨ b.continueTo = some x

section Statements

variable {env : Env} {frame : Frame} {s s' : Scope} {n m : Nat} {code : List Instruction}

theorem leaves_child {b : Block} {x : Nat} :
    Leaves (s.child b) x ↔ (b.breakTo = some x ∨ b.continueTo = some x) ∨ Leaves s x := by
  simp [Leaves, Scope.child, Scope.chain]

theorem leaves_grown {k : Int} {x : Nat} : Leaves (s.grown k) x ↔ Leaves s x := by
  simp [Leaves, Scope.grown, Scope.chain]

theorem leaves_declared {name : Name} {ty : Ty} {k x : Nat} :
    Leaves (s.declared name ty k) x ↔ Leaves s x := by
  simp [Leaves, Scope.declared, Scope.chain, Block.push]

theorem leaves_of_declares {ty : Ty} {ds : List Declarator} {x : Nat}
    (h : Declares env ty s n ds s' code m) : Leaves s' x ↔ Leaves s x := by
  induction h with
  | nil => exact Iff.rfl
  | plain _ _ _ _ ih => exact ih.trans leaves_declared
  | initialized _ _ _ _ _ _ ih => exact ih.trans leaves_declared

theorem leaves_of_lays {st : Stmt} {flow : Flow} {x : Nat}
    (h : Lays env frame s n (.stmt st) s' flow code m) : Leaves s' x ↔ Leaves s x := by
  cases h with
  | declare hd => exact leaves_of_declares hd
  | _ => exact Iff.rfl

theorem unwind_target {target : Block → Option Handle} {chain : List Block} {passed size : Int}
    {x : Handle} (h : Scope.unwind env target chain passed = .ok (some (x, size))) :
    ∃ b ∈ chain, target b = some x := by
  induction chain generalizing passed with
  | nil => simp [Scope.unwind] at h
  | cons b outer ih =>
    simp only [Scope.unwind, except_bind_ok] at h
    obtain ⟨k, _, _, _, _, _, h⟩ := h
    cases hb : target b with
    | some y =>
      simp only [hb, except_pure_ok, Option.some.injEq, Prod.mk.injEq] at h
      exact ⟨b, by simp, h.1 ▸ hb⟩
    | none =>
      simp only [hb] at h
      obtain ⟨b', hb', ht⟩ := ih h
      exact ⟨b', List.mem_cons_of_mem _ hb', ht⟩

/-- The labels that a piece gets from outside. -/
def Piece.labels : Piece → List Handle
  | .arms labelled => labelled.map (·.1)
  | .stmt _ | .block _ | .arm _ => []

theorem tidy_returning {height : Int} {k : Nat} :
    Tidy (Between n (n + (returning n height k).length)) (fun _ => False)
      (returning n height k) := by
  unfold returning
  split
  · refine ((tidy_op (by simp) rfl).append (tidy_op (by simp) rfl) ?_).mono ?_ (by simp)
    all_goals grind [Between]
  · refine tidy_nil.mono ?_ (by simp)
    grind [Between]

/-- The code of a statement holds each of its handles once, and jumps only inside itself, to an
enclosing statement, or to the end of the function. -/
theorem lays_tidy {piece : Piece} {flow : Flow} (h : Lays env frame s n piece s' flow code m)
    (hnodup : piece.labels.Nodup) (hlabels : ∀ l ∈ piece.labels, l < n) :
    n ≤ m ∧ Tidy (fun x => x ∈ piece.labels ∨ Between n m x)
      (fun x => x ∈ piece.labels ∨ Between n m x ∨ x = frame.retn ∨ Leaves s x) code := by
  induction h with
  | expr hd =>
    obtain ⟨hle, htidy⟩ := discards_tidy hd
    exact ⟨hle, htidy.mono (by simp [Piece.labels]) (by grind)⟩
  | declare hd =>
    obtain ⟨hle, htidy⟩ := declares_tidy hd
    exact ⟨hle, htidy.mono (by simp [Piece.labels]) (by grind)⟩
  | block _ ih =>
    obtain ⟨hle, htidy⟩ := ih .nil (by simp [Piece.labels])
    exact ⟨hle, htidy.mono (by simp [Piece.labels]) (by simp [Piece.labels, leaves_child])⟩
  | ifThen he _ ih =>
    obtain ⟨hle, htest⟩ := emits_tidy he
    obtain ⟨hle', hcode⟩ := ih .nil (by simp [Piece.labels])
    refine ⟨by omega, (htest.append (tidy_jump.append (hcode.append (tidy_op (by simp) rfl)
      ?_) ?_) ?_).mono ?_ ?_⟩
    all_goals grind [Between, Piece.labels, leaves_child]
  | ifElse he _ _ ih₁ ih₂ =>
    obtain ⟨hle, htest⟩ := emits_tidy he
    obtain ⟨hle₁, hcode₁⟩ := ih₁ .nil (by simp [Piece.labels])
    obtain ⟨hle₂, hcode₂⟩ := ih₂ .nil (by simp [Piece.labels])
    refine ⟨by omega, (htest.append (tidy_jump.append (hcode₁.append (tidy_jump.append
      ((tidy_op (by simp) rfl).append (hcode₂.append (tidy_op (by simp) rfl) ?_) ?_) ?_) ?_) ?_)
      ?_).mono ?_ ?_⟩
    all_goals grind [Between, Piece.labels, leaves_child]
  | whileLoop he _ ih =>
    obtain ⟨hle, htest⟩ := emits_tidy he
    obtain ⟨hle', hcode⟩ := ih .nil (by simp [Piece.labels])
    refine ⟨by omega, ((tidy_op (by simp) rfl).append (htest.append (tidy_jump.append
      (hcode.append (tidy_jump.append (tidy_op (by simp) rfl) ?_) ?_) ?_) ?_) ?_).mono ?_ ?_⟩
    all_goals grind [Between, Piece.labels, leaves_child]
  | doWhile _ he ih =>
    obtain ⟨hle, htest⟩ := emits_tidy he
    obtain ⟨hle', hcode⟩ := ih .nil (by simp [Piece.labels])
    refine ⟨by omega, ((tidy_op (by simp) rfl).append (hcode.append ((tidy_op (by simp) rfl).append
      (htest.append (tidy_jump.append (tidy_op (by simp) rfl) ?_) ?_) ?_) ?_) ?_).mono ?_ ?_⟩
    all_goals grind [Between, Piece.labels, leaves_child]
  | forLoop hfirst hguard _ hlast ih =>
    obtain ⟨hle₁, hfirst⟩ := discards_tidy hfirst
    obtain ⟨hle₂, htest⟩ := guards_tidy hguard
    obtain ⟨hle₃, hcode⟩ := ih .nil (by simp [Piece.labels])
    obtain ⟨hle₄, hlast⟩ := discards_tidy hlast
    refine ⟨by omega, (hfirst.append ((tidy_op (by simp) rfl).append ((htest.append hcode ?_).append
      ((tidy_op (by simp) rfl).append (hlast.append (tidy_jump.append (tidy_op (by simp) rfl) ?_)
      ?_) ?_) ?_) ?_) ?_).mono ?_ ?_⟩
    all_goals grind [Between, Piece.labels, leaves_child]
  | breakOut ht =>
    obtain ⟨b, hb, hx⟩ := unwind_target ht
    refine ⟨by omega, ((tidy_op (by simp) rfl).append tidy_jump ?_).mono ?_ ?_⟩
    all_goals grind [Between, Piece.labels, Leaves]
  | continueLoop ht =>
    obtain ⟨b, hb, hx⟩ := unwind_target ht
    refine ⟨by omega, ((tidy_op (by simp) rfl).append tidy_jump ?_).mono ?_ ?_⟩
    all_goals grind [Between, Piece.labels, Leaves]
  | exit =>
    refine ⟨by omega, ((tidy_op (by simp) rfl).append tidy_jump ?_).mono ?_ ?_⟩
    all_goals grind [Between, Piece.labels]
  | exitWith _ he _ hn =>
    obtain ⟨hle, hvalue⟩ := emits_tidy he
    subst hn
    refine ⟨by omega, ((hvalue.append tidy_returning ?_).append ((tidy_op (by simp) rfl).append
      tidy_jump ?_) ?_).mono ?_ ?_⟩
    all_goals grind [Between, Piece.labels]
  | blockEnd =>
    refine ⟨by omega, (tidy_op (by simp) rfl).mono ?_ (by simp)⟩
    grind [Between, Piece.labels]
  | blockNext h _ ih₁ ih₂ =>
    obtain ⟨hle₁, hcode₁⟩ := ih₁ .nil (by simp [Piece.labels])
    obtain ⟨hle₂, hcode₂⟩ := ih₂ .nil (by simp [Piece.labels])
    have hleaves := fun x => @leaves_of_lays _ _ _ _ _ _ _ _ _ x h
    refine ⟨by omega, (hcode₁.append hcode₂ ?_).mono ?_ ?_⟩
    all_goals grind [Between, Piece.labels]
  | blockReturned _ ih | armReturned _ ih => exact ih .nil (by simp [Piece.labels])
  | noArms | armEnd =>
    refine ⟨Nat.le_refl _, tidy_nil.mono ?_ (by simp)⟩
    grind [Between, Piece.labels]
  | armNext h _ ih₁ ih₂ =>
    obtain ⟨hle₁, hcode₁⟩ := ih₁ .nil (by simp [Piece.labels])
    obtain ⟨hle₂, hcode₂⟩ := ih₂ .nil (by simp [Piece.labels])
    refine ⟨by omega, (hcode₁.append hcode₂ ?_).mono ?_ ?_⟩
    all_goals grind [Between, Piece.labels]
  | arms _ _ ih₁ ih₂ =>
    simp only [Piece.labels, List.map_cons, List.nodup_cons, List.forall_mem_cons] at hnodup hlabels
    obtain ⟨hle₁, hcode₁⟩ := ih₁ .nil (by simp [Piece.labels])
    obtain ⟨hle₂, hcode₂⟩ := ih₂ hnodup.2 fun l hl => Nat.lt_of_lt_of_le (hlabels.2 l hl) hle₁
    refine ⟨by omega, ((tidy_op (by simp) rfl).append (hcode₁.append hcode₂ ?_) ?_).mono ?_ ?_⟩
    all_goals grind [Between, Piece.labels]
  | @switch s s' n n₁ n₂ m e ty c cases default value tests code he _ htests _ ih =>
    obtain ⟨hle₁, hvalue⟩ := emits_tidy he
    obtain ⟨hle₂, htests'⟩ := tests_tidy htests
    have harms : (Piece.arms ((List.range' (n₁ + 1) cases.length).zip (cases.map (·.2)))).labels =
        List.range' (n₁ + 1) cases.length := List.map_fst_zip (by simp)
    have hrange (x : Nat) : x ∈ List.range' (n₁ + 1) cases.length ↔
        Between (n₁ + 1) (n₁ + 1 + cases.length) x := by
      simp [Between]
    simp only [harms, hrange] at ih
    obtain ⟨hle₃, hcode⟩ := ih (List.nodup_range' 1) fun l hl => by
      grind [Between]
    have hlabelled (x : Nat) (hx : x ∈ (labelled cases (List.range' (n₁ + 1) cases.length)).map
        (·.2)) : Between (n₁ + 1) (n₁ + 1 + cases.length) x := (hrange x).mp (labelled_handles hx)
    have hdefault : Between n₁ (n₁ + 1 + cases.length) (default.getD n₁) := by
      cases hd : default with
      | none => grind [Between]
      | some x =>
        have := default_of_tests htests hd
        grind [Between]
    refine ⟨by omega, ((hvalue.append htests' ?_).append (tidy_jump.append (hcode.append
      ((tidy_op (by simp) rfl).append (tidy_op (by simp) rfl) ?_) ?_) ?_) ?_).mono ?_ ?_⟩
    all_goals grind [Between, Piece.labels, leaves_child, leaves_grown]

/-! ## Bodies -/

theorem leaves_of_binds {params : List Param} {x : Nat} (h : Binds env s params s') :
    Leaves s' x ↔ Leaves s x := by
  induction h with
  | nil => exact Iff.rfl
  | cons _ _ ih => exact ih.trans leaves_declared

theorem not_leaves_empty {x : Nat} : ¬ Leaves {} x := by
  simp [Leaves, Scope.chain]

/-- The body of a function with its return instruction jumps nowhere else. -/
theorem body_tidy {params : List Param} {stmts : List Stmt} {flow : Flow}
    (hb : Binds env {} params s) (hr : frame.retn = n)
    (h : Lays env frame s (n + 1) (.block stmts) s' flow code m) :
    n ≤ m ∧ Tidy (Between n m) (Between n m) (code ++ [⟨n, .retn, none⟩]) := by
  obtain ⟨hle, hcode⟩ := lays_tidy h .nil (by simp [Piece.labels])
  have hno : ∀ x, ¬ Leaves s x := fun x hx => not_leaves_empty ((leaves_of_binds hb).mp hx)
  refine ⟨by omega, (hcode.append (tidy_op (by simp) rfl) ?_).mono ?_ ?_⟩
  all_goals grind [Between, Piece.labels]

end Statements

end Codegen

end NwScript
