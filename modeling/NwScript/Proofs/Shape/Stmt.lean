-- The code of statements is in order. Wherever control leaves blocks, just what they have on the
-- stack is popped, so that it arrives with the shape that is expected there.
import NwScript.Proofs.Shape.Parts
import NwScript.Proofs.Codegen.Handles

namespace NwScript

open Codegen

/-! ## Ways out -/

/-- Where control may go from a scope, and the shape that is left then: to the nearest target, with
everything popped down to the bottom of its block, or to the return instruction, with the whole
frame popped. -/
def Exits (whole : Env) (retn : Handle) (s : Scope) (below : Shape) (temps : List Shape)
    (target : Handle) (shape : Shape) : Prop :=
  (∃ vss tss, (leftAt (·.breakTo) s.chain (s.chain.map Block.types) temps =
      some (target, vss, tss) ∨
      leftAt (·.continueTo) s.chain (s.chain.map Block.types) temps = some (target, vss, tss)) ∧
    shape = below ++ Store.frame whole.kinds vss tss) ∨
  (target = retn ∧ shape = below)

section Exits

variable {whole : Env} {retn t : Handle} {s s' : Scope} {b : Block} {below ts x : Shape}
  {temps : List Shape}

/-- Out of a block inside, control goes to one of its targets or to where it goes from around it. -/
theorem exits_child (h : Exits whole retn (s.child b) below (ts :: temps) t x) :
    ((b.breakTo = some t ∨ b.continueTo = some t) ∧ x = s.outline whole below temps) ∨
      Exits whole retn s below temps t x := by
  have hleft (target : Block → Option Handle) {vss : List (Named Ty)} {tss : List Shape}
      (hl : leftAt target (s.child b).chain ((s.child b).chain.map Block.types) (ts :: temps) =
        some (t, vss, tss)) :
      (target b = some t ∧ vss = s.chain.map Block.types ∧ tss = temps) ∨
        leftAt target s.chain (s.chain.map Block.types) temps = some (t, vss, tss) := by
    simp only [Scope.child, Scope.chain, List.map_cons, leftAt] at hl
    cases hb : target b with
    | none =>
      rw [hb] at hl
      exact .inr hl
    | some u =>
      simp only [hb, Option.some.injEq, Prod.mk.injEq] at hl
      obtain ⟨rfl, rfl, rfl⟩ := hl
      exact .inl ⟨rfl, rfl, rfl⟩
  rcases h with ⟨vss, tss, h | h, rfl⟩ | h
  · rcases hleft _ h with ⟨hb, rfl, rfl⟩ | h
    · exact .inl ⟨.inl hb, rfl⟩
    · exact .inr (.inl ⟨vss, tss, .inl h, rfl⟩)
  · rcases hleft _ h with ⟨hb, rfl, rfl⟩ | h
    · exact .inl ⟨.inr hb, rfl⟩
    · exact .inr (.inl ⟨vss, tss, .inr h, rfl⟩)
  · exact .inr (.inr h)

/-- Neither new variables nor other temporaries of the block matter. -/
theorem exits_within {us : Shape} (he : s.Extends s')
    (h : Exits whole retn s' below (us :: temps) t x) :
    Exits whole retn s below (ts :: temps) t x := by
  have hleft (target : Block → Option Handle) (ht : target s'.block = target s.block) :
      leftAt target s'.chain (s'.chain.map Block.types) (us :: temps) =
        leftAt target s.chain (s.chain.map Block.types) (ts :: temps) := by
    simp [Scope.chain, leftAt, ht, he.outer]
  rcases h with ⟨vss, tss, h, rfl⟩ | h
  · rw [hleft (·.breakTo) he.breakTo, hleft (·.continueTo) he.continueTo] at h
    exact .inl ⟨vss, tss, h, rfl⟩
  · exact .inr h

end Exits

/-! ## Blocks -/

section Blocks

variable {env whole : Env} {s : Scope} {b : Block} {below : Shape} {temps : List Shape}

theorem Outlined.enter (h : Outlined env whole s below temps) (hv : b.values = [])
    (ht : b.temps = 0) : Outlined env whole (s.child b) below ([] :: temps) ∧
      (s.child b).outline whole below ([] :: temps) = s.outline whole below temps := by
  have htypes : b.types = [] := by simp [Block.types, hv]
  refine ⟨⟨.cons ?_ (by simpa [Scope.child] using ht) h.blocks, h.reach⟩, ?_⟩
  · rw [show (s.child b).block = b from rfl, hv, htypes]
    exact .nil
  · simp [Scope.outline, Scope.child, Scope.chain, Store.frame, htypes, Named.cells]

end Blocks

/-! ## Statements -/

namespace Codegen.Piece

/-- The shape behind the code of a piece. A block is gone then. -/
def leaves (whole : Env) (s : Scope) (below : Shape) (tss : List Shape) : Piece → Shape
  | .block _ => below ++ Store.frame whole.kinds (s.outer.map Block.types) tss
  | _ => s.outline whole below ([] :: tss)

/-- The labels of arms, all of which are found with one shape. -/
def found (shape : Shape) : Piece → List (Handle × Shape)
  | .arms bodies => bodies.map fun body => (body.1, shape)
  | _ => []

end Codegen.Piece

/-- Wherever the ways out of the scope are expected, the code of the piece is in order. Behind a
return it may go on with any shape. -/
def Orderly (env whole : Env) (frame : Frame) (below : Shape) (s : Scope) (piece : Piece)
    (s' : Scope) (flow : Flow) (code : List Instruction) : Prop :=
  ∀ tss, Outlined env whole s below ([] :: tss) → Outlined env whole s' below ([] :: tss) ∧
    ∀ aims out, (∀ t x, Exits whole frame.retn s below ([] :: tss) t x → aims t x) →
      (flow = .next → out = piece.leaves whole s' below tss) →
      InOrder whole aims (piece.found (s.outline whole below ([] :: tss)))
        (s.outline whole below ([] :: tss)) code out

section Statements

variable {env whole : Env} {frame : Frame} {below : Shape} {s s' : Scope} {b : Block} {flow : Flow}
  {code : List Instruction} {temps tss : List Shape} {aims : Handle → Shape → Prop}

/-- The code of a block inside the scope leaves the stack as it was. -/
theorem Orderly.child {body : List Stmt} {out : Shape}
    (h : Orderly env whole frame below (s.child b) (.block body) s' flow code)
    (he : (s.child b).Extends s') (hv : b.values = []) (ht : b.temps = 0)
    (ho : Outlined env whole s below temps)
    (haims : ∀ t x, Exits whole frame.retn s below temps t x → aims t x)
    (htargets : ∀ t, b.breakTo = some t ∨ b.continueTo = some t →
      aims t (s.outline whole below temps))
    (hout : flow = .next → out = s.outline whole below temps) :
    InOrder whole aims [] (s.outline whole below temps) code out := by
  obtain ⟨ho', houtline⟩ := ho.enter hv ht
  have hall := (h temps ho').2 aims out ?_ ?_
  · rw [houtline] at hall
    exact hall
  · intro t x hx
    rcases exits_child hx with ⟨hb, rfl⟩ | hx
    · exact htargets t hb
    · exact haims t x hx
  · intro hflow
    rw [hout hflow, Piece.leaves, he.outer]
    rfl

/-- Jumps to labels that are found in the code itself. -/
theorem InOrder.inside {a c : Shape} {labels labels' : List (Handle × Shape)}
    (h : InOrder whole (fun t y => aims t y ∨ (t, y) ∈ labels') labels a code c)
    (hl : ∀ y ∈ labels', y ∈ labels) : InOrder whole aims [] a code c :=
  h.close (fun _ _ hx => hx.imp_right (hl _)) (by simp)

/-- Wherever the ways out of the scope are expected, the code leaves the stack as it was. -/
def Keeps (env whole : Env) (frame : Frame) (below : Shape) (s : Scope) (code : List Instruction) :
    Prop :=
  ∀ temps aims, Outlined env whole s below temps →
    (∀ t x, Exits whole frame.retn s below temps t x → aims t x) →
    InOrder whole aims [] (s.outline whole below temps) code (s.outline whole below temps)

theorem Keeps.orderly {st : Stmt} (h : Keeps env whole frame below s code) :
    Orderly env whole frame below s (.stmt st) s .next code := by
  intro tss ho
  refine ⟨ho, fun aims out haims hout => ?_⟩
  rw [hout rfl]
  exact h _ aims ho haims

theorem ifThen_keeps {n n₁ m : Handle} {e : Expr} {onTrue : List Stmt} {test : List Instruction}
    (hp : env.PartOf whole) (he : Emits env s n (.value e) [.int] test n₁)
    (hb : Lays env frame (s.child {}) (n₁ + 2) (.block onTrue) s' flow code m)
    (ih : Orderly env whole frame below (s.child {}) (.block onTrue) s' flow code) :
    Keeps env whole frame below s
      (test ++ ⟨n₁ + 1, .jump .jz, some n₁⟩ :: (code ++ [⟨n₁, .nop, none⟩])) := by
  intro temps aims ho haims
  let base := s.outline whole below temps
  let found := [(n₁, base)]
  let aims' := fun t y => aims t y ∨ (t, y) ∈ found
  have htest : InOrder whole aims' [] base test (base ++ [.int]) := value_inOrder hp he ho
  have hexit : InOrder whole aims' [] (base ++ [.int]) [⟨n₁ + 1, .jump .jz, some n₁⟩] base :=
    inOrder_jz (.inr (by simp [found]))
  have hbody : InOrder whole aims' [] base code base :=
    ih.child (.of_lays hb) rfl rfl ho (fun t x hx => .inl (haims t x hx)) (by simp) fun _ => rfl
  exact (htest.append (hexit.append (hbody.append inOrder_label))).inside (by simp [found])

theorem ifElse_keeps {s₁ s₂ : Scope} {n n₁ n₂ m : Handle} {e : Expr} {onTrue onFalse : List Stmt}
    {flow₁ flow₂ : Flow} {test code₁ code₂ : List Instruction}
    (hp : env.PartOf whole) (he : Emits env s n (.value e) [.int] test n₁)
    (hTrue : Lays env frame (s.child {}) (n₁ + 2) (.block onTrue) s₁ flow₁ code₁ n₂)
    (hFalse : Lays env frame (s.child {}) (n₂ + 2) (.block onFalse) s₂ flow₂ code₂ m)
    (ih₁ : Orderly env whole frame below (s.child {}) (.block onTrue) s₁ flow₁ code₁)
    (ih₂ : Orderly env whole frame below (s.child {}) (.block onFalse) s₂ flow₂ code₂) :
    Keeps env whole frame below s
      (test ++ ⟨n₁ + 1, .jump .jz, some n₁⟩ :: (code₁ ++
        ⟨n₂ + 1, .jump .jmp, some n₂⟩ :: ⟨n₁, .nop, none⟩ :: (code₂ ++ [⟨n₂, .nop, none⟩]))) := by
  intro temps aims ho haims
  let base := s.outline whole below temps
  let found := [(n₁, base), (n₂, base)]
  let aims' := fun t y => aims t y ∨ (t, y) ∈ found
  have haims' : ∀ t x, Exits whole frame.retn s below temps t x → aims' t x :=
    fun t x hx => .inl (haims t x hx)
  have htest : InOrder whole aims' [] base test (base ++ [.int]) := value_inOrder hp he ho
  have hexit : InOrder whole aims' [] (base ++ [.int]) [⟨n₁ + 1, .jump .jz, some n₁⟩] base :=
    inOrder_jz (.inr (by simp [found]))
  have hyes : InOrder whole aims' [] base code₁ base :=
    ih₁.child (.of_lays hTrue) rfl rfl ho haims' (by simp) fun _ => rfl
  have hskip : InOrder whole aims' [] base [⟨n₂ + 1, .jump .jmp, some n₂⟩] base :=
    inOrder_jump (.inr (by simp [found]))
  have hno : InOrder whole aims' [] base code₂ base :=
    ih₂.child (.of_lays hFalse) rfl rfl ho haims' (by simp) fun _ => rfl
  exact (htest.append (hexit.append (hyes.append (hskip.append (inOrder_label.append
    (hno.append inOrder_label)))))).inside (by simp [found])

theorem while_keeps {n n₁ m : Handle} {e : Expr} {body : List Stmt} {test : List Instruction}
    (hp : env.PartOf whole) (he : Emits env s (n + 1) (.value e) [.int] test n₁)
    (hb : Lays env frame (s.child { breakTo := some n₁, continueTo := some n }) (n₁ + 2)
      (.block body) s' flow code m)
    (ih : Orderly env whole frame below (s.child { breakTo := some n₁, continueTo := some n })
      (.block body) s' flow code) :
    Keeps env whole frame below s (⟨n, .nop, none⟩ :: (test ++ ⟨n₁ + 1, .jump .jz, some n₁⟩ ::
      (code ++ [⟨m, .jump .jmp, some n⟩, ⟨n₁, .nop, none⟩]))) := by
  intro temps aims ho haims
  let base := s.outline whole below temps
  let found := [(n, base), (n₁, base)]
  let aims' := fun t y => aims t y ∨ (t, y) ∈ found
  have htest : InOrder whole aims' [] base test (base ++ [.int]) := value_inOrder hp he ho
  have hexit : InOrder whole aims' [] (base ++ [.int]) [⟨n₁ + 1, .jump .jz, some n₁⟩] base :=
    inOrder_jz (.inr (by simp [found]))
  have hbody : InOrder whole aims' [] base code base := by
    refine ih.child (.of_lays hb) rfl rfl ho (fun t x hx => .inl (haims t x hx)) ?_ fun _ => rfl
    rintro t (⟨⟨⟩⟩ | ⟨⟨⟩⟩) <;> exact .inr (by simp [found, base])
  have hback : InOrder whole aims' [] base [⟨m, .jump .jmp, some n⟩] base :=
    inOrder_jump (.inr (by simp [found]))
  exact (inOrder_label.append (htest.append (hexit.append (hbody.append (hback.append
    inOrder_label))))).inside (by simp [found])

theorem doWhile_keeps {n n₁ m : Handle} {e : Expr} {body : List Stmt} {test : List Instruction}
    (hp : env.PartOf whole)
    (hb : Lays env frame (s.child { breakTo := some (n + 1), continueTo := some (n + 2) }) (n + 3)
      (.block body) s' flow code n₁)
    (he : Emits env s n₁ (.value e) [.int] test m)
    (ih : Orderly env whole frame below
      (s.child { breakTo := some (n + 1), continueTo := some (n + 2) })
      (.block body) s' flow code) :
    Keeps env whole frame below s (⟨n, .nop, none⟩ :: (code ++ ⟨n + 2, .nop, none⟩ :: (test ++
      [⟨m, .jump .jnz, some n⟩, ⟨n + 1, .nop, none⟩]))) := by
  intro temps aims ho haims
  let base := s.outline whole below temps
  let found : List (Handle × Shape) := [(n, base), (n + 2, base), (n + 1, base)]
  let aims' := fun t y => aims t y ∨ (t, y) ∈ found
  have hbody : InOrder whole aims' [] base code base := by
    refine ih.child (.of_lays hb) rfl rfl ho (fun t x hx => .inl (haims t x hx)) ?_ fun _ => rfl
    rintro t (⟨⟨⟩⟩ | ⟨⟨⟩⟩) <;> exact .inr (by simp [found, base])
  have htest : InOrder whole aims' [] base test (base ++ [.int]) := value_inOrder hp he ho
  have hback : InOrder whole aims' [] (base ++ [.int]) [⟨m, .jump .jnz, some n⟩] base :=
    inOrder_jnz (.inr (by simp [found]))
  exact (inOrder_label.append (hbody.append (inOrder_label.append (htest.append (hback.append
    inOrder_label))))).inside (by simp [found])

theorem for_keeps {n n₁ n₂ n₃ m : Handle} {init e step : Option Expr} {body : List Stmt}
    {first test last : List Instruction} (hp : env.PartOf whole)
    (hinit : Discards env s n init first n₁) (he : Guards env s (n₁ + 1) (n₁ + 3) e test n₂)
    (hb : Lays env frame (s.child { breakTo := some (n₁ + 1), continueTo := some (n₁ + 2) }) n₂
      (.block body) s' flow code n₃)
    (hstep : Discards env s n₃ step last m)
    (ih : Orderly env whole frame below
      (s.child { breakTo := some (n₁ + 1), continueTo := some (n₁ + 2) })
      (.block body) s' flow code) :
    Keeps env whole frame below s (first ++ ⟨n₁, .nop, none⟩ :: (test ++ code ++
      ⟨n₁ + 2, .nop, none⟩ :: (last ++ [⟨m, .jump .jmp, some n₁⟩, ⟨n₁ + 1, .nop, none⟩]))) := by
  intro temps aims ho haims
  let base := s.outline whole below temps
  let found : List (Handle × Shape) := [(n₁, base), (n₁ + 2, base), (n₁ + 1, base)]
  let aims' := fun t y => aims t y ∨ (t, y) ∈ found
  have hfirst : InOrder whole aims' [] base first base := discards_inOrder hp hinit ho
  have htest : InOrder whole aims' [] base test base :=
    guards_inOrder hp he ho (.inr (by simp [found, base]))
  have hbody : InOrder whole aims' [] base code base := by
    refine ih.child (.of_lays hb) rfl rfl ho (fun t x hx => .inl (haims t x hx)) ?_ fun _ => rfl
    rintro t (⟨⟨⟩⟩ | ⟨⟨⟩⟩) <;> exact .inr (by simp [found, base])
  have hlast : InOrder whole aims' [] base last base := discards_inOrder hp hstep ho
  have hback : InOrder whole aims' [] base [⟨m, .jump .jmp, some n₁⟩] base :=
    inOrder_jump (.inr (by simp [found]))
  exact (hfirst.append (inOrder_label.append ((htest.append hbody).append (inOrder_label.append
    (hlast.append (hback.append inOrder_label)))))).inside (by simp [found])

/-- All arms of a switch and what follows it find the value that is switched on. -/
theorem switch_keeps {n n₁ n₂ m : Handle} {e : Expr} {ty : Ty} {c : BinaryCode}
    {cases : List (List SwitchLabel × List Stmt)} {default : Option Handle}
    {value tests : List Instruction} (hp : env.PartOf whole)
    (he : Emits env s n (.value e) [ty] value n₁) (hc : switchOn? ty = some c)
    (ht : Tests env (s.grown 1) ty c (n₁ + 1 + cases.length)
      (labelled cases (List.range' (n₁ + 1) cases.length)) none default tests n₂)
    (hb : Lays env frame ((s.grown 1).child { breakTo := some n₁ }) (n₂ + 1)
      (.arms ((List.range' (n₁ + 1) cases.length).zip (cases.map (·.2)))) s' .next code m)
    (ih : Orderly env whole frame below ((s.grown 1).child { breakTo := some n₁ })
      (.arms ((List.range' (n₁ + 1) cases.length).zip (cases.map (·.2)))) s' .next code) :
    Keeps env whole frame below s (value ++ tests ++ ⟨n₂, .jump .jmp, some (default.getD n₁)⟩ ::
      (code ++ [⟨n₁, .nop, none⟩, ⟨m, .moveSp (-1), none⟩])) := by
  intro temps aims ho haims
  have hone : (1 : Int) = (whole.kinds ty).length := by
    have := (@after_compare whole n₁ ty [] c hc).1
    omega
  let base := s.outline whole below temps
  let full := base ++ whole.kinds ty
  let arms := (List.range' (n₁ + 1) cases.length).map fun arm => (arm, full)
  let found : List (Handle × Shape) := arms ++ [(n₁, full)]
  let aims' := fun t y => aims t y ∨ (t, y) ∈ found
  have harm (t : Handle) (h : t ∈ (labelled cases (List.range' (n₁ + 1) cases.length)).map (·.2)) :
      aims' t full :=
    .inr (List.mem_append_left _ (List.mem_map_of_mem (labelled_handles h)))
  have hend : aims' n₁ full := .inr (List.mem_append_right _ List.mem_cons_self)
  have hgrown := ho.push hone
  have hfull : (s.grown 1).outline whole below (pushTemps (whole.kinds ty) temps) = full :=
    ho.outline_push
  have hvalue : InOrder whole aims' [] base value full := value_inOrder hp he ho
  have htests : InOrder whole aims' [] full tests full := by
    rw [← hfull] at harm ⊢
    exact tests_inOrder hp hc ht hgrown hfull fun l hl => harm _ (List.mem_map_of_mem hl)
  have hjump : InOrder whole aims' [] full [⟨n₂, .jump .jmp, some (default.getD n₁)⟩] full := by
    refine inOrder_jump ?_
    cases hd : default with
    | none => exact hend
    | some arm =>
      rcases default_of_tests ht hd with h | h
      · cases h
      · exact harm arm h
  have hbody : InOrder whole aims' arms full code full := by
    obtain ⟨hchild, houtline⟩ := @Outlined.enter _ _ _ { breakTo := some n₁ } _ _ hgrown rfl rfl
    have hlabels : ((List.range' (n₁ + 1) cases.length).zip (cases.map (·.2))).map
        (fun body => (body.1, full)) = arms := by
      have hfst := @List.map_fst_zip _ _ (List.range' (n₁ + 1) cases.length)
        (cases.map (·.2)) (by simp)
      have hmap := congrArg (List.map fun arm => (arm, full)) hfst
      rwa [List.map_map] at hmap
    have hall := (ih _ hchild).2 aims' full ?_ ?_
    · rw [houtline, hfull] at hall
      rw [← hlabels]
      exact hall
    · intro t x hx
      rcases exits_child hx with ⟨hb, rfl⟩ | hx
      · simp only [Option.some.injEq, reduceCtorEq, or_false] at hb
        rw [← hb, hfull]
        exact hend
      · obtain ⟨_, _, ts, tss, _, rfl, _⟩ := ho.blocks.inv
        have hgrow : s.Extends (s.grown 1) := ⟨rfl, rfl, rfl⟩
        exact .inl (haims t x (exits_within hgrow hx))
    · rw [scope_of_arms hb]
      exact fun _ => (houtline.trans hfull).symm
  have hpop : InOrder whole aims' [] full [⟨m, .moveSp (-1), none⟩] base :=
    inOrder_plain rfl (after_pop hone)
  exact ((hvalue.append htests).append (hjump.append (hbody.append (inOrder_label.append
    hpop)))).inside (by simp [found])

/-! ### Leaving blocks -/

theorem leave_keeps {n target : Handle} {size : Int} {way : Block → Option Handle}
    (hp : env.PartOf whole) (hway : way = (·.breakTo) ∨ way = (·.continueTo))
    (hu : Scope.unwind env way s.chain 0 = .ok (some (target, size))) :
    Keeps env whole frame below s
      [⟨n, .moveSp (-size), none⟩, ⟨n + 1, .jump .jmp, some target⟩] := by
  intro temps aims ho haims
  obtain ⟨vss, tss, top, hleft, hframe, hsize⟩ :=
    unwind_frame (fun _ _ hx => hp.knows_size hx) ho.blocks hu
  have houtline : s.outline whole below temps =
      below ++ Store.frame whole.kinds vss tss ++ top := by
    rw [Scope.outline, hframe, List.append_assoc]
  have hexit : Exits whole frame.retn s below temps target
      (below ++ Store.frame whole.kinds vss tss) := by
    refine .inl ⟨vss, tss, ?_, rfl⟩
    rcases hway with rfl | rfl
    · exact .inl hleft
    · exact .inr hleft
  rw [houtline]
  exact (inOrder_plain rfl (after_pop (by simpa using hsize))).append
    (inOrder_jump (haims _ _ hexit))

/-- A returned value goes to the slots below the frame. -/
theorem returning_inOrder {own : Shape} {n : Handle} {height : Int} {k : Nat}
    (hk : k = below.length) (hheight : height = own.length) :
    InOrder whole aims [] (below ++ own ++ below) (returning n height k) (below ++ own) := by
  subst hk hheight
  by_cases hpos : 0 < below.length
  · have hstore : Instruction.after? whole ⟨n, .copyDown .sp (-(own.length + 2 * below.length))
        below.length, none⟩ (below ++ own ++ below) = some (below ++ own ++ below) := by
      have harea : whole.area? (below ++ own ++ below) .sp (-(own.length + 2 * below.length))
          below.length = some below := by
        refine slice?_append (show _ = [] ++ below ++ (own ++ below) by simp) ?_ rfl
        simp only [List.length_append, List.length_nil]
        omega
      simp only [Instruction.after?, splitTop?_append, harea, Option.bind_eq_bind, Option.bind_some,
        if_true]
    rw [returning, if_pos hpos]
    exact (inOrder_plain rfl hstore).append (inOrder_plain rfl (after_pop rfl))
  · rw [returning, if_neg hpos, List.eq_nil_of_length_eq_zero (Nat.eq_zero_of_not_pos hpos)]
    simpa using inOrder_nil

/-- The frame is popped before the return instruction. -/
theorem leaving_inOrder {n : Handle} {height : Int} {out : Shape} (hp : env.PartOf whole)
    (hheight : s.fullSize env = .ok height) (ho : Outlined env whole s below temps)
    (haims : ∀ t x, Exits whole frame.retn s below temps t x → aims t x) :
    InOrder whole aims [] (s.outline whole below temps)
      [⟨n, .moveSp (-height), none⟩, ⟨n + 1, .jump .jmp, some frame.retn⟩] out :=
  (inOrder_plain rfl (after_pop (ho.height hp hheight))).append
    (inOrder_jump (haims _ _ (.inr ⟨rfl, rfl⟩)))

theorem exitWith_orderly {n n₁ n₂ : Handle} {e : Expr} {k : Nat} {height : Int}
    {value : List Instruction} (hp : env.PartOf whole) (hret : whole.kinds frame.returnType = below)
    (hheight : s.fullSize env = .ok height) (he : Emits env s n (.value e)
      [frame.returnType] value n₁)
    (hk : env.sizeOf frame.returnType = .ok k) :
    Orderly env whole frame below s (.stmt (.ret (some e))) s .returned
      (value ++ returning n₁ height k ++ [⟨n₂, .moveSp (-height), none⟩,
        ⟨n₂ + 1, .jump .jmp, some frame.retn⟩]) := by
  intro tss ho
  refine ⟨ho, fun aims out haims _ => ?_⟩
  have hvalue := @value_inOrder _ _ aims _ _ _ _ _ _ _ _ hp he ho
  rw [hret] at hvalue
  have hmove := @returning_inOrder whole _ aims _ n₁ _ _ ((hp.sized hk).2.trans (by rw [hret]))
    (ho.height hp hheight)
  exact (hvalue.append hmove).append (leaving_inOrder hp hheight ho haims)

theorem blockEnd_orderly {n : Handle} {k : Nat} (hp : env.PartOf whole)
    (hk : s.block.size env = .ok k) :
    Orderly env whole frame below s (.block []) s .next [⟨n, .moveSp (-k), none⟩] := by
  intro tss ho
  refine ⟨ho, fun aims out _ hout => ?_⟩
  obtain ⟨vs, _, ts, _, hvs, hts, ha, _⟩ := ho.blocks.inv
  cases hvs
  cases hts
  have hsize := size_block (fun _ _ hx => hp.knows_size hx) ha hk
  have houtline : s.outline whole below ([] :: tss) =
      below ++ Store.frame whole.kinds (s.outer.map Block.types) tss ++
        s.block.types.cells whole.kinds := by
    simp [Scope.outline, Scope.chain, Store.frame]
  rw [hout rfl, houtline]
  exact inOrder_plain rfl (after_pop (by rw [hsize]))

/-! ### All statements -/

/-- The code of every statement is in order. The slots of the result are what is below the frame. -/
theorem lays_orderly {n m : Handle} {piece : Piece} (hp : env.PartOf whole)
    (hret : whole.kinds frame.returnType = below) (h : Lays env frame s n piece s' flow code m) :
    Orderly env whole frame below s piece s' flow code := by
  induction h with
  | expr hd => exact Keeps.orderly fun _ _ ho _ => discards_inOrder hp hd ho
  | declare hd =>
    intro tss ho
    refine ⟨(@declares_inOrder _ _ (fun _ _ => True) _ _ _ _ _ _ _ _ _ hp hd ho).1,
      fun aims out _ hout => ?_⟩
    rw [hout rfl]
    exact (declares_inOrder hp hd ho).2
  | block hb ih =>
    intro tss ho
    refine ⟨ho, fun aims out haims hout => ?_⟩
    exact ih.child (.of_lays hb) rfl rfl ho haims (by simp) hout
  | ifThen he hb ih => exact (ifThen_keeps hp he hb ih).orderly
  | ifElse he hTrue hFalse ih₁ ih₂ => exact (ifElse_keeps hp he hTrue hFalse ih₁ ih₂).orderly
  | whileLoop he hb ih => exact (while_keeps hp he hb ih).orderly
  | doWhile hb he ih => exact (doWhile_keeps hp hb he ih).orderly
  | forLoop hinit he hb hstep ih => exact (for_keeps hp hinit he hb hstep ih).orderly
  | switch he hc ht hb ih => exact (switch_keeps hp he hc ht hb ih).orderly
  | breakOut hu => exact (leave_keeps hp (.inl rfl) hu).orderly
  | continueLoop hu => exact (leave_keeps hp (.inr rfl) hu).orderly
  | exit _ hheight =>
    intro tss ho
    exact ⟨ho, fun aims out haims _ => leaving_inOrder hp hheight ho haims⟩
  | exitWith hheight he hk => exact exitWith_orderly hp hret hheight he hk
  | blockEnd hk => exact blockEnd_orderly hp hk
  | blockNext h _ ih ih' =>
    intro tss ho
    obtain ⟨ho₁, hfirst⟩ := ih tss ho
    obtain ⟨ho₂, hrest⟩ := ih' tss ho₁
    refine ⟨ho₂, fun aims out haims hout => (hfirst aims _ haims fun _ => rfl).append
      (hrest aims out (fun t x hx => haims t x (exits_within (.of_lays h) hx)) hout)⟩
  | blockReturned _ ih =>
    intro tss ho
    obtain ⟨ho₁, hfirst⟩ := ih tss ho
    exact ⟨ho₁, fun aims out haims _ => hfirst aims out haims nofun⟩
  | noArms =>
    intro tss ho
    refine ⟨ho, fun aims out _ hout => ?_⟩
    rw [hout rfl]
    exact inOrder_nil
  | arms _ _ ih ih' =>
    intro tss ho
    refine ⟨ho, fun aims out haims hout => ?_⟩
    exact inOrder_label.append (((ih tss ho).2 aims _ haims fun _ => rfl).append
      ((ih' tss ho).2 aims out haims hout))
  | armEnd =>
    intro tss ho
    refine ⟨ho, fun aims out _ hout => ?_⟩
    rw [hout rfl]
    exact inOrder_nil
  | armNext _ _ ih ih' =>
    intro tss ho
    exact ⟨ho, fun aims out haims hout => ((ih tss ho).2 aims _ haims fun _ => rfl).append
      ((ih' tss ho).2 aims out haims hout)⟩
  | armReturned _ ih =>
    intro tss ho
    exact ⟨ho, fun aims out haims _ => (ih tss ho).2 aims out haims nofun⟩

end Statements

end NwScript
