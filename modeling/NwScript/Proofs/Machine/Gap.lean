-- Stacks with a gap: the globals at the bottom, a frame on top, and anything between them. What
-- finds all its operands among the globals and in the frame does the same whatever is in the gap.
import Mathlib.Logic.Relation
import NwScript.Proofs.Machine.Run
import NwScript.Proofs.Shape.Along

namespace NwScript

/-! ## Parts of a stack -/

section Stretches

variable {α : Type} {xs ys zs : List α} {position size : Int}

theorem splitTop?_above (h : size ≤ ys.length) :
    splitTop? size (xs ++ ys) = (splitTop? size ys).map fun r => (xs ++ r.1, r.2) := by
  by_cases hfits : 0 ≤ size ∧ size ≤ ys.length
  · have hmore : 0 ≤ size ∧ size ≤ (xs ++ ys).length := by
      rw [List.length_append]
      omega
    have hlen : (xs ++ ys).length - size.toNat = xs.length + (ys.length - size.toNat) := by
      rw [List.length_append]
      omega
    rw [splitTop?, if_pos hmore, splitTop?, if_pos hfits, hlen, List.take_length_add_append,
      List.drop_length_add_append]
    rfl
  · have hneg : ¬0 ≤ size := by omega
    simp [splitTop?, hneg]

theorem slice?_above (h : 0 ≤ position) :
    slice? (xs ++ ys) (xs.length + position) size = slice? ys position size := by
  have hfits : (0 ≤ (xs.length : Int) + position ∧ 0 ≤ size ∧
      xs.length + position + size ≤ (xs ++ ys).length) ↔
      0 ≤ position ∧ 0 ≤ size ∧ position + size ≤ ys.length := by
    rw [List.length_append]
    omega
  have hdrop : ((xs.length : Int) + position).toNat = xs.length + position.toNat := by omega
  simp only [slice?, hfits, hdrop, List.drop_length_add_append]

theorem slice?_below (h : position + size ≤ xs.length) :
    slice? (xs ++ ys) position size = slice? xs position size := by
  by_cases hfits : 0 ≤ position ∧ 0 ≤ size
  · have hmore : position + size ≤ (xs ++ ys).length := by
      rw [List.length_append]
      omega
    rw [slice?, if_pos ⟨hfits.1, hfits.2, hmore⟩, slice?, if_pos ⟨hfits.1, hfits.2, h⟩,
      List.drop_append_of_le_length (by omega), List.take_append_of_le_length]
    rw [List.length_drop]
    omega
  · simp only [slice?]
    rw [if_neg (by omega), if_neg (by omega)]

theorem overwrite?_above (h : 0 ≤ position) :
    overwrite? (xs ++ zs) (xs.length + position) ys =
      (overwrite? zs position ys).map (xs ++ ·) := by
  have hfits : (0 ≤ (xs.length : Int) + position ∧
      xs.length + position + ys.length ≤ (xs ++ zs).length) ↔
      0 ≤ position ∧ position + ys.length ≤ zs.length := by
    rw [List.length_append]
    omega
  have hdrop : ((xs.length : Int) + position).toNat = xs.length + position.toNat := by omega
  simp only [overwrite?, hfits, hdrop, Nat.add_assoc, List.take_length_add_append,
    List.drop_length_add_append, List.append_assoc]
  split <;> simp

theorem overwrite?_below (h : position + ys.length ≤ xs.length) :
    overwrite? (xs ++ zs) position ys = (overwrite? xs position ys).map (· ++ zs) := by
  by_cases hfits : 0 ≤ position
  · have hmore : position + ys.length ≤ (xs ++ zs).length := by
      rw [List.length_append]
      omega
    rw [overwrite?, if_pos ⟨hfits, hmore⟩, overwrite?, if_pos ⟨hfits, h⟩,
      List.drop_append_of_le_length (by omega), List.take_append_of_le_length (by omega)]
    simp
  · simp [overwrite?, hfits]

theorem overwrite?_length (h : overwrite? xs position ys = some zs) : zs.length = xs.length := by
  rw [overwrite?] at h
  split at h
  · cases h
    simp only [List.length_append, List.length_take, List.length_drop]
    omega
  · cases h

end Stretches

theorem popOperand?_above {ty : Ty} {xs ys : List Cell} (h : ty.builtinSize.getD 0 ≤ ys.length) :
    popOperand? ty (xs ++ ys) = (popOperand? ty ys).map fun r => (xs ++ r.1, r.2) := by
  rw [popOperand?, popOperand?, splitTop?_above (by omega)]
  cases splitTop? (ty.builtinSize.getD 0) ys with
  | none => rfl
  | some r => cases hx : Operand.ofCells? ty r.2 <;> simp [hx]

theorem popOperand?_length {ty : Ty} {xs rest : List Cell} {x : Operand ty}
    (h : popOperand? ty xs = some (rest, x)) : rest.length + ty.builtinSize.getD 0 = xs.length := by
  simp only [popOperand?, Option.bind_eq_bind, Option.bind_eq_some_iff, Option.pure_def,
    Option.some.injEq, Prod.mk.injEq] at h
  obtain ⟨⟨rest, top⟩, hsplit, _, _, rfl, _⟩ := h
  obtain ⟨rfl, hsize⟩ := splitTop?_some hsplit
  simp only [List.length_append]
  omega

theorem stepAt?_above {alu : Alu} {op : StepOp} {xs ys : List Cell} {position : Int}
    (h : 0 ≤ position) :
    stepAt? alu op (xs ++ ys) (xs.length + position) =
      (stepAt? alu op ys position).map (xs ++ ·) := by
  simp only [stepAt?, slice?_above h]
  split
  · exact overwrite?_above h
  · rfl

theorem stepAt?_below {alu : Alu} {op : StepOp} {xs ys : List Cell} {position : Int}
    (h : position + 1 ≤ xs.length) :
    stepAt? alu op (xs ++ ys) position = (stepAt? alu op xs position).map (· ++ ys) := by
  simp only [stepAt?, slice?_below h]
  split
  · exact overwrite?_below h
  · rfl

theorem stepAt?_length {alu : Alu} {op : StepOp} {xs ys : List Cell} {position : Int}
    (h : stepAt? alu op xs position = some ys) : ys.length = xs.length := by
  rw [stepAt?] at h
  split at h
  · exact overwrite?_length h
  · cases h

/-! ## Instructions on a stack with a gap -/

/-- Whatever is in the gap, an instruction makes the same of the globals and of the frame, or has no
effect on either. -/
def Op.ActsOn (op : Op) (alu : Alu) (globals frame : List Cell) (height : Nat) : Prop :=
  ∃ result : Option (List Cell × List Cell),
    (∀ x, result = some x → x.1.length = globals.length ∧ x.2.length = height) ∧
    ∀ gap, op.effect alu globals.length (globals ++ gap ++ frame) =
      result.map fun x => x.1 ++ gap ++ x.2

section Gap

variable {env : Env} {alu : Alu} {globals frame : List Cell} {height : Nat}

/-- An instruction that works on the frame alone. -/
theorem acts_frame {op : Op} (f : List Cell → Option (List Cell))
    (hf : ∀ gap, op.effect alu globals.length (globals ++ gap ++ frame) =
      (f frame).map (globals ++ gap ++ ·))
    (hheight : ∀ x, f frame = some x → x.length = height) :
    op.ActsOn alu globals frame height := by
  refine ⟨(f frame).map fun x => (globals, x), ?_, fun gap => ?_⟩
  · intro x hx
    obtain ⟨y, hy, rfl⟩ := Option.map_eq_some_iff.mp hx
    exact ⟨rfl, hheight y hy⟩
  · rw [hf, Option.map_map]
    rfl

theorem acts_push {op : Op} {c : Cell}
    (hop : ∀ stack, op.effect alu globals.length stack = some (stack ++ [c])) :
    op.ActsOn alu globals frame (frame.length + 1) := by
  refine acts_frame (fun x => some (x ++ [c])) (fun gap => by simp [hop]) ?_
  rintro x ⟨⟩
  exact List.length_append

section InPlace

variable {anchor : Anchor} {offset size : Int}

theorem length_above {gap : List Cell} : ((globals ++ gap ++ frame).length : Int) + offset =
    (globals ++ gap).length + (frame.length + offset) := by
  simp only [List.length_append]
  omega

theorem acts_copyDown (hend : offset + size ≤ 0)
    (hstart : 0 ≤ anchor.origin frame.length globals.length + offset)
    (hfits : size ≤ frame.length) :
    Op.ActsOn (.copyDown anchor offset size) alu globals frame frame.length := by
  cases htop : splitTop? size frame with
  | none =>
    refine ⟨none, nofun, fun gap => ?_⟩
    simp only [Op.effect, splitTop?_above hfits, htop]
    rfl
  | some r =>
    obtain ⟨rest, top⟩ := r
    have hsize := (splitTop?_some htop).2
    cases anchor with
    | sp =>
      simp only [Anchor.origin] at hstart
      refine acts_frame (fun x => overwrite? x (frame.length + offset) top) (fun gap => ?_)
        fun x => overwrite?_length
      simp only [Op.effect, splitTop?_above hfits, htop, Option.map_some, Option.bind_eq_bind,
        Option.bind_some, Anchor.position, length_above, overwrite?_above hstart]
    | bp =>
      simp only [Anchor.origin] at hstart
      refine ⟨(overwrite? globals (globals.length + offset) top).map fun x => (x, frame), ?_,
        fun gap => ?_⟩
      · intro x hx
        obtain ⟨y, hy, rfl⟩ := Option.map_eq_some_iff.mp hx
        exact ⟨overwrite?_length hy, rfl⟩
      · have hbelow : (globals.length : Int) + offset + top.length ≤ globals.length := by omega
        have hover := @overwrite?_below _ globals top (gap ++ frame) _ hbelow
        simp only [← List.append_assoc] at hover
        simp only [Op.effect, splitTop?_above hfits, htop, Option.map_some, Option.bind_eq_bind,
          Option.bind_some, Anchor.position, hover, Option.map_map, Function.comp_def]

theorem acts_copyTop (hend : offset + size ≤ 0)
    (hstart : 0 ≤ anchor.origin frame.length globals.length + offset) :
    Op.ActsOn (.copyTop anchor offset size) alu globals frame (frame.length + size.toNat) := by
  have hlength {xs ys : List Cell} {position : Int} (h : slice? xs position size = some ys) :
      (frame ++ ys).length = frame.length + size.toNat := by
    rw [List.length_append, (slice?_some h).2.2]
    rfl
  -- The copy is taken from one of the two parts.
  have hcopy (xs : List Cell) (position : Int)
      (hslice : ∀ gap, slice? (globals ++ gap ++ frame)
        (anchor.position globals.length (globals ++ gap ++ frame) + offset) size =
          slice? xs position size) :
      Op.ActsOn (.copyTop anchor offset size) alu globals frame (frame.length + size.toNat) := by
    refine acts_frame (fun x => (slice? xs position size).map (x ++ ·)) (fun gap => ?_) ?_
    · simp only [Op.effect, hslice]
      cases slice? xs position size <;> simp
    · intro x hx
      obtain ⟨ys, hys, rfl⟩ := Option.map_eq_some_iff.mp hx
      exact hlength hys
  cases anchor with
  | sp =>
    refine hcopy frame (frame.length + offset) fun gap => ?_
    rw [Anchor.position, length_above]
    exact slice?_above hstart
  | bp =>
    refine hcopy globals (globals.length + offset) fun gap => ?_
    rw [Anchor.position, List.append_assoc]
    exact slice?_below (by omega)

theorem acts_step {op : StepOp} (hend : offset + 1 ≤ 0)
    (hstart : 0 ≤ anchor.origin frame.length globals.length + offset) :
    Op.ActsOn (.step op anchor offset) alu globals frame frame.length := by
  cases anchor with
  | sp =>
    refine acts_frame (fun x => stepAt? alu op x (frame.length + offset)) (fun gap => ?_)
      fun x => stepAt?_length
    rw [Op.effect, Anchor.position, length_above]
    exact stepAt?_above hstart
  | bp =>
    refine ⟨(stepAt? alu op globals (globals.length + offset)).map fun x => (x, frame), ?_,
      fun gap => ?_⟩
    · intro x hx
      obtain ⟨y, hy, rfl⟩ := Option.map_eq_some_iff.mp hx
      exact ⟨stepAt?_length hy, rfl⟩
    · have hstep := @stepAt?_below alu op globals (gap ++ frame) (globals.length + offset)
        (by omega)
      simp only [← List.append_assoc] at hstep
      simp only [Op.effect, Anchor.position, hstep, Option.map_map, Function.comp_def]

end InPlace

theorem acts_moveSp {distance : Int} (hheight : height + (-distance).toNat = frame.length) :
    Op.ActsOn (.moveSp distance) alu globals frame height := by
  refine acts_frame (fun x => (splitTop? (-distance) x).map (·.1)) (fun gap => ?_) ?_
  · simp only [Op.effect, splitTop?_above (show -distance ≤ frame.length by omega)]
    cases splitTop? (-distance) frame <;> simp
  · intro x hx
    obtain ⟨⟨rest, top⟩, hsplit, rfl⟩ := Option.map_eq_some_iff.mp hx
    obtain ⟨rfl, hsize⟩ := splitTop?_some hsplit
    simp only [List.length_append] at hheight ⊢
    omega

theorem acts_binary {c : BinaryCode} (hheight : height + (c.lhs.builtinSize.getD 0 +
    c.rhs.builtinSize.getD 0) = frame.length + c.result.builtinSize.getD 0)
    (hfits : c.lhs.builtinSize.getD 0 + c.rhs.builtinSize.getD 0 ≤ frame.length) :
    Op.ActsOn (.binary c) alu globals frame height := by
  refine acts_frame (Op.effect alu globals.length · (.binary c)) (fun gap => ?_) ?_
  · simp only [Op.effect, popOperand?_above (show c.rhs.builtinSize.getD 0 ≤ frame.length by omega)]
    cases hy : popOperand? c.rhs frame with
    | none => rfl
    | some r =>
      have hrest := popOperand?_length hy
      simp only [Option.map_some, Option.bind_eq_bind, Option.bind_some,
        popOperand?_above (show c.lhs.builtinSize.getD 0 ≤ r.1.length by omega)]
      cases popOperand? c.lhs r.1 <;> simp
  · intro z hz
    simp only [Op.effect, Option.bind_eq_bind, Option.bind_eq_some_iff, Option.pure_def,
      Option.some.injEq] at hz
    obtain ⟨⟨rest, y⟩, hy, ⟨rest', x⟩, hx, rfl⟩ := hz
    have hy := popOperand?_length hy
    have hx := popOperand?_length hx
    simp only [List.length_append, Operand.length_cells] at hx hy ⊢
    omega

theorem acts_unary {c : UnaryCode} (hfits : c.operand.builtinSize.getD 0 ≤ frame.length) :
    Op.ActsOn (.unary c) alu globals frame frame.length := by
  refine acts_frame (Op.effect alu globals.length · (.unary c)) (fun gap => ?_) ?_
  · simp only [Op.effect, popOperand?_above hfits]
    cases popOperand? c.operand frame <;> simp
  · intro z hz
    simp only [Op.effect, Option.bind_eq_bind, Option.bind_eq_some_iff, Option.pure_def,
      Option.some.injEq] at hz
    obtain ⟨⟨rest, x⟩, hx, rfl⟩ := hz
    have hx := popOperand?_length hx
    simp only [List.length_append, Operand.length_cells] at hx ⊢
    omega

/-- The comparison of two composite values. -/
theorem acts_compare {op : Op} {size : Int} (f : List Cell → List Cell → Int32)
    (hop : ∀ stack, op.effect alu globals.length stack = (splitTop? size stack).bind fun r =>
      (splitTop? size r.1).bind fun l => some (l.1 ++ [.int (f l.2 r.2)]))
    (hheight : height + (size.toNat + size.toNat) = frame.length + 1)
    (hfits : size.toNat + size.toNat ≤ frame.length) : op.ActsOn alu globals frame height := by
  refine acts_frame (op.effect alu globals.length) (fun gap => ?_) ?_
  · simp only [hop, splitTop?_above (show size ≤ frame.length by omega)]
    cases hy : splitTop? size frame with
    | none => rfl
    | some r =>
      obtain ⟨rest, ys⟩ := r
      obtain ⟨rfl, hsize⟩ := splitTop?_some hy
      rw [List.length_append] at hfits
      simp only [Option.map_some, Option.bind_some,
        splitTop?_above (show size ≤ rest.length by omega)]
      cases splitTop? size rest <;> simp
  · intro z hz
    simp only [hop, Option.bind_eq_some_iff, Option.some.injEq] at hz
    obtain ⟨⟨_, ys⟩, hy, ⟨rest, xs⟩, hx, rfl⟩ := hz
    obtain ⟨rfl, hsize⟩ := splitTop?_some hy
    obtain ⟨rfl, hsize'⟩ := splitTop?_some hx
    simp only [List.length_append, List.length_singleton] at hheight ⊢
    omega

theorem shape?_builtin {ty : Ty} {ks : Shape} (hty : ty ∈ Operand.types)
    (h : env.shape? ty = some ks) : ty.builtinSize.getD 0 = ks.length := by
  simp only [Operand.types, List.mem_cons, List.not_mem_nil, or_false] at hty
  rcases hty with rfl | rfl | rfl | rfl | rfl <;> cases h <;> rfl

/-- What has its operands among the globals and in the frame does the same whatever is in the gap.
-/
theorem after_acts {i : Instruction} {own next base : Shape} (hg : env.globalShape? = some base)
    (h : i.after? env own = some next) (hglobals : globals.length = base.length)
    (hframe : frame.length = own.length) : i.op.ActsOn alu globals frame next.length := by
  have hoperand {anchor : Anchor} {offset size : Int}
      (hi : i.op.operand? = some (anchor, offset, size)) := after_operand hg h hi
  rw [← hglobals, ← hframe] at hoperand
  obtain ⟨rest, top, left, rfl, rfl, hexchange⟩ := after_exchange h
  rw [List.length_append] at hframe ⊢
  cases hop : i.op with
  | nop =>
    simp only [Instruction.exchange?, hop, Option.some.injEq, Prod.mk.injEq] at hexchange
    exact acts_frame some (fun gap => rfl) (by rintro x ⟨⟩; omega)
  | reserve | constI | constF | constS | constO =>
    simp only [Instruction.exchange?, hop, Option.some.injEq, Prod.mk.injEq] at hexchange
    rw [show rest.length + left.length = frame.length + 1 by omega]
    exact acts_push fun stack => rfl
  | copyDown anchor offset size =>
    obtain ⟨hsize, hend, hstart⟩ := hoperand (by rw [hop]; rfl)
    simp only [Instruction.exchange?, hop, Option.some.injEq, Prod.mk.injEq] at hexchange
    rw [show rest.length + left.length = frame.length by omega]
    exact acts_copyDown hend hstart (by omega)
  | copyTop anchor offset size =>
    obtain ⟨hsize, hend, hstart⟩ := hoperand (by rw [hop]; rfl)
    simp only [Instruction.exchange?, hop, Option.some.injEq, Prod.mk.injEq] at hexchange
    rw [show rest.length + left.length = frame.length + size.toNat by omega]
    exact acts_copyTop hend hstart
  | moveSp distance =>
    simp only [Instruction.exchange?, hop, Option.some.injEq, Prod.mk.injEq] at hexchange
    exact acts_moveSp (by omega)
  | step op anchor offset =>
    obtain ⟨hsize, hend, hstart⟩ := hoperand (by rw [hop]; rfl)
    simp only [Instruction.exchange?, hop, Option.some.injEq, Prod.mk.injEq] at hexchange
    rw [show rest.length + left.length = frame.length by omega]
    exact acts_step hend hstart
  | binary c =>
    simp only [Instruction.exchange?, hop, Env.shapes?, Option.bind_eq_bind,
      Option.bind_eq_some_iff, Option.pure_def, Option.some.injEq, Prod.mk.injEq] at hexchange
    obtain ⟨_, ⟨lhs, hlhs, _, ⟨rhs, hrhs, _, rfl, rfl⟩, rfl⟩, result, hresult, htop, hleft⟩ :=
      hexchange
    have hl := shape?_builtin c.lhs_mem hlhs
    have hr := shape?_builtin c.rhs_mem hrhs
    have hx := shape?_builtin c.result_mem hresult
    simp only [List.length_append, List.length_nil] at htop
    exact acts_binary (by omega) (by omega)
  | unary c =>
    simp only [Instruction.exchange?, hop, Option.bind_eq_bind, Option.bind_eq_some_iff,
      Option.pure_def, Option.some.injEq, Prod.mk.injEq] at hexchange
    obtain ⟨operand, hoperand, htop, hleft⟩ := hexchange
    have hx := shape?_builtin c.operand_mem hoperand
    rw [show rest.length + left.length = frame.length by omega]
    exact acts_unary (by omega)
  | equalTT size =>
    simp only [Instruction.exchange?, hop, Option.some.injEq, Prod.mk.injEq] at hexchange
    exact acts_compare alu.equal (fun _ => rfl) (by omega) (by omega)
  | notEqualTT size =>
    simp only [Instruction.exchange?, hop, Option.some.injEq, Prod.mk.injEq] at hexchange
    exact acts_compare alu.notEqual (fun _ => rfl) (by omega) (by omega)
  | saveBp | restoreBp | jump | retn | action | storeState =>
    refine ⟨none, fun x hx => ?_, fun gap => rfl⟩
    cases hx

end Gap

/-! ## Runs with calls -/

/-- Whether an instruction hands the top of the stack over: to a function, to a routine of the
engine, or to a snapshot. -/
def Op.handsOver : Op → Bool
  | .jump .jsr | .action _ _ | .storeState _ _ => true
  | _ => false

namespace Stream

/-- One step of a run. Whoever is handed the top of the stack sees it and the globals, and may leave
anything in their place. -/
inductive Goes (env : Env) (alu : Alu)
    (outside : Instruction → List Cell → List Cell → List Cell → List Cell → Prop) (base : Nat)
    (s : Stream) : Config → Config → Prop
  | own {c d : Config} : s.step? alu base c = some d → Goes env alu outside base s c d
  | outside {pc : Nat} {i : Instruction} {globals rest top globals' top' : List Cell} :
      s.code[pc]? = some i → i.op.handsOver = true →
      i.exchange? env = some (top.length, top'.length) →
      globals.length = base → globals'.length = base → outside i globals top globals' top' →
      Goes env alu outside base s ⟨pc, globals ++ rest ++ top⟩ ⟨pc + 1, globals' ++ rest ++ top'⟩

section Goes

variable {env : Env} {alu : Alu}
  {outside : Instruction → List Cell → List Cell → List Cell → List Cell → Prop} {s : Stream}
  {i : Instruction} {pc : Nat} {own next base : Shape} {globals gap frame : List Cell}
  {d : Config}

theorem step?_effect {n : Nat} {stack : List Cell} (hi : s.code[pc]? = some i)
    (hop : i.op.branches = false) :
    s.step? alu n ⟨pc, stack⟩ = (i.op.effect alu n stack).map fun x => ⟨pc + 1, x⟩ := by
  rw [step?, hi, Option.map_eq_bind]
  cases hi : i.op with
  | jump c =>
    cases c with
    | jsr => simp [hi, Op.effect]
    | _ => simp [hi, Op.branches] at hop
  | _ =>
    simp only [Option.bind_eq_bind, Option.bind_some, hi]
    rfl

theorem fallsThrough_of_effect {op : Op} {n : Nat} {stack stack' : List Cell}
    (h : op.effect alu n stack = some stack') : op.fallsThrough = true := by
  cases op with
  | retn | jump => cases h
  | _ => rfl

/-- Slots on top of the stack that are no more than the frame are all in the frame. -/
theorem frame_of_top {globals' rest top : List Cell} (hglobals : globals'.length = globals.length)
    (htop : top.length ≤ frame.length)
    (h : globals ++ gap ++ frame = globals' ++ rest ++ top) :
    globals = globals' ∧ ∃ below, frame = below ++ top ∧ rest = gap ++ below := by
  rw [List.append_assoc, List.append_assoc] at h
  obtain ⟨rfl, hparts⟩ := List.append_inj h hglobals.symm
  refine ⟨rfl, ?_⟩
  rcases List.append_eq_append_iff.mp hparts with ⟨x, rfl, rfl⟩ | ⟨x, rfl, rfl⟩
  · exact ⟨x, rfl, rfl⟩
  · have hnil : x = [] := by
      rw [List.length_append] at htop
      exact List.length_eq_zero_iff.mp (by omega)
    exact ⟨[], by simp [hnil], by simp [hnil]⟩

/-- A step of the machine itself, with all operands among the globals and in the frame. -/
theorem step?_across (hg : env.globalShape? = some base) (hi : s.code[pc]? = some i)
    (hjump : i.op.branches = true → i.op = .jump .jmp) (ha : i.after? env own = some next)
    (hglobals : globals.length = base.length) (hframe : frame.length = own.length)
    (h : s.step? alu globals.length ⟨pc, globals ++ gap ++ frame⟩ = some d) :
    ∃ globals' frame', d.stack = globals' ++ gap ++ frame' ∧
      globals'.length = globals.length ∧ frame'.length = next.length ∧
      (i.op.fallsThrough = true ∧ d.pc = pc + 1 ∨
        i.op.branches = true ∧ s.landing? i = some d.pc) ∧
      ∀ gap', s.step? alu globals.length ⟨pc, globals ++ gap' ++ frame⟩ =
        some ⟨d.pc, globals' ++ gap' ++ frame'⟩ := by
  by_cases hop : i.op.branches = true
  · have hjmp := hjump hop
    have hstep (stack : List Cell) : s.step? alu globals.length ⟨pc, stack⟩ =
        (s.landing? i).map fun t => ⟨t, stack⟩ := by
      rw [step?, hi]
      simp only [hjmp, Option.bind_eq_bind, Option.bind_some]
      cases s.landing? i <;> rfl
    rw [hstep] at h
    obtain ⟨t, ht, rfl⟩ := Option.map_eq_some_iff.mp h
    have hsame : some own = some next := by
      rw [← ha]
      simp [Instruction.after?, hjmp]
    cases hsame
    exact ⟨globals, frame, rfl, rfl, hframe, .inr ⟨hop, ht⟩, fun gap' => by rw [hstep, ht]; rfl⟩
  · have hop : i.op.branches = false := by simpa using hop
    have hacts : i.op.ActsOn alu globals frame next.length := after_acts hg ha hglobals hframe
    obtain ⟨result, hlengths, heffect⟩ := hacts
    rw [step?_effect hi hop, heffect] at h
    cases hresult : result with
    | none => simp [hresult] at h
    | some x =>
      simp only [hresult, Option.map_some, Option.some.injEq] at h
      subst h
      obtain ⟨hx, hy⟩ := hlengths x hresult
      have hsome := heffect gap
      rw [hresult] at hsome
      refine ⟨x.1, x.2, rfl, hx, hy, .inl ⟨fallsThrough_of_effect hsome, rfl⟩, fun gap' => ?_⟩
      rw [step?_effect hi hop, heffect, hresult]
      rfl

/-- A step of an instruction with all its operands among the globals and in the frame is the same
one whatever is in the gap. -/
theorem Goes.across (hg : env.globalShape? = some base) (hi : s.code[pc]? = some i)
    (hjump : i.op.branches = true → i.op = .jump .jmp) (ha : i.after? env own = some next)
    (hglobals : globals.length = base.length) (hframe : frame.length = own.length)
    (h : s.Goes env alu outside globals.length ⟨pc, globals ++ gap ++ frame⟩ d) :
    ∃ globals' frame', d.stack = globals' ++ gap ++ frame' ∧
      globals'.length = globals.length ∧ frame'.length = next.length ∧
      (i.op.fallsThrough = true ∧ d.pc = pc + 1 ∨
        i.op.branches = true ∧ s.landing? i = some d.pc) ∧
      ∀ gap', s.Goes env alu outside globals.length ⟨pc, globals ++ gap' ++ frame⟩
        ⟨d.pc, globals' ++ gap' ++ frame'⟩ := by
  generalize hc : (⟨pc, globals ++ gap ++ frame⟩ : Config) = c at h
  cases h with
  | own h =>
    subst hc
    obtain ⟨globals', frame', hstack, hglobals', hframe', hpc, hsame⟩ :=
      step?_across hg hi hjump ha hglobals hframe h
    exact ⟨globals', frame', hstack, hglobals', hframe', hpc, fun gap' => .own (hsame gap')⟩
  | @outside _ j globals₁ rest top globals' top' hj hop hexchange hbase hbase' hout =>
    simp only [Config.mk.injEq] at hc
    obtain ⟨rfl, hstack⟩ := hc
    cases hi.symm.trans hj
    obtain ⟨rest', top₁, left, rfl, rfl, hexchange'⟩ := after_exchange ha
    have hsame := hexchange.symm.trans hexchange'
    simp only [Option.some.injEq, Prod.mk.injEq] at hsame
    rw [List.length_append] at hframe
    obtain ⟨rfl, below, rfl, rfl⟩ := frame_of_top hbase (by omega) hstack
    refine ⟨globals', below ++ top', by simp, hbase', ?_, .inl ⟨?_, rfl⟩, fun gap' => ?_⟩
    · simp only [List.length_append] at hframe ⊢
      omega
    · cases hi : i.op with
      | jump c => cases c <;> simp_all [Op.handsOver, Op.fallsThrough]
      | _ => simp_all [Op.handsOver, Op.fallsThrough]
    · have hall := @Goes.outside env alu outside _ s _ i globals (gap' ++ below) top globals' top'
        hi hop hexchange rfl hbase' hout
      simpa using hall

/-- Nothing goes on from a return. -/
theorem not_goes_retn {n : Nat} {stack : List Cell} (hi : s.code[pc]? = some i)
    (hop : i.op = .retn) : ¬s.Goes env alu outside n ⟨pc, stack⟩ d := by
  intro h
  generalize hc : (⟨pc, stack⟩ : Config) = c at h
  cases h with
  | own h =>
    subst hc
    rw [step?_effect hi (by rw [hop]; rfl), hop] at h
    cases h
  | outside hj hhands =>
    cases hc
    cases hi.symm.trans hj
    rw [hop] at hhands
    cases hhands

/-- The code from one index up to the return at another one has all its operands among the globals
and in a frame of its own, which has so many slots at each index. -/
structure SelfContained (s : Stream) (env : Env) (first last : Nat) (height : Nat → Nat) :
    Prop where
  order : first ≤ last
  inside : ∀ j i, first ≤ j → j < last → s.code[j]? = some i → ∃ own next,
    own.length = height j ∧ i.after? env own = some next ∧
    (i.op.fallsThrough = true → height (j + 1) = next.length) ∧
    (i.op.branches = true → i.op = .jump .jmp ∧
      ∃ t, s.landing? i = some t ∧ first ≤ t ∧ t ≤ last ∧ height t = next.length)
  ends : ∃ i, s.code[last]? = some i ∧ i.op = .retn

/-- Such code runs in the same way whatever is in the gap. -/
theorem SelfContained.runs {first last : Nat} {height : Nat → Nat}
    (h : s.SelfContained env first last height) (hg : env.globalShape? = some base)
    (hglobals : globals.length = base.length) (hframe : frame.length = height first)
    (hrun : Relation.ReflTransGen (s.Goes env alu outside globals.length)
      ⟨first, globals ++ gap ++ frame⟩ d) :
    (first ≤ d.pc ∧ d.pc ≤ last) ∧ ∃ globals' frame', d.stack = globals' ++ gap ++ frame' ∧
      globals'.length = globals.length ∧ frame'.length = height d.pc ∧
      ∀ gap', Relation.ReflTransGen (s.Goes env alu outside globals.length)
        ⟨first, globals ++ gap' ++ frame⟩ ⟨d.pc, globals' ++ gap' ++ frame'⟩ := by
  induction hrun with
  | refl => exact ⟨⟨Nat.le_refl _, h.order⟩, globals, frame, rfl, rfl, hframe, fun _ => .refl⟩
  | @tail c d _ hstep ih =>
    obtain ⟨⟨hlow, hhigh⟩, globals₁, frame₁, hstack, hglobals₁, hframe₁, hsame⟩ := ih
    obtain ⟨pc, stack⟩ := c
    simp only at hlow hhigh hstack hframe₁ hsame
    subst hstack
    obtain ⟨retn, hlast, hretn⟩ := h.ends
    by_cases hend : pc = last
    · exact absurd hstep (not_goes_retn (hend ▸ hlast) hretn)
    · have hpc : pc < s.code.length := by
        have := (List.getElem?_eq_some_iff.mp hlast).1
        omega
      have hi := List.getElem?_eq_getElem hpc
      obtain ⟨own, next, hown, hafter, hfalls, hjumps⟩ := h.inside pc _ hlow (by omega) hi
      rw [← hglobals₁] at hstep hsame ⊢
      obtain ⟨globals₂, frame₂, hstack₂, hglobals₂, hframe₂, hpc₂, hacross⟩ :=
        hstep.across hg hi (fun hop => (hjumps hop).1) hafter (hglobals₁.trans hglobals)
          (hframe₁.trans hown.symm)
      refine ⟨?_, globals₂, frame₂, hstack₂, hglobals₂, ?_, fun gap' =>
        (hsame gap').tail (hacross gap')⟩
      · rcases hpc₂ with ⟨_, hnext⟩ | ⟨hop, hlanding⟩
        · omega
        · obtain ⟨_, t, ht, hlow', hhigh', _⟩ := hjumps hop
          cases hlanding.symm.trans ht
          exact ⟨hlow', hhigh'⟩
      · rcases hpc₂ with ⟨hop, hnext⟩ | ⟨hop, hlanding⟩
        · rw [hframe₂, hnext, hfalls hop]
        · obtain ⟨_, t, ht, _, _, hheight⟩ := hjumps hop
          cases hlanding.symm.trans ht
          rw [hframe₂, hheight]

end Goes

end Stream

end NwScript
