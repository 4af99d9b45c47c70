-- Shapes along straight code. However a program verifies, code that goes straight on finds the
-- shapes that it should, or at least shapes that are as much higher or lower as these are.
import NwScript.Proofs.Shape.Verified

namespace NwScript

/-! ## What is exchanged on top of the stack -/

/-- How many slots an instruction takes off the top of the stack, and how many it leaves in their
place. A snapshot leaves the slots that it takes as they are, and so does a copy of the top. -/
def Instruction.exchange? (env : Env) (i : Instruction) : Option (Nat × Nat) :=
  match i.op with
  | .nop | .retn | .saveBp | .step _ _ _ | .jump .jmp => some (0, 0)
  | .reserve _ | .constI _ | .constF _ | .constS _ | .constO _ => some (0, 1)
  | .copyDown _ _ size => some (size.toNat, size.toNat)
  | .copyTop _ _ size => some (0, size.toNat)
  | .moveSp distance => some ((-distance).toNat, 0)
  | .binary c => do
    let operands ← env.shapes? [c.lhs, c.rhs]
    return (operands.length, (← env.shape? c.result).length)
  | .unary c => do
    let operand ← env.shape? c.operand
    return (operand.length, operand.length)
  | .equalTT size | .notEqualTT size => some (size.toNat + size.toNat, 1)
  | .jump .jz | .jump .jnz => some (1, 0)
  | .jump .jsr => do
    let callee ← env.callee? (← i.target)
    let result ← env.shape? callee.signature.returnType
    let args ← env.shapes? (callee.signature.params.map (·.ty))
    return ((result ++ args).length, result.length)
  | .action index _ => do
    let routine ← env.engine.routines[index.toNat]?
    let result ← env.shape? routine.returnType
    let args ← env.shapes? ((routine.params.map (·.ty)).filter (· ≠ .action))
    return (args.length, result.length)
  | .storeState _ locals => some (locals.toNat, locals.toNat)
  | .restoreBp => none

/-- The slots that an instruction addresses: what its offset counts from, the offset, and the number
of slots. Slots that are popped count from the top. -/
def Op.operand? : Op → Option (Anchor × Int × Int)
  | .copyDown anchor offset size | .copyTop anchor offset size => some (anchor, offset, size)
  | .step _ anchor offset => some (anchor, offset, 1)
  | .moveSp distance => some (.sp, distance, -distance)
  | _ => none

section Heights

variable {env : Env} {i : Instruction} {a a' b b' : Shape}

theorem Env.area?_length {shape area : Shape} {anchor : Anchor} {offset size : Int}
    (h : env.area? shape anchor offset size = some area) : size = area.length := by
  cases anchor with
  | sp => exact (slice?_some h).2.2
  | bp =>
    obtain ⟨globals, _, h⟩ := Option.bind_eq_some_iff.mp h
    exact (slice?_some h).2.2

/-- Below what an instruction exchanges, the stack stays as it was. -/
theorem after_exchange (h : i.after? env a = some a') :
    ∃ rest top left, a = rest ++ top ∧ a' = rest ++ left ∧
      i.exchange? env = some (top.length, left.length) := by
  have hkept {n : Nat} (hn : n ≤ a.length) (hi : i.exchange? env = some (n, n)) (ha : a' = a) :
      ∃ rest top left, a = rest ++ top ∧ a' = rest ++ left ∧
        i.exchange? env = some (top.length, left.length) := by
    refine ⟨a.take (a.length - n), a.drop (a.length - n), a.drop (a.length - n), by simp,
      by simp [ha], ?_⟩
    rw [hi, List.length_drop, show a.length - (a.length - n) = n by omega]
  cases hop : i.op with
  | nop | retn =>
    simp only [Instruction.after?, hop, Option.some.injEq] at h
    exact hkept (Nat.zero_le _) (by simp [Instruction.exchange?, hop]) h.symm
  | reserve | constI | constF | constS | constO =>
    simp only [Instruction.after?, hop, Option.some.injEq] at h
    exact ⟨a, [], _, by simp, h.symm, by simp [Instruction.exchange?, hop]⟩
  | copyDown anchor offset size =>
    simp only [Instruction.after?, hop, Option.bind_eq_bind, Option.bind_eq_some_iff] at h
    obtain ⟨⟨rest, top⟩, hsplit, old, _, h⟩ := h
    obtain ⟨rfl, hsize⟩ := splitTop?_some hsplit
    split at h
    · cases h
      exact ⟨rest, top, top, rfl, rfl, by simp [Instruction.exchange?, hop, hsize]⟩
    · cases h
  | copyTop anchor offset size =>
    simp only [Instruction.after?, hop, Option.bind_eq_bind, Option.bind_eq_some_iff,
      Option.pure_def, Option.some.injEq] at h
    obtain ⟨area, harea, rfl⟩ := h
    refine ⟨a, [], area, by simp, rfl, ?_⟩
    simp [Instruction.exchange?, hop, Env.area?_length harea]
  | moveSp distance =>
    simp only [Instruction.after?, hop, Option.bind_eq_bind, Option.bind_eq_some_iff,
      Option.pure_def, Option.some.injEq] at h
    obtain ⟨⟨rest, top⟩, hsplit, rfl⟩ := h
    obtain ⟨rfl, hsize⟩ := splitTop?_some hsplit
    exact ⟨rest, top, [], rfl, by simp, by simp [Instruction.exchange?, hop, hsize]⟩
  | step op anchor offset =>
    simp only [Instruction.after?, hop, Option.bind_eq_bind, Option.bind_eq_some_iff] at h
    obtain ⟨old, _, h⟩ := h
    split at h
    · cases h
      exact hkept (Nat.zero_le _) (by simp [Instruction.exchange?, hop]) rfl
    · cases h
  | saveBp =>
    simp only [Instruction.after?, hop] at h
    split at h
    · cases h
      exact hkept (Nat.zero_le _) (by simp [Instruction.exchange?, hop]) rfl
    · cases h
  | restoreBp =>
    simp only [Instruction.after?, hop] at h
    cases h
  | binary c =>
    simp only [Instruction.after?, hop, Option.bind_eq_bind, Option.bind_eq_some_iff,
      Option.pure_def, Option.some.injEq] at h
    obtain ⟨operands, hoperands, rest, hrest, result, hresult, rfl⟩ := h
    refine ⟨rest, operands, result, Shape.strip?_some hrest, rfl, ?_⟩
    simp [Instruction.exchange?, hop, hoperands, hresult]
  | unary c =>
    simp only [Instruction.after?, hop, Option.bind_eq_bind, Option.bind_eq_some_iff,
      Option.pure_def, Option.some.injEq] at h
    obtain ⟨operand, hoperand, rest, hrest, rfl⟩ := h
    refine ⟨rest, operand, operand, Shape.strip?_some hrest, rfl, ?_⟩
    simp [Instruction.exchange?, hop, hoperand]
  | equalTT size | notEqualTT size =>
    simp only [Instruction.after?, hop, Option.bind_eq_bind, Option.bind_eq_some_iff] at h
    obtain ⟨⟨_, right⟩, hright, ⟨rest, left⟩, hleft, h⟩ := h
    obtain ⟨rfl, hsize⟩ := splitTop?_some hright
    obtain ⟨rfl, hsize'⟩ := splitTop?_some hleft
    split at h
    · cases h
      refine ⟨rest, left ++ right, [.int], by simp, rfl, ?_⟩
      simp only [Instruction.exchange?, hop, List.length_append, List.length_singleton]
      rw [show size.toNat = left.length by omega, show right.length = left.length by omega]
    · cases h
  | jump c =>
    cases c with
    | jmp =>
      simp only [Instruction.after?, hop, Option.some.injEq] at h
      exact hkept (Nat.zero_le _) (by simp [Instruction.exchange?, hop]) h.symm
    | jz | jnz =>
      simp only [Instruction.after?, hop] at h
      exact ⟨a', [.int], [], Shape.strip?_some h, by simp, by simp [Instruction.exchange?, hop]⟩
    | jsr =>
      simp only [Instruction.after?, hop, Option.bind_eq_bind, Option.bind_eq_some_iff,
        Option.pure_def, Option.some.injEq] at h
      obtain ⟨target, htarget, callee, hcallee, result, hresult, args, hargs, rest, hrest, rfl⟩ := h
      refine ⟨rest, result ++ args, result, Shape.strip?_some hrest, rfl, ?_⟩
      simp [Instruction.exchange?, hop, htarget, hcallee, hresult, hargs]
  | action index argc =>
    simp only [Instruction.after?, hop, Option.bind_eq_bind, Option.bind_eq_some_iff] at h
    obtain ⟨routine, hroutine, result, hresult, args, hargs, h⟩ := h
    split at h
    · obtain ⟨rest, hrest, h⟩ := Option.bind_eq_some_iff.mp h
      cases h
      refine ⟨rest, args, result, Shape.strip?_some hrest, rfl, ?_⟩
      simp only [Instruction.exchange?, hop, hroutine, hresult, hargs, Option.bind_eq_bind,
        Option.bind_some, Option.pure_def]
    · cases h
  | storeState globals locals =>
    simp only [Instruction.after?, hop, Option.bind_eq_bind, Option.bind_eq_some_iff] at h
    obtain ⟨all, _, h⟩ := h
    split at h
    · rename_i hfits
      cases h
      exact hkept (n := locals.toNat) (by omega) (by simp [Instruction.exchange?, hop]) rfl
    · cases h

theorem area_bounds {shape area globals : Shape} {anchor : Anchor} {offset size : Int}
    (hg : env.globalShape? = some globals)
    (h : env.area? shape anchor offset size = some area) :
    0 ≤ size ∧ offset + size ≤ 0 ∧ 0 ≤ anchor.origin shape.length globals.length + offset := by
  cases anchor with
  | sp =>
    obtain ⟨hlow, hhigh, hsize⟩ := slice?_some h
    simp only [Anchor.origin]
    omega
  | bp =>
    simp only [Env.area?, hg, Option.bind_some] at h
    obtain ⟨hlow, hhigh, hsize⟩ := slice?_some h
    simp only [Anchor.origin]
    omega

/-- What an instruction addresses is on the stack, or among the globals. -/
theorem after_operand {globals : Shape} {anchor : Anchor} {offset size : Int}
    (hg : env.globalShape? = some globals) (h : i.after? env a = some a')
    (hi : i.op.operand? = some (anchor, offset, size)) :
    0 ≤ size ∧ offset + size ≤ 0 ∧ 0 ≤ anchor.origin a.length globals.length + offset := by
  cases hop : i.op with
  | copyDown =>
    rw [hop] at hi
    cases hi
    simp only [Instruction.after?, hop, Option.bind_eq_bind, Option.bind_eq_some_iff] at h
    obtain ⟨_, _, old, harea, _⟩ := h
    exact area_bounds hg harea
  | copyTop | step =>
    rw [hop] at hi
    cases hi
    simp only [Instruction.after?, hop, Option.bind_eq_bind, Option.bind_eq_some_iff] at h
    obtain ⟨old, harea, _⟩ := h
    exact area_bounds hg harea
  | moveSp distance =>
    rw [hop] at hi
    cases hi
    simp only [Instruction.after?, hop, Option.bind_eq_bind, Option.bind_eq_some_iff] at h
    obtain ⟨⟨rest, top⟩, hsplit, _⟩ := h
    obtain ⟨rfl, hsize⟩ := splitTop?_some hsplit
    simp only [Anchor.origin, List.length_append]
    omega
  | _ =>
    rw [hop] at hi
    cases hi

/-- An instruction pushes or pops the same number of slots on every stack. -/
theorem after_height (ha : i.after? env a = some a') (hb : i.after? env b = some b') :
    a'.length + b.length = b'.length + a.length := by
  obtain ⟨rest, top, left, rfl, rfl, hi⟩ := after_exchange ha
  obtain ⟨rest', top', left', rfl, rfl, hi'⟩ := after_exchange hb
  have hsame := hi.symm.trans hi'
  simp only [Option.some.injEq, Prod.mk.injEq] at hsame
  simp only [List.length_append]
  omega

end Heights

/-! ## Straight code in a program -/

/-- A relation between shapes that every instruction keeps. -/
def Tracks (env : Env) (R : Shape → Shape → Prop) : Prop :=
  ∀ (i : Instruction) x y x' y', R x y → i.after? env x = some x' → i.after? env y = some y' →
    R x' y'

theorem tracks_eq (env : Env) : Tracks env Eq := by
  rintro i x _ x' y' rfl hx hy
  exact Option.some.inj (hx.symm.trans hy)

/-- One shape stays as much higher than the other as it is. -/
theorem tracks_above (env : Env) (low : Int) :
    Tracks env fun x y => (x.length : Int) = low + y.length := by
  intro i x y x' y' h hx hy
  have := after_height hx hy
  omega

/-- At an index between two others, the instruction finds a shape related to one in which it has its
operands. If it branches, it only jumps, and stays between these indices. -/
structure Stream.FindsAt (stream : Stream) (env : Env) (R : Shape → Shape → Prop)
    (shape : Nat → Shape) (first last k : Nat) (i : Instruction) (own : Shape) : Prop where
  related : R (shape k) own
  operands : (i.after? env own).isSome
  branches : i.op.branches = true → i.op = .jump .jmp ∧
    ∃ t, stream.landing? i = some t ∧ first ≤ t ∧ t ≤ last

theorem Stream.FindsAt.mono {stream : Stream} {env : Env} {R : Shape → Shape → Prop}
    {shape : Nat → Shape} {first first' last last' k : Nat} {i : Instruction} {own : Shape}
    (hfirst : first' ≤ first) (hlast : last ≤ last')
    (h : stream.FindsAt env R shape first last k i own) :
    stream.FindsAt env R shape first' last' k i own := by
  refine ⟨h.related, h.operands, fun hop => ?_⟩
  obtain ⟨hjmp, t, ht, hlow, hhigh⟩ := h.branches hop
  exact ⟨hjmp, t, ht, Nat.le_trans hfirst hlow, Nat.le_trans hhigh hlast⟩

theorem fallsThrough_of_proceeds {op : Op} (h : op.proceeds = true) :
    op.fallsThrough = true ∧ op.branches = false := by
  cases op with
  | jump c => cases c <;> simp_all [Op.proceeds, Op.fallsThrough, Op.branches]
  | _ => simp_all [Op.proceeds, Op.fallsThrough, Op.branches]

namespace Build

section Along

variable {stream : Stream} {whole : Env} {p : Program} {shape : Nat → Shape}
  {P : Instruction → Shape → Prop} {R : Shape → Shape → Prop} {a b : Shape}
  {code : List Instruction} {pc : Nat} {i : Instruction}

theorem Verified.next (hv : Verified whole stream p shape) (hR : Tracks whole R)
    (hi : stream.code[pc]? = some i) (hpc : p.Holds pc ∧ pc + 1 < stream.code.length)
    (hop : i.op.fallsThrough = true) (ha : R (shape pc) a) (hb : i.after? whole a = some b) :
    R (shape (pc + 1)) b := by
  obtain ⟨next, hnext, hfalls, _⟩ := hv.steps pc i hi hpc.1
  rw [hfalls hop hpc.2]
  exact hR i _ _ _ _ ha hnext hb

/-- A jump takes what it finds to where it leads. -/
theorem Verified.lands {t : Nat} (hv : Verified whole stream p shape)
    (hi : stream.code[pc]? = some i) (hpc : p.Holds pc) (hop : i.op = .jump .jmp)
    (ht : stream.landing? i = some t) : shape t = shape pc := by
  obtain ⟨next, hnext, _, hlands⟩ := hv.steps pc i hi hpc
  obtain ⟨t', ht', hshape⟩ := hlands (by rw [hop]; rfl)
  cases ht.symm.trans ht'
  simp only [Instruction.after?, hop, Option.some.injEq] at hnext
  rw [hshape, hnext]

/-- The jump behind a snapshot leads right behind a return, which is thus the one at the end of the
command. -/
theorem Verified.skips {command rest : List Instruction} {skip retn land : Instruction}
    {globals locals : Int} (hv : Verified whole stream p shape)
    (hn : (stream.code.map (·.handle)).Nodup)
    (hs : stream.Stands pc (i :: skip :: (command ++ retn :: land :: rest)))
    (htarget : skip.target = some land.handle) (hop : i.op = .storeState globals locals)
    (hpc : p.Holds pc) :
    stream.landing? skip = some (pc + 2 + command.length + 1) ∧
      stream.DefersAt shape pc (pc + 2 + command.length) := by
  obtain ⟨e, hdefers⟩ := hv.commands pc i globals locals hs.get hpc hop
  obtain ⟨jump, _, hjump, _, hlanding, _⟩ := id hdefers
  cases hs.tail.get.symm.trans hjump
  have hland : stream.landing? skip = some (pc + 2 + command.length + 1) := by
    simp only [Stream.landing?, htarget, Option.bind_some]
    exact hs.tail.tail.right.tail.index hn
  obtain rfl : pc + 2 + command.length = e := by
    have := Option.some.inj (hland.symm.trans hlanding)
    omega
  exact ⟨hland, hdefers⟩

/-- Straight code finds shapes related to those that it should, in whatever way the program
verifies. -/
theorem Verified.along (hv : Verified whole stream p shape) (hR : Tracks whole R)
    (hn : (stream.code.map (·.handle)).Nodup) (h : Straight whole P a code b)
    (hstands : stream.Stands pc code)
    (hin : ∀ k, pc ≤ k → k < pc + code.length → p.Holds k ∧ k + 1 < stream.code.length)
    (ha : R (shape pc) a) :
    R (shape (pc + code.length)) b ∧ ∀ k i, pc ≤ k → k < pc + code.length →
      stream.code[k]? = some i → ∃ own, stream.FindsAt whole R shape pc (pc + code.length) k i own ∧
        (i.op.proceeds = true → P i own) := by
  induction h generalizing pc with
  | nil => exact ⟨ha, fun k i hlow hhigh => absurd hhigh (Nat.not_lt.mpr hlow)⟩
  | @plain j a next b rest hop hafter hj _ ih =>
    simp only [List.length_cons] at hin
    obtain ⟨hfalls, hbranches⟩ := fallsThrough_of_proceeds hop
    have hnext := hv.next hR hstands.get (hin pc (by omega) (by omega)) hfalls ha hafter
    obtain ⟨hlater, hrest⟩ :=
      ih hstands.tail (fun k hlow hhigh => hin k (by omega) (by omega)) hnext
    rw [show pc + (j :: rest).length = pc + 1 + rest.length by rw [List.length_cons]; omega]
    refine ⟨hlater, fun k i hlow hhigh hi => ?_⟩
    by_cases hk : k = pc
    · subst hk
      cases hstands.get.symm.trans hi
      exact ⟨a, ⟨ha, by simp [hafter], by simp [hbranches]⟩, fun _ => hj⟩
    · obtain ⟨own, hown, hP⟩ := hrest k i (by omega) hhigh hi
      exact ⟨own, hown.mono (by omega) (Nat.le_refl _), hP⟩
  | @deferred h jump retn land globals locals a b command rest hafter _ hland _ ihc ih =>
    simp only [List.length_cons, List.length_append] at hin
    have hskip := hstands.tail
    have hcommand := hskip.tail.left
    have hback := hskip.tail.right
    -- The command starts with what was there before it, and the jump leads right behind it.
    obtain ⟨hlanding, _, _, _, _, _, _, _, _, hstart, _⟩ :=
      hv.skips hn hstands rfl rfl (hin pc (by omega) (by omega)).1
    have hjump := hv.next hR hstands.get (hin pc (by omega) (by omega)) rfl ha hafter
    have ht := hv.lands hskip.get (hin _ (by omega) (by omega)).1 rfl hlanding
    rw [← ht] at hjump
    obtain ⟨hend, hinside⟩ := ihc hcommand (fun k hlow hhigh => hin k (by omega) (by omega))
      (hstart.symm ▸ ha)
    have hbehind := hv.next hR hback.tail.get (hin _ (by omega) (by omega)) rfl hjump rfl
    obtain ⟨hlater, hrest⟩ := ih hback.tail.tail (fun k hlow hhigh => hin k (by omega) (by omega))
      hbehind
    have hlen : ∀ x y : Instruction, ∀ u v : Instruction,
        pc + (x :: y :: (command ++ u :: v :: rest)).length =
          pc + 1 + 1 + command.length + 1 + 1 + rest.length := by
      intro x y u v
      simp only [List.length_cons, List.length_append]
      omega
    rw [hlen]
    refine ⟨hlater, fun k i hlow hhigh hi => ?_⟩
    have hplace : k = pc ∨ k = pc + 1 ∨ (pc + 2 ≤ k ∧ k < pc + 2 + command.length) ∨
        k = pc + 2 + command.length ∨ k = pc + 2 + command.length + 1 ∨
        pc + 2 + command.length + 2 ≤ k := by omega
    rcases hplace with rfl | rfl | ⟨hlow', hhigh'⟩ | rfl | rfl | hlow'
    · cases hstands.get.symm.trans hi
      exact ⟨a, ⟨ha, by simp [hafter], nofun⟩, nofun⟩
    · cases hskip.get.symm.trans hi
      exact ⟨a, ⟨ht ▸ hjump, rfl, fun _ => ⟨rfl, _, hlanding, by omega, by omega⟩⟩, nofun⟩
    · obtain ⟨own, hown, hP⟩ := hinside k i hlow' hhigh' hi
      exact ⟨own, hown.mono (by omega) (by omega), hP⟩
    · cases hback.get.symm.trans hi
      exact ⟨a, ⟨hend, rfl, nofun⟩, nofun⟩
    · cases hback.tail.get.symm.trans hi
      exact ⟨a, ⟨hjump, rfl, nofun⟩, fun _ => hland⟩
    · obtain ⟨own, hown, hP⟩ := hrest k i hlow' hhigh hi
      exact ⟨own, hown.mono (by omega) (Nat.le_refl _), hP⟩

end Along

end Build

end NwScript
