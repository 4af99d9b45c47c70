-- Deferred commands and their snapshots. In a function, a command needs nothing but what its
-- snapshot takes, so that it can run later on a frame that was rebuilt from it. While globals are
-- declared this fails: commands find the globals from the top of the stack, below what is taken.
import NwScript.Proofs.Machine.Gap
import NwScript.Proofs.Program.Constants

namespace NwScript

open Codegen

/-! ## Snapshots in code -/

def Op.snapshots : Op → Bool
  | .storeState _ _ => true
  | _ => false

/-- Every snapshot in the code is followed by a jump over a command, which goes straight on in a
frame that is right for the operands of the snapshot. -/
def Guarded (whole : Env) (right : Int → Int → Shape → Prop) (code : List Instruction) : Prop :=
  ∀ before i after globals locals, code = before ++ i :: after → i.op = .storeState globals locals →
    ∃ skip command retn land rest frame, after = skip :: (command ++ retn :: land :: rest) ∧
      skip.target = some land.handle ∧ Straight whole (fun _ _ => True) frame command frame ∧
      right globals locals frame

section Guarded

variable {env whole : Env} {right : Int → Int → Shape → Prop} {n m : Handle}
  {code more : List Instruction} {i : Instruction}

theorem guarded_nil : Guarded whole right [] := by
  intro before i after _ _ hsplit
  simp at hsplit

theorem Guarded.append (h : Guarded whole right code) (h' : Guarded whole right more) :
    Guarded whole right (code ++ more) := by
  intro before i after globals locals hsplit hop
  rcases List.append_eq_append_iff.mp hsplit with ⟨x, rfl, hx⟩ | ⟨x, hx, hrest⟩
  · exact h' x i after globals locals hx hop
  · cases x with
    | nil =>
      exact h' [] i after globals locals hrest.symm hop
    | cons j x =>
      obtain ⟨rfl, rfl⟩ : i = j ∧ after = x ++ more := by simpa using hrest
      obtain ⟨skip, command, retn, land, rest, frame, rfl, h⟩ := h before i x globals locals hx hop
      exact ⟨skip, command, retn, land, rest ++ more, frame, by simp, h⟩

theorem guarded_flatMap {α : Type} {xs : List α} {f : α → List Instruction}
    (h : ∀ x ∈ xs, Guarded whole right (f x)) : Guarded whole right (xs.flatMap f) := by
  induction xs with
  | nil => exact guarded_nil
  | cons x xs ih =>
    rw [List.flatMap_cons]
    exact (h x List.mem_cons_self).append (ih fun y hy => h y (List.mem_cons_of_mem _ hy))

theorem Guarded.mono {right' : Int → Int → Shape → Prop}
    (hright : ∀ globals locals frame, right globals locals frame → right' globals locals frame)
    (h : Guarded whole right code) : Guarded whole right' code := by
  intro before i after globals locals hsplit hop
  obtain ⟨skip, command, retn, land, rest, frame, hafter, htarget, hstraight, hframe⟩ :=
    h before i after globals locals hsplit hop
  exact ⟨skip, command, retn, land, rest, frame, hafter, htarget, hstraight,
    hright globals locals frame hframe⟩

theorem guarded_plain (hi : i.op.snapshots = false)
    (h : Guarded whole right code) : Guarded whole right (i :: code) := by
  intro before j after globals locals hsplit hop
  cases before with
  | nil =>
    cases hsplit
    rw [hop] at hi
    cases hi
  | cons _ before =>
    cases hsplit
    exact h before j after globals locals rfl hop

theorem guarded_numbered {ops : List Op} (h : ∀ op ∈ ops, op.snapshots = false) :
    Guarded whole right (numbered n ops) := by
  intro before i after globals locals hsplit hop
  have hmem : i ∈ numbered n ops := hsplit ▸ List.mem_append_right _ List.mem_cons_self
  have hno := h _ (numbered_op hmem)
  rw [hop] at hno
  cases hno

theorem guarded_pushing {v : Value} : Guarded whole right (numbered n (Op.pushing v)) := by
  apply guarded_numbered
  cases v <;> simp [Op.pushing, Op.snapshots]

theorem guarded_reserving {ks : List SlotKind} :
    Guarded whole right (numbered n (ks.map .reserve)) := by
  apply guarded_numbered
  simp [Op.snapshots]

theorem guarded_popping {k : Nat} : Guarded whole right (popping n k) := by
  unfold popping
  split
  · exact guarded_plain rfl guarded_nil
  · exact guarded_nil

theorem guarded_returning {height : Int} {k : Nat} :
    Guarded whole right (returning n height k) := by
  unfold returning
  split
  · exact guarded_plain rfl (guarded_plain rfl guarded_nil)
  · exact guarded_nil

/-- A snapshot with its command, and the code behind it. -/
theorem guarded_deferred {h jump retn land : Handle} {globals locals : Int} {frame : Shape}
    {command rest : List Instruction} (hstraight : Straight whole (fun _ _ => True) frame command
      frame) (hright : right globals locals frame) (hcommand : Guarded whole right command)
    (hrest : Guarded whole right rest) :
    Guarded whole right (⟨h, .storeState globals locals, none⟩ :: ⟨jump, .jump .jmp, some land⟩ ::
      (command ++ ⟨retn, .retn, none⟩ :: ⟨land, .nop, none⟩ :: rest)) := by
  intro before i after globals' locals' hsplit hop
  cases before with
  | nil =>
    cases hsplit
    cases hop
    exact ⟨_, command, _, _, rest, frame, rfl, rfl, hstraight, hright⟩
  | cons _ before =>
    rw [List.cons_append, List.cons.injEq] at hsplit
    exact guarded_plain rfl (hcommand.append (guarded_plain rfl (guarded_plain rfl hrest)))
      before i after globals' locals' hsplit.2 hop

/-! ### Expressions -/

theorem composite_not_snapshot {op : BinaryOp} {left right : Ty} {k : Nat} {c : Op}
    (h : op.composite? left right k = some c) : c.snapshots = false := by
  rcases composite_cases h with rfl | rfl <;> rfl

/-- A scope can be laid out on top of some slots. -/
def Scope.Fits (s : Scope) (env whole : Env) (below : Shape) : Prop :=
  ∃ temps, Outlined env whole s below temps

theorem Scope.Fits.grown {s : Scope} {below : Shape} (h : s.Fits env whole below) (k : Nat) :
    (s.grown k).Fits env whole below := by
  obtain ⟨temps, ho⟩ := h
  have hk : (k : Int) = (List.replicate k SlotKind.int).length := by simp
  exact ⟨_, ho.push hk⟩

/-- What the frames of snapshots have to be like: those of all scopes that can be laid out. -/
def Suits (env whole : Env) (below : Shape) (right : Int → Int → Shape → Prop) : Prop :=
  ∀ s temps globals locals, Outlined env whole s below temps → env.globalSize = .ok globals →
    s.fullSize env = .ok locals → right (-globals) locals (s.outline whole below temps)

variable {s s' : Scope} {below : Shape}

/-- A snapshot takes all globals that are known, and what the scope has on the stack. -/
theorem suits_outline (hp : env.PartOf whole) :
    Suits env whole below fun globals locals frame =>
      globals = (whole.globalKinds env.globals).length ∧ env.globalSize = .ok (-globals) ∧
        (frame.length : Int) = below.length + locals := by
  intro s temps globals locals ho hglobals hlocals
  obtain ⟨n, hn, rfl⟩ := globalSize_ok hglobals
  cases hp.total.symm.trans hn
  refine ⟨by omega, by simpa using hglobals, ?_⟩
  rw [ho.height hp hlocals, Scope.outline, List.length_append]
  omega

theorem emits_guarded (hp : env.PartOf whole) (hright : Suits env whole below right)
    {phrase : Phrase} {tys : List Ty} (h : Emits env s n phrase tys code m)
    (hs : s.Fits env whole below) : Guarded whole right code := by
  induction h with
  | literal | constant => exact guarded_pushing
  | vector _ _ _ ihx ihy ihz =>
    exact ((ihx hs).append (ihy (hs.grown 1))).append (ihz (hs.grown 2))
  | access => exact guarded_plain rfl guarded_nil
  | assign _ _ _ _ _ ih => exact (ih hs).append (guarded_plain rfl guarded_nil)
  | combine _ _ _ _ _ _ _ _ _ ih =>
    exact guarded_plain rfl ((ih (hs.grown _)).append
      (guarded_plain rfl (guarded_plain rfl guarded_nil)))
  | composite _ _ _ _ hc ihl ihr =>
    exact ((ihl hs).append (ihr (hs.grown _))).append
      (guarded_plain (composite_not_snapshot hc) guarded_nil)
  | binary _ _ _ _ _ _ _ ihl ihr =>
    exact ((ihl hs).append (ihr (hs.grown _))).append (guarded_plain rfl guarded_nil)
  | unary _ _ ih => exact (ih hs).append (guarded_plain rfl guarded_nil)
  | stepPre | stepPost => exact guarded_plain rfl (guarded_plain rfl guarded_nil)
  | callFunction _ _ _ _ _ ih =>
    exact (guarded_reserving.append (ih (hs.grown _))).append (guarded_plain rfl guarded_nil)
  | callRoutine _ _ _ _ _ _ _ ih => exact (ih hs).append (guarded_plain rfl guarded_nil)
  | noArguments => exact guarded_nil
  | pushed _ _ _ _ ihv ihr => exact (ihv hs).append (ihr (hs.grown _))
  | deferred _ hg hl hcommand hk _ ihc ihr =>
    obtain ⟨temps, ho⟩ := id hs
    have hall : Permits env whole below (fun _ => True) (fun _ _ => True) :=
      ⟨fun _ _ _ => trivial, fun _ _ _ => trivial, fun _ _ _ _ _ _ _ _ _ _ _ _ _ => trivial⟩
    have hstraight := emits_straight hp hall hcommand trivial temps ho
    rw [List.flatMap_singleton] at hstraight
    exact guarded_deferred (hstraight.append (straight_popping hall.plain (hp.sized hk).2))
      (hright _ temps _ _ ho hg hl) ((ihc hs).append guarded_popping) (ihr hs)

/-! ### Statements -/

theorem discards_guarded {e : Option Expr} (hp : env.PartOf whole)
    (hright : Suits env whole below right) (h : Discards env s n e code m)
    (hs : s.Fits env whole below) : Guarded whole right code := by
  cases h with
  | none => exact guarded_nil
  | some he _ => exact (emits_guarded hp hright he hs).append guarded_popping

theorem guards_guarded {e : Option Expr} {done : Handle} (hp : env.PartOf whole)
    (hright : Suits env whole below right) (h : Guards env s done n e code m)
    (hs : s.Fits env whole below) : Guarded whole right code := by
  cases h with
  | none => exact guarded_nil
  | some he => exact (emits_guarded hp hright he hs).append (guarded_plain rfl guarded_nil)

theorem declares_guarded {ty : Ty} {ds : List Declarator} {tss : List Shape}
    (hp : env.PartOf whole) (hright : Suits env whole below right)
    (h : Declares env ty s n ds s' code m) (ho : Outlined env whole s below ([] :: tss)) :
    Guarded whole right code := by
  induction h with
  | nil => exact guarded_nil
  | plain _ _ hk _ ih => exact guarded_reserving.append (ih (ho.declare (hp.sized hk).1).1)
  | @initialized s _ _ _ _ d _ _ k _ _ _ _ _ _ hk he _ _ ih =>
    have ho' : Outlined env whole (s.declared d.name ty k) below ([] :: tss) :=
      (ho.declare (hp.sized hk).1).1
    exact ((guarded_reserving.append (emits_guarded hp hright he ⟨_, ho'⟩)).append
      (guarded_plain rfl (guarded_plain rfl guarded_nil))).append (ih ho')

theorem tests_guarded {ty : Ty} {c : BinaryCode} {labels : List (SwitchLabel × Handle)}
    {default default' : Option Handle} (hp : env.PartOf whole)
    (hright : Suits env whole below right) (h : Tests env s ty c n labels default default' code m)
    (hs : s.Fits env whole below) : Guarded whole right code := by
  induction h with
  | nil => exact guarded_nil
  | case he _ ih =>
    exact guarded_plain rfl (((emits_guarded hp hright he (hs.grown 1)).append
      (guarded_plain rfl (guarded_plain rfl guarded_nil))).append ih)
  | default _ ih => exact ih

/-- The code of every statement is guarded. Below the frame there are the slots of the result, which
its commands do without. -/
theorem lays_guarded {frame : Frame} {piece : Piece} {flow : Flow} (hp : env.PartOf whole)
    (hsealed : env.sealed = true ∨ env.globals = []) (hright : Suits env whole [] right)
    (h : Lays env frame s n piece s' flow code m) {tss : List Shape}
    (ho : Outlined env whole s (whole.kinds frame.returnType) ([] :: tss)) :
    Guarded whole right code := by
  have hfits {s : Scope} {temps : List Shape}
      (ho : Outlined env whole s (whole.kinds frame.returnType) temps) : s.Fits env whole [] :=
    ⟨temps, ho.blocks, hsealed.imp_right .inl⟩
  have hvalue {s : Scope} {n m : Handle} {e : Expr} {ty : Ty} {code : List Instruction}
      {temps : List Shape} (h : Emits env s n (.value e) [ty] code m)
      (ho : Outlined env whole s (whole.kinds frame.returnType) temps) :
      Guarded whole right code := emits_guarded hp hright h (hfits ho)
  -- Most pieces end with one or two instructions that take no snapshot.
  have hone {i : Instruction} (hi : i.op.snapshots = false) : Guarded whole right [i] :=
    guarded_plain hi guarded_nil
  have htwo {i j : Instruction} (hi : i.op.snapshots = false) (hj : j.op.snapshots = false) :
      Guarded whole right [i, j] := guarded_plain hi (hone hj)
  induction h generalizing tss with
  | expr hd => exact discards_guarded hp hright hd (hfits ho)
  | declare hd => exact declares_guarded hp hright hd ⟨ho.blocks, hsealed.imp_right .inl⟩
  | block _ ih => exact ih (ho.enter rfl rfl).1
  | ifThen he _ ih =>
    exact (hvalue he ho).append (guarded_plain rfl ((ih (ho.enter rfl rfl).1).append (hone rfl)))
  | ifElse he _ _ ih₁ ih₂ =>
    have ho' := (ho.enter (b := {}) rfl rfl).1
    exact (hvalue he ho).append (guarded_plain rfl ((ih₁ ho').append
      (guarded_plain rfl (guarded_plain rfl ((ih₂ ho').append (hone rfl))))))
  | whileLoop he _ ih =>
    exact guarded_plain rfl ((hvalue he ho).append
      (guarded_plain rfl ((ih (ho.enter rfl rfl).1).append (htwo rfl rfl))))
  | doWhile _ he ih =>
    exact guarded_plain rfl ((ih (ho.enter rfl rfl).1).append
      (guarded_plain rfl ((hvalue he ho).append (htwo rfl rfl))))
  | forLoop hfirst hguard _ hlast ih =>
    exact (discards_guarded hp hright hfirst (hfits ho)).append (guarded_plain rfl
      (((guards_guarded hp hright hguard (hfits ho)).append (ih (ho.enter rfl rfl).1)).append
        (guarded_plain rfl ((discards_guarded hp hright hlast (hfits ho)).append
          (htwo rfl rfl)))))
  | @switch s _ _ _ _ _ _ _ _ _ _ _ _ _ he hc htests _ ih =>
    have hone' : (1 : Int) = ([.int] : Shape).length := rfl
    have hgrown := ho.push hone'
    exact ((hvalue he ho).append (tests_guarded hp hright htests (hfits hgrown))).append
      (guarded_plain rfl ((ih (hgrown.enter rfl rfl).1).append (htwo rfl rfl)))
  | breakOut | continueLoop | exit => exact htwo rfl rfl
  | exitWith _ he => exact ((hvalue he ho).append guarded_returning).append (htwo rfl rfl)
  | blockEnd => exact hone rfl
  | blockNext h _ ih₁ ih₂ => exact (ih₁ ho).append (ih₂ (lays_orderly hp rfl h tss ho).1)
  | blockReturned _ ih | armReturned _ ih => exact ih ho
  | noArms | armEnd => exact guarded_nil
  | arms _ _ ih₁ ih₂ => exact guarded_plain rfl ((ih₁ ho).append (ih₂ ho))
  | armNext _ _ ih₁ ih₂ => exact (ih₁ ho).append (ih₂ ho)

end Guarded

/-! ## Code without a base -/

/-- Nothing in the code is addressed from the base of the globals. -/
def Unbased (code : List Instruction) : Prop :=
  ∀ i ∈ code, ∀ offset size, i.op.operand? ≠ some (.bp, offset, size)

section Unbased

variable {env whole : Env} {n m : Handle} {s : Scope} {code more : List Instruction}
  {i : Instruction}

theorem unbased_nil : Unbased [] := nofun

theorem Unbased.append (h : Unbased code) (h' : Unbased more) : Unbased (code ++ more) :=
  List.forall_mem_append.mpr ⟨h, h'⟩

theorem unbased_plain (hi : i.op.operand? = none) (h : Unbased code) : Unbased (i :: code) := by
  refine List.forall_mem_cons.mpr ⟨fun offset size hop => ?_, h⟩
  rw [hi] at hop
  cases hop

theorem unbased_top {offset size : Int} (hi : i.op.operand? = some (.sp, offset, size))
    (h : Unbased code) : Unbased (i :: code) := by
  refine List.forall_mem_cons.mpr ⟨fun offset size hop => ?_, h⟩
  rw [hi] at hop
  cases hop

theorem unbased_numbered {ops : List Op} (h : ∀ op ∈ ops, op.operand? = none) :
    Unbased (numbered n ops) := by
  intro i hi offset size hop
  rw [h _ (numbered_op hi)] at hop
  cases hop

theorem unbased_pushing {v : Value} : Unbased (numbered n (Op.pushing v)) := by
  apply unbased_numbered
  cases v <;> simp [Op.pushing, Op.operand?]

theorem unbased_reserving {ks : List SlotKind} : Unbased (numbered n (ks.map .reserve)) := by
  apply unbased_numbered
  simp [Op.operand?]

theorem unbased_popping {k : Nat} : Unbased (popping n k) := by
  unfold popping
  split
  · exact unbased_top rfl unbased_nil
  · exact unbased_nil

theorem composite_operand {op : BinaryOp} {left right : Ty} {k : Nat} {c : Op}
    (h : op.composite? left right k = some c) : c.operand? = none := by
  rcases composite_cases h with rfl | rfl <;> rfl

/-- As long as the globals are incomplete, everything is found from the top of the stack. -/
theorem access_unsealed {path : Access} {r : Resolved} (hp : env.PartOf whole)
    (hu : env.sealed = false) (hr : resolveAccess env s path = .ok r) : r.anchor = .sp := by
  simp only [resolveAccess, except_bind_ok] at hr
  obtain ⟨r₀, hr₀, hf⟩ := hr
  rw [(follow_inside hp.laid hf).1]
  rcases resolveIn_found hr₀ with hsp | ⟨offset, hglobal⟩
  · exact hsp
  · obtain ⟨_, _, _, _, _, _, hanchor, _⟩ := resolveGlobal_found hp.total hglobal
    rw [hanchor, hu]
    rfl

theorem emits_unbased (hp : env.PartOf whole) (hu : env.sealed = false) {phrase : Phrase}
    {tys : List Ty} (h : Emits env s n phrase tys code m) : Unbased code := by
  -- What is addressed at all is a variable or a member of one.
  have hvariable {s : Scope} {path : Access} {r : Resolved} {i : Instruction}
      {code : List Instruction} {offset size : Int} (hr : resolveAccess env s path = .ok r)
      (hi : i.op.operand? = some (r.anchor, offset, size)) (h : Unbased code) :
      Unbased (i :: code) := by
    rw [access_unsealed hp hu hr] at hi
    exact unbased_top hi h
  induction h with
  | literal | constant => exact unbased_pushing
  | vector _ _ _ ihx ihy ihz => exact (ihx.append ihy).append ihz
  | access _ hr => exact hvariable hr rfl unbased_nil
  | assign _ _ _ hr _ ih => exact ih.append (hvariable hr rfl unbased_nil)
  | combine _ hr _ _ _ _ _ _ hr' ih =>
    exact hvariable hr rfl (ih.append (unbased_plain rfl (hvariable hr' rfl unbased_nil)))
  | composite _ _ _ _ hc ihl ihr =>
    exact (ihl.append ihr).append (unbased_plain (composite_operand hc) unbased_nil)
  | binary _ _ _ _ _ _ _ ihl ihr =>
    exact (ihl.append ihr).append (unbased_plain rfl unbased_nil)
  | unary _ _ ih => exact ih.append (unbased_plain rfl unbased_nil)
  | stepPre hr | stepPost hr => exact hvariable hr rfl (hvariable hr rfl unbased_nil)
  | callFunction _ _ _ _ _ ih =>
    exact (unbased_reserving.append ih).append (unbased_plain rfl unbased_nil)
  | callRoutine _ _ _ _ _ _ _ ih => exact ih.append (unbased_plain rfl unbased_nil)
  | noArguments => exact unbased_nil
  | pushed _ _ _ _ ihv ihr => exact ihv.append ihr
  | deferred _ _ _ _ _ _ ihc ihr =>
    exact unbased_plain rfl (unbased_plain rfl ((ihc.append unbased_popping).append
      (unbased_plain rfl (unbased_plain rfl ihr))))

end Unbased

/-! ## Commands in a stream -/

namespace Stream

/-- Whatever is addressed between two indices is within bounds: from the top of the stack, above the
lowest `low` slots, and from the base of the globals, among the last `globals` slots of these. -/
def Confined (stream : Stream) (shape : Nat → Shape) (first last : Nat) (low globals : Int) :
    Prop :=
  ∀ j i anchor offset size, first ≤ j → j < last → stream.code[j]? = some i →
    i.op.operand? = some (anchor, offset, size) → 0 ≤ size ∧ offset + size ≤ 0 ∧
      (anchor = .sp → low ≤ (shape j).length + offset) ∧ (anchor = .bp → -globals ≤ offset)

/-- The code between two indices runs in the same way on all stacks with the same `globals` slots at
the bottom and the same `locals` slots on top, whatever else is on them. So it can run on a stack of
these slots alone. -/
def RunsOn (stream : Stream) (env : Env) (first last : Nat) (globals locals : Int) : Prop :=
  ∀ alu outside (base frame rest rest' : List Cell) d, base.length = globals →
    frame.length = locals →
    Relation.ReflTransGen (stream.Goes env alu outside base.length) ⟨first, base ++ rest ++ frame⟩
      d →
    (first ≤ d.pc ∧ d.pc ≤ last) ∧ ∃ base' frame', d.stack = base' ++ rest ++ frame' ∧
      base'.length = base.length ∧
      Relation.ReflTransGen (stream.Goes env alu outside base.length)
        ⟨first, base ++ rest' ++ frame⟩ ⟨d.pc, base' ++ rest' ++ frame'⟩

/-- Between two indices, every instruction has its operands above the lowest `low` slots. -/
def StaysAbove (stream : Stream) (env : Env) (shape : Nat → Shape) (first last : Nat) (low : Int) :
    Prop :=
  ∀ j i, first ≤ j → j < last → stream.code[j]? = some i → ∃ own,
    stream.FindsAt env (fun x y => (x.length : Int) = low + y.length) shape first last j i own

theorem StaysAbove.confined {stream : Stream} {env : Env} {shape : Nat → Shape} {first last : Nat}
    {low globals : Int} {base : Shape} (h : stream.StaysAbove env shape first last low)
    (hg : env.globalShape? = some base)
    (hbase : ∀ j i offset size, first ≤ j → j < last → stream.code[j]? = some i →
      i.op.operand? = some (.bp, offset, size) → base.length ≤ globals) :
    stream.Confined shape first last low globals := by
  intro j i anchor offset size hlow hhigh hi hop
  obtain ⟨own, hown⟩ := h j i hlow hhigh hi
  obtain ⟨next, hnext⟩ := Option.isSome_iff_exists.mp hown.operands
  obtain ⟨hsize, hend, hstart⟩ := after_operand hg hnext hop
  have hrelated := hown.related
  refine ⟨hsize, hend, ?_, ?_⟩
  · rintro rfl
    simp only [Anchor.origin] at hstart
    omega
  · rintro rfl
    have := hbase j i offset size hlow hhigh hi hop
    simp only [Anchor.origin] at hstart
    omega

end Stream

theorem Guarded.at {whole : Env} {right : Int → Int → Shape → Prop} {code : List Instruction}
    {stream : Stream} {pc k : Nat} {i : Instruction} {globals locals : Int}
    (h : Guarded whole right code) (hs : stream.Stands pc code) (hi : stream.code[k]? = some i)
    (hlow : pc ≤ k) (hhigh : k < pc + code.length) (hop : i.op = .storeState globals locals) :
    ∃ skip command retn land rest frame,
      stream.Stands k (i :: skip :: (command ++ retn :: land :: rest)) ∧
      k + 4 + command.length ≤ pc + code.length ∧ skip.target = some land.handle ∧
      Straight whole (fun _ _ => True) frame command frame ∧ right globals locals frame := by
  obtain ⟨before, after, hcode, rfl⟩ := hs
  obtain ⟨j, rfl⟩ := Nat.le.dest hlow
  have hj : j < code.length := by omega
  have hget : code[j]? = some i := by
    rw [hcode, List.append_assoc, List.getElem?_append_right (by omega),
      List.getElem?_append_left (by omega)] at hi
    simpa using hi
  have hsplit : code = code.take j ++ i :: code.drop (j + 1) := by
    rw [List.getElem?_eq_getElem hj, Option.some.injEq] at hget
    rw [← hget]
    simp
  obtain ⟨skip, command, retn, land, rest, frame, hrest, htarget, hstraight, hright⟩ :=
    h _ i _ globals locals hsplit hop
  rw [hrest] at hsplit
  have hlength := congrArg List.length hsplit
  simp only [List.length_append, List.length_cons, List.length_take] at hlength
  refine ⟨skip, command, retn, land, rest, frame, ⟨before ++ code.take j, after, ?_, ?_⟩, ?_,
    htarget, hstraight, hright⟩
  · rw [hcode]
    conv => lhs; rw [hsplit]
    simp
  · simp only [List.length_append, List.length_take]
    omega
  · omega

namespace Build

section Commands

variable {stream : Stream} {whole : Env} {p : Program} {shape : Nat → Shape}
  {right : Int → Int → Shape → Prop} {code : List Instruction} {i : Instruction} {pc k e : Nat}
  {globals locals : Int}

/-- The command behind a snapshot finds shapes that are as much higher than those of its frame as
the first one is. -/
theorem Verified.deferred (hv : Verified whole stream p shape)
    (hn : (stream.code.map (·.handle)).Nodup) (h : Guarded whole right code)
    (hs : stream.Stands pc code) (hin : ∀ j, pc ≤ j → j < pc + code.length → p.Holds j)
    (hi : stream.code[k]? = some i) (hlow : pc ≤ k) (hhigh : k < pc + code.length)
    (hop : i.op = .storeState globals locals) :
    ∃ e frame, right globals locals frame ∧ e + 1 < pc + code.length ∧
      stream.DefersAt shape k e ∧
      stream.StaysAbove whole shape (k + 2) e ((shape k).length - frame.length) := by
  obtain ⟨skip, command, retn, land, rest, frame, hstands, hend, htarget, hstraight, hright⟩ :=
    h.at hs hi hlow hhigh hop
  have hlast : pc + code.length ≤ stream.code.length := by
    obtain ⟨before, after, hcode, rfl⟩ := hs
    simp only [hcode, List.length_append]
    omega
  have hdefers := (hv.skips hn hstands htarget hop (hin k hlow hhigh)).2
  obtain ⟨_, _, _, _, _, _, _, _, hstart, _⟩ := id hdefers
  refine ⟨_, frame, hright, by omega, hdefers, fun j i hlow' hhigh' hi => ?_⟩
  obtain ⟨_, hinside⟩ := hv.along (tracks_above whole ((shape k).length - frame.length)) hn
    hstraight hstands.tail.tail.left
    (fun j _ _ => ⟨hin j (by omega) (by omega), by omega⟩) (by rw [hstart]; omega)
  obtain ⟨own, hown, _⟩ := hinside j i hlow' hhigh' hi
  exact ⟨own, hown⟩

/-- A command that stays above what is below its frame can do without it. -/
theorem Verified.runsOn (hv : Verified whole stream p shape)
    (hin : ∀ j, k + 2 ≤ j → j < e → p.Holds j) (hd : stream.DefersAt shape k e)
    (h : stream.StaysAbove whole shape (k + 2) e ((shape k).length - locals)) {base : Shape}
    (hg : whole.globalShape? = some base) (hglobals : globals = base.length) :
    stream.RunsOn whole (k + 2) e globals locals := by
  obtain ⟨_, retn, _, _, _, horder, hretn, hop, hstart, _⟩ := hd
  have hlast := (List.getElem?_eq_some_iff.mp hretn).1
  have hcontained : stream.SelfContained whole (k + 2) e
      fun j => ((shape j).length - ((shape k).length - locals)).toNat := by
    refine ⟨by omega, fun j i hlow hhigh hi => ?_, retn, hretn, hop⟩
    obtain ⟨own, hown⟩ := h j i hlow hhigh hi
    obtain ⟨next, hnext⟩ := Option.isSome_iff_exists.mp hown.operands
    have hrelated := hown.related
    have hpc : p.Holds j ∧ j + 1 < stream.code.length := ⟨hin j hlow hhigh, by omega⟩
    refine ⟨own, next, by omega, hnext, fun hfalls => ?_, fun hbranches => ?_⟩
    · have := hv.next (tracks_above whole _) hi hpc hfalls hrelated hnext
      omega
    · obtain ⟨hjmp, t, hlanding, hlow', hhigh'⟩ := hown.branches hbranches
      simp only [Instruction.after?, hjmp, Option.some.injEq] at hnext
      refine ⟨hjmp, t, hlanding, hlow', hhigh', ?_⟩
      rw [hv.lands hi hpc.1 hjmp hlanding, ← hnext]
      omega
  intro alu outside base frame rest rest' d hbase hframe hrun
  obtain ⟨hpc, base', frame', hstack, hlength, _, hsame⟩ :=
    hcontained.runs hg (by omega) (by rw [hstart]; omega) hrun
  exact ⟨hpc, base', frame', hstack, hlength, hsame rest'⟩

end Commands

/-! ## Programs -/

section Programs

variable {engine : Engine} {items : Script} {env env' whole : Env} {p : Program} {s : Session}
  {n m : Handle} {code : List Instruction}

/-- Where a global is declared, a snapshot misses the globals below it, but not more than that. -/
theorem global_guarded {g : GlobalDef} (hp : (env.withGlobal g).PartOf whole)
    (hu : env.sealed = false) (h : GlobalCode (env.withGlobal g) n g code m) :
    Guarded whole (fun globals locals frame => (frame.length : Int) = globals + locals) code ∧
      Unbased code := by
  cases h with
  | plain => exact ⟨guarded_reserving, unbased_reserving⟩
  | initialized _ _ _ hvalue =>
    have hfits := (@outlined_empty (env.withGlobal g) whole _ (.inr (.inr rfl))).1
    have hguarded := emits_guarded hp (suits_outline hp) hvalue ⟨_, hfits⟩
    refine ⟨guarded_reserving.append ((hguarded.mono fun globals locals frame hframe => ?_).append
      (guarded_plain rfl (guarded_plain rfl guarded_nil))), unbased_reserving.append
      ((emits_unbased hp hu hvalue).append (unbased_top rfl (unbased_top rfl unbased_nil)))⟩
    rw [hframe.1, hframe.2.2]

theorem globals_guarded (h : GlobalsCode env n items env' code m) (he : Early env whole)
    (hslots : ∀ ty ks, env'.structs.slots ty = .ok ks → whole.structs.slots ty = .ok ks)
    (hglobals : env'.globals <+: whole.globals)
    (hshape : whole.globalShape? = some (whole.globalKinds whole.globals)) :
    Guarded whole (fun globals locals frame => (frame.length : Int) = globals + locals) code ∧
      Unbased code := by
  induction h with
  | nil => exact ⟨guarded_nil, unbased_nil⟩
  | skip _ _ _ ih => exact ih he hslots hglobals
  | struct hd _ ih => exact ih (he.define hd) hslots hglobals
  | global hg hmore ih =>
    obtain ⟨ks, hks⟩ := slots_of_globalCode hg
    have he' := he.withGlobal hks
    obtain ⟨_, hlater, hkept⟩ := globalsCode_early hmore he'
    have hp := he'.partOf (fun ty ks h => hslots ty ks (hlater ty ks h))
      (hkept.trans hglobals) hshape
    obtain ⟨hfirst, hfirst'⟩ := global_guarded hp he.unsealed hg
    obtain ⟨hrest, hrest'⟩ := ih he' hslots hglobals
    exact ⟨hfirst.append hrest, hfirst'.append hrest'⟩

theorem Assembled.stream_nodup (h : Assembled engine items env p s) :
    (s.out.stream.code.map (·.handle)).Nodup := by
  rw [h.code_eq]
  exact h.nodup

theorem Assembled.globals_guarded (h : Assembled engine items env p s) (ht : engine.Typed) :
    Guarded s.env (fun globals locals frame => (frame.length : Int) = globals + locals)
      p.globals ∧ Unbased p.globals := by
  obtain ⟨n, hglobals⟩ := h.globals
  obtain ⟨hengine, _⟩ := h.sees
  obtain ⟨_, hshape⟩ := h.early ht
  have hsame : s.env.globals = env.globals ∧ s.env.structs = env.structs := by
    rw [h.env_eq]
    exact ⟨rfl, rfl⟩
  exact Build.globals_guarded hglobals (early_empty ht hengine) (by simp [hsame.2])
    (by simp [hsame.1]) hshape

/-- In functions, a snapshot takes the whole frame. -/
theorem Assembled.functions_guarded (h : Assembled engine items env p s) (ht : engine.Typed) :
    Guarded s.env (fun globals locals frame =>
      globals = (s.env.globalKinds s.env.globals).length ∧ s.env.globalSize = .ok (-globals) ∧
        frame.length = locals)
      (p.segments.flatMap Segment.code) := by
  obtain ⟨mid, hsegs, henv⟩ := h.segmented
  obtain ⟨_, _, _, hsealed⟩ := h.sees
  refine guarded_flatMap fun g hg => guarded_plain rfl ?_
  cases hb : g.body with
  | none => exact guarded_nil
  | some code =>
    obtain ⟨f, _, hc⟩ := hsegs.origin g hg (by simp [hb])
    obtain ⟨fs, _, _, _, _, retn, _, first, hbody, hgrows, hbinds, hlays⟩ := h.laid hc
    cases hb.symm.trans hbody
    rw [henv, h.table] at hgrows
    have hp := h.partOf ht hgrows
    obtain ⟨hempty, _⟩ := @outlined_empty { s.env with functions := fs } s.env
      (s.env.kinds g.signature.returnType) (hsealed.imp_right .inl)
    obtain ⟨_, ho, _⟩ := binds_outlined hp hbinds hempty
    have hfirst := lays_guarded hp hsealed (suits_outline hp) hlays ho
    refine (hfirst.mono fun globals locals frame hframe => ?_).append
      (guarded_plain rfl guarded_nil)
    obtain ⟨hbase, hsize, hheight⟩ := hframe
    refine ⟨hbase, Eq.trans (globalSize_same ?_ ?_) hsize, by simpa using hheight⟩ <;> rfl

theorem Starts.snapshots {segs : List Segment} {start : List Instruction} (h : Starts segs start)
    {i : Instruction} (hi : i ∈ start) : i.op.snapshots = false := by
  cases h <;> simp only [List.mem_cons, List.not_mem_nil, or_false] at hi
  · rcases hi with rfl | rfl <;> rfl
  · rcases hi with rfl | rfl | rfl <;> rfl

theorem Assembled.start_plain (h : Assembled engine items env p s) {i : Instruction}
    (hi : i ∈ p.close ++ p.start) : i.op.snapshots = false := by
  rcases List.mem_append.mp hi with hi | hi
  · have hmem : i.op ∈ p.close.map (·.op) := List.mem_map.mpr ⟨i, hi, rfl⟩
    rw [h.close] at hmem
    split at hmem
    · cases hmem
    · rw [List.mem_singleton.mp hmem]
      rfl
  · exact h.start.snapshots hi

/-- A snapshot stands among the globals or in a function. -/
theorem Assembled.snapshot_at (h : Assembled engine items env p s) {k : Nat} {i : Instruction}
    (hi : s.out.stream.code[k]? = some i) (hop : i.op.snapshots = true) :
    k < p.globals.length ∨ (p.head ++ p.start).length ≤ k := by
  by_cases hlow : p.globals.length ≤ k
  · refine .inr (Nat.le_of_not_lt fun hhigh => ?_)
    have hsplit : p.head ++ p.start = p.globals ++ (p.close ++ p.start) := by simp [Program.head]
    rw [h.code_eq, Program.code, List.getElem?_append_left hhigh, hsplit,
      List.getElem?_append_right hlow] at hi
    rw [h.start_plain (List.mem_of_getElem? hi)] at hop
    cases hop
  · exact .inl (Nat.lt_of_not_le hlow)

section Verified

variable {shape : Nat → Shape} {k : Nat} {i : Instruction} {globals locals : Int}

/-- Where globals are declared, commands stay above the globals that their snapshot counts. -/
theorem Assembled.global_commands (h : Assembled engine items env p s) (ht : engine.Typed)
    (hv : Verified s.env s.out.stream p shape) (hi : s.out.stream.code[k]? = some i)
    (hop : i.op = .storeState globals locals) (hk : k < p.globals.length) :
    ∃ e, s.out.stream.DefersAt shape k e ∧ e < p.globals.length ∧
      s.out.stream.Confined shape (k + 2) e ((shape k).length - (globals + locals)) globals := by
  obtain ⟨hguarded, hunbased⟩ := h.globals_guarded ht
  have hsplit : s.out.stream.code =
      p.globals ++ (p.close ++ p.start ++ p.segments.flatMap Segment.code) := by
    simp [h.code_eq, Program.code, Program.head]
  have hstands : s.out.stream.Stands 0 p.globals := ⟨[], _, hsplit, rfl⟩
  have hin : ∀ j, 0 ≤ j → j < 0 + p.globals.length → p.Holds j := by
    intro j _ hj
    simp only [Program.Holds, Program.head, List.length_append]
    omega
  obtain ⟨e, frame, hframe, hend, hdefers, hstays⟩ :=
    hv.deferred h.stream_nodup hguarded hstands hin hi (Nat.zero_le _) (by omega) hop
  rw [hframe] at hstays
  refine ⟨e, hdefers, by omega, hstays.confined (h.early ht).2 ?_⟩
  intro j x offset size _ hhigh hx hbase
  rw [hsplit, List.getElem?_append_left (by omega)] at hx
  exact absurd hbase (hunbased x (List.mem_of_getElem? hx) offset size)

/-- In functions, commands stay in their snapshot and run on it alone. -/
theorem Assembled.function_commands (h : Assembled engine items env p s) (ht : engine.Typed)
    (hv : Verified s.env s.out.stream p shape) (hi : s.out.stream.code[k]? = some i)
    (hop : i.op = .storeState globals locals) (hk : (p.head ++ p.start).length ≤ k) :
    s.env.globalSize = .ok (-globals) ∧
      ∃ e, s.out.stream.DefersAt shape k e ∧
        s.out.stream.Confined shape (k + 2) e ((shape k).length - locals) globals ∧
        s.out.stream.RunsOn s.env (k + 2) e globals locals := by
  obtain ⟨_, hshape⟩ := h.early ht
  have hstands : s.out.stream.Stands (p.head ++ p.start).length
      (p.segments.flatMap Segment.code) := ⟨_, [], by simp [h.code_eq, Program.code], rfl⟩
  have hlast : k < (p.head ++ p.start).length + (p.segments.flatMap Segment.code).length := by
    have := (List.getElem?_eq_some_iff.mp hi).1
    rwa [h.code_eq, Program.code, List.length_append] at this
  obtain ⟨e, frame, ⟨hbase, hsize, hframe⟩, hend, hdefers, hstays⟩ :=
    hv.deferred h.stream_nodup (h.functions_guarded ht) hstands (fun j hlow _ => .inr hlow) hi hk
      hlast hop
  rw [hframe] at hstays
  exact ⟨hsize, e, hdefers, hstays.confined hshape fun _ _ _ _ _ _ _ _ => by omega,
    hv.runsOn (fun j hlow _ => .inr (by omega)) hdefers hstays hshape hbase⟩

end Verified

/-- In a function, deferred commands use nothing but their snapshot. However the program verifies,
what they address is in the part of the frame that the snapshot takes, among the values that they
have pushed since, or among the globals; so they run on the snapshot as they would have run in the
function. Where globals are declared nothing is found from the base of the globals yet, and commands
also reach below what their snapshot takes of the frame: down to the globals that it counts. -/
theorem commands_use_snapshots {setup : Setup} {script : Script} {u : Unit} (ht : engine.Typed)
    (h : Build.script setup script { env := { engine } } = .ok u s) :
    ∃ items p, (Expansion.expand setup [] script).items = .ok items ∧
      LaidOut items s.out.stream s.entryIndex p ∧ Unbased p.globals ∧
      (∃ shape, Verified s.env s.out.stream p shape) ∧
      ∀ shape, Verified s.env s.out.stream p shape → ∀ k i globals locals,
        s.out.stream.code[k]? = some i → i.op = .storeState globals locals →
        ∃ e, s.out.stream.DefersAt shape k e ∧
          (k < p.globals.length ∧ e < p.globals.length ∧
              s.out.stream.Confined shape (k + 2) e ((shape k).length - (globals + locals))
                globals ∨
            (p.head ++ p.start).length ≤ k ∧ s.env.globalSize = .ok (-globals) ∧
              s.out.stream.Confined shape (k + 2) e ((shape k).length - locals) globals ∧
              s.out.stream.RunsOn s.env (k + 2) e globals locals) := by
  obtain ⟨items, env, p, hitems, ha⟩ := script_assembled h
  obtain ⟨_, _, _, _, hsketch⟩ := ha.sketch ht
  refine ⟨items, p, hitems, ha.laidOut, (ha.globals_guarded ht).2,
    ⟨_, hsketch.verified ha.code_eq ha.stream_nodup⟩, ?_⟩
  intro shape hv k i globals locals hi hop
  rcases ha.snapshot_at hi (by rw [hop]; rfl) with hk | hk
  · obtain ⟨e, hdefers, hend, hconfined⟩ := ha.global_commands ht hv hi hop hk
    exact ⟨e, hdefers, .inl ⟨hk, hend, hconfined⟩⟩
  · obtain ⟨hsize, e, hdefers, hconfined, hruns⟩ := ha.function_commands ht hv hi hop hk
    exact ⟨e, hdefers, .inr ⟨hk, hsize, hconfined, hruns⟩⟩

end Programs

theorem op_at {code : List Instruction} {ops : List Op} {k : Nat} {op : Op}
    (h : code.map (·.op) = ops) (hk : ops[k]? = some op) :
    ∃ i, code[k]? = some i ∧ i.op = op := by
  rw [← h, List.getElem?_map] at hk
  exact Option.map_eq_some_iff.mp hk

def reminding : Engine :=
  { routines :=
      [⟨.void, "PrintInteger", [⟨.int, "n", none⟩]⟩,
       ⟨.int, "Defer", [⟨.action, "command", none⟩]⟩] }

/-- A function that defers a command, which defers another one. -/
def reminder : Script :=
  let sum : Expr := .binary .add (.access ⟨"n", []⟩) (.access ⟨"count", []⟩)
  let later : Expr := .call "Defer" [.call "PrintInteger" [sum]]
  [.global ⟨false, .int, "count", none⟩,
   .function ⟨⟨.void, "main", []⟩,
     [.declare .int [⟨"n", some (.literal (.int 3))⟩],
      .expr (.call "Defer" [.call "PrintInteger" [later]])]⟩]

/-- The inner command of the function runs on a global and a local alone. -/
theorem reminder_uses_snapshot :
    ∃ s, Build.script {} reminder { env := { engine := reminding } } = .ok () s ∧
      s.out.stream.code.map (·.op) =
        [.reserve .int, .saveBp, .jump .jsr, .retn, .nop, .reserve .int, .constI 3,
         .copyDown .sp (-2) 1, .moveSp (-1), .storeState 1 1, .jump .jmp, .storeState 1 1,
         .jump .jmp, .copyTop .sp (-1) 1, .copyTop .bp (-1) 1, .binary .addII, .action 0 1, .retn,
         .nop, .action 1 1, .action 0 1, .retn, .nop, .action 1 1, .moveSp (-1), .moveSp (-1),
         .retn] ∧
      ∃ p shape e, Verified s.env s.out.stream p shape ∧ s.out.stream.DefersAt shape 11 e ∧
        s.out.stream.Confined shape 13 e ((shape 11).length - 1) 1 ∧
        s.out.stream.RunsOn s.env 13 e 1 1 := by
  refine (compiles_to_of_gives rfl (by decide +kernel)).imp fun s ⟨hs, hops⟩ => ⟨hs, hops, ?_⟩
  obtain ⟨items, p, hitems, hlaid, _, ⟨shape, hv⟩, hall⟩ :=
    commands_use_snapshots (by simp [Engine.Typed, reminding]) hs
  obtain ⟨i, hi, hop⟩ := @op_at _ _ 11 _ hops rfl
  obtain ⟨e, hdefers, ⟨hk, _⟩ | ⟨_, _, hconfined, hruns⟩⟩ := hall shape hv 11 i 1 1 hi hop
  · -- The globals end before they are closed.
    obtain ⟨j, hj, hsave⟩ := @op_at _ _ 1 _ hops rfl
    rw [hlaid.stands, Program.code, Program.head, List.append_assoc, List.append_assoc,
      List.getElem?_append_left (by omega)] at hj
    have hmem := List.mem_append_left p.start (List.mem_of_getElem? hj)
    exact absurd hsave (hlaid.base j (List.mem_append_left _ hmem))
  · exact ⟨p, shape, e, hv, hdefers, hconfined, hruns⟩

/-- A global whose first value comes with a deferred command, which uses the global before it. -/
def belated : Script :=
  [.global ⟨false, .int, "a", some (.literal (.int 5))⟩,
   .global ⟨false, .int, "b", some (.call "Defer" [.call "PrintInteger" [.access ⟨"a", []⟩]])⟩,
   .function ⟨⟨.void, "main", []⟩, []⟩]

/-- The snapshot takes nothing from the top of the stack, but this is where the command looks for
the global. -/
theorem belated_reaches_below :
    ∃ s, Build.script {} belated { env := { engine := reminding } } = .ok () s ∧
      s.out.stream.code.map (·.op) =
        [.reserve .int, .constI 5, .copyDown .sp (-2) 1, .moveSp (-1), .reserve .int,
         .storeState 2 0, .jump .jmp, .copyTop .sp (-2) 1, .action 0 1, .retn, .nop, .action 1 1,
         .copyDown .sp (-2) 1, .moveSp (-1), .saveBp, .jump .jsr, .retn, .nop, .moveSp 0, .retn] ∧
      ∀ shape e, s.out.stream.DefersAt shape 5 e →
        ¬s.out.stream.Confined shape 7 e ((shape 5).length - 0) 2 := by
  refine (compiles_to_of_gives rfl (by decide +kernel)).imp fun s ⟨hs, hops⟩ => ⟨hs, hops, ?_⟩
  rintro shape e ⟨_, retn, _, _, _, horder, hretn, hop, hstart, _⟩ hconfined
  obtain ⟨i, hi, hread⟩ := @op_at _ _ 7 _ hops rfl
  have hne : e ≠ 7 := by
    rintro rfl
    cases hi.symm.trans hretn
    rw [hread] at hop
    cases hop
  obtain ⟨_, _, hlow, _⟩ :=
    hconfined 7 i .sp (-2) 1 (Nat.le_refl _) (by omega) hi (by rw [hread]; rfl)
  have := hlow rfl
  rw [hstart] at this
  omega

/-- An engine with a constant that counts as a vector, but has an int for its value. -/
def uneven : Engine :=
  { routines :=
      [⟨.void, "PrintInteger", [⟨.int, "n", none⟩]⟩,
       ⟨.void, "Later", [⟨.vector, "place", none⟩, ⟨.action, "command", none⟩]⟩],
    constants := [⟨.vector, "ORIGIN", .int 0⟩] }

def misplaced : Script :=
  [.function ⟨⟨.void, "main", []⟩,
     [.declare .int [⟨"n", some (.literal (.int 3))⟩],
      .expr (.call "Later" [.access ⟨"ORIGIN", []⟩, .call "PrintInteger" [.access ⟨"n", []⟩]])]⟩]

/-- The types of the engine's constants have to be right: with this one, the snapshot takes four
slots where two are on the stack, and the command reads the lowest of these four. -/
theorem misplaced_overruns_frame :
    ∃ s, Build.script {} misplaced { env := { engine := uneven } } = .ok () s ∧
      s.out.stream.code.map (·.op) =
        [.jump .jsr, .retn, .nop, .reserve .int, .constI 3, .copyDown .sp (-2) 1, .moveSp (-1),
         .constI 0, .storeState 0 4, .jump .jmp, .copyTop .sp (-4) 1, .action 0 1, .retn, .nop,
         .action 1 2, .moveSp (-1), .retn] ∧
      ∀ alu, Op.effects alu 0
        [.reserve .int, .constI 3, .copyDown .sp (-2) 1, .moveSp (-1), .constI 0] [] =
          some [.int 3, .int 0] := by
  refine (compiles_to_of_gives rfl ?_).imp fun s h => ⟨h.1, h.2, fun alu => rfl⟩
  decide +kernel

end Build

end NwScript
