-- Code in order: shapes for instructions one behind the other, each of which is what the one before
-- leaves, or what the jumps to it leave. Such code can be put together from parts.
import NwScript.Proofs.Shape.Basic

namespace NwScript

/-- An instruction with the shape that it finds. -/
structure Spot where
  instr : Instruction
  shape : Shape

/-- A jump to the handle arrives with the shape that is found there. -/
def Spotted (spots : List Spot) (target : Handle) (shape : Shape) : Prop :=
  ∃ x ∈ spots, x.instr.handle = target ∧ x.shape = shape

/-- Instructions behind which control goes on in any case. -/
def Op.proceeds : Op → Bool
  | .jump .jsr => true
  | .jump _ | .retn | .storeState _ _ => false
  | _ => true

/-! ## Chains -/

/-- `Chain env aims a spots b`: the code finds the shape `a` and leaves `b`, and jumps arrive where
their shape is expected. Nothing comes from a jump or a return to the instruction behind it, which
may find any shape. A deferred command finds what the instruction before it has found, and so does
its return. -/
inductive Chain (env : Env) (aims : Handle → Shape → Prop) : Shape → List Spot → Shape → Prop
  | nil {a : Shape} : Chain env aims a [] a
  | plain {i : Instruction} {a next b : Shape} {rest : List Spot} :
      i.op.proceeds = true → i.after? env a = some next → Chain env aims next rest b →
      Chain env aims a (⟨i, a⟩ :: rest) b
  | branch {i : Instruction} {target : Handle} {a next b : Shape} {rest : List Spot} :
      i.op = .jump .jz ∨ i.op = .jump .jnz → i.target = some target →
      i.after? env a = some next → aims target next → Chain env aims next rest b →
      Chain env aims a (⟨i, a⟩ :: rest) b
  | jump {h target : Handle} {a next b : Shape} {rest : List Spot} :
      aims target a → Chain env aims next rest b →
      Chain env aims a (⟨⟨h, .jump .jmp, some target⟩, a⟩ :: rest) b
  | deferred {h jump retn land : Handle} {globals locals : Int} {a b : Shape}
      {command rest : List Spot} :
      Instruction.after? env ⟨h, .storeState globals locals, none⟩ a = some a →
      Chain env aims a command a → aims land a → Chain env aims a rest b →
      Chain env aims a (⟨⟨h, .storeState globals locals, none⟩, a⟩ ::
        ⟨⟨jump, .jump .jmp, some land⟩, a⟩ :: (command ++
          ⟨⟨retn, .retn, none⟩, a⟩ :: ⟨⟨land, .nop, none⟩, a⟩ :: rest)) b

section Chains

variable {env : Env} {aims aims' : Handle → Shape → Prop} {a b c : Shape} {spots more : List Spot}

theorem Chain.append (h : Chain env aims a spots b) (h' : Chain env aims b more c) :
    Chain env aims a (spots ++ more) c := by
  induction h with
  | nil => exact h'
  | plain hop ha _ ih => exact .plain hop ha (ih h')
  | branch hop ht ha haim _ ih => exact .branch hop ht ha haim (ih h')
  | jump haim _ ih => exact .jump haim (ih h')
  | @deferred _ jump retn _ _ _ _ _ _ _ ha hc haim _ _ ih =>
    have hall := @Chain.deferred _ _ _ jump retn _ _ _ _ _ _ _ ha hc haim (ih h')
    simpa using hall

theorem Chain.mono (haims : ∀ t x, aims t x → aims' t x) (h : Chain env aims a spots b) :
    Chain env aims' a spots b := by
  induction h with
  | nil => exact .nil
  | plain hop ha _ ih => exact .plain hop ha ih
  | branch hop ht ha haim _ ih => exact .branch hop ht ha (haims _ _ haim) ih
  | jump haim _ ih => exact .jump (haims _ _ haim) ih
  | deferred ha _ haim _ ihc ih => exact .deferred ha ihc (haims _ _ haim) ih

/-! ## What holds at every instruction -/

/-- The shape that comes first in some code, or right behind it. -/
def entering (spots : List Spot) (behind : Shape) : Shape :=
  (spots.head?.map Spot.shape).getD behind

/-- The instruction finds its operands, and control takes what it leaves to the instruction behind
it or to where it jumps. -/
def Spot.Leads (env : Env) (aims : Handle → Shape → Prop) (x : Spot) (behind : Shape) : Prop :=
  ∃ next, x.instr.after? env x.shape = some next ∧
    (x.instr.op.fallsThrough = true → behind = next) ∧
    (x.instr.op.branches = true → ∃ target, x.instr.target = some target ∧ aims target next)

def Linked (env : Env) (aims : Handle → Shape → Prop) : List Spot → Shape → Prop
  | [], _ => True
  | x :: rest, behind => x.Leads env aims (entering rest behind) ∧ Linked env aims rest behind

theorem entering_append : entering (spots ++ more) b = entering spots (entering more b) := by
  cases spots <;> rfl

theorem linked_append :
    Linked env aims (spots ++ more) b ↔
      Linked env aims spots (entering more b) ∧ Linked env aims more b := by
  induction spots with
  | nil => simp [Linked]
  | cons x rest ih => simp [Linked, ih, entering_append, and_assoc]

theorem Linked.mono (haims : ∀ t x, aims t x → aims' t x) (h : Linked env aims spots b) :
    Linked env aims' spots b := by
  induction spots with
  | nil => trivial
  | cons x rest ih =>
    obtain ⟨⟨next, ha, hf, hb⟩, hrest⟩ := h
    refine ⟨⟨next, ha, hf, fun hop => ?_⟩, ih hrest⟩
    obtain ⟨target, ht, haim⟩ := hb hop
    exact ⟨target, ht, haims _ _ haim⟩

theorem Chain.entering (h : Chain env aims a spots b) : entering spots b = a := by
  cases h <;> rfl

theorem Chain.linked (h : Chain env aims a spots b) : Linked env aims spots b := by
  induction h with
  | nil => trivial
  | @plain i _ next _ _ hop ha hrest ih =>
    refine ⟨⟨next, ha, fun _ => hrest.entering, fun hb => ?_⟩, ih⟩
    cases hi : i.op with
    | jump c => cases c <;> simp_all [Op.proceeds, Op.branches]
    | _ => simp [hi, Op.branches] at hb
  | branch hop ht ha haim hrest ih =>
    exact ⟨⟨_, ha, fun _ => hrest.entering, fun _ => ⟨_, ht, haim⟩⟩, ih⟩
  | jump haim _ ih => exact ⟨⟨_, rfl, nofun, fun _ => ⟨_, rfl, haim⟩⟩, ih⟩
  | @deferred _ _ _ _ _ _ a _ command rest ha hc haim hrest ihc ih =>
    refine ⟨⟨_, ha, fun _ => rfl, nofun⟩, ⟨_, rfl, nofun, fun _ => ⟨_, rfl, haim⟩⟩, ?_⟩
    rw [linked_append]
    exact ⟨ihc, ⟨_, rfl, nofun, nofun⟩, ⟨_, rfl, fun _ => hrest.entering, nofun⟩, ih⟩

end Chains

/-! ## Deferred commands -/

/-- A deferred command: what comes before it jumps behind its return, and it finds and leaves the
same shape. -/
def Defers (spots : List Spot) (store retn : Spot) : Prop :=
  ∃ l jump command land r, spots = l ++ store :: jump :: (command ++ retn :: land :: r) ∧
    jump.instr.op = .jump .jmp ∧ jump.instr.target = some land.instr.handle ∧
    retn.instr.op = .retn ∧ entering command retn.shape = store.shape ∧ retn.shape = store.shape

/-- A snapshot of the state is followed by a command, and a return ends one. -/
def Paired (spots : List Spot) (x : Spot) : Prop :=
  (∀ globals locals, x.instr.op = .storeState globals locals → ∃ y, Defers spots x y) ∧
    (x.instr.op = .retn → ∃ y, Defers spots y x)

section Commands

variable {env : Env} {aims : Handle → Shape → Prop} {a b : Shape} {spots : List Spot} {x y : Spot}

theorem Defers.within (h : Defers spots x y) (l r : List Spot) : Defers (l ++ spots ++ r) x y := by
  obtain ⟨l', jump, command, land, r', rfl, h⟩ := h
  exact ⟨l ++ l', jump, command, land, r' ++ r, by simp, h⟩

theorem Paired.within (h : Paired spots x) (l r : List Spot) : Paired (l ++ spots ++ r) x :=
  ⟨fun g n hop => (h.1 g n hop).imp fun _ hy => hy.within l r,
    fun hop => (h.2 hop).imp fun _ hy => hy.within l r⟩

theorem Chain.paired (h : Chain env aims a spots b) : ∀ x ∈ spots, Paired spots x := by
  have hfirst {x : Spot} {rest : List Spot} (hs : ∀ g n, x.instr.op ≠ .storeState g n)
      (hr : x.instr.op ≠ .retn) (ih : ∀ x ∈ rest, Paired rest x) :
      ∀ y ∈ x :: rest, Paired (x :: rest) y := by
    rintro y (_ | ⟨_, hy⟩)
    · exact ⟨fun g n hop => absurd hop (hs g n), fun hop => absurd hop hr⟩
    · simpa using (ih y hy).within [x] []
  induction h with
  | nil => simp
  | plain hop _ _ ih =>
    refine hfirst (fun g n h => ?_) (fun h => ?_) ih <;> simp_all [Op.proceeds]
  | branch hop _ _ _ _ ih =>
    refine hfirst (fun g n h => ?_) (fun h => ?_) ih <;> simp_all
  | jump _ _ ih => exact hfirst (fun g n => nofun) nofun ih
  | @deferred h jump retn land globals locals a b command rest ha hc haim hrest ihc ih =>
    let store : Spot := ⟨⟨h, .storeState globals locals, none⟩, a⟩
    let skip : Spot := ⟨⟨jump, .jump .jmp, some land⟩, a⟩
    let back : Spot := ⟨⟨retn, .retn, none⟩, a⟩
    let behind : Spot := ⟨⟨land, .nop, none⟩, a⟩
    have hpair : Defers (store :: skip :: (command ++ back :: behind :: rest)) store back :=
      ⟨[], _, command, _, rest, rfl, rfl, rfl, rfl, hc.entering, rfl⟩
    intro y hy
    simp only [List.mem_cons, List.mem_append] at hy
    rcases hy with rfl | rfl | hy | rfl | rfl | hy
    · exact ⟨fun _ _ _ => ⟨_, hpair⟩, nofun⟩
    · exact ⟨nofun, nofun⟩
    · exact (ihc y hy).within [store, skip] (back :: behind :: rest)
    · exact ⟨nofun, fun _ => ⟨_, hpair⟩⟩
    · exact ⟨nofun, nofun⟩
    · simpa using (ih y hy).within (store :: skip :: (command ++ [back, behind])) []

end Commands

/-! ## Code in order -/

/-- Shapes can be given to the instructions of some code so that it is in order from `a` to `b`.
Jumps inside the code arrive with the shape that they find there, other ones where `aims` says; the
labels are found with their shapes. -/
def InOrder (env : Env) (aims : Handle → Shape → Prop) (labels : List (Handle × Shape)) (a : Shape)
    (code : List Instruction) (b : Shape) : Prop :=
  ∃ spots, spots.map Spot.instr = code ∧ (∀ l ∈ labels, Spotted spots l.1 l.2) ∧
    Chain env (fun t x => aims t x ∨ Spotted spots t x) a spots b

section InOrder

variable {env : Env} {aims aims' : Handle → Shape → Prop} {labels labels' : List (Handle × Shape)}
  {a b c : Shape} {code more : List Instruction}

theorem Spotted.mono {spots more : List Spot} {t : Handle} {x : Shape}
    (hmore : ∀ y ∈ spots, y ∈ more) (h : Spotted spots t x) : Spotted more t x := by
  obtain ⟨y, hy, h⟩ := h
  exact ⟨y, hmore y hy, h⟩

theorem InOrder.append (h : InOrder env aims labels a code b)
    (h' : InOrder env aims labels' b more c) :
    InOrder env aims (labels ++ labels') a (code ++ more) c := by
  obtain ⟨spots, hcode, hlabels, hchain⟩ := h
  obtain ⟨spots', hcode', hlabels', hchain'⟩ := h'
  have hleft : ∀ x ∈ spots, x ∈ spots ++ spots' := fun x => List.mem_append_left _
  have hright : ∀ x ∈ spots', x ∈ spots ++ spots' := fun x => List.mem_append_right _
  refine ⟨spots ++ spots', by simp [hcode, hcode'], ?_,
    (hchain.mono fun t x => Or.imp_right (.mono hleft)).append
      (hchain'.mono fun t x => Or.imp_right (.mono hright))⟩
  intro l hl
  rcases List.mem_append.mp hl with hl | hl
  · exact (hlabels l hl).mono hleft
  · exact (hlabels' l hl).mono hright

/-- Jumps to labels that are found in the code stay inside. -/
theorem InOrder.close (h : InOrder env aims' labels' a code b)
    (haims : ∀ t x, aims' t x → aims t x ∨ (t, x) ∈ labels') (hlabels : ∀ l ∈ labels, l ∈ labels') :
    InOrder env aims labels a code b := by
  obtain ⟨spots, hcode, hfound, hchain⟩ := h
  refine ⟨spots, hcode, fun l hl => hfound l (hlabels l hl), hchain.mono fun t x hx => ?_⟩
  rcases hx with hx | hx
  · exact (haims t x hx).imp_right (hfound (t, x))
  · exact .inr hx

theorem inOrder_nil : InOrder env aims [] a [] a := ⟨[], rfl, by simp, .nil⟩

theorem inOrder_plain {i : Instruction} (hop : i.op.proceeds = true) (h : i.after? env a = some b) :
    InOrder env aims [] a [i] b :=
  ⟨[⟨i, a⟩], rfl, by simp, .plain hop h .nil⟩

theorem inOrder_label {l : Handle} : InOrder env aims [(l, a)] a [⟨l, .nop, none⟩] a :=
  ⟨[⟨⟨l, .nop, none⟩, a⟩], rfl, by simp [Spotted], .plain rfl rfl .nil⟩

theorem inOrder_jump {h t : Handle} (haim : aims t a) :
    InOrder env aims [] a [⟨h, .jump .jmp, some t⟩] b :=
  ⟨[⟨⟨h, .jump .jmp, some t⟩, a⟩], rfl, by simp, .jump (.inl haim) .nil⟩

theorem inOrder_jz {h t : Handle} (haim : aims t a) :
    InOrder env aims [] (a ++ [.int]) [⟨h, .jump .jz, some t⟩] a := by
  have hpop : Instruction.after? env ⟨h, .jump .jz, some t⟩ (a ++ [.int]) = some a :=
    Shape.strip?_append a [.int]
  exact ⟨[⟨_, a ++ [.int]⟩], rfl, by simp, .branch (.inl rfl) rfl hpop (.inl haim) .nil⟩

theorem inOrder_jnz {h t : Handle} (haim : aims t a) :
    InOrder env aims [] (a ++ [.int]) [⟨h, .jump .jnz, some t⟩] a := by
  have hpop : Instruction.after? env ⟨h, .jump .jnz, some t⟩ (a ++ [.int]) = some a :=
    Shape.strip?_append a [.int]
  exact ⟨[⟨_, a ++ [.int]⟩], rfl, by simp, .branch (.inr rfl) rfl hpop (.inl haim) .nil⟩

theorem inOrder_deferred {h jump retn land : Handle} {globals locals : Int}
    (ha : Instruction.after? env ⟨h, .storeState globals locals, none⟩ a = some a)
    (hc : InOrder env aims [] a code a) (hrest : InOrder env aims labels a more b) :
    InOrder env aims labels a (⟨h, .storeState globals locals, none⟩ ::
      ⟨jump, .jump .jmp, some land⟩ :: (code ++ ⟨retn, .retn, none⟩ :: ⟨land, .nop, none⟩ :: more))
      b := by
  obtain ⟨command, rfl, _, hcommand⟩ := hc
  obtain ⟨rest, rfl, hlabels, hrest⟩ := hrest
  refine ⟨⟨⟨h, .storeState globals locals, none⟩, a⟩ :: ⟨⟨jump, .jump .jmp, some land⟩, a⟩ ::
    (command ++ ⟨⟨retn, .retn, none⟩, a⟩ :: ⟨⟨land, .nop, none⟩, a⟩ :: rest), by simp,
    fun l hl => (hlabels l hl).mono ?_,
    .deferred ha (hcommand.mono fun t x => Or.imp_right (.mono ?_))
      (.inr ⟨⟨⟨land, .nop, none⟩, a⟩, by simp, rfl, rfl⟩)
      (hrest.mono fun t x => Or.imp_right (.mono ?_))⟩
  all_goals simp +contextual

end InOrder

/-! ## Straight code -/

/-- `Straight env P a code b`: code without branches, with deferred commands in it, goes from the
shape `a` to `b`. Every instruction that control goes on behind has the property `P` with the shape
that it finds. -/
inductive Straight (env : Env) (P : Instruction → Shape → Prop) :
    Shape → List Instruction → Shape → Prop
  | nil {a : Shape} : Straight env P a [] a
  | plain {i : Instruction} {a next b : Shape} {rest : List Instruction} :
      i.op.proceeds = true → i.after? env a = some next → P i a → Straight env P next rest b →
      Straight env P a (i :: rest) b
  | deferred {h jump retn land : Handle} {globals locals : Int} {a b : Shape}
      {command rest : List Instruction} :
      Instruction.after? env ⟨h, .storeState globals locals, none⟩ a = some a →
      Straight env P a command a → P ⟨land, .nop, none⟩ a → Straight env P a rest b →
      Straight env P a (⟨h, .storeState globals locals, none⟩ :: ⟨jump, .jump .jmp, some land⟩ ::
        (command ++ ⟨retn, .retn, none⟩ :: ⟨land, .nop, none⟩ :: rest)) b

section Straight

variable {env : Env} {P : Instruction → Shape → Prop} {aims : Handle → Shape → Prop}
  {a b c : Shape} {code more : List Instruction}

theorem Straight.append (h : Straight env P a code b) (h' : Straight env P b more c) :
    Straight env P a (code ++ more) c := by
  induction h with
  | nil => exact h'
  | plain hop ha hi _ ih => exact .plain hop ha hi (ih h')
  | @deferred _ jump retn _ _ _ _ _ _ _ ha hc hi _ _ ih =>
    have hall := @Straight.deferred _ _ _ jump retn _ _ _ _ _ _ _ ha hc hi (ih h')
    simpa using hall

theorem straight_plain {i : Instruction} (hop : i.op.proceeds = true)
    (h : i.after? env a = some b) (hi : P i a) : Straight env P a [i] b :=
  .plain hop h hi .nil

theorem Straight.inOrder (h : Straight env P a code b) : InOrder env aims [] a code b := by
  induction h with
  | nil => exact inOrder_nil
  | plain hop ha _ _ ih => exact (inOrder_plain hop ha).append ih
  | deferred ha _ _ _ ihc ih => exact inOrder_deferred ha ihc ih

end Straight

end NwScript
