-- Paths of control through a stream, into the functions that are called and back. Nothing is known
-- of what is on the stack, so a jump that depends on it may be taken or not.
import Mathlib.Logic.Relation
import NwScript.Proofs.Machine.Stands
import NwScript.Proofs.Shape.Basic

namespace NwScript

/-- Whether control just goes on behind the instruction, which calls nothing. -/
def Op.goesOn : Op → Bool
  | .jump _ | .retn | .action _ _ => false
  | _ => true

theorem Op.goesOn_iff {op : Op} : op.goesOn = true ↔ op.fallsThrough = true ∧
    op.branches = false ∧ op ≠ .jump .jsr ∧ ∀ routine argc, op ≠ .action routine argc := by
  cases op with
  | jump code => cases code <;> simp [goesOn, fallsThrough, branches]
  | _ => simp [goesOn, fallsThrough, branches]

/-- Where control is, and where the calls that it is in return to, the innermost first. -/
structure Point where
  pc : Nat
  returns : List Nat

namespace Stream

/-! ## Paths -/

/-- One instruction, as far as control is concerned. -/
inductive Moves (s : Stream) : Point → Point → Prop
  | next {pc : Nat} {rs : List Nat} {i : Instruction} :
      s.code[pc]? = some i → i.op.fallsThrough = true → i.op ≠ .jump .jsr →
      Moves s ⟨pc, rs⟩ ⟨pc + 1, rs⟩
  | jump {pc there : Nat} {rs : List Nat} {i : Instruction} :
      s.code[pc]? = some i → i.op.branches = true → s.landing? i = some there →
      Moves s ⟨pc, rs⟩ ⟨there, rs⟩
  | call {pc there : Nat} {rs : List Nat} {i : Instruction} :
      s.code[pc]? = some i → i.op = .jump .jsr → s.landing? i = some there →
      Moves s ⟨pc, rs⟩ ⟨there, (pc + 1) :: rs⟩
  | back {pc r : Nat} {rs : List Nat} {i : Instruction} :
      s.code[pc]? = some i → i.op = .retn → Moves s ⟨pc, r :: rs⟩ ⟨r, rs⟩

/-- An engine routine is called there. -/
def Acts (s : Stream) (pc : Nat) : Prop :=
  ∃ i routine argc, s.code[pc]? = some i ∧ i.op = .action routine argc

def Returns (s : Stream) (pc : Nat) : Prop := ∃ i, s.code[pc]? = some i ∧ i.op = .retn

/-- The instructions, and where those lead that jump. -/
def outline (s : Stream) : List (Op × Option Nat) := s.code.map fun i => (i.op, s.landing? i)

/-- A path on which no engine routine is called, unless it be where the path ends. -/
def Quiet (s : Stream) : Point → Point → Prop :=
  Relation.ReflTransGen fun a b => ¬s.Acts a.pc ∧ s.Moves a b

section Paths

variable {s : Stream} {a b c : Point} {pc : Nat} {i : Instruction} {rs : List Nat}

theorem Quiet.trans (h : s.Quiet a b) (h' : s.Quiet b c) : s.Quiet a c :=
  Relation.ReflTransGen.trans h h'

theorem quiet_move (ha : ¬s.Acts a.pc) (h : s.Moves a b) : s.Quiet a b := .single ⟨ha, h⟩

theorem not_acts (hi : s.code[pc]? = some i) (hop : ∀ routine argc, i.op ≠ .action routine argc) :
    ¬s.Acts pc := by
  rintro ⟨j, routine, argc, hj, hact⟩
  cases hi.symm.trans hj
  exact hop routine argc hact

/-- Where a routine is called, quiet paths end. -/
theorem Quiet.eq_of_acts (h : s.Quiet a b) (ha : s.Acts a.pc) : b = a := by
  cases Relation.ReflTransGen.cases_head h with
  | inl heq => exact heq.symm
  | inr hmore =>
    obtain ⟨_, ⟨hno, _⟩, _⟩ := hmore
    exact absurd ha hno

/-- Everything that an instruction can do to control. -/
theorem Moves.inv (h : s.Moves ⟨pc, rs⟩ c) (hi : s.code[pc]? = some i) :
    (i.op.fallsThrough = true ∧ i.op ≠ .jump .jsr ∧ c = ⟨pc + 1, rs⟩) ∨
    (i.op.branches = true ∧ ∃ there, s.landing? i = some there ∧ c = ⟨there, rs⟩) ∨
    (i.op = .jump .jsr ∧ ∃ there, s.landing? i = some there ∧ c = ⟨there, (pc + 1) :: rs⟩) ∨
    (i.op = .retn ∧ ∃ r rest, rs = r :: rest ∧ c = ⟨r, rest⟩) := by
  cases h with
  | next hj hfalls hop =>
    cases hi.symm.trans hj
    exact .inl ⟨hfalls, hop, rfl⟩
  | jump hj hbranches hland =>
    cases hi.symm.trans hj
    exact .inr (.inl ⟨hbranches, _, hland, rfl⟩)
  | call hj hop hland =>
    cases hi.symm.trans hj
    exact .inr (.inr (.inl ⟨hop, _, hland, rfl⟩))
  | back hj hop =>
    cases hi.symm.trans hj
    exact .inr (.inr (.inr ⟨hop, _, _, rfl, rfl⟩))

/-- A path does not look at returns that it does not come to. -/
theorem Moves.below (h : s.Moves a b) (base : List Nat) :
    s.Moves ⟨a.pc, a.returns ++ base⟩ ⟨b.pc, b.returns ++ base⟩ := by
  cases h with
  | next hi hfalls hop => exact .next hi hfalls hop
  | jump hi hbranches hland => exact .jump hi hbranches hland
  | call hi hop hland => exact .call hi hop hland
  | back hi hop => exact .back hi hop

theorem Quiet.below (h : s.Quiet a b) (base : List Nat) :
    s.Quiet ⟨a.pc, a.returns ++ base⟩ ⟨b.pc, b.returns ++ base⟩ := by
  induction h with
  | refl => exact .refl
  | tail _ hstep ih => exact ih.tail ⟨hstep.1, hstep.2.below base⟩

/-- A move stays above some returns, or it is a return to the first of them. -/
theorem Moves.above {own base : List Nat} (h : s.Moves ⟨pc, own ++ base⟩ c) :
    (∃ own', c.returns = own' ++ base ∧ s.Moves ⟨pc, own⟩ ⟨c.pc, own'⟩) ∨
      (own = [] ∧ s.Returns pc ∧ base = c.pc :: c.returns) := by
  generalize hrs : own ++ base = rs at h
  cases h with
  | next hi hfalls hop => exact .inl ⟨own, hrs.symm, .next hi hfalls hop⟩
  | jump hi hbranches hland => exact .inl ⟨own, hrs.symm, .jump hi hbranches hland⟩
  | call hi hop hland => exact .inl ⟨(pc + 1) :: own, by simp [hrs], .call hi hop hland⟩
  | back hi hop =>
    cases own with
    | nil => exact .inr ⟨rfl, ⟨_, hi, hop⟩, hrs⟩
    | cons r own =>
      obtain ⟨rfl, hrest⟩ := List.cons.inj hrs
      exact .inl ⟨own, hrest.symm, .back hi hop⟩

/-- So a path stays above some returns, or it comes to a return to the first of them. -/
theorem Quiet.above {own base : List Nat} (h : s.Quiet ⟨pc, own ++ base⟩ c) :
    (∃ own', c.returns = own' ++ base ∧ s.Quiet ⟨pc, own⟩ ⟨c.pc, own'⟩) ∨
      ∃ last r rest, base = r :: rest ∧ s.Quiet ⟨pc, own⟩ ⟨last, []⟩ ∧ s.Returns last ∧
        s.Quiet ⟨r, rest⟩ c := by
  induction h with
  | refl => exact .inl ⟨own, rfl, .refl⟩
  | @tail b c _ hstep ih =>
    obtain ⟨hno, hmove⟩ := hstep
    rcases ih with ⟨own', hreturns, hpath⟩ | ⟨last, r, rest, hbase, hpath, hlast, hafter⟩
    · obtain ⟨pc', rs⟩ := b
      subst hreturns
      rcases hmove.above with ⟨own'', hreturns, hmove⟩ | ⟨rfl, hlast, hbase⟩
      · exact .inl ⟨own'', hreturns, hpath.tail ⟨hno, hmove⟩⟩
      · exact .inr ⟨pc', c.pc, c.returns, hbase, hpath, hlast, .refl⟩
    · exact .inr ⟨last, r, rest, hbase, hpath, hlast, hafter.tail ⟨hno, hmove⟩⟩

end Paths

/-! ## The first routine that is called -/

/-- From one point on, the first engine routine that is called is the one at the other point,
whichever path control takes. -/
structure First (s : Stream) (a b : Point) : Prop where
  acts : s.Acts b.pc
  quiet : s.Quiet a b
  only : ∀ c, s.Quiet a c → s.Acts c.pc → c = b

/-- Control can get from one point to the other without a call of a routine, and comes to such a
call only by way of the other point. -/
structure Crosses (s : Stream) (a b : Point) : Prop where
  quiet : s.Quiet a b
  only : ∀ c, s.Quiet a c → s.Acts c.pc → s.Quiet b c

/-- The function can return without having called a routine, and cannot come to call one. -/
def Hushed (s : Stream) (entry : Handle) : Prop :=
  ∃ pc, s.indexOf? entry = some pc ∧
    (∃ last, s.Quiet ⟨pc, []⟩ ⟨last, []⟩ ∧ s.Returns last) ∧
    ∀ c, s.Quiet ⟨pc, []⟩ c → ¬s.Acts c.pc

/-- A call of a routine, or of a function that is not hushed. -/
def Loud (s : Stream) (pc : Nat) : Prop :=
  s.Acts pc ∨ ∃ i entry, s.code[pc]? = some i ∧ i.op = .jump .jsr ∧ i.target = some entry ∧
    ¬s.Hushed entry

section First

variable {s : Stream} {a b c : Point} {pc : Nat} {i : Instruction} {rs : List Nat} {entry : Handle}

theorem first_iff_crosses (hb : s.Acts b.pc) : s.First a b ↔ s.Crosses a b := by
  constructor
  · intro h
    refine ⟨h.quiet, ?_⟩
    intro c hc hacts
    rw [h.only c hc hacts]
    exact .refl
  · intro h
    refine ⟨hb, h.quiet, ?_⟩
    intro c hc hacts
    exact (h.only c hc hacts).eq_of_acts hb

theorem crosses_refl : s.Crosses a a := ⟨.refl, fun _ h _ => h⟩

theorem Crosses.trans (h : s.Crosses a b) (h' : s.Crosses b c) : s.Crosses a c :=
  ⟨h.quiet.trans h'.quiet, fun d hd hacts => h'.only d (h.only d hd hacts) hacts⟩

/-- An instruction behind which control goes on at one point only. -/
theorem crosses_move (ha : ¬s.Acts a.pc) (h : s.Moves a b) (honly : ∀ c, s.Moves a c → c = b) :
    s.Crosses a b := by
  refine ⟨quiet_move ha h, ?_⟩
  intro c hc hacts
  cases Relation.ReflTransGen.cases_head hc with
  | inl heq =>
    subst heq
    exact absurd hacts ha
  | inr hmore =>
    obtain ⟨d, ⟨_, hmove⟩, hrest⟩ := hmore
    rw [← honly d hmove]
    exact hrest

theorem moves_call (hi : s.code[pc]? = some i) (hop : i.op = .jump .jsr)
    (h : s.Moves ⟨pc, rs⟩ c) :
    ∃ there, s.landing? i = some there ∧ c = ⟨there, (pc + 1) :: rs⟩ := by
  rcases h.inv hi with ⟨_, hne, _⟩ | ⟨hbranches, _⟩ | ⟨_, h⟩ | ⟨hretn, _⟩
  · exact absurd hop hne
  · simp [hop, Op.branches] at hbranches
  · exact h
  · simp [hop] at hretn

theorem crosses_call {there : Nat} (hi : s.code[pc]? = some i) (hop : i.op = .jump .jsr)
    (hland : s.landing? i = some there) : s.Crosses ⟨pc, rs⟩ ⟨there, (pc + 1) :: rs⟩ := by
  refine crosses_move (not_acts hi (by simp [hop])) (.call hi hop hland) ?_
  intro c hc
  obtain ⟨there', hland', rfl⟩ := moves_call hi hop hc
  cases hland.symm.trans hland'
  rfl

/-- A call of a hushed function passes like any other instruction. -/
theorem Hushed.crosses (h : s.Hushed entry) (hi : s.code[pc]? = some i) (hop : i.op = .jump .jsr)
    (htarget : i.target = some entry) : s.Crosses ⟨pc, rs⟩ ⟨pc + 1, rs⟩ := by
  obtain ⟨there, hthere, ⟨last, hpath, hlast⟩, hno⟩ := h
  have hland : s.landing? i = some there := by simp [landing?, htarget, hthere]
  refine (crosses_call hi hop hland).trans ⟨?_, ?_⟩
  · obtain ⟨j, hj, hretn⟩ := hlast
    have hback : s.Quiet ⟨last, (pc + 1) :: rs⟩ ⟨pc + 1, rs⟩ :=
      quiet_move (not_acts hj (by simp [hretn])) (.back hj hretn)
    exact (hpath.below ((pc + 1) :: rs)).trans hback
  · intro c hc hacts
    rcases @Quiet.above s c there [] _ hc with ⟨own, _, hown⟩ | ⟨_, _, _, hbase, _, _, hafter⟩
    · exact absurd hacts (hno ⟨c.pc, own⟩ hown)
    · cases hbase
      exact hafter

/-- If a routine that is called behind a call of a function is the first one that is called, then
the function is hushed. -/
theorem First.hushed {there : Nat} (h : s.First ⟨pc, rs⟩ ⟨there, rs⟩) (hi : s.code[pc]? = some i)
    (hop : i.op = .jump .jsr) (htarget : i.target = some entry) : s.Hushed entry := by
  have hne : ¬s.Acts pc := not_acts hi (by simp [hop])
  -- the path goes on behind the call, so the function has an entry
  obtain ⟨d, ⟨_, hmove⟩, hrest⟩ : ∃ d, (¬s.Acts pc ∧ s.Moves ⟨pc, rs⟩ d) ∧
      s.Quiet d ⟨there, rs⟩ := by
    rcases Relation.ReflTransGen.cases_head h.quiet with heq | hmore
    · cases heq
      exact absurd h.acts hne
    · exact hmore
  obtain ⟨start, hland, rfl⟩ := moves_call hi hop hmove
  have hentry : s.indexOf? entry = some start := by simpa [landing?, htarget] using hland
  refine ⟨start, hentry, ?_, ?_⟩
  · have habove := @Quiet.above s _ start [] _ hrest
    rcases habove with ⟨own, hreturns, _⟩ | ⟨last, _, _, _, hpath, hlast, _⟩
    · have hlength := congrArg List.length hreturns
      simp at hlength
      omega
    · exact ⟨last, hpath, hlast⟩
  · intro c hc hacts
    have hsame := h.only _ ((quiet_move hne hmove).trans (hc.below ((pc + 1) :: rs))) hacts
    have hlength := congrArg (fun x : Point => x.returns.length) hsame
    simp at hlength
    omega

/-! ## Stretches of code -/

/-- Control passes some code if the condition holds; otherwise it comes to a loud call in the code
before it comes to any other call of a routine. -/
def Walks (s : Stream) (pc size : Nat) (hushed : Prop) : Prop :=
  ∀ rs, (hushed ∧ s.Crosses ⟨pc, rs⟩ ⟨pc + size, rs⟩) ∨
    (¬hushed ∧ ∃ j < pc + size, s.Crosses ⟨pc, rs⟩ ⟨j, rs⟩ ∧ s.Loud j)

theorem walks_nil : s.Walks pc 0 True := fun _ => .inl ⟨trivial, crosses_refl⟩

theorem Walks.congr {size : Nat} {P Q : Prop} (h : s.Walks pc size P) (hPQ : P ↔ Q) :
    s.Walks pc size Q := by
  rwa [propext hPQ] at h

theorem Walks.append {size more : Nat} {P Q : Prop} (h : s.Walks pc size P)
    (h' : s.Walks (pc + size) more Q) : s.Walks pc (size + more) (P ∧ Q) := by
  intro rs
  rcases h rs with ⟨hP, hcross⟩ | ⟨hP, j, hj, hcross, hloud⟩
  · rcases h' rs with ⟨hQ, hcross'⟩ | ⟨hQ, j, hj, hcross', hloud⟩
    · rw [Nat.add_assoc] at hcross'
      exact .inl ⟨⟨hP, hQ⟩, hcross.trans hcross'⟩
    · exact .inr ⟨fun h => hQ h.2, j, by omega, hcross.trans hcross', hloud⟩
  · exact .inr ⟨fun h => hP h.1, j, by omega, hcross, hloud⟩

theorem walks_next (hi : s.code[pc]? = some i) (hop : i.op.goesOn = true) :
    s.Walks pc 1 True := by
  intro rs
  obtain ⟨hfalls, hbranches, hcall, hact⟩ := Op.goesOn_iff.mp hop
  refine .inl ⟨trivial, crosses_move (not_acts hi hact) (.next hi hfalls hcall) ?_⟩
  intro c hc
  rcases hc.inv hi with ⟨_, _, h⟩ | ⟨h, _⟩ | ⟨h, _⟩ | ⟨h, _⟩
  · exact h
  · simp [hbranches] at h
  · exact absurd h hcall
  · simp [h, Op.fallsThrough] at hfalls

/-- Code that only goes on. -/
theorem walks_plain {code : List Instruction} (hs : s.Stands pc code)
    (h : ∀ i ∈ code, i.op.goesOn = true) : s.Walks pc code.length True := by
  induction code generalizing pc with
  | nil => exact walks_nil
  | cons i rest ih =>
    rw [List.forall_mem_cons] at h
    have hwalk := (walks_next hs.get h.1).append (ih hs.tail h.2)
    rw [Nat.add_comm 1] at hwalk
    exact hwalk.congr (and_self_iff ..)

theorem outline_at {steps : List (Op × Option Nat)} {op : Op} {land : Option Nat}
    (h : s.outline = steps) (hk : steps[pc]? = some (op, land)) :
    ∃ i, s.code[pc]? = some i ∧ i.op = op ∧ s.landing? i = land := by
  rw [← h, outline, List.getElem?_map] at hk
  obtain ⟨i, hi, hsame⟩ := Option.map_eq_some_iff.mp hk
  obtain ⟨hop, hland⟩ := Prod.mk.inj hsame
  exact ⟨i, hi, hop, hland⟩

theorem walks_outline {steps : List (Op × Option Nat)} {size : Nat} (h : s.outline = steps)
    (hsize : pc + size ≤ steps.length)
    (hplain : ∀ step ∈ (steps.drop pc).take size, step.1.goesOn = true) :
    s.Walks pc size True := by
  subst h
  rw [outline, List.length_map] at hsize
  have hstands : s.Stands pc ((s.code.drop pc).take size) := by
    refine ⟨s.code.take pc, (s.code.drop pc).drop size, ?_, by rw [List.length_take]; omega⟩
    rw [List.append_assoc, List.take_append_drop, List.take_append_drop]
  have hwalk := walks_plain hstands fun i hi => hplain (i.op, s.landing? i) (by
    rw [outline, ← List.map_drop, ← List.map_take]
    exact List.mem_map_of_mem hi)
  rwa [List.length_take, List.length_drop, Nat.min_eq_left (by omega)] at hwalk

theorem walks_jmp {there : Nat} (hi : s.code[pc]? = some i) (hop : i.op = .jump .jmp)
    (hland : s.landing? i = some there) (hthere : pc ≤ there) :
    s.Walks pc (there - pc) True := by
  intro rs
  rw [Nat.add_sub_cancel' hthere]
  refine .inl ⟨trivial, crosses_move (not_acts hi (by simp [hop]))
    (.jump hi (by simp [hop, Op.branches]) hland) ?_⟩
  intro c hc
  rcases hc.inv hi with ⟨h, _⟩ | ⟨_, there', h, rfl⟩ | ⟨h, _⟩ | ⟨h, _⟩
  · simp [hop, Op.fallsThrough] at h
  · cases hland.symm.trans h
    rfl
  · simp [hop] at h
  · simp [hop] at h

theorem walks_call (hi : s.code[pc]? = some i) (hop : i.op = .jump .jsr)
    (htarget : i.target = some entry) : s.Walks pc 1 (s.Hushed entry) := by
  intro rs
  by_cases h : s.Hushed entry
  · exact .inl ⟨h, h.crosses hi hop htarget⟩
  · exact .inr ⟨h, pc, Nat.lt_succ_self pc, crosses_refl, .inr ⟨i, entry, hi, hop, htarget, h⟩⟩

theorem walks_action (h : s.Acts pc) : s.Walks pc 1 False := by
  intro rs
  exact .inr ⟨id, pc, Nat.lt_succ_self pc, crosses_refl, .inl h⟩

/-- The call of a routine behind some code is the first one just if the condition of the code
holds. -/
theorem Walks.first_iff {size : Nat} {P : Prop} (h : s.Walks pc size P)
    (hacts : s.Acts (pc + size)) : s.First ⟨pc, rs⟩ ⟨pc + size, rs⟩ ↔ P := by
  rcases h rs with ⟨hP, hcross⟩ | ⟨hP, j, hj, hcross, hloud⟩
  · exact ⟨fun _ => hP, fun _ => (first_iff_crosses hacts).mpr hcross⟩
  · refine ⟨fun hfirst => ?_, fun h => absurd h hP⟩
    rcases hloud with hact | ⟨i, entry, hi, hop, htarget, hnot⟩
    · have hsame := congrArg Point.pc (hfirst.only _ hcross.quiet hact)
      exact absurd hsame (Nat.ne_of_lt hj)
    · have hbehind : s.First ⟨j, rs⟩ ⟨pc + size, rs⟩ := by
        refine ⟨hacts, hcross.only _ hfirst.quiet hacts, ?_⟩
        intro c hc hact
        exact hfirst.only c (hcross.quiet.trans hc) hact
      exact absurd (hbehind.hushed hi hop htarget) hnot

/-- A function that can be walked through is hushed. -/
theorem Walks.hushed {size : Nat} (h : s.Walks pc size True)
    (hentry : s.indexOf? entry = some pc) (hlast : s.Returns (pc + size)) : s.Hushed entry := by
  have hcross : s.Crosses ⟨pc, []⟩ ⟨pc + size, []⟩ := by
    rcases h [] with ⟨_, hcross⟩ | ⟨hfalse, _⟩
    · exact hcross
    · exact absurd trivial hfalse
  refine ⟨pc, hentry, ⟨pc + size, hcross.quiet, hlast⟩, ?_⟩
  intro c hc hacts
  obtain ⟨i, hi, hretn⟩ := hlast
  -- behind the last return there is no call left to go back to
  rcases Relation.ReflTransGen.cases_head (hcross.only c hc hacts) with rfl | ⟨d, ⟨_, hmove⟩, _⟩
  · exact not_acts hi (by simp [hretn]) hacts
  · rcases hmove.inv hi with ⟨h, _⟩ | ⟨h, _⟩ | ⟨h, _⟩ | ⟨_, _, _, hreturns, _⟩
    · simp [hretn, Op.fallsThrough] at h
    · simp [hretn, Op.branches] at h
    · simp [hretn] at h
    · cases hreturns

end First

end Stream

end NwScript
