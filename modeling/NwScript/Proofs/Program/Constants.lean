-- Constant globals keep their first value. Whatever else a program writes among the globals is in
-- the slots of another one.
import NwScript.Proofs.Program.Addresses
import NwScript.Proofs.Shape.Along

namespace NwScript

open Codegen

/-! ## Slots that may be written -/

/-- Some slots, counted from the bottom of the globals, belong to a global that may be changed. -/
def Env.Changeable (env : Env) (first size : Int) : Prop :=
  ∃ g, ∃ start n : Nat, env.Spans g start n ∧ g.const = false ∧ start ≤ first ∧
    first + size ≤ start + n

section Changeable

variable {env env' : Env} {first size : Int} {total : Nat} {path : Access} {r : Resolved}

/-- Slots that may be changed are not those of a constant. -/
theorem Env.Changeable.apart {g : Global} {start n : Nat} (h : env.Changeable first size)
    (hg : env.Spans g start n) (hc : g.const = true) :
    first + size ≤ start ∨ start + n ≤ first := by
  obtain ⟨k, a, m, hk, hvariable, hlow, hhigh⟩ := h
  have hne : g ≠ k := by
    rintro rfl
    rw [hc] at hvariable
    cases hvariable
  rcases hg.apart hk hne with h | h <;> omega

theorem Env.Spans.later {g : Global} {start n : Nat} (hgrows : env.Grows env')
    (h : env.Spans g start n) : env'.Spans g start n := by
  obtain ⟨older, newer, hsplit, hstart, hn⟩ := h
  obtain ⟨rest, hrest⟩ := hgrows.globals
  refine ⟨older, newer ++ rest, by simp [← hrest, hsplit], ?_, hgrows.sizes _ _ hn⟩
  exact sizeOfAll_kept hgrows.sizes hstart

theorem Env.Changeable.later (hgrows : env.Grows env') (h : env.Changeable first size) :
    env'.Changeable first size := by
  obtain ⟨g, start, n, hg, h⟩ := h
  exact ⟨g, start, n, hg.later hgrows, h⟩

/-- A global that is not constant may be changed, and so may all its members. -/
theorem global_changeable {r₀ : Resolved} {offset : Int} {k : Nat}
    (hl : Structs.Laid env.structs.layouts)
    (htotal : env.sizeOfAll (env.globals.map (·.ty)) = .ok total)
    (hr₀ : env.resolveGlobal path.head offset = .ok r₀)
    (hf : follow env path r₀ path.members = .ok r) (hc : r.const = false)
    (hk : env.sizeOf r.ty = .ok k) :
    env.Changeable (r.anchor.origin (total - offset) total + r.offset) k := by
  obtain ⟨g, start, n, hspans, hty, hconst, _, horigin⟩ := resolveGlobal_found htotal hr₀
  obtain ⟨hanchor, hconst', hinside⟩ := follow_inside hl hf
  have hsize : env.sizeOf r₀.ty = .ok n := by
    obtain ⟨_, _, _, _, hn⟩ := hspans
    rw [hty]
    exact hn
  obtain ⟨m, hm, hlow, hhigh⟩ := hinside n hsize
  cases hk.symm.trans hm
  refine ⟨g, start, n, hspans, ?_, ?_, ?_⟩
  · rw [← hconst, ← hconst']
    exact hc
  all_goals
    rw [hanchor]
    omega

/-- What is found from the base of the globals may be changed if it is not constant. -/
theorem access_changeable {s : Scope} {k : Nat} (hl : Structs.Laid env.structs.layouts)
    (htotal : env.sizeOfAll (env.globals.map (·.ty)) = .ok total)
    (hr : resolveAccess env s path = .ok r) (hc : r.const = false) (hk : env.sizeOf r.ty = .ok k)
    (hb : r.anchor = .bp) : env.Changeable (total + r.offset) k := by
  simp only [resolveAccess, except_bind_ok] at hr
  obtain ⟨r₀, hr₀, hf⟩ := hr
  rcases resolveIn_found hr₀ with hsp | ⟨offset, hglobal⟩
  · have hanchor := (follow_inside hl hf).1
    rw [hb, hsp] at hanchor
    cases hanchor
  · have hall := global_changeable hl htotal hglobal hf hc hk
    rwa [hb] at hall

/-- As long as the globals are incomplete, only they and temporaries are on the stack. -/
theorem bare_changeable {s : Scope} {k : Nat} (hl : Structs.Laid env.structs.layouts)
    (htotal : env.sizeOfAll (env.globals.map (·.ty)) = .ok total) (hu : env.sealed = false)
    (hs : s.Bare) (hr : resolveAccess env s path = .ok r) (hc : r.const = false)
    (hk : env.sizeOf r.ty = .ok k) :
    r.anchor = .sp ∧ env.Changeable (total + s.block.temps + r.offset) k := by
  simp only [resolveAccess, except_bind_ok] at hr
  obtain ⟨r₀, hr₀, hf⟩ := hr
  have hglobal : env.resolveGlobal path.head (0 - s.block.temps) = .ok r₀ := by
    simp only [Scope.resolve, Scope.resolveFrom, Scope.chain, Scope.resolveIn, hs.1, hs.2,
      Scope.seek, except_bind_ok, Count.checked_ok] at hr₀
    obtain ⟨_, ⟨-, rfl⟩, hfound⟩ := hr₀
    exact hfound
  obtain ⟨_, _, _, _, _, _, hanchor₀, _⟩ := resolveGlobal_found htotal hglobal
  have hanchor : r.anchor = .sp := by
    rw [(follow_inside hl hf).1, hanchor₀, hu]
    rfl
  have hall := global_changeable hl htotal hglobal hf hc hk
  rw [hanchor, Anchor.origin] at hall
  refine ⟨hanchor, ?_⟩
  rwa [show (total : Int) - (0 - s.block.temps) = total + s.block.temps by omega] at hall

end Changeable

/-! ## Writes from the base of the globals -/

/-- Whatever the code writes from the base of the globals is a variable that is not constant, or a
member of one. -/
def Licensed (env : Env) (code : List Instruction) : Prop :=
  ∀ i ∈ code, ∀ offset size, i.op.destination? = some (.bp, offset, size) →
    ∃ s path r, ∃ k : Nat, resolveAccess env s path = .ok r ∧ r.const = false ∧
      env.sizeOf r.ty = .ok k ∧ r.anchor = .bp ∧ r.offset = offset ∧ k = size

section Licensed

variable {env : Env} {n m : Handle} {code more : List Instruction} {i : Instruction}

theorem licensed_nil : Licensed env [] := by
  intro i hi
  cases hi

theorem Licensed.append (h : Licensed env code) (h' : Licensed env more) :
    Licensed env (code ++ more) := by
  intro i hi
  rcases List.mem_append.mp hi with hi | hi
  · exact h i hi
  · exact h' i hi

/-- An instruction that writes nothing in place. -/
theorem licensed_plain (hi : i.op.destination? = none) (h : Licensed env code) :
    Licensed env (i :: code) := by
  intro j hj offset size hd
  rcases List.mem_cons.mp hj with rfl | hj
  · rw [hi] at hd
    cases hd
  · exact h j hj offset size hd

theorem licensed_top {offset size : Int} (hi : i.op.destination? = some (.sp, offset, size))
    (h : Licensed env code) : Licensed env (i :: code) := by
  intro j hj offset size hd
  rcases List.mem_cons.mp hj with rfl | hj
  · rw [hi] at hd
    cases hd
  · exact h j hj offset size hd

/-- An instruction that writes to what is found under a name. -/
theorem licensed_access {s : Scope} {path : Access} {r : Resolved} {k : Nat}
    (hr : resolveAccess env s path = .ok r) (hc : r.const = false) (hk : env.sizeOf r.ty = .ok k)
    (hi : i.op.destination? = some (r.anchor, r.offset, (k : Int))) (h : Licensed env code) :
    Licensed env (i :: code) := by
  intro j hj offset size hd
  rcases List.mem_cons.mp hj with rfl | hj
  · rw [hi] at hd
    simp only [Option.some.injEq, Prod.mk.injEq] at hd
    exact ⟨s, path, r, k, hr, hc, hk, hd⟩
  · exact h j hj offset size hd

theorem licensed_numbered {ops : List Op} (h : ∀ op ∈ ops, op.destination? = none) :
    Licensed env (numbered n ops) := by
  intro i hi offset size hd
  rw [h _ (numbered_op hi)] at hd
  cases hd

theorem licensed_pushing {v : Value} : Licensed env (numbered n (Op.pushing v)) := by
  apply licensed_numbered
  cases v <;> simp [Op.pushing, Op.destination?]

theorem licensed_reserving {ks : List SlotKind} : Licensed env (numbered n (ks.map .reserve)) := by
  apply licensed_numbered
  simp [Op.destination?]

theorem licensed_popping {k : Nat} : Licensed env (popping n k) := by
  unfold popping
  split
  · exact licensed_plain rfl licensed_nil
  · exact licensed_nil

theorem licensed_returning {height : Int} {k : Nat} : Licensed env (returning n height k) := by
  unfold returning
  split
  · exact licensed_top rfl (licensed_plain rfl licensed_nil)
  · exact licensed_nil

theorem emits_licensed {s : Scope} {phrase : Phrase} {tys : List Ty}
    (h : Emits env s n phrase tys code m) : Licensed env code := by
  induction h with
  | literal | constant => exact licensed_pushing
  | vector _ _ _ ihx ihy ihz => exact (ihx.append ihy).append ihz
  | access => exact licensed_plain rfl licensed_nil
  | assign _ _ hk hr hc ih => exact ih.append (licensed_access hr hc hk rfl licensed_nil)
  | combine _ hr hc hk _ _ _ _ hr' ih =>
    obtain rfl := access_grown hr hr'
    exact licensed_plain rfl (ih.append (licensed_plain rfl
      (licensed_access hr' (by simpa using hc) (by simpa using hk) rfl licensed_nil)))
  | composite _ _ _ _ hc ihl ihr =>
    exact (ihl.append ihr).append (licensed_plain (composite_destination hc) licensed_nil)
  | binary _ _ _ _ _ _ _ ihl ihr =>
    exact (ihl.append ihr).append (licensed_plain rfl licensed_nil)
  | unary _ _ ih => exact ih.append (licensed_plain rfl licensed_nil)
  | stepPre hr hc hty =>
    have hone : env.sizeOf _ = .ok 1 := congrArg env.sizeOf hty
    exact licensed_access hr hc hone rfl (licensed_plain rfl licensed_nil)
  | @stepPost s n op target r hr hc hty =>
    have hone : env.sizeOf r.ty = .ok 1 := congrArg env.sizeOf hty
    refine licensed_plain rfl ?_
    cases hanchor : r.anchor with
    | sp => exact licensed_top rfl licensed_nil
    | bp =>
      refine licensed_access hr hc hone ?_ licensed_nil
      simp [Op.destination?, offsetPast, hanchor]
  | callFunction _ _ _ _ _ ih =>
    exact (licensed_reserving.append ih).append (licensed_plain rfl licensed_nil)
  | callRoutine _ _ _ _ _ _ _ ih => exact ih.append (licensed_plain rfl licensed_nil)
  | noArguments => exact licensed_nil
  | pushed _ _ _ _ ihv ihr => exact ihv.append ihr
  | deferred _ _ _ _ _ _ ihc ihr =>
    exact licensed_plain rfl (licensed_plain rfl ((ihc.append licensed_popping).append
      (licensed_plain rfl (licensed_plain rfl ihr))))

/-! ### Statements -/

variable {s s' : Scope}

theorem discards_licensed {e : Option Expr} (h : Discards env s n e code m) :
    Licensed env code := by
  cases h with
  | none => exact licensed_nil
  | some he _ => exact (emits_licensed he).append licensed_popping

theorem guards_licensed {e : Option Expr} {done : Handle} (h : Guards env s done n e code m) :
    Licensed env code := by
  cases h with
  | none => exact licensed_nil
  | some he => exact (emits_licensed he).append (licensed_plain rfl licensed_nil)

theorem declares_licensed {ty : Ty} {ds : List Declarator} (h : Declares env ty s n ds s' code m) :
    Licensed env code := by
  induction h with
  | nil => exact licensed_nil
  | plain _ _ _ _ ih => exact licensed_reserving.append ih
  | initialized _ _ _ he _ _ ih =>
    exact ((licensed_reserving.append (emits_licensed he)).append
      (licensed_top rfl (licensed_plain rfl licensed_nil))).append ih

theorem tests_licensed {ty : Ty} {c : BinaryCode} {labels : List (SwitchLabel × Handle)}
    {default default' : Option Handle} (h : Tests env s ty c n labels default default' code m) :
    Licensed env code := by
  induction h with
  | nil => exact licensed_nil
  | case he _ ih =>
    exact licensed_plain rfl (((emits_licensed he).append
      (licensed_plain rfl (licensed_plain rfl licensed_nil))).append ih)
  | default _ ih => exact ih

theorem lays_licensed {frame : Frame} {piece : Piece} {flow : Flow}
    (h : Lays env frame s n piece s' flow code m) : Licensed env code := by
  -- Most pieces end with one or two instructions that write nothing.
  have hone {i : Instruction} (hi : i.op.destination? = none) : Licensed env [i] :=
    licensed_plain hi licensed_nil
  have htwo {i j : Instruction} (hi : i.op.destination? = none) (hj : j.op.destination? = none) :
      Licensed env [i, j] := licensed_plain hi (hone hj)
  induction h with
  | expr hd => exact discards_licensed hd
  | declare hd => exact declares_licensed hd
  | block _ ih | blockReturned _ ih | armReturned _ ih => exact ih
  | ifThen he _ ih => exact (emits_licensed he).append (licensed_plain rfl (ih.append (hone rfl)))
  | ifElse he _ _ ih₁ ih₂ =>
    exact (emits_licensed he).append (licensed_plain rfl (ih₁.append
      (licensed_plain rfl (licensed_plain rfl (ih₂.append (hone rfl))))))
  | whileLoop he _ ih =>
    exact licensed_plain rfl ((emits_licensed he).append
      (licensed_plain rfl (ih.append (htwo rfl rfl))))
  | doWhile _ he ih =>
    exact licensed_plain rfl (ih.append
      (licensed_plain rfl ((emits_licensed he).append (htwo rfl rfl))))
  | forLoop hfirst hguard _ hlast ih =>
    exact (discards_licensed hfirst).append (licensed_plain rfl
      (((guards_licensed hguard).append ih).append (licensed_plain rfl
        ((discards_licensed hlast).append (htwo rfl rfl)))))
  | switch he _ htests _ ih =>
    exact ((emits_licensed he).append (tests_licensed htests)).append
      (licensed_plain rfl (ih.append (htwo rfl rfl)))
  | breakOut | continueLoop | exit => exact htwo rfl rfl
  | exitWith _ he =>
    exact ((emits_licensed he).append licensed_returning).append (htwo rfl rfl)
  | blockEnd => exact hone rfl
  | blockNext _ _ ih₁ ih₂ | armNext _ _ ih₁ ih₂ => exact ih₁.append ih₂
  | noArms | armEnd => exact licensed_nil
  | arms _ _ ih₁ ih₂ => exact licensed_plain rfl (ih₁.append ih₂)

end Licensed

/-! ## Writes while globals are declared -/

/-- With that shape on the stack, the instruction writes to none of the `size` slots from `start`
on. There are `base` slots of globals. -/
def Instruction.Spares (base start size : Nat) (i : Instruction) (shape : Shape) : Prop :=
  ∀ anchor offset n, i.op.destination? = some (anchor, offset, n) →
    let first := anchor.origin shape.length base + offset
    first + n ≤ start ∨ start + size ≤ first

section Declaring

variable {env whole : Env} {s : Scope} {temps : List Shape} {base start size : Nat} {c : Global}
  {g : GlobalDef}

theorem Env.PartOf.total (hp : env.PartOf whole) :
    env.sizeOfAll (env.globals.map (·.ty)) = .ok (whole.globalKinds env.globals).length := by
  obtain ⟨n, hn⟩ : ∃ n, env.sizeOfAll (env.globals.map (·.ty)) = .ok n := by
    apply exists_sizeOfAll
    intro ty hty
    obtain ⟨g, hg, rfl⟩ := List.mem_map.mp hty
    exact ⟨_, Structs.sizeOf_of_slots hp.laid (hp.known g hg)⟩
  rw [hn, hp.sized_all hn, List.flatMap_map]
  rfl

theorem Env.PartOf.grows (hp : env.PartOf whole) (hl : Structs.Laid whole.structs.layouts) :
    env.Grows whole := by
  refine ⟨hp.globals, fun ty n hn => ?_⟩
  obtain ⟨ks, hks, rfl⟩ := Structs.slots_of_sizeOf hp.laid hn
  exact Structs.sizeOf_of_slots hl (hp.slots ty ks hks)

theorem bare_height (hs : s.Bare) {below : Shape} (ho : Outlined env whole s below temps) :
    ((s.outline whole below temps).length : Int) = below.length + s.block.temps := by
  obtain ⟨block, outer⟩ := s
  obtain ⟨rfl, hvalues⟩ : outer = [] ∧ block.values = [] := hs
  obtain ⟨vs, vss, ts, tss, hvs, rfl, _, ht, hrest⟩ := ho.blocks.inv
  cases hvs
  cases hrest
  have htemps : block.temps = ts.length := ht
  simp only [Scope.outline, Scope.chain, List.map_cons, List.map_nil, Store.frame, Block.types,
    hvalues, Named.cells, List.nil_append, List.length_append]
  omega

/-- A global that has just been declared lies on top of those before it, and its first value on top
of it. -/
theorem initial_spans {r : Resolved} {k : Nat} (hp : (env.withGlobal g).PartOf whole)
    (hu : env.sealed = false) (hk : (env.withGlobal g).sizeOf g.ty = .ok k)
    (hr : (({} : Scope).grown k).resolve (env.withGlobal g) g.name = .ok r) :
    (env.withGlobal g).Spans ⟨g.name, g.ty, g.const⟩ (whole.globalKinds env.globals).length k ∧
      ((whole.globalKinds (env.withGlobal g).globals ++ whole.kinds g.ty).length : Int) +
        r.offset = (whole.globalKinds env.globals).length := by
  have htotal := hp.total
  have hmore : whole.globalKinds (env.withGlobal g).globals =
      whole.globalKinds env.globals ++ whole.kinds g.ty := by
    simp [Env.globalKinds, Env.withGlobal]
  have hsize := (hp.sized hk).2
  obtain ⟨a, b, _, ha, hb, hnone, hall⟩ := sizeOfAll_split htotal
  cases hnone
  cases hk.symm.trans hb
  have hstart : (whole.globalKinds env.globals).length = a := by
    rw [hmore, List.length_append] at hall
    omega
  refine ⟨⟨_, [], rfl, hstart ▸ ha, hk⟩, ?_⟩
  have hat := @resolveGlobal_at _ ⟨g.name, g.ty, g.const⟩ _ [] k 0 (0 - (0 + k)) rfl (by simp) hk
    rfl
  have hu' : (env.withGlobal g).sealed = false := hu
  have hfound : (env.withGlobal g).resolveGlobal g.name (0 - (0 + k)) = .ok r := by
    obtain ⟨_, hfits, hrest⟩ := except_bind_ok.mp hr
    cases (Count.checked_ok.mp hfits).2
    exact hrest
  simp only [Env.foundAt, hu', Bool.false_eq_true, if_false] at hat
  obtain ⟨_, rfl⟩ := Count.within_ok.mp (hat.symm.trans hfound)
  simp only [hmore, List.length_append]
  omega

/-- The slots of a constant are spared by the first values of all other globals. -/
theorem fills_spares {items : Script} (hl : Structs.Laid whole.structs.layouts)
    (hspans : whole.Spans c start size) (hc : c.const = true)
    (hother : ∀ g, .global g ∈ items → Global.mk g.name g.ty g.const ≠ c) :
    Build.Fills whole items (Instruction.Spares base start size) := by
  refine ⟨fun env hp hu => ⟨fun _ _ hs => hs, ?_, ?_⟩, ?_⟩
  · intro i shape hnone anchor offset n hd
    rw [hnone] at hd
    cases hd
  · intro s temps cs path r i k hs ho hr hconst hk hi anchor offset n hd
    cases hi.symm.trans hd
    obtain ⟨hanchor, hchange⟩ := bare_changeable hp.laid hp.total hu hs hr hconst hk
    have happart := (hchange.later (hp.grows hl)).apart hspans hc
    have hheight := bare_height hs ho
    simp only [hanchor, Anchor.origin, Resolved.under, List.length_append]
    omega
  · intro env g r n k hg hp hu hk hr anchor offset m hd
    cases hd
    obtain ⟨hown, hfirst⟩ := initial_spans hp hu hk hr
    have happart := (hown.later (hp.grows hl)).apart hspans (hother g hg)
    rw [Anchor.origin, hfirst]
    omega

end Declaring

namespace Build

/-! ## Shapes along straight code -/

section Indices

variable {stream : Stream} {whole : Env} {p : Program} {shape : Nat → Shape}
  {P : Instruction → Shape → Prop} {a b : Shape} {code : List Instruction} {pc : Nat}

/-- Straight code among the globals finds the shapes that it should, in whatever way the program
verifies. -/
theorem Verified.straight (hv : Verified whole stream p shape)
    (hn : (stream.code.map (·.handle)).Nodup) (hlast : p.head.length < stream.code.length)
    (h : Straight whole P a code b) (hstands : stream.Stands pc code)
    (hend : pc + code.length ≤ p.head.length) (ha : shape pc = a) :
    shape (pc + code.length) = b ∧ ∀ k i, pc ≤ k → k < pc + code.length →
      stream.code[k]? = some i → i.op.proceeds = true → P i (shape k) := by
  obtain ⟨hlater, hinside⟩ := hv.along (tracks_eq whole) hn h hstands
    (fun k _ hk => ⟨.inl (by omega), by omega⟩) ha
  refine ⟨hlater, fun k i hlow hhigh hi hproceeds => ?_⟩
  obtain ⟨own, hown, hP⟩ := hinside k i hlow hhigh hi
  rw [hown.related]
  exact hP hproceeds

end Indices

/-! ## Writes behind the globals -/

section Programs

variable {engine : Engine} {items : Script} {env : Env} {p : Program} {s : Session}

theorem Starts.licensed {segs : List Segment} {start : List Instruction} (h : Starts segs start) :
    Licensed env start := by
  cases h with
  | main => exact licensed_plain rfl (licensed_plain rfl licensed_nil)
  | conditional =>
    exact licensed_plain rfl (licensed_plain rfl (licensed_plain rfl licensed_nil))

theorem Assembled.licensed (h : Assembled engine items env p s) {i : Instruction}
    (hi : i ∈ p.close ++ p.start ++ p.segments.flatMap Segment.code) :
    ∃ base : Env, base.globals = s.env.globals ∧ base.structs = s.env.structs ∧
      Licensed base [i] := by
  have hplain (hnone : i.op.destination? = none) : ∃ base : Env,
      base.globals = s.env.globals ∧ base.structs = s.env.structs ∧ Licensed base [i] :=
    ⟨s.env, rfl, rfl, licensed_plain hnone licensed_nil⟩
  simp only [List.mem_append, List.mem_flatMap] at hi
  rcases hi with (hi | hi) | ⟨g, hg, hi⟩
  · apply hplain
    have hmem : i.op ∈ p.close.map (·.op) := List.mem_map.mpr ⟨i, hi, rfl⟩
    rw [h.close] at hmem
    split at hmem
    · cases hmem
    · rw [List.mem_singleton.mp hmem]
      rfl
  · refine ⟨s.env, rfl, rfl, fun j hj => ?_⟩
    cases List.mem_singleton.mp hj
    exact h.start.licensed i hi
  · by_cases hop : i.op = .nop
    · apply hplain
      rw [hop]
      rfl
    · obtain ⟨f, code, hc, hcode, hmem⟩ := h.origin hg hi hop
      obtain ⟨fs, _, _, _, _, retn, _, first, hbody, _, _, hlays⟩ := h.laid hc
      cases hcode.symm.trans hbody
      refine ⟨{ s.env with functions := fs }, rfl, rfl, fun j hj => ?_⟩
      cases List.mem_singleton.mp hj
      exact (lays_licensed hlays).append (licensed_plain rfl licensed_nil) i hmem

/-- Functions change no constants. -/
theorem Assembled.changeable (h : Assembled engine items env p s) {total : Nat}
    (htotal : s.env.sizeOfAll (s.env.globals.map (·.ty)) = .ok total) {i : Instruction}
    (hi : i ∈ p.close ++ p.start ++ p.segments.flatMap Segment.code) {offset size : Int}
    (hd : i.op.destination? = some (.bp, offset, size)) :
    s.env.Changeable (total + offset) size := by
  obtain ⟨base, hglobals, hstructs, hlicensed⟩ := h.licensed hi
  obtain ⟨c, path, r, k, hr, hc, hk, hanchor, rfl, rfl⟩ :=
    hlicensed i List.mem_cons_self offset size hd
  have hlaid : Structs.Laid base.structs.layouts := by
    rw [hstructs]
    exact h.sees.2.2.1.laid
  have hkept : ∀ ty n, s.env.sizeOf ty = .ok n → base.sizeOf ty = .ok n := by
    intro ty n hn
    rw [Env.sizeOf, hstructs]
    exact hn
  have htotal' := sizeOfAll_kept hkept htotal
  rw [← hglobals] at htotal'
  obtain ⟨g, start, n, hspans, hchange⟩ := access_changeable hlaid htotal' hr hc hk hanchor
  exact ⟨g, start, n, hspans.same hglobals.symm hstructs.symm, hchange⟩

/-! ## Constants -/

/-- A constant among the globals has its value from one instruction, and no other one writes to its
slots: neither one that writes from the base of the globals, nor one that writes from the top of the
stack while globals are declared. Slots are counted from the bottom of the globals, which are `base`
many. -/
structure Settled (stream : Stream) (p : Program) (shape : Nat → Shape)
    (base start size own : Nat) : Prop where
  once : ∃ i offset, stream.code[own]? = some i ∧ i.op = .copyDown .sp offset size ∧
    (shape own).length + offset = start
  spared : ∀ k i, stream.code[k]? = some i → k ≠ own → ∀ anchor offset n,
    i.op.destination? = some (anchor, offset, n) → anchor = .bp ∨ k < p.globals.length →
      let first := anchor.origin (shape k).length base + offset
      first + n ≤ start ∨ start + size ≤ first

/-- One global among those of a program: its code stands between that of the globals before it and
that of the globals behind it. -/
structure Among (engine : Engine) (env : Env) (p : Program) (before : Script) (g : GlobalDef)
    (more : Script) (first last : Session) (n m k : Handle) (code after : List Instruction) :
    Prop where
  root : ∃ root : Session, root.env = { engine } ∧ root.out.stream = {} ∧
    globals before root = .ok () first
  own : global g first = .ok () last
  last_code : last.out.stream.code = first.out.stream.code ++ code
  globals_eq : p.globals = first.out.stream.code ++ code ++ after
  older : GlobalsCode { engine } 0 before first.env first.out.stream.code n
  itself : GlobalCode (first.env.withGlobal g) n g code m
  newer : GlobalsCode (first.env.withGlobal g) m more env after k
  names : (env.globals.map (·.name)).Nodup

theorem Assembled.among {before more : Script} {g : GlobalDef}
    (h : Assembled engine (before ++ .global g :: more) env p s) :
    ∃ first last n m k code after,
      Among engine env p before g more first last n m k code after := by
  obtain ⟨root, t, henv, hstream, hrun, rfl, hcode⟩ := h.run
  obtain ⟨first, last, hfirst, hlast, hmore, _, hdeclaring, _⟩ :=
    globals_at hrun (henv ▸ Env.declaring_empty)
  obtain ⟨older, holder, hwrites⟩ := globals_written (by rw [henv]) hfirst
  have hnone : first.env.functions = {} := by
    obtain ⟨_, _, hrest⟩ := globalsCode_env holder (by rw [henv]; exact .empty)
    rw [hrest, henv]
  obtain ⟨_, code, hown, hwrites'⟩ := global_written hlast
  have hnext := global_env hnone hlast
  obtain ⟨after, hnewer, hwrites''⟩ := globals_written (by rw [hnext]; exact hnone) hmore
  have hfirstCode : first.out.stream.code = older := by
    rw [hwrites.code_eq, hstream]
    rfl
  rw [henv, hstream, ← hfirstCode] at holder
  rw [hnext] at hnewer
  exact ⟨first, last, _, _, _, code, after, ⟨root, henv, hstream, hfirst⟩, hlast,
    hwrites'.code_eq, by rw [← hcode, hwrites''.code_eq, hwrites'.code_eq], holder, hown, hnewer,
    hdeclaring.names⟩

section Among

variable {before more : Script} {g : GlobalDef} {first last : Session} {n m k : Handle}
  {code after : List Instruction}

theorem Among.early (h : Among engine env p before g more first last n m k code after)
    (ha : Assembled engine (before ++ .global g :: more) env p s) (ht : engine.Typed) :
    Early first.env s.env ∧ (first.env.withGlobal g).PartOf s.env ∧ first.env.PartOf s.env := by
  obtain ⟨hengine, _⟩ := ha.sees
  obtain ⟨_, hshape⟩ := ha.early ht
  obtain ⟨hearly, _, _⟩ := globalsCode_early h.older (early_empty ht hengine)
  obtain ⟨ks, hks⟩ := slots_of_globalCode h.itself
  have hearly' := hearly.withGlobal hks
  obtain ⟨_, hslots, hkept⟩ := globalsCode_early h.newer hearly'
  have hstructs : s.env.structs = env.structs := by rw [ha.env_eq]; rfl
  have hglobals : s.env.globals = env.globals := by rw [ha.env_eq]; rfl
  rw [← hglobals] at hkept
  rw [← hstructs] at hslots
  exact ⟨hearly, hearly'.partOf hslots hkept hshape,
    hearly.partOf hslots ((List.prefix_append _ _).trans hkept) hshape⟩

/-- No other global is the same, since their names differ. -/
theorem Among.others (h : Among engine env p before g more first last n m k code after)
    (ha : Assembled engine (before ++ .global g :: more) env p s) :
    (∀ d, .global d ∈ before → Global.mk d.name d.ty d.const ≠ ⟨g.name, g.ty, g.const⟩) ∧
      ∀ d, .global d ∈ more → Global.mk d.name d.ty d.const ≠ ⟨g.name, g.ty, g.const⟩ := by
  have hglobals : env.globals = before.filterMap Item.global? ++
      ⟨g.name, g.ty, g.const⟩ :: more.filterMap Item.global? := by
    have hall : s.env.globals = env.globals := by rw [ha.env_eq]; rfl
    rw [← hall, ha.sees.2.1]
    simp [Item.global?]
  have hmem {d : GlobalDef} {items : Script} (hd : .global d ∈ items) :
      d.name ∈ (items.filterMap Item.global?).map (·.name) :=
    List.mem_map.mpr ⟨⟨d.name, d.ty, d.const⟩, List.mem_filterMap.mpr ⟨_, hd, rfl⟩, rfl⟩
  have hnames := h.names
  rw [hglobals, List.map_append, List.map_cons, List.nodup_append, List.nodup_cons] at hnames
  obtain ⟨_, ⟨hnewer, _⟩, holder⟩ := hnames
  refine ⟨fun d hd heq => ?_, fun d hd heq => ?_⟩
  · exact holder _ (hmem hd) _ List.mem_cons_self (congrArg Global.name heq)
  · have hname : d.name = g.name := congrArg Global.name heq
    exact hnewer (hname ▸ hmem hd)

theorem proceeds_of_destination {op : Op} {d : Anchor × Int × Int} (h : op.destination? = some d) :
    op.proceeds = true := by
  cases op <;> simp_all [Op.destination?, Op.proceeds]

/-- What stands behind the globals is the rest of the program. -/
theorem mem_behind {stream : Stream} {i : Instruction} {j : Nat} (hcode : stream.code = p.code)
    (hi : stream.code[j]? = some i) (hj : p.globals.length ≤ j) :
    i ∈ p.close ++ p.start ++ p.segments.flatMap Segment.code := by
  have hsplit : p.code = p.globals ++ (p.close ++ p.start ++ p.segments.flatMap Segment.code) := by
    simp [Program.code, Program.head]
  rw [hcode, hsplit, List.getElem?_append_right hj] at hi
  exact List.mem_of_getElem? hi

/-- A constant is settled if all globals before it spare its slots, and so do its own value, all
globals behind it, and the functions. -/
theorem Verified.settled {stream : Stream} {whole : Env} {shape : Nat → Shape}
    {base start size : Nat} {offset : Int} {older value newer : List Instruction} {n : Handle}
    {pop : Instruction} {b c d e : Shape} (hv : Verified whole stream p shape)
    (hn : (stream.code.map (·.handle)).Nodup) (hlast : p.head.length < stream.code.length)
    (hcode : stream.code = p.code)
    (hglobals : p.globals = older ++ (value ++ ([⟨n, .copyDown .sp offset size, none⟩, pop] ++
      newer)))
    (holder : Straight whole (Instruction.Spares base start size) [] older b)
    (hvalue : Straight whole (Instruction.Spares base start size) b value c)
    (hstore : Straight whole (fun _ _ => True) c [⟨n, .copyDown .sp offset size, none⟩, pop] d)
    (hnewer : Straight whole (Instruction.Spares base start size) d newer e)
    (hpop : pop.op.destination? = none) (hfirst : (c.length : Int) + offset = start)
    (hbehind : ∀ i ∈ p.close ++ p.start ++ p.segments.flatMap Segment.code, ∀ x y,
      i.op.destination? = some (.bp, x, y) → base + x + y ≤ start ∨ start + size ≤ base + x) :
    Settled stream p shape base start size (older ++ value).length := by
  have hstands : stream.Stands 0 p.globals :=
    ⟨[], p.close ++ p.start ++ p.segments.flatMap Segment.code, by
      simp [hcode, Program.code, Program.head], rfl⟩
  have hlength := congrArg List.length hglobals
  have hhead : p.globals.length ≤ p.head.length := by simp [Program.head]
  simp only [List.length_append, List.length_cons, List.length_nil] at hlength
  rw [hglobals] at hstands
  -- The shapes that are found at the four parts, one after the other.
  obtain ⟨hb, hspares₁⟩ := hv.straight hn hlast holder hstands.left (by omega) hv.first
  obtain ⟨hc, hspares₂⟩ := hv.straight hn hlast hvalue hstands.right.left (by omega) hb
  obtain ⟨hd, _⟩ := hv.straight hn hlast hstore hstands.right.right.left (by simp; omega) hc
  obtain ⟨_, hspares₃⟩ := hv.straight hn hlast hnewer hstands.right.right.right (by simp; omega) hd
  simp only [Nat.zero_add, List.length_cons, List.length_nil] at hspares₁ hspares₂ hspares₃ hc
  have hown := hstands.right.right.left.get
  have hafter := hstands.right.right.left.tail.get
  simp only [Nat.zero_add] at hown hafter
  refine ⟨⟨_, offset, by rw [List.length_append]; exact hown, rfl, ?_⟩, ?_⟩
  · rw [List.length_append, hc]
    exact hfirst
  · intro k i hi hne anchor x y hdest hwhere
    have hproceeds := proceeds_of_destination hdest
    rw [List.length_append] at hne
    by_cases hk : k < p.globals.length
    · have hplace : k < older.length ∨
          (older.length ≤ k ∧ k < older.length + value.length) ∨
          k = older.length + value.length + 1 ∨ older.length + value.length + 2 ≤ k := by omega
      rcases hplace with hlt | ⟨hlow, hlt⟩ | rfl | hlow
      · exact hspares₁ k i (Nat.zero_le _) hlt hi hproceeds anchor x y hdest
      · exact hspares₂ k i hlow hlt hi hproceeds anchor x y hdest
      · cases hafter.symm.trans hi
        rw [hpop] at hdest
        cases hdest
      · exact hspares₃ k i hlow (by omega) hi hproceeds anchor x y hdest
    · obtain rfl := hwhere.resolve_right hk
      exact hbehind i (mem_behind hcode hi (by omega)) x y hdest

theorem Among.settled (h : Among engine env p before g more first last n m k code after)
    (ha : Assembled engine (before ++ .global g :: more) env p s) (ht : engine.Typed)
    (hc : g.const = true) {total : Nat}
    (htotal : s.env.sizeOfAll (s.env.globals.map (·.ty)) = .ok total) :
    ∃ start size own : Nat, first.out.stream.code.length ≤ own ∧
      own + 2 = last.out.stream.code.length ∧
      s.env.Spans ⟨g.name, g.ty, g.const⟩ start size ∧
      ∀ shape, Verified s.env s.out.stream p shape →
        Settled s.out.stream p shape total start size own := by
  obtain ⟨hearly, hp, hp'⟩ := h.early ha ht
  obtain ⟨_, hshape⟩ := ha.early ht
  have hlaid := ha.sees.2.2.1.laid
  have hstructs : s.env.structs = env.structs := by rw [ha.env_eq]; rfl
  have hglobals : s.env.globals = env.globals := by rw [ha.env_eq]; rfl
  have hn : (s.out.stream.code.map (·.handle)).Nodup := by
    rw [ha.code_eq]
    exact ha.nodup
  have hlast : p.head.length < s.out.stream.code.length := by
    obtain ⟨i, rest, hstart⟩ := ha.start.first
    rw [ha.code_eq, Program.code, hstart]
    simp only [List.length_append, List.length_cons]
    omega
  obtain ⟨hbefore, hmore⟩ := h.others ha
  have hgiven := (global_admitted h.own).given hc
  obtain ⟨_, _, hlastCode, hcode, holder, hitself, hnewer, _⟩ := h
  cases hitself with
  | plain hnone => simp [hnone] at hgiven
  | @initialized n₁ _ ks size e r value _ hks hk hvalue hr =>
    obtain ⟨hspans, hfirst⟩ := initial_spans hp hearly.unsealed hk hr
    have hspans' := hspans.later (hp.grows hlaid)
    have hfills {items : Script} := @fills_spares s.env total _ _ _ items hlaid hspans' hc
    have hw := (hfills hbefore).values _ hp hearly.unsealed
    have hown : last.out.stream.code = first.out.stream.code ++
        (numbered n (ks.map .reserve) ++ value) ++
        [⟨n₁, .copyDown .sp r.offset size, none⟩, ⟨n₁ + 1, .moveSp (-size), none⟩] := by
      simp [hlastCode]
    refine ⟨_, size, (first.out.stream.code ++ (numbered n (ks.map .reserve) ++ value)).length,
      ?_, ?_, hspans', fun shape hv => ?_⟩
    · rw [List.length_append]
      exact Nat.le_add_right _ _
    · simp only [hown, List.length_append, List.length_cons, List.length_nil]
    · refine hv.settled hn hlast ha.code_eq (by simp [hcode])
        (globals_straight holder (early_empty ht ha.sees.1) hp'.slots hp'.globals hshape
          (hfills hbefore))
        ((reserved_straight hp hw.plain hks).append (valued_straight hp hw hvalue))
        (stored_straight n₁ hp hearly.unsealed hk hr (fun _ _ _ => trivial) trivial)
        (globals_straight hnewer (hearly.withGlobal hks) (by simp [hstructs]) (by simp [hglobals])
          hshape (hfills hmore)) rfl hfirst ?_
      intro i hi x y hd
      exact (ha.changeable htotal hi hd).apart hspans' hc

end Among

/-- Constants are never written to after they got their first value. However a program verifies,
only the instruction that ends the declaration of a constant global writes to its slots: no other
one does among the globals, and nothing that is written from their base. -/
theorem constants_settled {setup : Setup} {script : Script} {u : Unit} (ht : engine.Typed)
    (h : Build.script setup script { env := { engine } } = .ok u s) :
    ∃ items p, ∃ total : Nat, (Expansion.expand setup [] script).items = .ok items ∧
      LaidOut items s.out.stream s.entryIndex p ∧
      s.env.sizeOfAll (s.env.globals.map (·.ty)) = .ok total ∧
      s.env.globalSize = Count.within [-(total : Int)] (-(total : Int)) ∧
      (∃ shape, Verified s.env s.out.stream p shape) ∧
      ∀ before g more, items = before ++ .global g :: more → g.const = true →
        ∃ root first last : Session, ∃ start size own : Nat,
          root.env = { engine } ∧ root.out.stream = {} ∧ globals before root = .ok () first ∧
          global g first = .ok () last ∧ last.out.stream.code <+: p.globals ∧
          first.out.stream.code.length ≤ own ∧ own + 2 = last.out.stream.code.length ∧
          s.env.Spans ⟨g.name, g.ty, g.const⟩ start size ∧
          ∀ shape, Verified s.env s.out.stream p shape →
            Settled s.out.stream p shape total start size own := by
  obtain ⟨items, env, p, hitems, ha⟩ := script_assembled h
  obtain ⟨globals, close, start, rest, hsketch⟩ := ha.sketch ht
  have hn : (s.out.stream.code.map (·.handle)).Nodup := by
    rw [ha.code_eq]
    exact ha.nodup
  have hgrows : Functions.Grows s.env.functions.all (p.segments.map Segment.function) := by
    rw [ha.table]
    exact grows_refl _
  have hp : s.env.PartOf s.env := ha.partOf ht hgrows
  refine ⟨items, p, _, hitems, ha.laidOut, hp.total, globalSize_within hp.total,
    ⟨_, hsketch.verified ha.code_eq hn⟩, ?_⟩
  rintro before g more rfl hc
  obtain ⟨first, last, n, m, k, code, after, hamong⟩ := ha.among
  obtain ⟨root, henv, hstream, hroot⟩ := hamong.root
  obtain ⟨start, size, own, hlow, hown, hspans, hsettled⟩ := hamong.settled ha ht hc hp.total
  refine ⟨root, first, last, start, size, own, henv, hstream, hroot, hamong.own, ?_, hlow, hown,
    hspans, hsettled⟩
  rw [hamong.last_code, hamong.globals_eq]
  exact List.prefix_append _ _

end Programs

/-- A constant between variables, the first of which is changed by a deferred command in the first
value of the last one, and by a function. -/
def beacon : Script :=
  let pair : Ty := .struct "Pair"
  [.struct ⟨"Pair", [⟨.int, "low"⟩, ⟨.vector, "high"⟩]⟩,
   .global ⟨false, pair, "seen", none⟩,
   .global ⟨true, .vector, "origin", some (.literal (.vector ⟨1⟩ ⟨2⟩ ⟨3⟩))⟩,
   .global ⟨false, .int, "ticket", some (.call "Defer"
     [.assign .set ⟨"seen", ["low"]⟩ (.literal (.int 2))])⟩,
   .function ⟨⟨.void, "main", []⟩,
     [.expr (.assign .add ⟨"seen", ["high", "x"]⟩ (.access ⟨"origin", ["x"]⟩)),
      .expr (.step .inc .post ⟨"ticket", []⟩)]⟩]

def deferring : Engine := { routines := [⟨.int, "Defer", [⟨.action, "command", none⟩]⟩] }

theorem beacon_settled :
    ∃ s, Build.script {} beacon { env := { engine := deferring } } = .ok () s ∧
      ∃ p shape, ∃ total start own : Nat, Verified s.env s.out.stream p shape ∧
        s.env.Spans ⟨"origin", .vector, true⟩ start 3 ∧
        Settled s.out.stream p shape total start 3 own := by
  obtain ⟨s, hs⟩ := @compiles_of_gives beacon { env := { engine := deferring } } rfl
    (by decide +kernel)
  obtain ⟨items, p, total, hitems, _, _, _, ⟨shape, hverified⟩, hconstants⟩ :=
    constants_settled (by simp [Engine.Typed, deferring]) hs
  rw [Expansion.expand_plain rfl] at hitems
  cases hitems
  obtain ⟨_, _, _, start, size, own, _, _, _, _, _, _, _, hspans, hsettled⟩ :=
    hconstants (beacon.take 2) _ (beacon.drop 3) rfl rfl
  obtain ⟨_, _, _, _, hsize⟩ := id hspans
  cases hsize
  exact ⟨s, hs, p, shape, total, start, own, hverified, hspans, hsettled shape hverified⟩

end Build

end NwScript
