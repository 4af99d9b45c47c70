-- The code of the globals is in order. It starts with an empty stack, and when it is through, just
-- the globals are there.
import NwScript.Proofs.Shape.Parts
import NwScript.Proofs.Program.Globals

namespace NwScript

/-- A scope without variables: only temporaries are on top of the globals. -/
def Scope.Bare (s : Scope) : Prop := s.outer = [] ∧ s.block.values = []

namespace Build

open Codegen

/-! ## While globals are declared -/

/-- An environment that the globals of a program have led to so far. -/
structure Early (env whole : Env) : Prop where
  built : env.structs.Built
  known : ∀ g ∈ env.globals, ∃ ks, env.structs.slots g.ty = .ok ks
  typed : env.engine.Typed
  engine : whole.engine = env.engine
  unsealed : env.sealed = false
  uncalled : env.functions.all = []

section Globals

variable {env env' whole : Env} {aims : Handle → Shape → Prop} {n m : Handle} {items : Script}
  {code : List Instruction}

theorem early_empty {engine : Engine} (ht : engine.Typed) (he : whole.engine = engine) :
    Early { engine } whole :=
  ⟨.empty, by simp, ht, he, rfl, rfl⟩

theorem Early.withGlobal {g : GlobalDef} {ks : List SlotKind} (h : Early env whole)
    (hs : env.structs.slots g.ty = .ok ks) : Early (env.withGlobal g) whole := by
  refine ⟨h.built, ?_, h.typed, h.engine, h.unsealed, h.uncalled⟩
  intro k hk
  rcases List.mem_append.mp hk with hk | hk
  · exact h.known k hk
  · cases List.mem_singleton.mp hk
    exact ⟨ks, hs⟩

theorem Early.define {d : StructDef} {structs : Structs} {e : Event} (h : Early env whole)
    (hd : Structs.define d env.structs = .ok e structs) : Early { env with structs } whole := by
  refine ⟨.define h.built hd, ?_, h.typed, h.engine, h.unsealed, h.uncalled⟩
  intro g hg
  obtain ⟨ks, hks⟩ := h.known g hg
  exact ⟨ks, Structs.slots_define h.built.laid hd hks⟩

theorem slots_of_globalCode {g : GlobalDef} (h : GlobalCode env n g code m) :
    ∃ ks, env.structs.slots g.ty = .ok ks := by
  cases h with
  | plain _ hs | initialized _ hs => exact ⟨_, hs⟩

/-- Types that are known stay known, and globals stay where they are. -/
theorem globalsCode_early (h : GlobalsCode env n items env' code m) (he : Early env whole) :
    Early env' whole ∧ (∀ ty ks, env.structs.slots ty = .ok ks → env'.structs.slots ty = .ok ks) ∧
      env.globals <+: env'.globals := by
  induction h with
  | nil => exact ⟨he, fun _ _ h => h, List.prefix_refl _⟩
  | skip _ _ _ ih => exact ih he
  | struct hd _ ih =>
    obtain ⟨hlast, hslots, hglobals⟩ := ih (he.define hd)
    exact ⟨hlast, fun ty ks h => hslots ty ks (Structs.slots_define he.built.laid hd h), hglobals⟩
  | global hg _ ih =>
    obtain ⟨ks, hks⟩ := slots_of_globalCode hg
    obtain ⟨hlast, hslots, hglobals⟩ := ih (he.withGlobal hks)
    exact ⟨hlast, hslots, (List.prefix_append _ _).trans hglobals⟩

/-- The globals of a whole program have slots. -/
theorem Early.globalShape (h : Early env whole) (hg : whole.globals = env.globals)
    (hs : whole.structs = env.structs) :
    whole.globalShape? = some (whole.globalKinds whole.globals) := by
  have hknown : ∀ ty ∈ whole.globals.map (·.ty), whole.structs.slots ty = .ok (whole.kinds ty) := by
    intro ty hty
    obtain ⟨g, hmem, rfl⟩ := List.mem_map.mp hty
    rw [hg] at hmem
    obtain ⟨ks, hks⟩ := h.known g hmem
    rw [← hs] at hks
    rw [Env.kinds_of_slots hks, hks]
  rw [Env.globalShape?, Env.shapes?_of_slots hknown, List.flatMap_map]
  rfl

theorem Early.partOf (h : Early env whole)
    (hslots : ∀ ty ks, env.structs.slots ty = .ok ks → whole.structs.slots ty = .ok ks)
    (hglobals : env.globals <+: whole.globals)
    (hshape : whole.globalShape? = some (whole.globalKinds whole.globals)) : env.PartOf whole := by
  refine ⟨h.built.laid, h.typed, h.engine, hslots, ?_, hglobals, ?_, hshape, ?_⟩
  · intro g hg
    obtain ⟨ks, hks⟩ := h.known g hg
    rw [Env.kinds_of_slots (hslots _ _ hks), hks]
  · simp [h.unsealed]
  · simp [h.uncalled]

/-- A struct has the slots of its fields, one after another. -/
theorem globalsCode_structs (h : GlobalsCode env n items env' code m) (he : Early env whole)
    (hslots : ∀ ty ks, env'.structs.slots ty = .ok ks → whole.structs.slots ty = .ok ks)
    {d : StructDef} (hd : .struct d ∈ items) :
    ∃ ks, whole.shape? (.struct d.name) = some ks ∧
      whole.shapes? (d.fields.map (·.ty)) = some ks := by
  induction h with
  | nil => cases hd
  | skip _ hother _ ih =>
    rcases List.mem_cons.mp hd with rfl | hd
    · exact absurd rfl (hother d)
    · exact ih he hslots hd
  | @struct env env' n m d' structs e rest code hnew hrest ih =>
    have he' := he.define hnew
    obtain ⟨_, hlater, _⟩ := globalsCode_early hrest he'
    rcases List.mem_cons.mp hd with heq | hd
    · cases heq
      have hkept {ty : Ty} {ks : List SlotKind} (hks : env.structs.slots ty = .ok ks) :=
        hslots ty ks (hlater ty ks (Structs.slots_define he.built.laid hnew hks))
      obtain ⟨hfields, hall⟩ := Structs.slots_defined he.built.laid hnew fun ty ks hks =>
        Env.kinds_of_slots (hkept hks)
      refine ⟨_, ?_, Env.shapes?_of_slots fun ty hty => hkept (hfields ty hty)⟩
      have hstruct := hslots _ _ (hlater _ _ hall)
      rw [Env.shape?_of_slots hstruct, Env.kinds_of_slots hstruct]
    · exact ih he' hslots hd
  | global hg _ ih =>
    obtain ⟨ks, hks⟩ := slots_of_globalCode hg
    rcases List.mem_cons.mp hd with heq | hd
    · cases heq
    · exact ih (he.withGlobal hks) hslots hd

/-! ## One global -/

/-- A global that was just declared is found from the top of the stack. -/
theorem resolve_global {g : GlobalDef} {r : Resolved} {k : Int} (hs : env.sealed = false)
    (h : (({} : Scope).grown k).resolve (env.withGlobal g) g.name = .ok r) :
    r.ty = g.ty ∧ r.anchor = .sp := by
  have hs' : (env.withGlobal g).sealed = false := hs
  have hlast : (env.withGlobal g).globals.reverse =
      ⟨g.name, g.ty, g.const⟩ :: env.globals.reverse := by
    simp [Env.withGlobal]
  simp only [Scope.resolve, Scope.resolveFrom, Scope.chain, Scope.grown,
    Scope.resolveIn, Scope.seek,
    Env.resolveGlobal, hlast, Env.seekGlobal, except_bind_ok, if_true, hs', Bool.false_eq_true,
    if_false, Count.checked_ok, except_pure_ok] at h
  obtain ⟨_, _, _, _, _, _, _, _, rfl⟩ := h
  exact ⟨rfl, rfl⟩

/-- What a property of instructions has to say for the code of some globals to have it: the code of
their first values has it, and so do the instructions that store these values. -/
structure Fills (whole : Env) (items : Script) (P : Instruction → Shape → Prop) : Prop where
  values : ∀ env : Env, env.PartOf whole → env.sealed = false →
    Permits env whole (whole.globalKinds env.globals) Scope.Bare P
  stores : ∀ (env : Env) g r n, ∀ k : Nat, .global g ∈ items → (env.withGlobal g).PartOf whole →
    env.sealed = false → (env.withGlobal g).sizeOf g.ty = .ok k →
    (({} : Scope).grown k).resolve (env.withGlobal g) g.name = .ok r →
    P ⟨n, .copyDown .sp r.offset k, none⟩
      (whole.globalKinds (env.withGlobal g).globals ++ whole.kinds g.ty)

theorem fills_all : Fills whole items fun _ _ => True :=
  ⟨fun _ _ _ => ⟨fun _ _ h => h, fun _ _ _ => trivial, fun _ _ _ _ _ _ _ _ _ _ _ _ _ => trivial⟩,
    fun _ _ _ _ _ _ _ _ _ _ => trivial⟩

variable {P : Instruction → Shape → Prop} {g : GlobalDef}

theorem reserved_straight {ks : List SlotKind} (hp : (env.withGlobal g).PartOf whole)
    (hplain : ∀ i shape, i.op.destination? = none → P i shape)
    (hks : (env.withGlobal g).structs.slots g.ty = .ok ks) :
    Straight whole P (whole.globalKinds env.globals) (numbered n (ks.map .reserve))
      (whole.globalKinds (env.withGlobal g).globals) := by
  have hmore : whole.globalKinds (env.withGlobal g).globals =
      whole.globalKinds env.globals ++ whole.kinds g.ty := by
    simp [Env.globalKinds, Env.withGlobal]
  rw [hmore, hp.kinds_eq hks]
  exact straight_reserve hplain

/-- The first value of a global is computed on top of all globals up to that one. -/
theorem valued_straight {e : Expr} {value : List Instruction} {n₁ : Handle}
    (hp : (env.withGlobal g).PartOf whole)
    (hw : Permits (env.withGlobal g) whole (whole.globalKinds (env.withGlobal g).globals)
      Scope.Bare P)
    (h : Emits (env.withGlobal g) {} n (.value e) [g.ty] value n₁) :
    Straight whole P (whole.globalKinds (env.withGlobal g).globals) value
      (whole.globalKinds (env.withGlobal g).globals ++ whole.kinds g.ty) := by
  obtain ⟨ho, houtline⟩ := @outlined_empty _ whole _
    (.inr (.inr (@rfl _ (whole.globalKinds (env.withGlobal g).globals))))
  have hvalue := emits_straight hp hw h ⟨rfl, rfl⟩ _ ho
  rwa [houtline, List.flatMap_singleton] at hvalue

theorem stored_straight {r : Resolved} {k : Nat} (n : Handle)
    (hp : (env.withGlobal g).PartOf whole) (hs : env.sealed = false)
    (hk : (env.withGlobal g).sizeOf g.ty = .ok k)
    (hr : (({} : Scope).grown k).resolve (env.withGlobal g) g.name = .ok r)
    (hplain : ∀ i shape, i.op.destination? = none → P i shape)
    (hstore : P ⟨n, .copyDown .sp r.offset k, none⟩
      (whole.globalKinds (env.withGlobal g).globals ++ whole.kinds g.ty)) :
    Straight whole P (whole.globalKinds (env.withGlobal g).globals ++ whole.kinds g.ty)
      [⟨n, .copyDown .sp r.offset k, none⟩, ⟨n + 1, .moveSp (-k), none⟩]
      (whole.globalKinds (env.withGlobal g).globals) := by
  obtain ⟨ho, houtline⟩ := @outlined_empty _ whole _
    (.inr (.inr (@rfl _ (whole.globalKinds (env.withGlobal g).globals))))
  obtain ⟨hty, hanchor⟩ := resolve_global hs hr
  have hlast := initial_straight n hp ho hk hr hty hanchor hplain (houtline.symm ▸ hstore)
  rwa [houtline] at hlast

theorem global_straight (hf : Fills whole items P) (hmem : .global g ∈ items)
    (hp : (env.withGlobal g).PartOf whole) (hs : env.sealed = false)
    (h : GlobalCode (env.withGlobal g) n g code m) :
    Straight whole P (whole.globalKinds env.globals) code
      (whole.globalKinds (env.withGlobal g).globals) := by
  have hw := hf.values _ hp hs
  cases h with
  | plain _ hks => exact reserved_straight hp hw.plain hks
  | @initialized n₁ _ ks k e r value _ hks hk hvalue hr =>
    have hstore := hf.stores env g r n₁ k hmem hp hs hk hr
    exact (reserved_straight hp hw.plain hks).append ((valued_straight hp hw hvalue).append
      (stored_straight n₁ hp hs hk hr hw.plain hstore))

/-! ## All globals -/

theorem globals_straight (h : GlobalsCode env n items env' code m) (he : Early env whole)
    (hslots : ∀ ty ks, env'.structs.slots ty = .ok ks → whole.structs.slots ty = .ok ks)
    (hglobals : env'.globals <+: whole.globals)
    (hshape : whole.globalShape? = some (whole.globalKinds whole.globals))
    (hf : Fills whole items P) :
    Straight whole P (whole.globalKinds env.globals) code (whole.globalKinds env'.globals) := by
  have hrest {item : Item} {rest : Script} (hf : Fills whole (item :: rest) P) :
      Fills whole rest P :=
    ⟨hf.values, fun env g r n k hg => hf.stores env g r n k (List.mem_cons_of_mem _ hg)⟩
  induction h with
  | nil => exact .nil
  | skip _ _ _ ih => exact ih he hslots hglobals (hrest hf)
  | struct hd _ ih => exact ih (he.define hd) hslots hglobals (hrest hf)
  | @global env env' n n₁ m g rest code more hg hmore ih =>
    obtain ⟨ks, hks⟩ := slots_of_globalCode hg
    have he' := he.withGlobal hks
    obtain ⟨_, hlater, hkept⟩ := globalsCode_early hmore he'
    have hp := he'.partOf (fun ty ks h => hslots ty ks (hlater ty ks h))
      (hkept.trans hglobals) hshape
    have hfirst := global_straight hf List.mem_cons_self hp he.unsealed hg
    exact hfirst.append (ih he' hslots hglobals (hrest hf))

theorem globals_inOrder (h : GlobalsCode env n items env' code m) (he : Early env whole)
    (hslots : ∀ ty ks, env'.structs.slots ty = .ok ks → whole.structs.slots ty = .ok ks)
    (hglobals : env'.globals <+: whole.globals)
    (hshape : whole.globalShape? = some (whole.globalKinds whole.globals)) :
    InOrder whole aims [] (whole.globalKinds env.globals) code
      (whole.globalKinds env'.globals) :=
  (globals_straight h he hslots hglobals hshape fills_all).inOrder

end Globals

end Build

end NwScript
