-- Where variables stand in a shape. What a name or a chain of members is resolved to is a stretch
-- of just the kinds of its type.
import NwScript.Proofs.Shape.Chain
import NwScript.Proofs.Storage.Spans
import NwScript.Proofs.Codegen.Emits

namespace NwScript

/-! ## Kinds of types -/

namespace Env

/-- The slots of a value of a type that is known. -/
def kinds (env : Env) (ty : Ty) : Shape := (env.shape? ty).getD []

theorem kinds_of_slots {env : Env} {ty : Ty} {ks : List SlotKind}
    (h : env.structs.slots ty = .ok ks) : env.kinds ty = ks := by
  simp [kinds, shape?, h, Except.toOption]

theorem shape?_of_slots {env : Env} {ty : Ty} {ks : List SlotKind}
    (h : env.structs.slots ty = .ok ks) : env.shape? ty = some (env.kinds ty) := by
  rw [kinds_of_slots h]
  simp [shape?, h, Except.toOption]

theorem shapes?_of_slots {env : Env} {tys : List Ty}
    (h : ∀ ty ∈ tys, env.structs.slots ty = .ok (env.kinds ty)) :
    env.shapes? tys = some (tys.flatMap env.kinds) := by
  induction tys with
  | nil => rfl
  | cons ty rest ih =>
    have hrest := ih fun ty hty => h ty (List.mem_cons_of_mem _ hty)
    simp [shapes?, shape?_of_slots (h ty List.mem_cons_self), hrest]

/-- The slots of all globals, if their types are known. -/
def globalKinds (env : Env) (globals : List Global) : Shape :=
  globals.flatMap fun g => env.kinds g.ty

/-- Code that is compiled in `env` stands in a program with `whole`, where more may be known. -/
structure PartOf (env whole : Env) : Prop where
  laid : Structs.Laid env.structs.layouts
  typed : env.engine.Typed
  engine : whole.engine = env.engine
  slots : ∀ ty ks, env.structs.slots ty = .ok ks → whole.structs.slots ty = .ok ks
  known : ∀ g ∈ env.globals, env.structs.slots g.ty = .ok (whole.kinds g.ty)
  globals : env.globals <+: whole.globals
  closed : env.sealed = true → env.globals = whole.globals
  globalShape : whole.globalShape? = some (whole.globalKinds whole.globals)
  functions : ∀ f ∈ env.functions.all, ∃ g, whole.callee? f.entry = some g ∧
    g.signature.returnType = f.signature.returnType ∧
    g.signature.params.map (·.ty) = f.signature.params.map (·.ty)

section Known

variable {env whole : Env} {ty : Ty} {ks : List SlotKind} {k : Nat}

theorem PartOf.kinds_eq (h : env.PartOf whole) (hs : env.structs.slots ty = .ok ks) :
    whole.kinds ty = ks := kinds_of_slots (h.slots ty ks hs)

/-- A type with a size is known, and the size counts its slots. -/
theorem PartOf.sized (h : env.PartOf whole) (hk : env.sizeOf ty = .ok k) :
    env.structs.slots ty = .ok (whole.kinds ty) ∧ k = (whole.kinds ty).length := by
  obtain ⟨ks, hks, rfl⟩ := Structs.slots_of_sizeOf h.laid hk
  rw [h.kinds_eq hks]
  exact ⟨hks, rfl⟩

theorem PartOf.sized_all (h : env.PartOf whole) {tys : List Ty} (hk : env.sizeOfAll tys = .ok k) :
    k = (tys.flatMap whole.kinds).length := by
  induction tys generalizing k with
  | nil =>
    cases hk
    rfl
  | cons ty rest ih =>
    simp only [Env.sizeOfAll, except_bind_ok, except_pure_ok] at hk
    obtain ⟨i, hi, j, hj, rfl⟩ := hk
    rw [(h.sized hi).2, ih hj, List.flatMap_cons, List.length_append]

theorem PartOf.known_shape (h : env.PartOf whole) (hs : env.structs.slots ty = .ok ks) :
    whole.shape? ty = some (whole.kinds ty) := shape?_of_slots (h.slots ty ks hs)

end Known

end Env

/-! ## Outlines of scopes -/

/-- The variables of a block with their types, the newest first. -/
def Block.types (b : Block) : Named Ty := b.values.map fun v => (v.name, v.ty)

/-- The types of the variables that a scope sees. -/
def Scope.types (s : Scope) (env : Env) : Store Ty :=
  ⟨s.chain.map Block.types, env.globals.reverse.map fun g => (g.name, g.ty)⟩

/-- A variable is of its own type, which is known. -/
def Env.Knows (env whole : Env) (ty x : Ty) : Prop :=
  x = ty ∧ env.structs.slots ty = .ok (whole.kinds ty)

/-- The shape of a function, with `below` under its frame and the temporaries on top of each block.
-/
def Scope.outline (whole : Env) (s : Scope) (below : Shape) (temps : List Shape) : Shape :=
  below ++ Store.frame whole.kinds (s.chain.map Block.types) temps

/-- The scope can be laid out. As long as the globals are incomplete, they are just what is below
the frame. -/
structure Outlined (env whole : Env) (s : Scope) (below : Shape) (temps : List Shape) : Prop where
  blocks : Matches (env.Knows whole) s.chain (s.chain.map Block.types) temps
  reach : env.sealed = true ∨ env.globals = [] ∨ below = whole.globalKinds env.globals

/-- The slots that an offset is counted in. -/
def Env.ground (whole : Env) (shape : Shape) : Anchor → Shape
  | .sp => shape
  | .bp => whole.globalKinds whole.globals

/-- What was resolved lies in the shape, with the kinds of its type. -/
def Resolved.LiesIn (r : Resolved) (whole : Env) (shape : Shape) : Prop :=
  ∃ before after, whole.ground shape r.anchor = before ++ whole.kinds r.ty ++ after ∧
    (whole.ground shape r.anchor).length + r.offset = before.length

section Outlines

variable {env whole : Env} {s : Scope} {below : Shape} {temps : List Shape} {r : Resolved}

theorem cells_types (kinds : Ty → Shape) (vs : Named Ty) :
    vs.cells kinds = vs.reverse.flatMap fun v => kinds v.2 := by
  induction vs with
  | nil => rfl
  | cons v rest ih => simp [Named.cells, ih]

theorem agree_types {values : List Variable}
    (h : ∀ v ∈ values, env.structs.slots v.ty = .ok (whole.kinds v.ty)) :
    Agree (env.Knows whole) values (values.map fun v => (v.name, v.ty)) := by
  induction values with
  | nil => exact .nil
  | cons v rest ih =>
    exact .cons ⟨rfl, h v List.mem_cons_self⟩ (ih fun v hv => h v (List.mem_cons_of_mem _ hv))

theorem Env.PartOf.knows_size (h : env.PartOf whole) {ty x : Ty} (hx : env.Knows whole ty x) :
    env.sizeOf ty = .ok (whole.kinds x).length := by
  rw [hx.1]
  exact Structs.sizeOf_of_slots h.laid hx.2

/-- The stretch that was resolved is found by its offset. -/
theorem Resolved.LiesIn.area {shape : Shape} {k : Int} (h : r.LiesIn whole shape)
    (hg : whole.globalShape? = some (whole.globalKinds whole.globals))
    (hk : k = (whole.kinds r.ty).length) :
    whole.area? shape r.anchor r.offset k = some (whole.kinds r.ty) := by
  obtain ⟨before, after, hground, hoffset⟩ := h
  cases ha : r.anchor with
  | sp =>
    rw [ha] at hground hoffset
    exact slice?_append hground hoffset hk
  | bp =>
    rw [ha] at hground hoffset
    simp only [Env.area?, hg, Option.bind_some]
    exact slice?_append hground hoffset hk

/-- A variable lies where it was resolved to. -/
theorem variable_lies_in {name : Name} (hp : env.PartOf whole)
    (h : Outlined env whole s below temps) (hr : s.resolve env name = .ok r) :
    (s.types env).get? name = some r.ty ∧ env.structs.slots r.ty = .ok (whole.kinds r.ty) ∧
      r.LiesIn whole (s.outline whole below temps) := by
  have hsize : ∀ ty x, env.Knows whole ty x → env.sizeOf ty = .ok (whole.kinds x).length :=
    fun ty x hx => hp.knows_size hx
  rcases resolveIn_cases hsize h.blocks hr with
    ⟨ty, before, after, hget, hty, hcells, hoffset, hanchor, _⟩ | ⟨hget, _, hglobal⟩
  · obtain ⟨rfl, hknown⟩ := hty
    refine ⟨by simp [Store.get?, Scope.types, hget], hknown, below ++ before, after, ?_, ?_⟩
    · simp [hanchor, Env.ground, Scope.outline, hcells]
    · simp only [hanchor, Env.ground, hoffset, Scope.outline, hcells, List.length_append]
      omega
  · have hknown : Agree (env.Knows whole) (env.globals.reverse.map fun g => ⟨g.name, g.ty⟩)
        ((env.globals.reverse.map fun g => Variable.mk g.name g.ty).map fun v => (v.name, v.ty)) :=
      agree_types (by simpa using fun g hg => hp.known g hg)
    obtain ⟨ty, before, after, hget', hty, hcells, hoffset, hanchor, _⟩ :=
      seekGlobal_cases hsize hknown hglobal
    obtain ⟨rfl, hslots⟩ := hty
    rw [List.map_map] at hget'
    have hall : whole.globalKinds env.globals = before ++ whole.kinds r.ty ++ after := by
      rw [← hcells, cells_types]
      simp [Env.globalKinds, List.flatMap_map]
    refine ⟨by simpa [Store.get?, Scope.types, hget, Function.comp_def] using hget', hslots, ?_⟩
    by_cases hsealed : env.sealed = true
    · refine ⟨before, after, ?_, ?_⟩
      · rw [hanchor, if_pos hsealed, Env.ground, ← hp.closed hsealed, hall]
      · simp only [hoffset, hanchor, hsealed, if_true, Env.ground, ← hp.closed hsealed, hall,
          List.length_append]
        omega
    · rcases h.reach with hsealed' | hnone | hbelow
      · exact absurd hsealed' hsealed
      · simp [Env.resolveGlobal, hnone, Env.seekGlobal] at hglobal
      · refine ⟨before, after ++ Store.frame whole.kinds (s.chain.map Block.types) temps, ?_, ?_⟩
        · simp [hanchor, hsealed, Env.ground, Scope.outline, hbelow, hall]
        · simp only [hanchor, hsealed, hoffset, if_false, Env.ground, Scope.outline, hbelow, hall,
            List.length_append, Bool.false_eq_true]
          omega

/-- Members lie inside what they are members of. -/
theorem follow_lies_in {path : Access} {shape : Shape} {r' : Resolved} {members : List Name}
    (hp : env.PartOf whole) (hf : Codegen.follow env path r members = .ok r')
    (hs : env.structs.slots r.ty = .ok (whole.kinds r.ty)) (h : r.LiesIn whole shape) :
    env.structs.slots r'.ty = .ok (whole.kinds r'.ty) ∧ r'.LiesIn whole shape := by
  obtain ⟨hanchor, _, hpart⟩ := follow_contains hp.laid hf
  obtain ⟨d, hd, first, ks, last, hslots, rfl, hks⟩ := hpart _ hs
  have hkinds : whole.kinds r.ty = first ++ whole.kinds r'.ty ++ last := by
    rw [hp.kinds_eq hslots, hp.kinds_eq hks]
  rw [← hp.kinds_eq hks] at hks
  refine ⟨hks, ?_⟩
  obtain ⟨before, after, hground, hoffset⟩ := h
  refine ⟨before ++ first, last ++ after, by simp [hanchor, hground, hkinds], ?_⟩
  simp only [hanchor, hd, List.length_append]
  omega

/-- A variable or a member of it lies where it was resolved to. -/
theorem access_lies_in {path : Access} (hp : env.PartOf whole)
    (h : Outlined env whole s below temps) (hr : Codegen.resolveAccess env s path = .ok r) :
    env.structs.slots r.ty = .ok (whole.kinds r.ty) ∧
      r.LiesIn whole (s.outline whole below temps) := by
  simp only [Codegen.resolveAccess, except_bind_ok] at hr
  obtain ⟨r₀, hr₀, hf⟩ := hr
  obtain ⟨_, hs, hlies⟩ := variable_lies_in hp h hr₀
  exact follow_lies_in hp hf hs hlies

/-- Everything of the frame is counted. -/
theorem Outlined.height {k : Int} (hp : env.PartOf whole) (h : Outlined env whole s below temps)
    (hk : s.fullSize env = .ok k) :
    k = (Store.frame whole.kinds (s.chain.map Block.types) temps).length :=
  height_frame (fun _ _ hx => hp.knows_size hx) h.blocks hk

/-- With no variables yet, there is only what is below the frame. -/
theorem outlined_empty
    (h : env.sealed = true ∨ env.globals = [] ∨ below = whole.globalKinds env.globals) :
    Outlined env whole {} below [[]] ∧ ({} : Scope).outline whole below [[]] = below :=
  ⟨⟨.cons .nil rfl .nil, h⟩, by
    simp [Scope.outline, Scope.chain, Store.frame, Block.types, Named.cells]⟩

/-! ## Temporaries -/

theorem Outlined.push {cs : Shape} {k : Int} (h : Outlined env whole s below temps)
    (hk : k = cs.length) : Outlined env whole (s.grown k) below (pushTemps cs temps) :=
  ⟨h.blocks.push hk, h.reach⟩

theorem Outlined.outline_push {cs : Shape} {k : Int} (h : Outlined env whole s below temps) :
    (s.grown k).outline whole below (pushTemps cs temps) = s.outline whole below temps ++ cs := by
  have hframe : Store.frame whole.kinds (s.chain.map Block.types) (pushTemps cs temps) =
      Store.frame whole.kinds (s.chain.map Block.types) temps ++ cs := h.blocks.frame_push
  rw [Scope.outline, Scope.outline, List.append_assoc, ← hframe]
  rfl

end Outlines

/-! ## More on top -/

/-- The same place, seen with `k` more slots on top of the stack. -/
def Resolved.under (r : Resolved) (k : Int) : Resolved :=
  match r.anchor with
  | .sp => { r with offset := r.offset - k }
  | .bp => r

section Under

variable {env : Env} {name : Name} {r r' : Resolved} {k : Int}

@[simp] theorem Resolved.under_ty : (r.under k).ty = r.ty := by
  unfold Resolved.under
  split <;> rfl

@[simp] theorem Resolved.under_const : (r.under k).const = r.const := by
  unfold Resolved.under
  split <;> rfl

@[simp] theorem Resolved.under_zero : r.under 0 = r := by
  unfold Resolved.under
  split <;> simp

/-- What lies in a shape lies there also with more on top. -/
theorem Resolved.LiesIn.under {whole : Env} {shape : Shape} (h : r.LiesIn whole shape)
    (cs : Shape) :
    (r.under cs.length).LiesIn whole (shape ++ cs) := by
  obtain ⟨before, after, hground, hoffset⟩ := h
  rcases r with ⟨ty, offset, anchor, const⟩
  cases anchor with
  | sp =>
    refine ⟨before, after ++ cs, ?_, ?_⟩
    · simp only [Env.ground] at hground
      simp [Resolved.under, Env.ground, hground]
    · simp only [Env.ground] at hoffset
      simp only [Resolved.under, Env.ground, List.length_append]
      omega
  | bp => exact ⟨before, after, hground, hoffset⟩

theorem Resolved.under_member {ty : Ty} {offset : Int} :
    { r.under k with ty, offset := (r.under k).offset + offset } =
      Resolved.under { r with ty, offset := r.offset + offset } k := by
  rcases r with ⟨_, _, anchor, _⟩
  cases anchor with
  | sp =>
    simp only [Resolved.under, Resolved.mk.injEq, true_and, and_true]
    omega
  | bp => rfl

theorem seekGlobal_under {gs : List Global} {above below : Int}
    (h : env.seekGlobal name above gs below = .ok r)
    (h' : env.seekGlobal name (above - k) gs below = .ok r') : r' = r.under k := by
  induction gs generalizing below with
  | nil => simp [Env.seekGlobal] at h
  | cons g older ih =>
    simp only [Env.seekGlobal, except_bind_ok, Count.checked_ok] at h h'
    obtain ⟨size, hsize, _, ⟨-, rfl⟩, h⟩ := h
    obtain ⟨size', hsize', _, ⟨-, rfl⟩, h'⟩ := h'
    cases hsize.symm.trans hsize'
    by_cases hname : g.name = name
    · rw [if_pos hname] at h h'
      by_cases hsealed : env.sealed = true
      · rw [if_pos hsealed] at h h'
        cases h
        cases h'
        rfl
      · rw [if_neg hsealed] at h h'
        simp only [except_bind_ok, Count.checked_ok, except_pure_ok] at h h'
        obtain ⟨_, ⟨-, rfl⟩, rfl⟩ := h
        obtain ⟨_, ⟨-, rfl⟩, rfl⟩ := h'
        simp only [Resolved.under, Resolved.mk.injEq, true_and, and_true]
        omega
    · rw [if_neg hname] at h h'
      exact ih h h'

theorem seek_under {below : Int → Except Failure Resolved} {values : List Variable} {offset : Int}
    (hbelow : ∀ offset, below offset = .ok r → below (offset - k) = .ok r' → r' = r.under k)
    (h : Scope.seek env name below values offset = .ok r)
    (h' : Scope.seek env name below values (offset - k) = .ok r') : r' = r.under k := by
  induction values generalizing offset with
  | nil => exact hbelow _ h h'
  | cons v rest ih =>
    simp only [Scope.seek, except_bind_ok, Count.checked_ok] at h h'
    obtain ⟨size, hsize, _, ⟨-, rfl⟩, h⟩ := h
    obtain ⟨size', hsize', _, ⟨-, rfl⟩, h'⟩ := h'
    cases hsize.symm.trans hsize'
    have hswap : offset - k - (size : Int) = offset - size - k := by omega
    rw [hswap] at h'
    by_cases hname : v.name = name
    · rw [if_pos hname] at h h'
      cases h
      cases h'
      rfl
    · rw [if_neg hname] at h h'
      exact ih h h'

theorem resolveIn_under {chain : List Block} {offset : Int}
    (h : Scope.resolveIn env name chain offset = .ok r)
    (h' : Scope.resolveIn env name chain (offset - k) = .ok r') : r' = r.under k := by
  induction chain generalizing offset with
  | nil => exact seekGlobal_under h h'
  | cons b outer ih =>
    simp only [Scope.resolveIn, except_bind_ok, Count.checked_ok] at h h'
    obtain ⟨_, ⟨-, rfl⟩, h⟩ := h
    obtain ⟨_, ⟨-, rfl⟩, h'⟩ := h'
    have hswap : offset - k - b.temps = offset - b.temps - k := by omega
    rw [hswap] at h'
    exact seek_under (fun _ => ih) h h'

theorem follow_under {path : Access} {members : List Name} {r₁ r₁' : Resolved}
    (h : Codegen.follow env path r members = .ok r₁)
    (h' : Codegen.follow env path (r.under k) members = .ok r₁') : r₁' = r₁.under k := by
  induction members generalizing r with
  | nil =>
    cases h
    cases h'
    rfl
  | cons m rest ih =>
    cases hty : r.ty with
    | vector =>
      simp only [Codegen.follow, hty, Resolved.under_ty] at h h'
      cases hm : Codegen.axes.idxOf? m with
      | none => simp [hm] at h
      | some i =>
        simp only [hm, except_bind_ok, Count.checked_ok] at h h'
        obtain ⟨_, ⟨-, rfl⟩, h⟩ := h
        obtain ⟨_, ⟨-, rfl⟩, h'⟩ := h'
        rw [Resolved.under_member] at h'
        exact ih h h'
    | struct name =>
      simp only [Codegen.follow, hty, Resolved.under_ty, except_bind_ok, Count.checked_ok] at h h'
      obtain ⟨o, ho, _, ⟨-, rfl⟩, ty, ht, h⟩ := h
      obtain ⟨o', ho', _, ⟨-, rfl⟩, ty', ht', h'⟩ := h'
      cases ho.symm.trans ho'
      cases ht.symm.trans ht'
      rw [Resolved.under_member] at h'
      exact ih h h'
    | _ => simp [Codegen.follow, hty] at h

/-- With more temporaries on top, a variable lies that much further from the top. -/
theorem resolve_grown {s : Scope} (h : s.resolve env name = .ok r)
    (h' : (s.grown k).resolve env name = .ok r') : r' = r.under k := by
  simp only [Scope.resolve, Scope.resolveFrom, Scope.chain, Scope.grown, Scope.resolveIn,
    except_bind_ok, Count.checked_ok] at h h'
  obtain ⟨_, ⟨-, rfl⟩, h⟩ := h
  obtain ⟨_, ⟨-, rfl⟩, h'⟩ := h'
  have htop : (0 : Int) - (s.block.temps + k) = 0 - s.block.temps - k := by omega
  rw [htop] at h'
  exact seek_under (fun _ => resolveIn_under) h h'

/-- So does a member of it. -/
theorem access_grown {s : Scope} {path : Access} (h : Codegen.resolveAccess env s path = .ok r)
    (h' : Codegen.resolveAccess env (s.grown k) path = .ok r') : r' = r.under k := by
  simp only [Codegen.resolveAccess, except_bind_ok] at h h'
  obtain ⟨r₀, hr₀, hf⟩ := h
  obtain ⟨r₀', hr₀', hf'⟩ := h'
  obtain rfl := resolve_grown hr₀ hr₀'
  exact follow_under hf hf'

end Under

end NwScript
