-- Addresses of globals. While globals are declared they are found from the top of the stack, and
-- from their own base once they are complete; a global has the same slots all the time, which are
-- those that its declaration has reserved.
import NwScript.Proofs.Program.Layout
import NwScript.Proofs.Storage.Viewpoint

namespace NwScript

/-! ## Environments with globals -/

/-- What holds of the environment as long as globals are declared. -/
structure Env.Declaring (env : Env) : Prop where
  built : env.structs.Built
  names : (env.globals.map (·.name)).Nodup
  sized : ∀ g ∈ env.globals, ∃ n, env.sizeOf g.ty = .ok n
  unsealed : env.sealed = false

/-- More may be declared later, but what is known stays as it is. -/
structure Env.Grows (env env' : Env) : Prop where
  globals : env.globals <+: env'.globals
  sizes : ∀ ty n, env.sizeOf ty = .ok n → env'.sizeOf ty = .ok n

namespace Env

theorem Grows.refl (env : Env) : env.Grows env := ⟨List.prefix_refl _, fun _ _ h => h⟩

theorem Grows.trans {a b c : Env} (h : a.Grows b) (h' : b.Grows c) : a.Grows c :=
  ⟨h.globals.trans h'.globals, fun ty n hn => h'.sizes ty n (h.sizes ty n hn)⟩

theorem declaring_empty {engine : Engine} : ({ engine } : Env).Declaring :=
  ⟨.empty, .nil, by simp, rfl⟩

section Declaring

variable {env : Env}

theorem Declaring.total (h : env.Declaring) :
    ∃ n, env.sizeOfAll (env.globals.map (·.ty)) = .ok n := by
  apply exists_sizeOfAll
  intro ty hty
  obtain ⟨g, hg, rfl⟩ := List.mem_map.mp hty
  exact h.sized g hg

theorem Declaring.sizeOf_of_check (h : env.Declaring) {ty : Ty}
    (hc : env.structs.check ty = .ok ()) : ∃ n, env.sizeOf ty = .ok n := by
  obtain ⟨ks, hks⟩ := Structs.slots_of_check h.built.laid hc
  exact ⟨_, Structs.sizeOf_of_slots h.built.laid hks⟩

theorem grows_withGlobal (g : GlobalDef) : env.Grows (env.withGlobal g) :=
  ⟨List.prefix_append _ _, fun _ _ hn => hn⟩

theorem Declaring.withGlobal {g : GlobalDef} (h : env.Declaring)
    (hname : g.name ∉ env.globals.map (·.name)) (hc : env.structs.check g.ty = .ok ()) :
    (env.withGlobal g).Declaring := by
  refine ⟨h.built, ?_, ?_, h.unsealed⟩
  · simp only [Env.withGlobal, List.map_append, List.map_cons, List.map_nil, List.nodup_append]
    refine ⟨h.names, by simp, ?_⟩
    rintro x hx y hy rfl
    exact hname (List.mem_singleton.mp hy ▸ hx)
  · intro k hk
    rcases List.mem_append.mp hk with hk | hk
    · exact h.sized k hk
    · cases List.mem_singleton.mp hk
      exact h.sizeOf_of_check hc

/-- Noted calls change nothing for globals. -/
theorem Declaring.marked (h : env.Declaring) (names : List Name) : (env.marked names).Declaring :=
  ⟨h.built, h.names, h.sized, h.unsealed⟩

theorem grows_marked (names : List Name) : env.Grows (env.marked names) :=
  ⟨List.prefix_refl _, fun _ _ hn => hn⟩

theorem Declaring.define {d : StructDef} {structs : Structs} {e : Event} (h : env.Declaring)
    (hd : Structs.define d env.structs = .ok e structs) :
    ({ env with structs } : Env).Declaring ∧ env.Grows { env with structs } := by
  have hsizes (ty : Ty) (n : Nat) (hn : env.sizeOf ty = .ok n) :
      ({ env with structs } : Env).sizeOf ty = .ok n :=
    Structs.sizeOf_define h.built.laid hd hn
  refine ⟨⟨.define h.built hd, h.names, ?_, h.unsealed⟩, List.prefix_refl _, hsizes⟩
  intro g hg
  obtain ⟨n, hn⟩ := h.sized g hg
  exact ⟨n, hsizes _ _ hn⟩

end Declaring

/-! ## What a name leads to -/

section Addresses

variable {env : Env} {g : Global} {start size total : Nat}

/-- As long as the globals are incomplete, a global is found from the top of the stack. -/
theorem Spans.from_top (h : env.Spans g start size) (hnames : (env.globals.map (·.name)).Nodup)
    (htotal : env.sizeOfAll (env.globals.map (·.ty)) = .ok total) (hs : env.sealed = false)
    (temps : Int) :
    ∃ r : Resolved, (({} : Scope).grown temps).resolve env g.name =
        Count.within [-temps, start - total, r.offset] r ∧
      r.ty = g.ty ∧ total + temps + r.offset = start ∧
      r.Occupies (total + temps) total start size := by
  obtain ⟨depth, hdepth, hfound⟩ := h.resolves hnames htotal
  have hbelow : (start : Int) - total = -depth := by omega
  have hoffset : (total : Int) + temps + (-temps - depth) = start := by omega
  have hat : (({} : Scope).grown temps).resolve env g.name =
      (Count.checked (0 - (0 + temps)) >>= env.resolveGlobal g.name) := rfl
  refine ⟨⟨g.ty, -temps - depth, .sp, g.const⟩, ?_, rfl, hoffset, Resolved.occupies hoffset⟩
  rw [hat, show (0 : Int) - (0 + temps) = -temps by omega, Count.checked_within, hbelow]
  refine Count.within_bind (l := [-depth, -temps - depth]) fun _ => (hfound _).trans ?_
  rw [countedAt, foundAt, hs]
  rfl

/-- Once the globals are closed, a global is found from their base, whatever is on the stack. -/
theorem Spans.from_base (h : env.Spans g start size) (hnames : (env.globals.map (·.name)).Nodup)
    (htotal : env.sizeOfAll (env.globals.map (·.ty)) = .ok total) (hs : env.sealed = true) :
    ∃ r : Resolved, r.ty = g.ty ∧ total + r.offset = start ∧
      (∀ height, r.Occupies height total start size) ∧
      (∀ offset, env.resolveGlobal g.name offset = Count.within [r.offset] r) ∧
      ∀ c : Scope, (∀ b ∈ c.chain, 0 ≤ b.temps ∧ ∀ v ∈ b.values, v.name ≠ g.name ∧
        env.Sized v.ty) → c.resolve env g.name = Count.within [-c.slots env, r.offset] r := by
  obtain ⟨depth, hdepth, hfound⟩ := h.resolves hnames htotal
  simp only [foundAt, countedAt, hs, if_true] at hfound
  have hoffset : (total : Int) + -depth = start := by omega
  refine ⟨⟨g.ty, -depth, .bp, g.const⟩, rfl, hoffset, fun _ => Resolved.occupies hoffset, hfound,
    fun c hc => ?_⟩
  have hsized : c.Sized env := fun b hb v hv => ((hc b hb).2 v hv).2
  have habsent : ¬c.Has g.name := by
    rintro ⟨b, hb, v, hv, hname⟩
    exact ((hc b hb).2 v hv).1 hname
  rw [Scope.resolve, Scope.resolveFrom_global Count.fits_zero hsized (fun b hb => (hc b hb).1)
    habsent, Int.zero_sub, Count.checked_within]
  exact Count.within_bind (l := [-(depth : Int)]) fun _ => hfound _

end Addresses

end Env

namespace Build

open Codegen

/-! ## The globals of a script -/

section Globals

variable {s t : Session} {u : Unit}

/-- What a declaration has to pass before anything is reserved. -/
structure Admits (env : Env) (g : GlobalDef) : Prop where
  storable : g.ty.storable
  known : env.structs.check g.ty = .ok ()
  fresh : g.name ∉ env.globals.map (·.name)
  given : g.const = true → g.init.isSome

theorem global_admitted {g : GlobalDef} (h : global g s = .ok u t) : Admits s.env g := by
  simp only [global, bind_ok, env_ok, require_mistake_ok, refuse_mistake_ok, lift_ok] at h
  obtain ⟨_, _, ⟨rfl, rfl⟩, hs, _, _, ⟨hc, rfl⟩, hname, hgiven, _⟩ := h
  refine ⟨hs, hc, ?_, ?_⟩
  · simpa using hname
  · intro hconst
    simpa [hconst, Option.isSome_iff_ne_none] using hgiven

theorem globals_append {items more : Script} :
    globals (items ++ more) s = .ok u t ↔
      ∃ w, globals items s = .ok () w ∧ globals more w = .ok u t := by
  induction items generalizing s with
  | nil => simp [globals, pure_ok]
  | cons item rest ih =>
    cases item with
    | global g | struct d =>
      simp only [List.cons_append, globals, bind_ok, ih]
      constructor
      · rintro ⟨_, v, hv, w, hw, h⟩
        exact ⟨w, ⟨(), v, hv, hw⟩, h⟩
      · rintro ⟨w, ⟨_, v, hv, hw⟩, h⟩
        exact ⟨(), v, hv, w, hw, h⟩
    | «include» _ | prototype _ | function _ => simpa [globals] using ih

/-- One global or struct, or any other item. -/
theorem globals_step {item : Item} (h : globals [item] s = .ok u t) (hs : s.env.Declaring) :
    t.env.Declaring ∧ s.env.Grows t.env := by
  cases item with
  | global g =>
    simp only [globals, bind_ok, pure_ok] at h
    obtain ⟨_, w, hw, _, rfl⟩ := h
    have hg := global_admitted hw
    obtain ⟨⟨names, henv⟩, _⟩ := global_written hw
    rw [henv]
    exact ⟨(hs.withGlobal hg.fresh hg.known).marked names,
      (Env.grows_withGlobal g).trans (Env.grows_marked names)⟩
  | struct d =>
    simp only [globals, struct, bind_ok, focus_ok, report_ok, pure_ok] at h
    obtain ⟨_, _, ⟨_, _, ⟨structs, hd, rfl⟩, rfl⟩, _, rfl⟩ := h
    exact hs.define hd
  | «include» _ | prototype _ | function _ =>
    simp only [globals, pure_ok] at h
    obtain ⟨_, rfl⟩ := h
    exact ⟨hs, Env.Grows.refl _⟩

theorem globals_declaring {items : Script} (h : globals items s = .ok u t)
    (hs : s.env.Declaring) : t.env.Declaring ∧ s.env.Grows t.env := by
  induction items generalizing s with
  | nil =>
    simp only [globals, pure_ok] at h
    obtain ⟨_, rfl⟩ := h
    exact ⟨hs, Env.Grows.refl _⟩
  | cons item rest ih =>
    obtain ⟨w, hw, h⟩ := globals_append.mp (show globals ([item] ++ rest) s = .ok u t from h)
    obtain ⟨hdeclaring, hgrows⟩ := globals_step hw hs
    obtain ⟨hdeclaring', hgrows'⟩ := ih h hdeclaring
    exact ⟨hdeclaring', hgrows.trans hgrows'⟩

/-- A global among others: what has led to its declaration, and what has become of it. -/
theorem globals_at {before more : Script} {g : GlobalDef}
    (h : globals (before ++ .global g :: more) s = .ok u t) (hs : s.env.Declaring) :
    ∃ first w, globals before s = .ok () first ∧ global g first = .ok () w ∧
      globals more w = .ok u t ∧ first.env.Declaring ∧ t.env.Declaring ∧
      (first.env.withGlobal g).Grows t.env := by
  obtain ⟨first, hfirst, h⟩ := globals_append.mp h
  simp only [globals, bind_ok] at h
  obtain ⟨_, w, hw, hmore⟩ := h
  obtain ⟨hdeclaring, _⟩ := globals_declaring hfirst hs
  have hg := global_admitted hw
  have hnext := hdeclaring.withGlobal hg.fresh hg.known
  obtain ⟨⟨names, henv⟩, _⟩ := global_written hw
  obtain ⟨hlast, hgrows⟩ := globals_declaring hmore (henv ▸ hnext.marked names)
  rw [henv] at hgrows
  exact ⟨first, w, hfirst, hw, hmore, hdeclaring, hlast, (Env.grows_marked names).trans hgrows⟩

end Globals

/-! ## Points between and inside declarations -/

/-- `Underway engine items s`: all of the items are through, or the last of them is a global that is
already reserved and about to get its first value. -/
inductive Underway (engine : Engine) : Script → Session → Prop
  | through {items : Script} {s : Session} :
      globals items { env := { engine } } = .ok () s → Underway engine items s
  | reserved {items : Script} {g : GlobalDef} {s : Session} :
      globals items { env := { engine } } = .ok () s → Admits s.env g →
      Underway engine (items ++ [.global g]) { s with env := s.env.withGlobal g }

section Underway

variable {engine : Engine} {before more : Script} {g : GlobalDef} {s : Session}

/-- At every point after the declaration of a global, the environment has grown from the one in
which it was reserved. -/
theorem underway_grows (h : Underway engine (before ++ .global g :: more) s) :
    s.env.Declaring ∧ ∃ first, globals before { env := { engine } } = .ok () first ∧
      Admits first.env g ∧ first.env.Declaring ∧ (first.env.withGlobal g).Grows s.env := by
  generalize hitems : before ++ .global g :: more = items at h
  cases h with
  | through hrun =>
    rw [← hitems] at hrun
    obtain ⟨first, w, hfirst, hw, _, hdeclaring, hlast, hgrows⟩ :=
      globals_at hrun Env.declaring_empty
    exact ⟨hlast, first, hfirst, global_admitted hw, hdeclaring, hgrows⟩
  | @reserved items k t hrun hadmits =>
    obtain ⟨hdeclaring, _⟩ := globals_declaring hrun Env.declaring_empty
    refine ⟨hdeclaring.withGlobal hadmits.fresh hadmits.known, ?_⟩
    rcases List.eq_nil_or_concat more with rfl | ⟨mid, last, rfl⟩
    · obtain ⟨rfl, hk⟩ := List.append_inj' hitems rfl
      cases hk
      exact ⟨t, hrun, hadmits, hdeclaring, Env.Grows.refl _⟩
    · rw [List.concat_eq_append, ← List.cons_append, ← List.append_assoc] at hitems
      obtain ⟨rfl, _⟩ := List.append_inj' hitems rfl
      obtain ⟨first, w, hfirst, hw, _, hdeclaring', _, hgrows⟩ :=
        globals_at hrun Env.declaring_empty
      exact ⟨first, hfirst, global_admitted hw, hdeclaring', hgrows.trans (Env.grows_withGlobal k)⟩

/-- Where a global lies is settled when it is reserved: behind all globals before it. -/
theorem spans_of_grows {env env' : Env} {start : Nat} (hs : env.Declaring)
    (hgrows : (env.withGlobal g).Grows env') (hc : env.structs.check g.ty = .ok ())
    (hstart : env.sizeOfAll (env.globals.map (·.ty)) = .ok start) :
    ∃ size ops, env.structs.reserve g.ty = .ok ops ∧ ops.length = size ∧
      env'.Spans ⟨g.name, g.ty, g.const⟩ start size := by
  obtain ⟨ks, hks⟩ := Structs.slots_of_check hs.built.laid hc
  obtain ⟨newer, hnewer⟩ := hgrows.globals
  have hsplit : env'.globals = env.globals ++ ⟨g.name, g.ty, g.const⟩ :: newer := by
    simp [← hnewer, Env.withGlobal]
  have hsize : env'.sizeOf g.ty = .ok ks.length :=
    hgrows.sizes _ _ (Structs.sizeOf_of_slots hs.built.laid hks)
  have hkept : ∀ ty n, env.sizeOf ty = .ok n → env'.sizeOf ty = .ok n := hgrows.sizes
  refine ⟨ks.length, ks.map .reserve, ?_, by simp, env.globals, newer, hsplit,
    sizeOfAll_kept hkept hstart, hsize⟩
  simp [Structs.reserve, hks, bind, Except.bind, pure, Except.pure]

/-- As long as there is a handle left, the globals can be closed. -/
theorem exists_sealed (h : s.out.stream.next < Handle.limit) :
    ∃ closed, sealGlobals s = .ok () closed := by
  rw [sealGlobals, bind_of_ok (env_ok.mpr ⟨rfl, rfl⟩)]
  dsimp only
  split
  · exact ⟨_, rfl⟩
  · rw [bind_of_ok (edit_ok.mpr ⟨_, Stream.add_ok.mpr ⟨h, rfl, rfl⟩, rfl⟩)]
    exact ⟨_, rfl⟩

/-- A global has one place. At every point after it was reserved, with any number of temporaries on
the stack, what its name leads to is counted from the bottom of the globals just behind all globals
before it, and so it is from the base of the globals once they are closed. Its slots are those that
its declaration has reserved, and the globals share out all slots up to the base. All that can fail
is the counting: a distance is given just if it and those on the way to it can be counted. -/
theorem global_addresses_agree (h : Underway engine (before ++ .global g :: more) s) :
    ∃ first ops, ∃ start size total : Nat,
      globals before { env := { engine } } = .ok () first ∧
      first.env.globalSize = Count.within [-(start : Int)] (-(start : Int)) ∧
      first.env.structs.reserve g.ty = .ok ops ∧ ops.length = size ∧
      s.env.globalSize = Count.within [-(total : Int)] (-(total : Int)) ∧ s.env.Tiled total ∧
      s.env.Spans ⟨g.name, g.ty, g.const⟩ start size ∧
      (∀ temps : Int, ∃ r : Resolved,
        (({} : Scope).grown temps).resolve s.env g.name =
          Count.within [-temps, start - total, r.offset] r ∧
        r.ty = g.ty ∧ total + temps + r.offset = start ∧
        r.Occupies (total + temps) total start size) ∧
      (s.out.stream.next < Handle.limit → ∃ closed, sealGlobals s = .ok () closed) ∧
      ∀ closed, sealGlobals s = .ok () closed →
        closed.env.globalSize = Count.within [-(total : Int)] (-(total : Int)) ∧
        ∀ functions, let env : Env := { closed.env with functions }
          ∃ r : Resolved, r.ty = g.ty ∧ total + r.offset = start ∧
            (∀ height, r.Occupies height total start size) ∧
            (∀ offset, env.resolveGlobal g.name offset = Count.within [r.offset] r) ∧
            ∀ c : Scope, (∀ b ∈ c.chain, 0 ≤ b.temps ∧ ∀ v ∈ b.values, v.name ≠ g.name ∧
              env.Sized v.ty) → c.resolve env g.name = Count.within [-c.slots env, r.offset] r := by
  obtain ⟨hs, first, hfirst, hadmits, hdeclaring, hgrows⟩ := underway_grows h
  obtain ⟨start, hstart⟩ := hdeclaring.total
  obtain ⟨total, htotal⟩ := hs.total
  obtain ⟨size, ops, hops, hlen, hspans⟩ := spans_of_grows hdeclaring hgrows hadmits.known hstart
  refine ⟨first, ops, start, size, total, hfirst, globalSize_within hstart, hops, hlen,
    globalSize_within htotal, tiled_of_sized htotal, hspans,
    hspans.from_top hs.names htotal hs.unsealed, exists_sealed, fun closed hclosed => ?_⟩
  obtain ⟨_, _, _, _, henv, _⟩ := sealGlobals_ok hclosed
  have hsealed : closed.env.sealed = true := by
    obtain ⟨older, newer, hsplit, _⟩ := hspans
    simp [henv, hsplit]
  have hglobals : closed.env.globals = s.env.globals := by rw [henv]
  have hstructs : closed.env.structs = s.env.structs := by rw [henv]
  have htotal' (functions : Functions) : ({ closed.env with functions } : Env).sizeOfAll
      (closed.env.globals.map (·.ty)) = .ok total := by
    rw [hglobals]
    refine sizeOfAll_kept (fun ty n hn => ?_) htotal
    rw [Env.sizeOf, hstructs]
    exact hn
  refine ⟨globalSize_within (htotal' closed.env.functions), ?_⟩
  intro functions
  have hspans' : ({ closed.env with functions } : Env).Spans _ start size :=
    hspans.same hglobals hstructs
  have hnames : (closed.env.globals.map (·.name)).Nodup := by
    rw [hglobals]
    exact hs.names
  exact hspans'.from_base hnames (htotal' functions) hsealed

end Underway

/-- Globals of several types, with a struct between them, that are computed from each other. -/
def ledger : Script :=
  [.global ⟨false, .vector, "origin", none⟩,
   .global ⟨true, .int, "limit", some (.literal (.int 3))⟩,
   .struct ⟨"range", [⟨.int, "low"⟩, ⟨.vector, "step"⟩]⟩,
   .global ⟨false, .struct "range", "span", none⟩,
   .global ⟨false, .int, "sum", some (.assign .set ⟨"span", ["low"]⟩ (.access ⟨"limit", []⟩))⟩]

/-- With two temporaries on the stack, the limit is still found right behind the vector. -/
theorem ledger_addresses_agree :
    ∃ s, Underway {} ledger s ∧ ∃ (total : Nat) (r : Resolved),
      s.env.globalSize = Count.within [-(total : Int)] (-(total : Int)) ∧
      (({} : Scope).grown 2).resolve s.env "limit" =
        Count.within [-2, 3 - (total : Int), r.offset] r ∧
      total + 2 + r.offset = 3 ∧ r.Occupies (total + 2) total 3 1 := by
  obtain ⟨s, hs⟩ := @exists_of_gives _ _ _ _ () (globals ledger { env := {} }) (by decide +kernel)
  have hunderway : Underway {} ledger s := .through hs
  obtain ⟨first, ops, start, size, total, hfirst, hstart, hops, rfl, htotal, _, _, hfound, _⟩ :=
    @global_addresses_agree {} [.global ⟨false, .vector, "origin", none⟩] _ _ _ hunderway
  cases hfirst
  cases hops
  obtain rfl : start = 3 := by
    obtain ⟨_, hthree⟩ : _ ∧ -(start : Int) = -3 := Count.within_ok.mp hstart.symm
    omega
  obtain ⟨r, hr, _, hoffset, hoccupies⟩ := hfound 2
  exact ⟨s, hunderway, total, r, htotal, hr, hoffset, hoccupies⟩

end Build

end NwScript
