-- Other names for the variables of a script and of everything that it may include: as long as
-- variables stay apart, from each other and from the constants of the engine, the same code.
import Mathlib.Logic.Equiv.Basic
import NwScript.Proofs.Program.Layout
import NwScript.Proofs.Recast.Session

namespace NwScript

/-! ## Sources -/

def Source.renamed (ρ : Name → Name) : Source → Source
  | .script items => .script (items.renamed ρ)
  | .unreadable reason => .unreadable reason

/-- The resolver that finds the same sources with other names in them. -/
def Resolver.renamed (ρ : Name → Name) (r : Resolver) : Resolver where
  find key := (r.find key).map fun found => (found.1.map (·.renamed ρ), found.2)
  searched := r.searched

def Loader.renamed (ρ : Name → Name) (l : Loader) : Loader :=
  ⟨l.library.map fun entry => (entry.1, entry.2.renamed ρ), l.resolver.map (·.renamed ρ)⟩

namespace Setup

/-- The setup whose files have other names for their variables. -/
def renamed (ρ : Name → Name) (s : Setup) : Setup := { s with loader := s.loader.map (·.renamed ρ) }

/-- The name is that of a variable of the script, or of a file that can be loaded. -/
def Named (s : Setup) (script : Script) (n : Name) : Prop :=
  n ∈ script.names ∨ ∃ name items, (s.load name).2 = .ok items ∧ n ∈ items.names

variable {ρ : Name → Name}

theorem lookup_renamed (library : List (String × Source)) (key : String) :
    (library.map fun entry => (entry.1, entry.2.renamed ρ)).lookup key =
      (library.lookup key).map (·.renamed ρ) := by
  induction library with
  | nil => rfl
  | cons entry rest ih =>
    obtain ⟨k, source⟩ := entry
    simp only [List.map_cons, List.lookup_cons, ih]
    split <;> rfl

theorem parsed_renamed (name : String) (source : Source) :
    Loader.parsed name (source.renamed ρ) = (Loader.parsed name source).map (Script.renamed ρ) := by
  cases source <;> rfl

theorem missing_renamed (l : Loader) (name key : String) :
    (l.renamed ρ).missing name key = (l.missing name key).map (Script.renamed ρ) := by
  unfold Loader.missing Loader.renamed
  cases l.resolver with
  | none => rfl
  | some r =>
    simp only [Option.map_some, Resolver.renamed]
    cases r.searched key <;> rfl

/-- The same file is loaded, with other names in it. -/
theorem load_renamed (s : Setup) (name : String) :
    (s.renamed ρ).load name = ((s.load name).1, (s.load name).2.map (Script.renamed ρ)) := by
  obtain ⟨options, loader⟩ := s
  cases loader with
  | none => rfl
  | some l =>
    change (l.renamed ρ).load options name = (_, ((l.load options name).2.map (Script.renamed ρ)))
    simp only [load, Loader.load, missing_renamed]
    have hlibrary : (l.renamed ρ).library =
        l.library.map fun entry => (entry.1, entry.2.renamed ρ) := rfl
    rw [hlibrary, lookup_renamed]
    cases l.library.lookup (options.includeKey name) with
    | some source => exact Prod.ext rfl (parsed_renamed name source)
    | none =>
      rw [show (l.renamed ρ).resolver = l.resolver.map (·.renamed ρ) from rfl]
      cases l.resolver with
      | none => rfl
      | some r =>
        simp only [Option.map_some, Option.map_none, Resolver.renamed]
        cases r.find (options.includeKey name) with
        | error e => rfl
        | ok found =>
          obtain ⟨source, reported⟩ := found
          cases source with
          | none => rfl
          | some source => exact Prod.ext rfl (parsed_renamed name source)

end Setup

/-! ## Expansions -/

namespace Script

variable {ρ : Name → Name}

theorem renamed_append (p q : Script) : (p ++ q).renamed ρ = p.renamed ρ ++ q.renamed ρ :=
  List.map_append

theorem names_append (p q : Script) : (p ++ q).names = p.names ++ q.names := List.flatMap_append

theorem splitLast_renamed (p : Script) :
    (p.renamed ρ).splitLast =
      p.splitLast.map fun parts => (parts.1.renamed ρ, parts.2.1, parts.2.2.renamed ρ) := by
  induction p with
  | nil => rfl
  | cons item rest ih =>
    have hcons : Script.renamed ρ (item :: rest) = item.renamed ρ :: Script.renamed ρ rest := rfl
    rw [hcons]
    cases item <;> simp only [Item.renamed, splitLast, ih] <;> cases splitLast rest <;> rfl

end Script

namespace Expansion

variable {ρ : Name → Name} {s : Setup} {included : List String} {events : List Event}
  {p : Script} {x : Expansion}

/-- The expansion with other names in its items. -/
def renamed (ρ : Name → Name) (x : Expansion) : Expansion :=
  { x with items := x.items.map (Script.renamed ρ) }

/-- The last directive is the same one, and so is the file that is loaded for it. -/
theorem parallel_renamed :
    Parallel s (s.renamed ρ) (fun p q => q = p.renamed ρ) where
  key := rfl
  plain {p q} hq hs := by rw [hq, Script.splitLast_renamed, hs]; rfl
  split {p q before after name} hq hs := by
    refine ⟨before.renamed ρ, after.renamed ρ, ?_, (Script.renamed_append before after).symm⟩
    rw [hq, Script.splitLast_renamed, hs]
    rfl
  failed {name reported e} hl := by rw [Setup.load_renamed, hl]; rfl
  loaded {name reported items} hl := by
    refine ⟨items.renamed ρ, ?_, List.length_map _, ?_⟩
    · rw [Setup.load_renamed, hl]
      rfl
    · rintro p _ rfl
      exact (Script.renamed_append items p).symm

/-- The other way round, nothing comes out that has not been renamed. -/
theorem parallel_unrenamed :
    Parallel (s.renamed ρ) s (fun q p => q = p.renamed ρ) where
  key := rfl
  plain {q p} hq hs := by
    rw [hq, Script.splitLast_renamed] at hs
    exact Option.map_eq_none_iff.mp hs
  split {q p before after name} hq hs := by
    rw [hq, Script.splitLast_renamed] at hs
    obtain ⟨⟨before', name', after'⟩, hp, hparts⟩ := Option.map_eq_some_iff.mp hs
    cases hparts
    exact ⟨before', after', hp, (Script.renamed_append before' after').symm⟩
  failed {name reported e} hl := by
    rw [Setup.load_renamed] at hl
    obtain ⟨hreported, hanswer⟩ := Prod.mk.inj hl
    refine Prod.ext hreported ?_
    cases ha : (s.load name).2 with
    | ok items =>
      rw [ha] at hanswer
      cases hanswer
    | error e' =>
      rw [ha] at hanswer
      cases hanswer
      rfl
  loaded {name reported items} hl := by
    rw [Setup.load_renamed] at hl
    obtain ⟨hreported, hanswer⟩ := Prod.mk.inj hl
    cases ha : (s.load name).2 with
    | error e =>
      rw [ha] at hanswer
      cases hanswer
    | ok loaded =>
      rw [ha] at hanswer
      cases hanswer
      refine ⟨loaded, Prod.ext hreported ha, (List.length_map _).symm, ?_⟩
      rintro _ p rfl
      exact (Script.renamed_append loaded p).symm

/-- The expansion comes to the same end, or to none. -/
theorem expand_renamed (s : Setup) (included : List String) (p : Script) :
    expand (s.renamed ρ) included (p.renamed ρ) = (expand s included p).renamed ρ := by
  unfold expand
  cases hp : run s included [] p with
  | some x =>
    obtain ⟨y, hq, hxy⟩ := run_related parallel_renamed rfl hp
    rw [hq]
    cases hxy with
    | ok _ hitems =>
      rw [hitems]
      rfl
    | error => rfl
  | none =>
    cases hq : run (s.renamed ρ) included [] (p.renamed ρ) with
    | none => rfl
    | some y =>
      obtain ⟨x, hx, _⟩ := run_related parallel_unrenamed rfl hq
      rw [hp] at hx
      cases hx

/-- Every name that comes out has come from the script or from a file. -/
theorem names_of_run (hx : run s included events p = some x) :
    ∀ items, x.items = .ok items → ∀ n ∈ items.names, s.Named p n := by
  -- taking a directive out takes no name away
  have hrest {p before after : Script} {name : String}
      (hs : p.splitLast = some (before, name, after)) : (before ++ after).names = p.names := by
    rw [Script.eq_of_splitLast hs, Script.names_append, Script.names_append]
    rfl
  refine run_induction (P := fun _ _ p x => ∀ items, x.items = .ok items →
    ∀ n ∈ items.names, s.Named p n) ?_ ?_ ?_ ?_ hx
  · intro included events p hs items hitems n hn
    cases hitems
    exact .inl hn
  · intro included events p before name after x hs hi ih
    unfold Setup.Named at ih ⊢
    rwa [hrest hs] at ih
  · intro included events p before name after reported e hs hi hl items hitems
    cases hitems
  · intro included events p before name after reported loaded x hs hi hl ih items hitems n hn
    rcases ih items hitems n hn with hn | hn
    · rw [Script.names_append, List.mem_append, hrest hs] at hn
      rcases hn with hn | hn
      · exact .inr ⟨name, loaded, by rw [hl], hn⟩
      · exact .inl hn
    · exact .inr hn

/-- There are only so many names in what comes out. -/
theorem exists_names (s : Setup) (p : Script) :
    ∃ names : List Name, (∀ n ∈ names, s.Named p n) ∧
      ∀ items, (expand s [] p).items = .ok items → ∀ n ∈ items.names, n ∈ names := by
  cases hx : (expand s [] p).items with
  | error e => exact ⟨[], fun _ hn => absurd hn List.not_mem_nil, fun _ h => by cases h⟩
  | ok items =>
    obtain ⟨x, hrun, hitems⟩ := expand_ok_iff.mp hx
    refine ⟨items.names, names_of_run hrun items hitems, fun items' h n hn => ?_⟩
    cases h
    exact hn

end Expansion

/-! ## Extending a renaming -/

/-- What keeps some names apart is, on these names, a permutation of all names. -/
theorem exists_perm {ρ : Name → Name} {names : List Name}
    (hinj : ∀ m ∈ names, ∀ n ∈ names, ρ m = ρ n → m = n) :
    ∃ σ : Equiv.Perm Name, ∀ n ∈ names, σ n = ρ n := by
  induction names with
  | nil => exact ⟨Equiv.refl Name, fun _ hn => absurd hn List.not_mem_nil⟩
  | cons a rest ih =>
    obtain ⟨σ, hσ⟩ := ih fun m hm n hn => hinj m (.tail _ hm) n (.tail _ hn)
    by_cases ha : a ∈ rest
    · refine ⟨σ, fun n hn => ?_⟩
      rcases List.mem_cons.mp hn with rfl | hn
      · exact hσ _ ha
      · exact hσ n hn
    · -- a swap brings the new name to its place and moves none of the others
      refine ⟨σ.trans (Equiv.swap (σ a) (ρ a)), fun n hn => ?_⟩
      rw [Equiv.trans_apply]
      rcases List.mem_cons.mp hn with rfl | hn
      · exact Equiv.swap_apply_left _ _
      · have hne : n ≠ a := fun h => ha (h ▸ hn)
        rw [Equiv.swap_apply_of_ne_of_ne]
        · exact hσ n hn
        · exact fun h => hne (σ.injective h)
        · rw [hσ n hn]
          exact fun h => hne (hinj n (.tail _ hn) a (.head _) h)

namespace Recast

/-- Only the names are different. -/
def ofNames (σ : Equiv.Perm Name) : Recast := ⟨0, σ, σ.injective, 0⟩

theorem instruction_ofNames (σ : Equiv.Perm Name) : (ofNames σ).instruction = id := by
  funext i
  obtain ⟨handle, op, target⟩ := i
  simp only [instruction, op_of_level (c := ofNames σ) rfl, id]
  cases target <;> rfl

theorem constant?_eq_none {engine : Engine} {n : Name}
    (h : n ∉ engine.constants.map (·.name)) : engine.constant? n = none := by
  cases hc : engine.constant? n with
  | none => rfl
  | some k =>
    exfalso
    apply h
    obtain ⟨⟨i, x⟩, hx, rfl⟩ := Option.map_eq_some_iff.mp hc
    obtain ⟨⟨y, j⟩, hfound, heq⟩ := Option.map_eq_some_iff.mp hx
    cases heq
    have hname : x.name = n := by simpa using List.find?_some hfound
    exact hname ▸ List.mem_map_of_mem (Engine.mem_constants hc)

theorem respects_ofNames {engine : Engine} {σ : Equiv.Perm Name}
    (hdefaults : ∀ r ∈ engine.routines, ∀ p ∈ r.params, ∀ e ∈ p.default, ∀ n ∈ e.names,
      n ∈ engine.constants.map (·.name))
    (hfixed : ∀ n ∈ engine.constants.map (·.name), σ n = n) : (ofNames σ).Respects engine := by
  constructor
  · intro n
    change engine.constant? (σ n) = engine.constant? n
    by_cases hn : n ∈ engine.constants.map (·.name)
    · rw [hfixed n hn]
    · have hσ : σ n ∉ engine.constants.map (·.name) := by
        intro hmem
        have hsame : σ n = n := σ.injective (hfixed _ hmem)
        exact hn (hsame ▸ hmem)
      rw [constant?_eq_none hn, constant?_eq_none hσ]
  · intro r hr p hp
    cases hd : p.default with
    | none => rfl
    | some e =>
      refine congrArg some (Expr.renamed_eq_self fun n hn => ?_)
      exact hfixed n (hdefaults r hr p hp e hd n hn)

end Recast

namespace Build

/-- A permutation of the names that keeps the constants of the engine changes no instruction. -/
theorem script_renamed {setup setup' : Setup} {engine : Engine} {script script' : Script}
    {σ : Equiv.Perm Name} (hengine : (Recast.ofNames σ).Respects engine)
    (hlisted : setup'.options.traceListing = setup.options.traceListing)
    (hitems : (Expansion.expand setup' [] script').items =
      (Expansion.expand setup [] script).items.map (Script.renamed σ)) :
    InStep (leeway (.ofNames σ) []) (fun _ => Follows (.ofNames σ) [] 0 [])
      (Fails (.ofNames σ) []) id (Build.script setup script { env := { engine } })
      (Build.script setup' script' { env := { engine } }) := by
  have hstart : Follows (.ofNames σ) [] 0 [] ({ env := { engine } } : Session)
      { env := { engine } } := by
    refine ⟨rfl, rfl, rfl, rfl, Nat.zero_le _, ?_, hengine, ?_, ?_⟩
    · exact fun _ hi => absurd hi List.not_mem_nil
    · exact fun _ hf => absurd hf List.not_mem_nil
    · exact fun _ hh => absurd hh List.not_mem_nil
  refine script_in_step rfl hlisted ?_ hstart
  change Recast.Matches _ _ (Expansion.expand setup [] script).items
    (Expansion.expand setup' [] script').items
  rw [hitems]
  cases (Expansion.expand setup [] script).items with
  | ok items => exact .ok
  | error e => exact .error (Recast.sameError_refl e)

theorem Follows.stream_eq {σ : Equiv.Perm Name} {gap : Nat} {s t : Session}
    (h : Follows (.ofNames σ) [] gap [] s t) : t.out.stream = s.out.stream := by
  have hcode : t.out.stream.code = s.out.stream.code := by
    rw [h.written, Recast.instruction_ofNames, List.map_id, List.nil_append]
  have hnext : t.out.stream.next = s.out.stream.next := h.next
  change (⟨t.out.stream.code, t.out.stream.next⟩ : Stream) = _
  rw [hcode, hnext]

end Build

/-- Names that do not meet, and none of which meets a constant, are kept apart from all
constants. -/
theorem apart_with_constants {ρ : Name → Name} {names constants : List Name}
    (hinj : ∀ m ∈ names, ∀ n ∈ names, ρ m = ρ n → m = n) (hfixed : ∀ n ∈ constants, ρ n = n)
    (hapart : ∀ n ∈ names, ρ n ∈ constants → n ∈ constants) :
    ∀ m ∈ names ++ constants, ∀ n ∈ names ++ constants, ρ m = ρ n → m = n := by
  have hmixed {m n : Name} (hm : m ∈ names) (hn : n ∈ constants) (h : ρ m = ρ n) : m = n := by
    have hconst : m ∈ constants := hapart m hm (by rw [h, hfixed n hn]; exact hn)
    rw [← hfixed m hconst, h, hfixed n hn]
  intro m hm n hn h
  rcases List.mem_append.mp hm with hm | hm
  · rcases List.mem_append.mp hn with hn | hn
    · exact hinj m hm n hn h
    · exact hmixed hm hn h
  · rcases List.mem_append.mp hn with hn | hn
    · exact (hmixed hn hm h.symm).symm
    · rw [← hfixed m hm, h, hfixed n hn]

/-- Other names for the variables of a script, of the files that it may include and so of all their
parameters, locals and globals, change nothing in what they are compiled to, as long as different
names stay different, the constants of the engine keep theirs, no other name becomes one of them,
and the default values of the engine's routines name nothing but constants. -/
theorem compile_renamed {setup : Setup} {engine : Engine} {script : Script} {ρ : Name → Name}
    (hdefaults : ∀ r ∈ engine.routines, ∀ p ∈ r.params, ∀ e ∈ p.default, ∀ n ∈ e.names,
      n ∈ engine.constants.map (·.name))
    (hinj : ∀ m n, setup.Named script m → setup.Named script n → ρ m = ρ n → m = n)
    (hfixed : ∀ n ∈ engine.constants.map (·.name), ρ n = n)
    (hapart : ∀ n, setup.Named script n →
      ρ n ∈ engine.constants.map (·.name) → n ∈ engine.constants.map (·.name))
    (stream : Stream) :
    (compile (setup.renamed ρ) engine (script.renamed ρ)).1 = .ok stream ↔
      (compile setup engine script).1 = .ok stream := by
  obtain ⟨names, hnamed, hout⟩ := Expansion.exists_names setup script
  obtain ⟨σ, hσ⟩ := exists_perm (apart_with_constants
    (fun m hm n hn => hinj m n (hnamed m hm) (hnamed n hn)) hfixed
    fun n hn => hapart n (hnamed n hn))
  have hengine : (Recast.ofNames σ).Respects engine := by
    refine Recast.respects_ofNames hdefaults fun n hn => ?_
    rw [hσ n (List.mem_append_right _ hn), hfixed n hn]
  have hitems : (Expansion.expand (setup.renamed ρ) [] (script.renamed ρ)).items =
      (Expansion.expand setup [] script).items.map (Script.renamed σ) := by
    rw [Expansion.expand_renamed]
    unfold Expansion.renamed
    cases hx : (Expansion.expand setup [] script).items with
    | error e => rfl
    | ok items =>
      refine congrArg Except.ok (Script.renamed_congr fun n hn => (hσ n ?_).symm)
      exact List.mem_append_left _ (hout items hx n hn)
  have hlisted : (setup.renamed ρ).options.traceListing = setup.options.traceListing := rfl
  have hrun := Build.script_renamed hengine hlisted hitems
  unfold compile
  generalize Build.script setup script { env := { engine } } = r at hrun ⊢
  generalize Build.script (setup.renamed ρ) (script.renamed ρ) { env := { engine } } = r' at hrun ⊢
  cases hrun with
  | ok hend =>
    dsimp only
    rw [hend.stream_eq]
  | error _ =>
    constructor
    · exact fun h => by cases h
    · exact fun h => by cases h
  | early he => exact absurd rfl he
  | late hl => exact hl.1.elim (absurd rfl) (absurd rfl)

namespace Scores

/-- A routine whose default value is a constant. -/
def engine : Engine where
  routines := [⟨.void, "Log", [⟨.int, "level", some (.access ⟨"TRUE", []⟩)⟩]⟩]
  constants := [⟨.int, "TRUE", .int 1⟩]

/-- A global behind a local of its name, and a prototype with another name for its parameter. -/
def script : Script :=
  let total : Access := ⟨"total", []⟩
  let x : Expr := .access ⟨"x", []⟩
  let m : Expr := .access ⟨"m", []⟩
  [.global ⟨false, .int, "total", some (.access ⟨"TRUE", []⟩)⟩,
   .prototype ⟨.int, "twice", [⟨.int, "n", some (.access ⟨"TRUE", []⟩)⟩]⟩,
   .function ⟨⟨.void, "main", []⟩, [
     .declare .int [⟨"x", some (.call "twice" [])⟩],
     .block [.declare .int [⟨"total", some x⟩], .expr (.assign .add total x),
       .expr (.call "Log" [])],
     .expr (.assign .set total x)]⟩,
   .function ⟨⟨.int, "twice", [⟨.int, "m", none⟩]⟩, [.ret (some (.binary .add m m))]⟩]

/-- Two variables change their names with each other, and one gets a new name. -/
def swapped (n : Name) : Name :=
  if n = "total" then "x" else if n = "x" then "total" else if n = "n" then "k" else n

end Scores

open Scores in
theorem scores_renamed :
    (∀ m n, Setup.Named {} script m → Setup.Named {} script n → swapped m = swapped n → m = n) ∧
    script.names.map swapped ≠ script.names ∧
    ∃ stream, (compile {} engine script).1 = .ok stream ∧
      (compile (Setup.renamed swapped {}) engine (script.renamed swapped)).1 = .ok stream := by
  have hown {n : Name} (h : Setup.Named {} script n) : n ∈ script.names := by
    rcases h with h | ⟨_, _, hload, _⟩
    · exact h
    · cases hload
  have hdistinct : ∀ m ∈ script.names, ∀ n ∈ script.names, swapped m = swapped n → m = n := by
    decide +kernel
  have hinj : ∀ m n, Setup.Named {} script m → Setup.Named {} script n →
      swapped m = swapped n → m = n := fun m n hm hn => hdistinct m (hown hm) n (hown hn)
  have hdefaults : ∀ r ∈ engine.routines, ∀ p ∈ r.params, ∀ e ∈ p.default, ∀ n ∈ e.names,
      n ∈ engine.constants.map (·.name) := by decide +kernel
  have hfixed : ∀ n ∈ engine.constants.map (·.name), swapped n = n := by decide +kernel
  have hapart : ∀ n ∈ script.names, swapped n ∈ engine.constants.map (·.name) →
      n ∈ engine.constants.map (·.name) := by decide +kernel
  obtain ⟨s, hs⟩ :=
    @Build.compiles_of_gives script { env := { engine } } rfl (by decide +kernel)
  have hcompiled : (compile {} engine script).1 = .ok s.out.stream := by rw [compile, hs]
  refine ⟨hinj, by decide +kernel, s.out.stream, hcompiled, ?_⟩
  exact (compile_renamed hdefaults hinj hfixed (fun n hn => hapart n (hown hn))
    s.out.stream).mpr hcompiled

end NwScript
