-- The order in which an expansion puts the files that it loads. Files are loaded breadth first, and
-- every file goes to the front, before all that were loaded earlier and before the script itself.
import Mathlib.Logic.Relation
import NwScript.Include.Expansion

namespace NwScript

/-! ## Items and directives -/

namespace Script

/-- The items of a script without its directives. -/
def own (items : Script) : Script :=
  items.filter fun
    | .include _ => false
    | _ => true

@[simp] theorem own_append (a b : Script) : own (a ++ b) = own a ++ own b := List.filter_append ..

@[simp] theorem own_include (name : String) (items : Script) :
    own (.include name :: items) = own items := rfl

/-- Where no directive is found there is none, and all items are the script's own. -/
theorem of_splitLast_none {items : Script} (h : items.splitLast = none) :
    items.directives = [] ∧ items.own = items := by
  induction items with
  | nil => exact ⟨rfl, rfl⟩
  | cons item rest ih =>
    unfold splitLast at h
    split at h
    · cases h
    · rename_i hrest
      obtain ⟨hd, ho⟩ := ih hrest
      cases item with
      | «include» name => cases h
      | _ => exact ⟨hd, congrArg _ ho⟩

/-- No directive stands after the last one. -/
theorem directives_after {items before after : Script} {name : String}
    (h : items.splitLast = some (before, name, after)) : after.directives = [] := by
  induction items generalizing before with
  | nil => cases h
  | cons item rest ih =>
    unfold splitLast at h
    split at h
    · rename_i hrest
      cases h
      exact ih hrest
    · rename_i hrest
      cases item with
      | «include» _ =>
        cases h
        exact (of_splitLast_none hrest).1
      | _ => cases h

theorem own_of_splitLast {items before after : Script} {name : String}
    (h : items.splitLast = some (before, name, after)) : items.own = (before ++ after).own := by
  rw [eq_of_splitLast h]
  simp

/-- The last directive is the first of the queue, and the others wait behind it. -/
theorem queue_of_splitLast {items before after : Script} {name : String}
    (h : items.splitLast = some (before, name, after)) :
    items.directives.reverse = name :: (before ++ after).directives.reverse := by
  rw [directives_of_splitLast h, directives_append, directives_after h]
  simp

/-- The first of a queue is the last directive. -/
theorem splitLast_of_queue {items : Script} {name : String} {queue : List String}
    (h : items.directives.reverse = name :: queue) :
    ∃ before after, items.splitLast = some (before, name, after) ∧
      (before ++ after).directives.reverse = queue := by
  cases hs : items.splitLast with
  | none =>
    rw [(of_splitLast_none hs).1] at h
    cases h
  | some found =>
    obtain ⟨before, last, after⟩ := found
    rw [queue_of_splitLast hs] at h
    obtain ⟨rfl, hrest⟩ := List.cons.inj h
    exact ⟨before, after, rfl, hrest⟩

end Script

theorem mem_of_lookup {sources : List (String × Source)} {key : String} {source : Source}
    (h : sources.lookup key = some source) : (key, source) ∈ sources := by
  obtain ⟨before, after, rfl, _⟩ := List.lookup_eq_some_iff.mp h
  simp

/-- What was loaded is a source of the library, or one that the resolver has found. -/
theorem Loader.load_cases {l : Loader} {o : Options} {name : String} {items : Script}
    (h : (l.load o name).2 = .ok items) :
    l.library.lookup (o.includeKey name) = some (.script items) ∨
      ∃ r events, l.resolver = some r ∧
        r.find (o.includeKey name) = .ok (some (.script items), events) := by
  unfold load at h
  dsimp only at h
  cases hlibrary : l.library.lookup (o.includeKey name) with
  | some source =>
    simp only [hlibrary] at h
    exact .inl (by rw [eq_script_of_parsed h])
  | none =>
    cases hr : l.resolver with
    | none =>
      simp only [hlibrary, hr] at h
      exact absurd h (missing_ne_ok _ _ _ _)
    | some r =>
      simp only [hlibrary, hr] at h
      cases hfind : r.find (o.includeKey name) with
      | error cause => simp [hfind] at h
      | ok answer =>
        obtain ⟨found, events⟩ := answer
        cases found with
        | none =>
          simp only [hfind] at h
          exact absurd h (missing_ne_ok _ _ _ _)
        | some source =>
          simp only [hfind] at h
          rw [eq_script_of_parsed h] at hfind
          exact .inr ⟨r, events, rfl, hfind⟩

/-! ## Loading breadth first -/

/-- A file that an expansion has loaded, under its key. -/
structure LoadedFile where
  key : String
  items : Script

namespace Setup

/-- The files that are loaded for a queue of directives, in order, if some keys have been seen. The
directives of a file wait behind all others, its last one first. -/
inductive LoadOrder (s : Setup) : List String → List String → List LoadedFile → Prop
  | done {seen : List String} : LoadOrder s [] seen []
  | skip {name : String} {queue seen : List String} {files : List LoadedFile} :
      s.key name ∈ seen → LoadOrder s queue seen files → LoadOrder s (name :: queue) seen files
  | load {name : String} {queue seen : List String} {items : Script} {files : List LoadedFile} :
      s.key name ∉ seen → (s.load name).2 = .ok items →
      LoadOrder s (queue ++ items.directives.reverse) (s.key name :: seen) files →
      LoadOrder s (name :: queue) seen (⟨s.key name, items⟩ :: files)

section LoadOrder

variable {s : Setup} {queue seen : List String} {files : List LoadedFile}

theorem LoadOrder.loaded (h : s.LoadOrder queue seen files) :
    ∀ f ∈ files, ∃ name, s.key name = f.key ∧ (s.load name).2 = .ok f.items := by
  induction h with
  | done => simp
  | skip _ _ ih => exact ih
  | @load name _ _ items _ _ hload _ ih =>
    rw [List.forall_mem_cons]
    exact ⟨⟨name, rfl, hload⟩, ih⟩

/-- No key is loaded that was seen before, and none twice. -/
theorem LoadOrder.distinct (h : s.LoadOrder queue seen files) :
    (∀ f ∈ files, f.key ∉ seen) ∧ (files.map (·.key)).Nodup := by
  induction h with
  | done => simp
  | skip _ _ ih => exact ih
  | load hnew _ _ ih =>
    obtain ⟨hfresh, hnodup⟩ := ih
    constructor
    · intro f hf
      rcases List.mem_cons.mp hf with rfl | hf
      · exact hnew
      · exact fun hseen => hfresh f hf (List.mem_cons_of_mem _ hseen)
    · rw [List.map_cons, List.nodup_cons]
      refine ⟨fun hmem => ?_, hnodup⟩
      obtain ⟨f, hf, hkey⟩ := List.mem_map.mp hmem
      exact hfresh f hf (hkey ▸ List.mem_cons_self)

/-- Whatever waits in the queue or is included by a loaded file was seen before or is loaded. -/
theorem LoadOrder.complete (h : s.LoadOrder queue seen files) :
    ∀ d ∈ queue ++ files.flatMap (·.items.directives),
      s.key d ∈ seen ++ files.map (·.key) := by
  induction h with
  | done => simp
  | @skip name queue seen files hseen _ ih =>
    intro d hd
    rcases List.mem_cons.mp hd with rfl | hd
    · exact List.mem_append_left _ hseen
    · exact ih d hd
  | @load name queue seen items files _ _ _ ih =>
    intro d hd
    by_cases hname : d = name
    · simp [hname]
    · have hwaits :
          d ∈ queue ++ items.directives.reverse ++ files.flatMap (·.items.directives) := by
        simp only [List.cons_append, List.mem_cons, hname, false_or, List.flatMap_cons,
          List.mem_append] at hd
        simp only [List.mem_append, List.mem_reverse, or_assoc]
        exact hd
      have hkey := ih d hwaits
      simp only [List.cons_append, List.mem_cons, List.mem_append] at hkey
      simp only [List.map_cons, List.mem_append, List.mem_cons]
      exact or_left_comm.mp hkey

/-- A file is loaded because it was waiting, or because a file before it includes it. -/
theorem LoadOrder.cause (h : s.LoadOrder queue seen files) {l r : List LoadedFile}
    {f : LoadedFile} (hf : files = l ++ f :: r) :
    ∃ d ∈ queue ++ l.flatMap (·.items.directives), s.key d = f.key := by
  induction h generalizing l with
  | done => simp at hf
  | skip _ _ ih =>
    obtain ⟨d, hd, hkey⟩ := ih hf
    exact ⟨d, List.mem_cons_of_mem _ hd, hkey⟩
  | @load name queue seen items files _ _ _ ih =>
    cases l with
    | nil =>
      obtain ⟨rfl, _⟩ := List.cons.inj hf
      exact ⟨name, List.mem_cons_self, rfl⟩
    | cons g l =>
      obtain ⟨rfl, hrest⟩ := List.cons.inj hf
      obtain ⟨d, hd, hkey⟩ := ih hrest
      refine ⟨d, ?_, hkey⟩
      simp only [List.mem_append, List.mem_reverse, or_assoc] at hd
      simp only [List.cons_append, List.flatMap_cons, List.mem_cons, List.mem_append]
      exact .inr hd

end LoadOrder

end Setup

namespace Expansion

variable {s : Setup} {included : List String} {events : List Event}
  {pending script items : Script} {x : Expansion}

/-! ## Rounds of an expansion -/

section Rounds

variable {before after : Script} {name : String}

/-- Without directives nothing is expanded. -/
theorem run_plain (h : pending.splitLast = none) :
    run s included events pending = some ⟨included, events, .ok pending⟩ := by
  rw [run, h]

/-- A key that was expanded before is passed over. -/
theorem run_repeated (hs : pending.splitLast = some (before, name, after))
    (hi : s.key name ∈ included) :
    run s included events pending =
      run s included (events ++ [.includeRepeated name]) (before ++ after) := by
  rw [run, hs]
  exact if_pos hi

theorem run_failed {reported : List Event} {e : Failure}
    (hs : pending.splitLast = some (before, name, after)) (hi : s.key name ∉ included)
    (hl : s.load name = (reported, .error e)) :
    run s included events pending =
      some ⟨s.key name :: included, events ++ reported, .error e⟩ := by
  rw [run, hs]
  simp only [hl]
  exact if_neg hi

/-- The items of a new key go to the front. -/
theorem run_loaded {reported : List Event} (hs : pending.splitLast = some (before, name, after))
    (hi : s.key name ∉ included) (hl : s.load name = (reported, .ok items)) :
    run s included events pending =
      run s (s.key name :: included)
        (events ++ reported ++ [.includeExpanded name items.length])
        (items ++ (before ++ after)) := by
  rw [run, hs]
  simp only [hl]
  exact if_neg hi

/-- What holds of the last round, and of a round if it holds of the next one, holds of every
expansion that comes to an end. -/
theorem run_induction {P : List String → List Event → Script → Expansion → Prop}
    (plain : ∀ included events pending, pending.splitLast = none →
      P included events pending ⟨included, events, .ok pending⟩)
    (repeated : ∀ included events pending before name after x,
      pending.splitLast = some (before, name, after) → s.key name ∈ included →
      P included (events ++ [.includeRepeated name]) (before ++ after) x →
      P included events pending x)
    (failed : ∀ included events pending before name after reported e,
      pending.splitLast = some (before, name, after) → s.key name ∉ included →
      s.load name = (reported, .error e) →
      P included events pending ⟨s.key name :: included, events ++ reported, .error e⟩)
    (loaded : ∀ included events pending before name after reported items x,
      pending.splitLast = some (before, name, after) → s.key name ∉ included →
      s.load name = (reported, .ok items) →
      P (s.key name :: included) (events ++ reported ++ [.includeExpanded name items.length])
        (items ++ (before ++ after)) x →
      P included events pending x)
    (h : run s included events pending = some x) : P included events pending x := by
  refine run.partial_correctness s P ?_ included events pending x h
  intro again hagain included events pending x hx
  cases hs : pending.splitLast with
  | none =>
    simp only [hs] at hx
    cases hx
    exact plain _ _ _ hs
  | some found =>
    obtain ⟨before, name, after⟩ := found
    simp only [hs] at hx
    by_cases hi : s.key name ∈ included
    · rw [if_pos hi] at hx
      exact repeated _ _ _ _ _ _ _ hs hi (hagain _ _ _ _ hx)
    · rw [if_neg hi] at hx
      cases hl : s.load name with
      | mk reported answer =>
        cases answer with
        | error e =>
          simp only [hl] at hx
          cases hx
          exact failed _ _ _ _ _ _ _ _ hs hi hl
        | ok items =>
          simp only [hl] at hx
          exact loaded _ _ _ _ _ _ _ _ _ hs hi hl (hagain _ _ _ _ hx)

theorem expand_plain (h : script.splitLast = none) :
    expand s included script = ⟨included, [], .ok script⟩ := by
  rw [expand, run_plain h]
  rfl

/-- Only an expansion that comes to an end can end well. -/
theorem expand_ok_iff :
    (expand s included script).items = .ok items ↔
      ∃ x, run s included [] script = some x ∧ x.items = .ok items := by
  unfold expand
  cases run s included [] script with
  | none => simp
  | some x => simp

end Rounds

/-! ## Expansions side by side -/

/-- Scripts that go together have their last directive in common and go together without it, and the
files that are loaded for it go together too. -/
structure Parallel (s s' : Setup) (R : Script → Script → Prop) : Prop where
  key : s'.key = s.key
  plain {p q : Script} : R p q → p.splitLast = none → q.splitLast = none
  split {p q before after : Script} {name : String} : R p q →
    p.splitLast = some (before, name, after) →
    ∃ before' after', q.splitLast = some (before', name, after') ∧
      R (before ++ after) (before' ++ after')
  failed {name : String} {reported : List Event} {e : Failure} :
    s.load name = (reported, .error e) → s'.load name = (reported, .error e)
  loaded {name : String} {reported : List Event} {items : Script} :
    s.load name = (reported, .ok items) →
    ∃ items', s'.load name = (reported, .ok items') ∧ items'.length = items.length ∧
      ∀ p q, R p q → R (items ++ p) (items' ++ q)

/-- Two expansions that went the same way. -/
inductive Related (R : Script → Script → Prop) : Expansion → Expansion → Prop
  | ok {included : List String} {events : List Event} {p q : Script} :
      p.splitLast = none → R p q → Related R ⟨included, events, .ok p⟩ ⟨included, events, .ok q⟩
  | error {included : List String} {events : List Event} {e : Failure} :
      Related R ⟨included, events, .error e⟩ ⟨included, events, .error e⟩

/-- Of two expansions side by side, the second comes to an end if the first does. -/
theorem run_related {s' : Setup} {R : Script → Script → Prop} {p q : Script}
    (h : Parallel s s' R) (hpq : R p q) (hx : run s included events p = some x) :
    ∃ y, run s' included events q = some y ∧ Related R x y := by
  refine run_induction (P := fun included events p x => ∀ q : Script, R p q →
    ∃ y, run s' included events q = some y ∧ Related R x y) ?_ ?_ ?_ ?_ hx q hpq
  · intro included events p hs q hpq
    exact ⟨_, run_plain (h.plain hpq hs), .ok hs hpq⟩
  · intro included events p before name after x hs hi ih q hpq
    obtain ⟨before', after', hq, hrest⟩ := h.split hpq hs
    rw [← h.key] at hi
    rw [run_repeated hq hi]
    exact ih _ hrest
  · intro included events p before name after reported e hs hi hl q hpq
    obtain ⟨before', after', hq, hrest⟩ := h.split hpq hs
    rw [← h.key] at hi ⊢
    exact ⟨_, run_failed hq hi (h.failed hl), .error⟩
  · intro included events p before name after reported items x hs hi hl ih q hpq
    obtain ⟨before', after', hq, hrest⟩ := h.split hpq hs
    obtain ⟨items', hl', hlength, hboth⟩ := h.loaded hl
    rw [← h.key] at hi ih
    rw [run_loaded hq hi hl', hlength]
    exact ih _ (hboth _ _ hrest)

/-! ## What an expansion gives -/

/-- The loaded files, the last one in front. -/
def stacked (files : List LoadedFile) : Script := files.reverse.flatMap (·.items.own)

@[simp] theorem stacked_cons (f : LoadedFile) (files : List LoadedFile) :
    stacked (f :: files) = stacked files ++ f.items.own := by
  simp [stacked]

/-- An expansion that ends well has loaded files breadth first and put each in front of the others.
-/
theorem run_loads (h : run s included events pending = some x) (hitems : x.items = .ok items) :
    ∃ files, s.LoadOrder pending.directives.reverse included files ∧
      items = stacked files ++ pending.own := by
  revert hitems
  refine run_induction (P := fun included _ pending x => x.items = .ok items →
    ∃ files, s.LoadOrder pending.directives.reverse included files ∧
      items = stacked files ++ pending.own) ?_ ?_ ?_ ?_ h
  · rintro included events pending hs ⟨⟩
    obtain ⟨hd, ho⟩ := Script.of_splitLast_none hs
    rw [hd, ho]
    exact ⟨[], .done, rfl⟩
  · intro included events pending before name after x hs hi ih hitems
    obtain ⟨files, hfiles, rfl⟩ := ih hitems
    rw [Script.queue_of_splitLast hs, Script.own_of_splitLast hs]
    exact ⟨files, .skip hi hfiles, rfl⟩
  · rintro included events pending before name after reported e hs hi hl ⟨⟩
  · intro included events pending before name after reported loaded x hs hi hl ih hitems
    obtain ⟨files, hfiles, rfl⟩ := ih hitems
    rw [Script.directives_append, List.reverse_append] at hfiles
    rw [Script.queue_of_splitLast hs, Script.own_of_splitLast hs]
    exact ⟨⟨s.key name, loaded⟩ :: files, .load hi (by rw [hl]) hfiles, by simp⟩

/-- Wherever the files can be loaded in that order, they are. -/
theorem run_of_loadOrder {queue : List String} {files : List LoadedFile}
    (h : s.LoadOrder queue included files) (hqueue : pending.directives.reverse = queue) :
    ∃ x, run s included events pending = some x ∧ x.items = .ok (stacked files ++ pending.own) := by
  induction h generalizing pending events with
  | done =>
    cases hs : pending.splitLast with
    | none => exact ⟨_, run_plain hs, by rw [(Script.of_splitLast_none hs).2]; rfl⟩
    | some found =>
      obtain ⟨before, name, after⟩ := found
      rw [Script.queue_of_splitLast hs] at hqueue
      cases hqueue
  | @skip name queue seen files hi _ ih =>
    obtain ⟨before, after, hs, hrest⟩ := Script.splitLast_of_queue hqueue
    rw [run_repeated hs hi, Script.own_of_splitLast hs]
    exact ih hrest
  | @load name queue seen items files hi hload _ ih =>
    obtain ⟨before, after, hs, hrest⟩ := Script.splitLast_of_queue hqueue
    obtain ⟨reported, hl⟩ : ∃ reported, s.load name = (reported, .ok items) :=
      ⟨_, Prod.ext rfl hload⟩
    have hnext : (items ++ (before ++ after)).directives.reverse =
        queue ++ items.directives.reverse := by
      rw [Script.directives_append, List.reverse_append, hrest]
    rw [run_loaded hs hi hl, Script.own_of_splitLast hs]
    obtain ⟨x, hx, hitems⟩ := ih hnext
    exact ⟨x, hx, by simpa using hitems⟩

theorem expand_eq_ok_iff :
    (expand s included script).items = .ok items ↔
      ∃ files, s.LoadOrder script.directives.reverse included files ∧
        items = stacked files ++ script.own := by
  rw [expand_ok_iff]
  constructor
  · rintro ⟨x, hx, hitems⟩
    exact run_loads hx hitems
  · rintro ⟨files, hfiles, rfl⟩
    exact run_of_loadOrder hfiles rfl

end Expansion

/-! ## What stands before what -/

/-- In a list, one stretch stands before another. -/
def Precedes {α : Type} (xs ys zs : List α) : Prop := ∃ l m r, zs = l ++ xs ++ m ++ ys ++ r

theorem Precedes.sublist {α : Type} {xs ys zs : List α} (h : Precedes xs ys zs) :
    (xs ++ ys).Sublist zs := by
  obtain ⟨l, m, r, rfl⟩ := h
  have hys : ys.Sublist (m ++ (ys ++ r)) :=
    (List.sublist_append_left ys r).trans (List.sublist_append_right m _)
  simp only [List.append_assoc]
  exact (hys.append_left xs).trans (List.sublist_append_right l _)

section Stacked

variable {files : List LoadedFile} {a b : LoadedFile}

/-- Of two files, the one that was loaded later stands before the other one. -/
theorem stacked_precedes (h : [a, b].Sublist files) (rest : Script) :
    Precedes b.items.own a.items.own (Expansion.stacked files ++ rest) := by
  obtain ⟨early, late, rfl, ha, hb⟩ := List.cons_sublist_iff.mp h
  obtain ⟨l, m, rfl⟩ := List.append_of_mem ha
  obtain ⟨m', r, rfl⟩ := List.append_of_mem (List.singleton_sublist.mp hb)
  refine ⟨Expansion.stacked r, Expansion.stacked (m ++ m'), Expansion.stacked l ++ rest, ?_⟩
  simp [Expansion.stacked]

theorem stacked_precedes_rest (h : a ∈ files) (rest : Script) :
    Precedes a.items.own rest (Expansion.stacked files ++ rest) := by
  obtain ⟨l, r, rfl⟩ := List.append_of_mem h
  refine ⟨Expansion.stacked r, Expansion.stacked l, [], ?_⟩
  simp [Expansion.stacked]

end Stacked

/-- The first file that includes another one has it in front of itself. -/
theorem Setup.LoadOrder.first_includer {s : Setup} {queue : List String} {l r : List LoadedFile}
    {a : LoadedFile} {d : String} (h : s.LoadOrder queue [] (l ++ a :: r))
    (hd : d ∈ a.items.directives)
    (hfirst : ∀ e ∈ queue ++ l.flatMap (·.items.directives), s.key e ≠ s.key d) :
    ∃ b ∈ r, b.key = s.key d := by
  have hwaits : d ∈ queue ++ (l ++ a :: r).flatMap (·.items.directives) := by simp [hd]
  have hloaded := h.complete d hwaits
  rw [List.nil_append, List.mem_map] at hloaded
  obtain ⟨b, hb, hkey⟩ := hloaded
  rcases List.mem_append.mp hb with hb | hb
  · -- before `a`, something that came even earlier would include it
    obtain ⟨l₁, l₂, rfl⟩ := List.append_of_mem hb
    obtain ⟨e, he, hcause⟩ := h.cause (List.append_assoc l₁ (b :: l₂) (a :: r))
    refine absurd (hcause.trans hkey) (hfirst e ?_)
    simp only [List.flatMap_append, List.mem_append] at he ⊢
    exact he.imp_right .inl
  · rcases List.mem_cons.mp hb with rfl | hb
    · obtain ⟨e, he, hcause⟩ := h.cause rfl
      exact absurd (hcause.trans hkey) (hfirst e he)
    · exact ⟨b, hb, hkey⟩

/-- An expansion loads files breadth first: the directives of the script from the last to the first,
then those of the loaded files. No key is loaded twice, and what a loaded file includes is loaded as
well. All files stand before the script, and of two files the one that was loaded later stands
first. So the first file to include another one has it in front of itself, and a file that was
loaded before one of its includers stands behind that. -/
theorem includes_stand_by_load_order {s : Setup} {script items : Script}
    (h : (Expansion.expand s [] script).items = .ok items) :
    ∃ files, s.LoadOrder script.directives.reverse [] files ∧ (files.map (·.key)).Nodup ∧
      items = Expansion.stacked files ++ script.own ∧
      (∀ a ∈ files, Precedes a.items.own script.own items) ∧
      (∀ a ∈ files, ∀ d ∈ a.items.directives, ∃ b ∈ files, b.key = s.key d) ∧
      (∀ a b, [a, b].Sublist files → Precedes b.items.own a.items.own items) ∧
      ∀ l a r, files = l ++ a :: r → ∀ d ∈ a.items.directives,
        (∀ e ∈ script.directives ++ l.flatMap (·.items.directives), s.key e ≠ s.key d) →
        ∃ b ∈ r, b.key = s.key d ∧ Precedes b.items.own a.items.own items := by
  obtain ⟨files, hfiles, rfl⟩ := Expansion.expand_eq_ok_iff.mp h
  refine ⟨files, hfiles, hfiles.distinct.2, rfl, fun a ha => stacked_precedes_rest ha _, ?_,
    fun a b hab => stacked_precedes hab _, ?_⟩
  · intro a ha d hd
    have hkey := hfiles.complete d (List.mem_append_right _ (List.mem_flatMap.mpr ⟨a, ha, hd⟩))
    simpa using hkey
  · rintro l a r rfl d hd hfirst
    obtain ⟨b, hb, hkey⟩ := hfiles.first_includer hd (by simpa using hfirst)
    refine ⟨b, hb, hkey, stacked_precedes ?_ _⟩
    exact .trans (.cons_cons a (List.singleton_sublist.mpr hb)) (List.sublist_append_right l _)

/-! ## A file that is included twice -/

/-- One file includes another: its key, and the key of the other. -/
def Setup.Includes (s : Setup) (a b : String) : Prop :=
  ∃ name items d, s.key name = a ∧ (s.load name).2 = .ok items ∧ d ∈ items.directives ∧ s.key d = b

/-- No file includes itself, be it through others. -/
def Setup.Acyclic (s : Setup) : Prop := ∀ key, ¬Relation.TransGen s.Includes key key

namespace Catalogue

def price : Item := .global ⟨false, .int, "price", some (.literal (.int 2))⟩

def total : Item := .global ⟨false, .int, "total", some (.access ⟨"price", []⟩)⟩

def start : Item := .function ⟨⟨.void, "main", []⟩, []⟩

/-- The total needs the price, and includes it. -/
def setup : Setup :=
  { loader := some { library :=
      [("totals", .script [.include "prices", total]), ("prices", .script [price])] } }

/-- A script that includes both, the prices last. -/
def script : Script := [.include "totals", .include "prices", start]

theorem loads_totals : (setup.load "totals").2 = .ok [.include "prices", total] := rfl

theorem loads_prices : (setup.load "prices").2 = .ok [price] := rfl

theorem expands : (Expansion.expand setup [] script).items = .ok [total, price, start] := by
  rw [Expansion.expand_eq_ok_iff]
  refine ⟨[⟨"prices", [price]⟩, ⟨"totals", [.include "prices", total]⟩], ?_, rfl⟩
  apply Setup.LoadOrder.load (by decide) loads_prices
  apply Setup.LoadOrder.load (by decide) loads_totals
  exact .skip (by decide) .done

/-- Only the prices are ever included, and they include nothing. -/
theorem acyclic : setup.Acyclic := by
  intro key hcycle
  obtain ⟨_, _, last⟩ := Relation.TransGen.tail'_iff.mp hcycle
  obtain ⟨_, first, _⟩ := Relation.TransGen.head'_iff.mp hcycle
  have hprices : key = "prices" := by
    obtain ⟨name, items, d, _, hload, hd, rfl⟩ := last
    rcases Loader.load_cases hload with hsource | ⟨_, _, ⟨⟩, _⟩
    have hmem := mem_of_lookup hsource
    simp only [List.mem_cons, Prod.mk.injEq, Source.script.injEq, List.not_mem_nil,
      or_false] at hmem
    rcases hmem with ⟨_, rfl⟩ | ⟨_, rfl⟩
    · exact List.mem_singleton.mp hd
    · cases hd
  obtain ⟨name, items, d, hname, hload, hd, _⟩ := first
  rw [hprices] at hname
  cases hname
  rw [loads_prices] at hload
  cases hload
  cases hd

end Catalogue

open Catalogue in
/-- The prices are loaded first, by the last directive of the script. So they stand behind the total
that includes and needs them, though no file includes itself. -/
theorem shared_include_stands_behind :
    setup.Acyclic ∧ (Expansion.expand setup [] script).items = .ok [total, price, start] ∧
      setup.Includes "totals" "prices" ∧
      ¬Precedes (Script.own [price]) (Script.own [.include "prices", total])
        [total, price, start] := by
  refine ⟨acyclic, expands, ⟨"totals", _, "prices", rfl, loads_totals, List.mem_cons_self, rfl⟩, ?_⟩
  intro h
  have hnames := h.sublist.map fun
    | .global g => g.name
    | _ => ""
  exact absurd hnames (by decide)

open Catalogue in
/-- A script that leaves it to the total to include the prices has them in front of the total. -/
theorem catalogue_stands_by_load_order :
    (Expansion.expand setup [] [.include "totals", start]).items = .ok [price, total, start] ∧
      Precedes (Script.own [price]) (Script.own [.include "prices", total])
        [price, total, start] := by
  have hexpands : (Expansion.expand setup [] [.include "totals", start]).items =
      .ok [price, total, start] := by
    rw [Expansion.expand_eq_ok_iff]
    refine ⟨[⟨"totals", [.include "prices", total]⟩, ⟨"prices", [price]⟩], ?_, rfl⟩
    apply Setup.LoadOrder.load (by decide) loads_totals
    exact .load (by decide) loads_prices .done
  refine ⟨hexpands, ?_⟩
  obtain ⟨files, hfiles, _, _, _, _, _, hfirst⟩ := includes_stand_by_load_order hexpands
  cases hfiles with
  | skip hseen => cases hseen
  | @load _ _ _ items rest _ hload hrest =>
    cases loads_totals.symm.trans hload
    obtain ⟨b, hb, hkey, hprecedes⟩ := hfirst [] _ rest rfl "prices" List.mem_cons_self (by decide)
    obtain ⟨name, hname, hprices⟩ := hrest.loaded b hb
    cases hname.trans hkey
    have hitems := Except.ok.inj (hprices.symm.trans loads_prices)
    rwa [hitems] at hprecedes

end NwScript
