-- An expansion round by round, for any host. Each round opens the last directive that is left, so
-- the pending items keep the loaded files as blocks, the latest one in front, and no key is opened
-- twice. The rounds come to an end wherever only finitely many keys or scripts can be loaded.
import NwScript.Proofs.Include.Order
import NwScript.Proofs.Success

namespace NwScript

/-! ## Rounds -/

/-- Whatever includes are loaded from: the key of a name, and what comes of loading it. Nothing is
asked of it: there may be no end to the names that can be loaded, and two names with one key may
give different items. -/
structure Supply where
  key : String → String
  load : String → List Event × Except Failure Script

def Setup.supply (s : Setup) : Supply := ⟨s.key, s.load⟩

/-- An expansion between two rounds. -/
structure Stage where
  included : List String
  pending : Script
  events : List Event := []
  /-- The names that were to be loaded so far, the latest first. -/
  asked : List String := []

/-- What a round comes to: another stage, or the end. -/
inductive Turn where
  | again (stage : Stage)
  | done (asked : List String) (result : Expansion)

namespace Supply

/-- One round of an expansion. -/
def round (l : Supply) (p : Stage) : Turn :=
  match p.pending.splitLast with
  | none => .done p.asked ⟨p.included, p.events, .ok p.pending⟩
  | some (before, name, after) =>
    if l.key name ∈ p.included then
      .again { p with pending := before ++ after, events := p.events ++ [.includeRepeated name] }
    else match l.load name with
      | (reported, .error e) =>
        .done (name :: p.asked) ⟨l.key name :: p.included, p.events ++ reported, .error e⟩
      | (reported, .ok items) =>
        .again {
          included := l.key name :: p.included
          pending := items ++ (before ++ after)
          events := p.events ++ reported ++ [.includeExpanded name items.length]
          asked := name :: p.asked }

/-- Round after round, an expansion comes to an end. -/
inductive Expands (l : Supply) : Stage → List String → Expansion → Prop
  | last {p : Stage} {asked : List String} {x : Expansion} :
      l.round p = .done asked x → Expands l p asked x
  | next {p q : Stage} {asked : List String} {x : Expansion} :
      l.round p = .again q → Expands l q asked x → Expands l p asked x

section Rounds

variable {l : Supply} {p q : Stage} {asked : List String} {x : Expansion}

/-- A round that goes on has passed over a key or opened a new one. -/
theorem again_cases (h : l.round p = .again q) :
    ∃ before name after, p.pending.splitLast = some (before, name, after) ∧
      ((l.key name ∈ p.included ∧ q.included = p.included ∧ q.pending = before ++ after ∧
        q.asked = p.asked) ∨
      ∃ items, l.key name ∉ p.included ∧ (l.load name).2 = .ok items ∧
        q.included = l.key name :: p.included ∧ q.pending = items ++ (before ++ after) ∧
        q.asked = name :: p.asked) := by
  unfold round at h
  split at h
  · cases h
  · rename_i before name after hs
    refine ⟨before, name, after, hs, ?_⟩
    by_cases hi : l.key name ∈ p.included
    · rw [if_pos hi] at h
      cases h
      exact .inl ⟨hi, rfl, rfl, rfl⟩
    · rw [if_neg hi] at h
      split at h
      · cases h
      · rename_i reported items hl
        cases h
        exact .inr ⟨items, hi, by rw [hl], rfl, rfl, rfl⟩

/-- The last round has no directive left, or one whose new key fails to load. -/
theorem done_cases (h : l.round p = .done asked x) :
    (p.pending.splitLast = none ∧ asked = p.asked ∧ x = ⟨p.included, p.events, .ok p.pending⟩) ∨
      ∃ before name after e, p.pending.splitLast = some (before, name, after) ∧
        l.key name ∉ p.included ∧ asked = name :: p.asked ∧ x.items = .error e := by
  unfold round at h
  split at h
  · rename_i hs
    cases h
    exact .inl ⟨hs, rfl, rfl⟩
  · rename_i before name after hs
    by_cases hi : l.key name ∈ p.included
    · rw [if_pos hi] at h
      cases h
    · rw [if_neg hi] at h
      split at h
      · rename_i e _
        cases h
        exact .inr ⟨before, name, after, e, hs, hi, rfl, rfl⟩
      · cases h

/-- Whatever each round keeps is there in the last one. -/
theorem Expands.invariant {I : Stage → Prop} (h : l.Expands p asked x) (hp : I p)
    (hround : ∀ p q, I p → l.round p = .again q → I q) : ∃ q, I q ∧ l.round q = .done asked x := by
  induction h with
  | last hdone => exact ⟨_, hp, hdone⟩
  | next hagain _ ih => exact ih (hround _ _ hp hagain)

end Rounds

end Supply

/-- The expansion of a setup goes through the rounds of its supply. -/
theorem Expansion.run_expands {s : Setup} {included : List String} {events : List Event}
    {pending : Script} {x : Expansion} (h : run s included events pending = some x)
    (asked : List String) :
    ∃ asked', s.supply.Expands ⟨included, pending, events, asked⟩ asked' x := by
  refine run_induction (P := fun included events pending x => ∀ asked, ∃ asked',
    s.supply.Expands ⟨included, pending, events, asked⟩ asked' x) ?_ ?_ ?_ ?_ h asked
  · intro included events pending hs asked
    refine ⟨asked, .last ?_⟩
    simp only [Supply.round, hs]
  · intro included events pending before name after x hs hi ih asked
    obtain ⟨asked', hnext⟩ := ih asked
    refine ⟨asked', .next ?_ hnext⟩
    simp only [Supply.round, hs]
    exact if_pos hi
  · intro included events pending before name after reported e hs hi hl asked
    refine ⟨name :: asked, .last ?_⟩
    have hload : s.supply.load name = (reported, .error e) := hl
    simp only [Supply.round, hs, hload]
    exact if_neg hi
  · intro included events pending before name after reported items x hs hi hl ih asked
    obtain ⟨asked', hnext⟩ := ih (name :: asked)
    refine ⟨asked', .next ?_ hnext⟩
    have hload : s.supply.load name = (reported, .ok items) := hl
    simp only [Supply.round, hs, hload]
    exact if_neg hi

/-- Rounds that come to an end are what the setup does. -/
theorem Expansion.run_of_expands {s : Setup} {p : Stage} {asked : List String} {x : Expansion}
    (h : s.supply.Expands p asked x) : run s p.included p.events p.pending = some x := by
  induction h with
  | @last p asked x hdone =>
    unfold Supply.round at hdone
    split at hdone
    · rename_i hs
      cases hdone
      exact run_plain hs
    · rename_i before name after hs
      by_cases hi : s.supply.key name ∈ p.included
      · rw [if_pos hi] at hdone
        cases hdone
      · rw [if_neg hi] at hdone
        split at hdone
        · rename_i hl
          cases hdone
          exact run_failed hs hi hl
        · cases hdone
  | @next p q asked x hagain _ ih =>
    unfold Supply.round at hagain
    split at hagain
    · cases hagain
    · rename_i before name after hs
      by_cases hi : s.supply.key name ∈ p.included
      · rw [if_pos hi] at hagain
        cases hagain
        rw [run_repeated hs hi]
        exact ih
      · rw [if_neg hi] at hagain
        split at hagain
        · cases hagain
        · rename_i hl
          cases hagain
          rw [run_loaded hs hi hl]
          exact ih

/-! ## The end of an expansion -/

namespace Supply

/-- Only finitely many keys can be loaded. -/
def Finite (l : Supply) : Prop :=
  ∃ keys : List String, ∀ name items, (l.load name).2 = .ok items → l.key name ∈ keys

/-- There are only finitely many scripts to load, be it under any number of names. -/
def Bounded (l : Supply) : Prop :=
  ∃ scripts : List Script, ∀ name items, (l.load name).2 = .ok items → items ∈ scripts

/-- The keys of a list that are not yet expanded. -/
def unopened (known included : List String) : List String := known.filter (· ∉ included)

theorem unopened_lt {known included : List String} {key : String} (hk : key ∈ known)
    (hi : key ∉ included) :
    (unopened known (key :: included)).length < (unopened known included).length := by
  have hsub : unopened known (key :: included) = (unopened known included).filter (· ≠ key) := by
    simp only [unopened, List.filter_filter]
    congr 1
    funext x
    simp
  have hmem : key ∈ unopened known included := by simp [unopened, hk, hi]
  rw [hsub]
  exact List.length_filter_lt_length_iff_exists.mpr ⟨key, hmem, by simp⟩

/-- Every key that can be opened from a stage on is in the list. -/
structure Covers (l : Supply) (keys : List String) (I : Stage → Prop) : Prop where
  kept : ∀ p q, I p → l.round p = .again q → I q
  key_mem : ∀ p before name after items, I p → p.pending.splitLast = some (before, name, after) →
    (l.load name).2 = .ok items → l.key name ∈ keys

section Ending

variable {l : Supply} {p q : Stage} {keys : List String} {I : Stage → Prop}

/-- A round opens one of the keys that can be opened, or leaves one directive less. -/
theorem round_lt (hc : l.Covers keys I) (hp : I p) (h : l.round p = .again q) :
    Prod.Lex (· < ·) (· < ·)
      ((unopened keys q.included).length, q.pending.directives.length)
      ((unopened keys p.included).length, p.pending.directives.length) := by
  obtain ⟨before, name, after, hs, hcases⟩ := again_cases h
  rcases hcases with ⟨_, hincluded, hpending, _⟩ | ⟨items, hi, hl, hincluded, _⟩
  · rw [hincluded, hpending]
    apply Prod.Lex.right
    simp [Script.directives_of_splitLast hs]
  · rw [hincluded]
    apply Prod.Lex.left
    exact unopened_lt (hc.key_mem _ _ _ _ _ hp hs hl) hi

/-- The list of pending items may grow without bound, but not the keys that are left. -/
theorem Covers.exists_expands (hc : l.Covers keys I) (p : Stage) (hp : I p) :
    ∃ asked x, l.Expands p asked x := by
  cases hr : l.round p with
  | done asked x => exact ⟨asked, x, .last hr⟩
  | again q =>
    obtain ⟨asked, x, hq⟩ := hc.exists_expands q (hc.kept p q hp hr)
    exact ⟨asked, x, .next hr hq⟩
termination_by ((unopened keys p.included).length, p.pending.directives.length)
decreasing_by exact round_lt hc hp hr

theorem covers_keys (h : ∀ name items, (l.load name).2 = .ok items → l.key name ∈ keys) :
    l.Covers keys fun _ => True :=
  ⟨fun _ _ _ _ => trivial, fun _ _ name _ items _ _ => h name items⟩

/-- The directives of a script and of all scripts that can be loaded are the only ones there are. -/
theorem covers_scripts {scripts : List Script} {names : List String}
    (h : ∀ name items, (l.load name).2 = .ok items → items ∈ scripts)
    (hnames : ∀ items ∈ scripts, ∀ d ∈ items.directives, d ∈ names) :
    l.Covers (names.map l.key) fun p => ∀ d ∈ p.pending.directives, d ∈ names where
  kept p q hp hr := by
    obtain ⟨before, name, after, hs, hcases⟩ := again_cases hr
    have hold : ∀ d ∈ (before ++ after).directives, d ∈ names := by
      intro d hd
      apply hp
      rw [Script.directives_of_splitLast hs]
      rw [Script.directives_append, List.mem_append] at hd
      exact List.mem_append.mpr (hd.imp_right (List.mem_cons_of_mem _))
    rcases hcases with ⟨_, _, hpending, _⟩ | ⟨items, _, hl, _, hpending, _⟩
    · rw [hpending]
      exact hold
    · rw [hpending, Script.directives_append]
      intro d hd
      rcases List.mem_append.mp hd with hd | hd
      · exact hnames items (h name items hl) d hd
      · exact hold d hd
  key_mem p before name after items hp hs _ := by
    refine List.mem_map_of_mem (hp name ?_)
    simp [Script.directives_of_splitLast hs]

/-- Where there are only finitely many keys or scripts to load, there is an end. -/
theorem exists_expands (h : l.Finite ∨ l.Bounded) (included : List String) (script : Script) :
    ∃ asked x, l.Expands ⟨included, script, [], []⟩ asked x := by
  rcases h with ⟨keys, hkeys⟩ | ⟨scripts, hscripts⟩
  · exact (covers_keys hkeys).exists_expands _ trivial
  · have hnames : ∀ items ∈ scripts, ∀ d ∈ items.directives,
        d ∈ script.directives ++ scripts.flatMap Script.directives := fun items hitems d hd =>
      List.mem_append_right _ (List.mem_flatMap.mpr ⟨items, hitems, hd⟩)
    exact (covers_scripts hscripts hnames).exists_expands _ fun d hd => List.mem_append_left _ hd

end Ending

end Supply

/-- The items of a source that is a script. -/
def Source.items? : Source → Option Script
  | .script items => some items
  | .unreadable _ => none

/-- A resolver that has finitely many sources to give. -/
def Resolver.Bounded (r : Resolver) : Prop :=
  ∃ sources : List Source, ∀ key source events, r.find key = .ok (some source, events) →
    source ∈ sources

/-- With such a resolver, or none, there are only finitely many scripts to load. -/
theorem Setup.bounded {s : Setup}
    (h : ∀ l r, s.loader = some l → l.resolver = some r → r.Bounded) : s.supply.Bounded := by
  have hscripts {sources : List Source} {items : Script} (hmem : .script items ∈ sources) :
      items ∈ sources.filterMap Source.items? := List.mem_filterMap.mpr ⟨_, hmem, rfl⟩
  cases hl : s.loader with
  | none =>
    refine ⟨[], fun name items hload => ?_⟩
    simp [Setup.supply, Setup.load, hl] at hload
  | some l =>
    obtain ⟨sources, hsources⟩ : ∃ sources : List Source, ∀ r key source events,
        l.resolver = some r → r.find key = .ok (some source, events) → source ∈ sources := by
      cases hr : l.resolver with
      | none => exact ⟨[], by simp⟩
      | some r =>
        obtain ⟨sources, hsources⟩ := h l r hl hr
        refine ⟨sources, ?_⟩
        rintro _ key source events ⟨⟩ hfind
        exact hsources key source events hfind
    refine ⟨(l.library.map (·.2) ++ sources).filterMap Source.items?, fun name items hload => ?_⟩
    simp only [Setup.supply, Setup.load, hl] at hload
    apply hscripts
    rcases Loader.load_cases hload with hlibrary | ⟨r, events, hr, hfind⟩
    · exact List.mem_append_left _ (List.mem_map.mpr ⟨_, mem_of_lookup hlibrary, rfl⟩)
    · exact List.mem_append_right _ (hsources r _ _ events hr hfind)

theorem FolderSearch.mem_of_firstIn {tree : FileTree Source} {name : String} {paths : List Path}
    {source : Source} (h : (firstIn tree name paths).1 = some source) :
    source ∈ tree.files.map (·.2) := by
  induction paths with
  | nil => cases h
  | cons path rest ih =>
    unfold firstIn at h
    split at h
    · rename_i hread
      cases h
      exact FileTree.mem_of_read_found hread
    · exact ih h
    · exact ih h

/-- A search through folders finds the files of a tree, however they are named. -/
theorem FolderSearch.bounded (f : FolderSearch) (tree : FileTree Source) :
    (f.resolver tree).Bounded := by
  refine ⟨tree.files.map (·.2), fun key source events h => ?_⟩
  change f.find tree key = _ at h
  simp only [find, except_bind_ok, except_pure_ok] at h
  obtain ⟨paths, _, hfirst⟩ := h
  exact mem_of_firstIn (by rw [hfirst])

theorem Setup.bounded_of_folders (o : Options) (library : List (String × Source))
    (f : FolderSearch) (tree : FileTree Source) :
    (Setup.supply ⟨o, some ⟨library, some (f.resolver tree)⟩⟩).Bounded := by
  apply Setup.bounded
  rintro _ _ ⟨⟩ ⟨⟩
  exact f.bounded tree

/-- A library in memory and a table have finitely many keys. -/
theorem Setup.finite_of_table (o : Options) (library table : List (String × Source))
    (place : String → String) :
    (Setup.supply ⟨o, some ⟨library, some (.ofTable table place)⟩⟩).Finite := by
  refine ⟨library.map (·.1) ++ table.map (·.1), fun name items h => ?_⟩
  rw [List.mem_append]
  rcases Loader.load_cases h with hlibrary | ⟨_, events, ⟨⟩, hfind⟩
  · exact .inl (List.mem_map.mpr ⟨_, mem_of_lookup hlibrary, rfl⟩)
  · simp only [Resolver.ofTable, Except.ok.injEq, Prod.mk.injEq] at hfind
    exact .inr (List.mem_map.mpr ⟨_, mem_of_lookup hfind.1, rfl⟩)

/-- An expansion goes through rounds to its end, or there is no end, since there is no end to what
can be loaded. -/
theorem Expansion.expand_expands (s : Setup) (included : List String) (script : Script) :
    (∃ asked, s.supply.Expands ⟨included, script, [], []⟩ asked (expand s included script)) ∨
      (expand s included script).items = .error .endless ∧ ¬s.supply.Finite ∧
        ¬s.supply.Bounded ∧ ∀ asked x, ¬s.supply.Expands ⟨included, script, [], []⟩ asked x := by
  unfold expand
  cases hrun : run s included [] script with
  | some x => exact .inl (run_expands hrun [])
  | none =>
    have hnone (asked : List String) (x : Expansion) :
        ¬s.supply.Expands ⟨included, script, [], []⟩ asked x := by
      intro h
      have hsome := run_of_expands h
      rw [hrun] at hsome
      cases hsome
    refine .inr ⟨rfl, fun hfinite => ?_, fun hbounded => ?_, hnone⟩
    · obtain ⟨asked, x, hx⟩ := Supply.exists_expands (.inl hfinite) included script
      exact hnone asked x hx
    · obtain ⟨asked, x, hx⟩ := Supply.exists_expands (.inr hbounded) included script
      exact hnone asked x hx

/-! ## The blocks of an expansion -/

namespace Supply

/-- The pending items are what is left of the loaded files, in blocks, and of the script behind
them. Every directive of theirs is still pending or has been opened. -/
structure Opened (l : Supply) (script : Script) (p : Stage) (files : List LoadedFile) : Prop where
  included : p.included = (files.map (·.key)).reverse
  distinct : (files.map (·.key)).Nodup
  blocks : p.pending.own = Expansion.stacked files ++ script.own
  pending : ∀ d ∈ p.pending.directives, d ∈ script.directives ++ files.flatMap (·.items.directives)
  complete : ∀ d ∈ script.directives ++ files.flatMap (·.items.directives),
    d ∈ p.pending.directives ∨ l.key d ∈ p.included
  cause : ∀ before f after, files = before ++ f :: after →
    ∃ d ∈ script.directives ++ before.flatMap (·.items.directives),
      l.key d = f.key ∧ (l.load d).2 = .ok f.items

section Opened

variable {l : Supply} {script before after items : Script} {p q : Stage} {files : List LoadedFile}
  {name : String}

theorem opened_start (l : Supply) (script : Script) : l.Opened script ⟨[], script, [], []⟩ [] where
  included := rfl
  distinct := List.nodup_nil
  blocks := rfl
  pending _ hd := List.mem_append_left _ hd
  complete _ hd := .inl (by simpa using hd)
  cause before f after h := by simp at h

/-- The name of the last directive is not pending any more, or was pending more than once. -/
theorem pending_split (hs : p.pending.splitLast = some (before, name, after)) {d : String} :
    d ∈ p.pending.directives ↔ d = name ∨ d ∈ (before ++ after).directives := by
  rw [Script.directives_of_splitLast hs, Script.directives_append]
  simp only [List.mem_append, List.mem_cons]
  exact or_left_comm

/-- Passing over a key leaves the blocks as they are. -/
theorem Opened.repeated (h : l.Opened script p files)
    (hs : p.pending.splitLast = some (before, name, after)) (hi : l.key name ∈ p.included)
    (hincluded : q.included = p.included) (hpending : q.pending = before ++ after) :
    l.Opened script q files where
  included := hincluded.trans h.included
  distinct := h.distinct
  blocks := by rw [hpending, ← Script.own_of_splitLast hs, h.blocks]
  pending d hd := by
    rw [hpending] at hd
    exact h.pending d ((pending_split hs).mpr (.inr hd))
  complete d hd := by
    rw [hpending, hincluded]
    rcases h.complete d hd with hd | hd
    · rcases (pending_split hs).mp hd with rfl | hd
      · exact .inr hi
      · exact .inl hd
    · exact .inr hd
  cause := h.cause

/-- Opening a key puts one more block in front. -/
theorem Opened.loaded (h : l.Opened script p files)
    (hs : p.pending.splitLast = some (before, name, after)) (hi : l.key name ∉ p.included)
    (hl : (l.load name).2 = .ok items) (hincluded : q.included = l.key name :: p.included)
    (hpending : q.pending = items ++ (before ++ after)) :
    l.Opened script q (files ++ [⟨l.key name, items⟩]) where
  included := by simp [hincluded, h.included]
  distinct := by
    have hnew : l.key name ∉ files.map (·.key) := by simpa [h.included] using hi
    rw [List.map_append, List.nodup_append]
    refine ⟨h.distinct, by simp, ?_⟩
    rintro k hk _ hname rfl
    cases List.mem_singleton.mp hname
    exact hnew hk
  blocks := by
    rw [hpending, Script.own_append, ← Script.own_of_splitLast hs, h.blocks]
    simp [Expansion.stacked]
  pending d hd := by
    rw [hpending, Script.directives_append, List.mem_append] at hd
    rcases hd with hd | hd
    · simp [hd]
    · have hold := h.pending d ((pending_split hs).mpr (.inr hd))
      simp only [List.flatMap_append, List.mem_append] at hold ⊢
      exact hold.imp_right .inl
  complete d hd := by
    rw [hpending, hincluded, Script.directives_append, List.mem_append, List.mem_cons]
    simp only [List.flatMap_append, List.flatMap_cons, List.flatMap_nil, List.append_nil,
      ← List.append_assoc] at hd
    rcases List.mem_append.mp hd with hd | hd
    · rcases h.complete d hd with hd | hd
      · rcases (pending_split hs).mp hd with rfl | hd
        · exact .inr (.inl rfl)
        · exact .inl (.inr hd)
      · exact .inr (.inr hd)
    · exact .inl (.inl hd)
  cause l₁ f l₂ hsplit := by
    rcases List.eq_nil_or_concat l₂ with rfl | ⟨l₃, g, rfl⟩
    · -- the new file itself: its directive was pending
      obtain ⟨rfl, hf⟩ := List.append_inj' hsplit rfl
      cases hf
      exact ⟨name, h.pending name ((pending_split hs).mpr (.inl rfl)), rfl, hl⟩
    · rw [List.concat_eq_append, ← List.cons_append, ← List.append_assoc] at hsplit
      exact h.cause l₁ f l₃ (List.append_inj' hsplit rfl).1

/-- A round keeps the files that were loaded, and loads at most one more. -/
theorem Opened.round (h : ∃ files, l.Opened script p files) (hr : l.round p = .again q) :
    ∃ files, l.Opened script q files := by
  obtain ⟨files, h⟩ := h
  obtain ⟨before, name, after, hs, hcases⟩ := again_cases hr
  rcases hcases with ⟨hi, hincluded, hpending, _⟩ | ⟨items, hi, hl, hincluded, hpending, _⟩
  · exact ⟨files, h.repeated hs hi hincluded hpending⟩
  · exact ⟨_, h.loaded hs hi hl hincluded hpending⟩

end Opened

end Supply

/-- The expansion of a setup goes through rounds, to their end unless there is no end to what can be
loaded. Whatever the host, what the rounds lead to is the blocks of the loaded files, the latest one
in front, and of the script: each block holds all items of its file but the directives, in their
order. The keys of the files are distinct, every directive of the script and of the files has its
key among them, and each file was loaded for a directive of the script or of an earlier file. -/
theorem expansion_stacks_blocks :
    (∀ (s : Setup) (script : Script),
      (∃ asked, s.supply.Expands ⟨[], script, [], []⟩ asked (Expansion.expand s [] script)) ∨
      (Expansion.expand s [] script).items = .error .endless ∧ ¬s.supply.Finite ∧
        ¬s.supply.Bounded ∧ ∀ asked x, ¬s.supply.Expands ⟨[], script, [], []⟩ asked x) ∧
    ∀ (l : Supply) (script items : Script) (asked : List String) (x : Expansion),
      l.Expands ⟨[], script, [], []⟩ asked x → x.items = .ok items →
      ∃ files : List LoadedFile, (files.map (·.key)).Nodup ∧
        x.included = (files.map (·.key)).reverse ∧
        (∀ d ∈ script.directives ++ files.flatMap (·.items.directives),
          l.key d ∈ files.map (·.key)) ∧
        (∀ before f after, files = before ++ f :: after →
          ∃ d ∈ script.directives ++ before.flatMap (·.items.directives),
            l.key d = f.key ∧ (l.load d).2 = .ok f.items) ∧
        items = files.reverse.flatMap (·.items.own) ++ script.own ∧ items.directives = [] := by
  refine ⟨fun s script => Expansion.expand_expands s [] script, ?_⟩
  intro l script items asked x h hitems
  obtain ⟨q, ⟨files, hq⟩, hdone⟩ := h.invariant ⟨[], Supply.opened_start l script⟩
    fun _ _ hp hr => Supply.Opened.round hp hr
  rcases Supply.done_cases hdone with ⟨hs, _, rfl⟩ | ⟨_, _, _, e, _, _, _, herror⟩
  · cases hitems
    obtain ⟨hnone, hown⟩ := Script.of_splitLast_none hs
    refine ⟨files, hq.distinct, hq.included, ?_, hq.cause, hown.symm.trans hq.blocks, hnone⟩
    intro d hd
    rcases hq.complete d hd with hd | hd
    · rw [hnone] at hd
      cases hd
    · simpa [hq.included] using hd
  · rw [hitems] at herror
    cases herror

/-! ### Files that include themselves and each other -/

namespace Knot

def gem : Item := .global ⟨false, .int, "gem", none⟩

def link : Item := .global ⟨false, .int, "link", none⟩

def start : Item := .function ⟨⟨.void, "main", []⟩, []⟩

def library : List (String × Source) :=
  [("ring", .script [.include "RING", gem, .include "Chain"])]

def table : List (String × Source) := [("chain", .script [link, .include "ring"])]

/-- A file in the library that includes itself, and one in a table that includes it. Names are
looked up in lower case. -/
def setup : Setup :=
  ⟨{ lowercaseNames := true }, some ⟨library, some (.ofTable table id)⟩⟩

def script : Script := [.include "Ring", start]

theorem expands : (Expansion.expand setup [] script).items = .ok [link, gem, start] := by
  have hring : (setup.load "Ring").2 = .ok [.include "RING", gem, .include "Chain"] := rfl
  have hchain : (setup.load "Chain").2 = .ok [link, .include "ring"] := rfl
  rw [Expansion.expand_eq_ok_iff]
  refine ⟨[⟨"ring", [.include "RING", gem, .include "Chain"]⟩,
    ⟨"chain", [link, .include "ring"]⟩], ?_, rfl⟩
  apply Setup.LoadOrder.load (by decide) hring
  apply Setup.LoadOrder.load (by decide) hchain
  apply Setup.LoadOrder.skip (by decide)
  exact .skip (by decide) .done

end Knot

open Knot in
/-- The ring and the chain are loaded once each, and the chain stands in front of the ring. -/
theorem knot_stacks_blocks :
    (Expansion.expand setup [] script).items = .ok [link, gem, start] ∧
      ∃ files : List LoadedFile, (files.map (·.key)).Nodup ∧
        (∀ d ∈ ["Ring"] ++ files.flatMap (·.items.directives), setup.key d ∈ files.map (·.key)) ∧
        (∀ before f after, files = before ++ f :: after →
          ∃ d ∈ ["Ring"] ++ before.flatMap (·.items.directives),
            setup.key d = f.key ∧ (setup.load d).2 = .ok f.items) ∧
        [link, gem, start] = files.reverse.flatMap (·.items.own) ++ [start] := by
  refine ⟨expands, ?_⟩
  obtain ⟨asked, hrounds⟩ := (expansion_stacks_blocks.1 setup script).resolve_right fun h =>
    h.2.1 (Setup.finite_of_table _ library table id)
  obtain ⟨files, hdistinct, _, hcomplete, hcause, hitems, _⟩ :=
    expansion_stacks_blocks.2 setup.supply script _ asked _ hrounds expands
  exact ⟨files, hdistinct, hcomplete, hcause, hitems⟩

/-! ## Requests -/

namespace Supply

section Once

variable {l : Supply} {p q : Stage}

/-- Every name that was to be loaded has its key recorded, and no two have the same key. -/
def Once (l : Supply) (start : List String) (p : Stage) : Prop :=
  (p.asked.map l.key).Nodup ∧ p.included = p.asked.map l.key ++ start ∧
    ∀ name ∈ p.asked, l.key name ∉ start

theorem once_asked {start : List String} {name : String} (h : l.Once start p)
    (hi : l.key name ∉ p.included) :
    ((name :: p.asked).map l.key).Nodup ∧ ∀ n ∈ name :: p.asked, l.key n ∉ start := by
  obtain ⟨hnodup, hincluded, hstart⟩ := h
  rw [hincluded, List.mem_append, not_or] at hi
  rw [List.map_cons, List.nodup_cons, List.forall_mem_cons]
  exact ⟨⟨hi.1, hnodup⟩, hi.2, hstart⟩

theorem Once.round {start : List String} (h : l.Once start p) (hr : l.round p = .again q) :
    l.Once start q := by
  obtain ⟨before, name, after, hs, hcases⟩ := again_cases hr
  rcases hcases with ⟨_, hincluded, _, hasked⟩ | ⟨items, hi, _, hincluded, _, hasked⟩
  · unfold Once
    rw [hasked, hincluded]
    exact h
  · obtain ⟨hnodup, hstart⟩ := once_asked h hi
    unfold Once
    rw [hasked, hincluded, h.2.1]
    exact ⟨hnodup, rfl, hstart⟩

/-- However an expansion ends, it has not asked for a key twice, nor for one that was there. -/
theorem Expands.once {included asked : List String} {script : Script} {x : Expansion}
    (h : l.Expands ⟨included, script, [], []⟩ asked x) :
    (asked.map l.key).Nodup ∧ ∀ name ∈ asked, l.key name ∉ included := by
  obtain ⟨q, hq, hdone⟩ := h.invariant (I := l.Once included) ⟨List.nodup_nil, rfl, by simp⟩
    fun _ _ hp hr => hp.round hr
  rcases done_cases hdone with ⟨_, rfl, _⟩ | ⟨_, name, _, _, _, hi, rfl, _⟩
  · exact ⟨hq.1, hq.2.2⟩
  · exact once_asked hq hi

end Once

end Supply

/-- The expansion of a setup goes through rounds, to their end unless there is no end to what can be
loaded. Whatever the host, if only finitely many keys or only finitely many scripts can be loaded,
as with a search through folders, the rounds come to an end, be there files that include themselves
or each other. And rounds that have come to an end have not asked for a key twice, nor for one that
was expanded before. -/
theorem expansion_ends :
    (∀ (s : Setup) (included : List String) (script : Script),
      (∃ asked, s.supply.Expands ⟨included, script, [], []⟩ asked
        (Expansion.expand s included script)) ∨
      (Expansion.expand s included script).items = .error .endless ∧ ¬s.supply.Finite ∧
        ¬s.supply.Bounded ∧ ∀ asked x, ¬s.supply.Expands ⟨included, script, [], []⟩ asked x) ∧
    (∀ l : Supply, l.Finite ∨ l.Bounded → ∀ (included : List String) (script : Script), ∃ asked x,
      l.Expands ⟨included, script, [], []⟩ asked x) ∧
    (∀ (o : Options) (library : List (String × Source)) (f : FolderSearch) (tree : FileTree Source),
      (Setup.supply ⟨o, some ⟨library, some (f.resolver tree)⟩⟩).Bounded) ∧
    ∀ (l : Supply) (included : List String) (script : Script) (asked : List String) (x : Expansion),
      l.Expands ⟨included, script, [], []⟩ asked x →
      (asked.map l.key).Nodup ∧ ∀ name ∈ asked, l.key name ∉ included := by
  exact ⟨Expansion.expand_expands, fun l => Supply.exists_expands,
    Setup.bounded_of_folders, fun l included script asked x hx => hx.once⟩

open Knot in
/-- The knot is opened with one request for each of its keys. -/
theorem knot_ends :
    setup.supply.Finite ∧ ∃ asked x, setup.supply.Expands ⟨[], script, [], []⟩ asked x ∧
      (asked.map setup.key).Nodup := by
  have hfinite := Setup.finite_of_table { lowercaseNames := true } library table id
  obtain ⟨asked, x, hx⟩ := expansion_ends.2.1 setup.supply (.inl hfinite) [] script
  exact ⟨hfinite, asked, x, hx, (expansion_ends.2.2.2 _ _ _ _ _ hx).1⟩

end NwScript
