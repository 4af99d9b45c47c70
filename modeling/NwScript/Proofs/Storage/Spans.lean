-- Where the globals lie: one behind the other from the bottom of the stack. Counted from there, a
-- global has one place, whether it is found from the top of the stack or from the base of the
-- globals.
import NwScript.Proofs.Machine.Counts
import NwScript.Proofs.Storage.Slots
import NwScript.Proofs.Storage.Unwind
import NwScript.Codegen.Access

namespace NwScript

/-! ## Slots that instructions reach -/

/-- What the offsets of an anchor count from: the top of the stack, or that of the globals. -/
def Anchor.origin (height base : Int) : Anchor → Int
  | .sp => height
  | .bp => base

/-- The slots that an instruction reads or writes in place: the first one, counted from the bottom
of the globals, and how many they are. There are `height` slots on the stack, the lowest `base` of
which are the globals. -/
def Op.reach? (height base : Int) : Op → Option (Int × Int)
  | .copyDown anchor offset size | .copyTop anchor offset size =>
    some (anchor.origin height base + offset, size)
  | .step _ anchor offset => some (anchor.origin height base + offset, 1)
  | _ => none

/-- Where an instruction writes in place: what its offset counts from, the offset, and the number of
slots. -/
def Op.destination? : Op → Option (Anchor × Int × Int)
  | .copyDown anchor offset size => some (anchor, offset, size)
  | .step _ anchor offset => some (anchor, offset, 1)
  | _ => none

/-- A value that is loaded or stored there is in just these slots. -/
def Resolved.Occupies (r : Resolved) (height base : Int) (start size : Nat) : Prop :=
  (r.load size).reach? height base = some ((start : Int), (size : Int)) ∧
    (r.store size).reach? height base = some ((start : Int), (size : Int))

theorem Resolved.occupies {r : Resolved} {height base : Int} {start size : Nat}
    (h : r.anchor.origin height base + r.offset = start) : r.Occupies height base start size := by
  simp [Occupies, load, store, Op.reach?, h]

/-! ## Sizes of several types -/

section Sizes

variable {env : Env} {tys : List Ty} {k : Nat}

theorem sizeOfAll_reverse (h : env.sizeOfAll tys = .ok k) : env.sizeOfAll tys.reverse = .ok k := by
  induction tys generalizing k with
  | nil => exact h
  | cons ty rest ih =>
    simp only [Env.sizeOfAll, except_bind_ok, except_pure_ok] at h
    obtain ⟨i, hi, j, hj, rfl⟩ := h
    rw [List.reverse_cons, sizeOfAll_append]
    refine ⟨j, i, ih hj, ?_, Nat.add_comm i j⟩
    simp [Env.sizeOfAll, hi, bind, Except.bind, pure, Except.pure]

/-- All types of a list are sized if each of them is. -/
theorem exists_sizeOfAll (h : ∀ ty ∈ tys, ∃ n, env.sizeOf ty = .ok n) :
    ∃ n, env.sizeOfAll tys = .ok n := by
  induction tys with
  | nil => exact ⟨0, rfl⟩
  | cons ty rest ih =>
    obtain ⟨i, hi⟩ := h ty List.mem_cons_self
    obtain ⟨j, hj⟩ := ih fun ty hty => h ty (List.mem_cons_of_mem _ hty)
    exact ⟨i + j, by simp [Env.sizeOfAll, hi, hj, bind, Except.bind, pure, Except.pure]⟩

/-- Sizes that stay as they are, stay together. -/
theorem sizeOfAll_kept {env' : Env}
    (hkept : ∀ ty n, env.sizeOf ty = .ok n → env'.sizeOf ty = .ok n)
    (h : env.sizeOfAll tys = .ok k) : env'.sizeOfAll tys = .ok k := by
  induction tys generalizing k with
  | nil => exact h
  | cons ty rest ih =>
    simp only [Env.sizeOfAll, except_bind_ok, except_pure_ok] at h ⊢
    obtain ⟨i, hi, j, hj, rfl⟩ := h
    exact ⟨i, hkept ty i hi, j, ih hj, rfl⟩

/-- On top of others, types whose sizes are known can be counted unless they are too many. -/
theorem stacked_within {n : Nat} (hn : Count.Fits n) (h : env.sizeOfAll tys = .ok k) :
    env.stacked n tys = Count.within [(n + k : Int)] (n + k) := by
  induction tys generalizing n k with
  | nil =>
    cases h
    exact (Count.within_of_fits (by simpa using hn)).symm
  | cons ty rest ih =>
    simp only [Env.sizeOfAll, except_bind_ok, except_pure_ok] at h
    obtain ⟨i, hi, j, hj, rfl⟩ := h
    simp only [Env.stacked, hi, Count.sum_within]
    refine (Count.within_bind (l := [((n + i : Nat) : Int) + j]) (b := n + (i + j)) ?_).trans ?_
    · intro hfits
      rw [ih (by simpa using hfits) hj, Nat.add_assoc]
    · -- the larger of the two numbers decides
      apply Count.within_congr
      simp only [List.cons_append, List.nil_append, List.forall_mem_cons, List.not_mem_nil,
        false_implies, implies_true, and_true, Int.natCast_add, Int.add_assoc]
      exact and_iff_right_of_imp fun hsum => hn.between hsum (by omega) (by omega)

theorem hung_ok {depth total : Int} (h : env.hung depth tys = .ok total) :
    ∃ n : Nat, env.sizeOfAll tys = .ok n ∧ total = depth - n := by
  induction tys generalizing depth with
  | nil =>
    cases h
    exact ⟨0, rfl, by simp⟩
  | cons ty rest ih =>
    simp only [Env.hung, except_bind_ok, Count.checked_ok] at h
    obtain ⟨i, hi, _, ⟨-, rfl⟩, h⟩ := h
    obtain ⟨j, hj, rfl⟩ := ih h
    refine ⟨i + j, ?_, by omega⟩
    simp [Env.sizeOfAll, hi, hj, bind, Except.bind, pure, Except.pure]

/-- Below others, types whose sizes are known can be counted unless they reach too deep. -/
theorem hung_within {depth : Int} (hd : Count.Fits depth) (h : env.sizeOfAll tys = .ok k) :
    env.hung depth tys = Count.within [depth - k] (depth - k) := by
  induction tys generalizing depth k with
  | nil =>
    cases h
    rw [Int.natCast_zero, Int.sub_zero]
    exact (Count.within_of_fits (by simpa using hd)).symm
  | cons ty rest ih =>
    simp only [Env.sizeOfAll, except_bind_ok, except_pure_ok] at h
    obtain ⟨i, hi, j, hj, rfl⟩ := h
    have hboth : depth - i - j = depth - (i + j : Nat) := by omega
    simp only [Env.hung, hi, Count.checked_within]
    refine (Count.within_bind (l := [depth - i - j]) (b := depth - (i + j : Nat)) ?_).trans ?_
    · intro hfits
      rw [ih (by simpa using hfits) hj, hboth]
    · apply Count.within_congr
      simp only [List.cons_append, List.nil_append, List.forall_mem_cons, List.not_mem_nil,
        false_implies, implies_true, and_true, hboth]
      exact and_iff_right_of_imp fun hsum => hsum.between hd (by omega) (by omega)

theorem globalSize_ok {total : Int} (h : env.globalSize = .ok total) :
    ∃ n : Nat, env.sizeOfAll (env.globals.map (·.ty)) = .ok n ∧ total = -n := by
  obtain ⟨n, hn, rfl⟩ := hung_ok h
  exact ⟨n, hn, by omega⟩

theorem globalSize_within (h : env.sizeOfAll (env.globals.map (·.ty)) = .ok k) :
    env.globalSize = Count.within [-(k : Int)] (-(k : Int)) := by
  rw [Env.globalSize, hung_within Count.fits_zero h, Int.zero_sub]

/-- The size of the globals is a matter of the structs and the globals alone. -/
theorem globalSize_same {env' : Env} (hg : env'.globals = env.globals)
    (hs : env'.structs = env.structs) : env'.globalSize = env.globalSize := by
  have hung_same (depth : Int) (tys : List Ty) : env'.hung depth tys = env.hung depth tys := by
    induction tys generalizing depth with
    | nil => rfl
    | cons ty rest ih => simp only [Env.hung, Env.sizeOf, hs, ih]
  rw [Env.globalSize, hg, hung_same, Env.globalSize]

end Sizes

/-! ## Spans of globals -/

/-- The slots of a global, counted from the bottom: they start behind those of all globals that were
declared before it. -/
def Env.Spans (env : Env) (g : Global) (start size : Nat) : Prop :=
  ∃ older newer, env.globals = older ++ g :: newer ∧
    env.sizeOfAll (older.map (·.ty)) = .ok start ∧ env.sizeOf g.ty = .ok size

/-- The globals lie side by side, and fill all of their slots. -/
structure Env.Tiled (env : Env) (total : Nat) : Prop where
  inside : ∀ g start size, env.Spans g start size → start + size ≤ total
  apart : ∀ g k a n b m, env.Spans g a n → env.Spans k b m → g ≠ k → a + n ≤ b ∨ b + m ≤ a
  filled : ∀ x < total, ∃ g start size, env.Spans g start size ∧ start ≤ x ∧ x < start + size

section Spans

variable {env : Env} {g k : Global} {start size total : Nat}

/-- What is left of the globals above one of them. -/
theorem sizeOfAll_split {older newer : List Global} {n : Nat}
    (h : env.sizeOfAll ((older ++ g :: newer).map (·.ty)) = .ok n) :
    ∃ a b c, env.sizeOfAll (older.map (·.ty)) = .ok a ∧ env.sizeOf g.ty = .ok b ∧
      env.sizeOfAll (newer.map (·.ty)) = .ok c ∧ n = a + b + c := by
  rw [List.map_append, sizeOfAll_append] at h
  obtain ⟨a, j, ha, hj, rfl⟩ := h
  simp only [List.map_cons, Env.sizeOfAll, except_bind_ok, except_pure_ok] at hj
  obtain ⟨b, hb, c, hc, rfl⟩ := hj
  exact ⟨a, b, c, ha, hb, hc, by omega⟩

theorem Env.Spans.inside (hs : env.Spans g start size)
    (h : env.sizeOfAll (env.globals.map (·.ty)) = .ok total) : start + size ≤ total := by
  obtain ⟨older, newer, hg, hstart, hsize⟩ := hs
  rw [hg] at h
  obtain ⟨a, b, c, ha, hb, _, rfl⟩ := sizeOfAll_split h
  cases hstart.symm.trans ha
  cases hsize.symm.trans hb
  omega

/-- A global that was declared later lies above. -/
theorem spans_above {older newer older' newer' : List Global} {a n b : Nat}
    (hsplit : older ++ g :: newer = older' ++ k :: newer') (hne : g ≠ k)
    (hlen : older.length ≤ older'.length) (ha : env.sizeOfAll (older.map (·.ty)) = .ok a)
    (hn : env.sizeOf g.ty = .ok n) (hb : env.sizeOfAll (older'.map (·.ty)) = .ok b) :
    a + n ≤ b := by
  rcases List.append_eq_append_iff.mp hsplit with ⟨mid, rfl, hmid⟩ | ⟨mid, rfl, hmid⟩
  · cases mid with
    | nil =>
      cases hmid
      exact absurd rfl hne
    | cons x mid =>
      cases hmid
      obtain ⟨a', n', _, ha', hn', _, rfl⟩ := sizeOfAll_split hb
      cases ha.symm.trans ha'
      cases hn.symm.trans hn'
      omega
  · cases mid with
    | nil =>
      cases hmid
      exact absurd rfl hne
    | cons x mid =>
      simp only [List.length_append, List.length_cons] at hlen
      omega

theorem Env.Spans.apart {a n b m : Nat} (hg : env.Spans g a n) (hk : env.Spans k b m)
    (hne : g ≠ k) : a + n ≤ b ∨ b + m ≤ a := by
  obtain ⟨older, newer, hsplit, ha, hn⟩ := hg
  obtain ⟨older', newer', hsplit', hb, hm⟩ := hk
  rw [hsplit] at hsplit'
  rcases Nat.le_total older.length older'.length with hlen | hlen
  · exact .inl (spans_above hsplit' hne hlen ha hn hb)
  · exact .inr (spans_above hsplit'.symm hne.symm hlen hb hm ha)

/-- Every slot of some globals in a row belongs to one of them. -/
theorem exists_span {gs : List Global} {x : Nat}
    (h : env.sizeOfAll (gs.map (·.ty)) = .ok total) (hx : x < total) :
    ∃ older g newer start size, gs = older ++ g :: newer ∧
      env.sizeOfAll (older.map (·.ty)) = .ok start ∧ env.sizeOf g.ty = .ok size ∧ start ≤ x ∧
      x < start + size := by
  induction gs generalizing x total with
  | nil =>
    cases h
    exact absurd hx (Nat.not_lt_zero x)
  | cons g rest ih =>
    simp only [List.map_cons, Env.sizeOfAll, except_bind_ok, except_pure_ok] at h
    obtain ⟨n, hn, m, hm, rfl⟩ := h
    by_cases hfirst : x < n
    · exact ⟨[], g, rest, 0, n, rfl, rfl, hn, Nat.zero_le _, by omega⟩
    · obtain ⟨older, k, newer, start, size, rfl, hstart, hsize, hle, hlt⟩ :=
        ih (x := x - n) hm (by omega)
      refine ⟨g :: older, k, newer, n + start, size, rfl, ?_, hsize, by omega, by omega⟩
      simp [Env.sizeOfAll, hn, hstart, bind, Except.bind, pure, Except.pure]

theorem tiled_of_sized (h : env.sizeOfAll (env.globals.map (·.ty)) = .ok total) :
    env.Tiled total where
  inside _ _ _ hs := hs.inside h
  apart _ _ _ _ _ _ hg hk hne := hg.apart hk hne
  filled x hx := by
    obtain ⟨older, g, newer, start, size, hsplit, hstart, hsize, hle, hlt⟩ := exists_span h hx
    exact ⟨g, start, size, ⟨older, newer, hsplit, hstart, hsize⟩, hle, hlt⟩

end Spans

/-! ## Where globals are found -/

section Finding

variable {env : Env} {g : Global} {older newer : List Global} {size n : Nat}

/-- What is counted to find a global at a depth below the top of the globals, which is `above` from
the top of the stack. -/
def Env.countedAt (env : Env) (above depth : Int) : List Int :=
  if env.sealed then [-depth] else [-depth, above - depth]

/-- Where a global is found below newer ones, for a stack that is `above` from the top of the
globals. -/
def Env.foundAt (env : Env) (g : Global) (above depth : Int) : Resolved :=
  if env.sealed then ⟨g.ty, -depth, .bp, g.const⟩ else ⟨g.ty, above - depth, .sp, g.const⟩

/-- The last step of a search that has come down to the global. -/
theorem seekGlobal_hit {above below : Int} (hsize : env.sizeOf g.ty = .ok size) :
    env.seekGlobal g.name above (g :: older) below =
      Count.within (env.countedAt above (size - below)) (env.foundAt g above (size - below)) := by
  have hdepth : -((size : Int) - below) = below - size := by omega
  have habove : above - ((size : Int) - below) = above + (below - size) := by omega
  simp only [Env.seekGlobal, hsize, if_true, Env.foundAt, Env.countedAt, hdepth, habove,
    Count.checked_within]
  cases env.sealed with
  | true => exact Count.within_bind (l := []) fun _ => rfl
  | false =>
    exact Count.within_bind (l := [above + (below - size)]) fun _ =>
      Count.within_bind (l := []) fun _ => rfl

/-- Newer globals are passed, and what is counted there does not matter: the global itself is
further down. -/
theorem seekGlobal_at {above below : Int} (hbelow : Count.Fits below)
    (hname : ∀ k ∈ newer, k.name ≠ g.name) (hsize : env.sizeOf g.ty = .ok size)
    (hnewer : env.sizeOfAll (newer.map (·.ty)) = .ok n) :
    env.seekGlobal g.name above (newer ++ g :: older) below =
      Count.within (env.countedAt above (n + size - below))
        (env.foundAt g above (n + size - below)) := by
  induction newer generalizing below n with
  | nil =>
    cases hnewer
    rw [List.nil_append, seekGlobal_hit hsize, Int.natCast_zero, Int.zero_add]
  | cons k rest ih =>
    simp only [List.map_cons, Env.sizeOfAll, except_bind_ok, except_pure_ok] at hnewer
    obtain ⟨i, hi, j, hj, rfl⟩ := hnewer
    have hk : k.name ≠ g.name := hname k List.mem_cons_self
    have hrest : ∀ k ∈ rest, k.name ≠ g.name := fun k hk => hname k (List.mem_cons_of_mem _ hk)
    have hdepth : (j : Int) + size - (below - i) = (i + j : Nat) + size - below := by omega
    simp only [List.cons_append, Env.seekGlobal, hi, hk, if_false, Count.checked_within]
    refine (Count.within_bind fun hfits => ih (by simpa using hfits) hrest hj).trans ?_
    rw [hdepth]
    apply Count.within_congr
    rw [List.forall_mem_append, and_iff_right_iff_imp]
    intro hall
    have hdeepest : Count.Fits (-((i + j : Nat) + size - below)) := by
      apply hall
      unfold Env.countedAt
      split <;> simp
    simpa using hdeepest.between hbelow (by omega) (by omega)

/-- A global is found below those that were declared after it. -/
theorem resolveGlobal_at {offset : Int} (hg : env.globals = older ++ g :: newer)
    (hname : ∀ k ∈ newer, k.name ≠ g.name) (hsize : env.sizeOf g.ty = .ok size)
    (hnewer : env.sizeOfAll (newer.map (·.ty)) = .ok n) :
    env.resolveGlobal g.name offset =
      Count.within (env.countedAt offset (n + size)) (env.foundAt g offset (n + size)) := by
  have hrev : env.globals.reverse = newer.reverse ++ g :: older.reverse := by simp [hg]
  have hnewer' : env.sizeOfAll (newer.reverse.map (·.ty)) = .ok n := by
    rw [List.map_reverse]
    exact sizeOfAll_reverse hnewer
  have hname' : ∀ k ∈ newer.reverse, k.name ≠ g.name := by simpa using hname
  rw [Env.resolveGlobal, hrev, seekGlobal_at Count.fits_zero hname' hsize hnewer', Int.sub_zero]

/-- A global is found as far below the top of the globals as its span lies. -/
theorem Env.Spans.resolves {start total : Nat} (h : env.Spans g start size)
    (hnames : (env.globals.map (·.name)).Nodup)
    (htotal : env.sizeOfAll (env.globals.map (·.ty)) = .ok total) :
    ∃ depth : Nat, start + depth = total ∧
      ∀ offset, env.resolveGlobal g.name offset =
        Count.within (env.countedAt offset depth) (env.foundAt g offset depth) := by
  obtain ⟨older, newer, hg, hstart, hsize⟩ := h
  rw [hg] at htotal hnames
  obtain ⟨a, b, c, ha, hb, hc, rfl⟩ := sizeOfAll_split htotal
  cases hstart.symm.trans ha
  cases hsize.symm.trans hb
  refine ⟨c + size, by omega, fun offset => ?_⟩
  have hname : ∀ k ∈ newer, k.name ≠ g.name := by
    intro k hk he
    simp only [List.map_append, List.map_cons, List.nodup_append, List.nodup_cons] at hnames
    exact hnames.2.1.1 (List.mem_map.mpr ⟨k, hk, he⟩)
  rw [resolveGlobal_at hg hname hsize hc]
  rfl

theorem Env.Spans.same {env' : Env} {start : Nat} (h : env.Spans g start size)
    (hg : env'.globals = env.globals) (hs : env'.structs = env.structs) :
    env'.Spans g start size := by
  obtain ⟨older, newer, hsplit, hstart, hsize⟩ := h
  have hkept : ∀ ty n, env.sizeOf ty = .ok n → env'.sizeOf ty = .ok n := by
    intro ty n hn
    rw [Env.sizeOf, hs]
    exact hn
  exact ⟨older, newer, hg.trans hsplit, sizeOfAll_kept hkept hstart, hkept _ _ hsize⟩

/-! ## What is found lies in a global -/

theorem seekGlobal_found {name : Name} {r : Resolved} {gs : List Global} {above below : Int}
    (h : env.seekGlobal name above gs below = .ok r) :
    ∃ newer g older, ∃ n size : Nat, gs = newer ++ g :: older ∧ g.name = name ∧
      env.sizeOfAll (newer.map (·.ty)) = .ok n ∧ env.sizeOf g.ty = .ok size ∧
      r = env.foundAt g above (n + size - below) := by
  induction gs generalizing below with
  | nil => simp [Env.seekGlobal] at h
  | cons g rest ih =>
    simp only [Env.seekGlobal, except_bind_ok, Count.checked_ok] at h
    obtain ⟨size, hsize, _, ⟨-, rfl⟩, h⟩ := h
    split at h
    · rename_i hname
      refine ⟨[], g, rest, 0, size, rfl, hname, rfl, hsize, ?_⟩
      have hdepth : -(((0 : Nat) : Int) + size - below) = below - size := by omega
      have habove : above - (((0 : Nat) : Int) + size - below) = above + (below - size) := by omega
      rw [Env.foundAt, hdepth, habove]
      split at h
      · cases h
        rw [if_pos ‹_›]
      · simp only [except_bind_ok, Count.checked_ok, except_pure_ok] at h
        obtain ⟨_, ⟨-, rfl⟩, rfl⟩ := h
        rw [if_neg ‹_›]
    · obtain ⟨newer, k, older, n, size', rfl, hname, hn, hsize', rfl⟩ := ih h
      refine ⟨g :: newer, k, older, size + n, size', rfl, hname, ?_, hsize', ?_⟩
      · simp [Env.sizeOfAll, hsize, hn, bind, Except.bind, pure, Except.pure]
      · congr 1
        omega

/-- Whatever a name leads to among the globals lies where the span of a global starts. -/
theorem resolveGlobal_found {name : Name} {r : Resolved} {offset : Int} {total : Nat}
    (htotal : env.sizeOfAll (env.globals.map (·.ty)) = .ok total)
    (h : env.resolveGlobal name offset = .ok r) :
    ∃ g, ∃ start size : Nat, env.Spans g start size ∧ r.ty = g.ty ∧ r.const = g.const ∧
      r.anchor = (if env.sealed then .bp else .sp) ∧
      r.anchor.origin (total - offset) total + r.offset = start := by
  obtain ⟨newer, g, older, n, size, hsplit, _, hn, hsize, rfl⟩ := seekGlobal_found h
  have hg : env.globals = older.reverse ++ g :: newer.reverse := by
    rw [← List.reverse_reverse env.globals, hsplit]
    simp
  rw [hg] at htotal
  obtain ⟨start, size', n', hstart, hsize', hn', rfl⟩ := sizeOfAll_split htotal
  have hreversed := sizeOfAll_reverse hn
  rw [← List.map_reverse] at hreversed
  cases hsize.symm.trans hsize'
  cases hreversed.symm.trans hn'
  refine ⟨g, start, size, ⟨_, _, hg, hstart, hsize⟩, ?_⟩
  unfold Env.foundAt
  split
  · refine ⟨rfl, rfl, rfl, ?_⟩
    simp only [Anchor.origin]
    omega
  · refine ⟨rfl, rfl, rfl, ?_⟩
    simp only [Anchor.origin]
    omega

/-- A name leads to a variable of a block, which is found from the top, or to a global. -/
theorem resolveIn_found {name : Name} {r : Resolved} {chain : List Block} {offset : Int}
    (h : Scope.resolveIn env name chain offset = .ok r) :
    r.anchor = .sp ∨ ∃ offset', env.resolveGlobal name offset' = .ok r := by
  induction chain generalizing offset with
  | nil => exact .inr ⟨offset, h⟩
  | cons b outer ih =>
    have hseek (values : List Variable) (offset : Int)
        (h : Scope.seek env name (Scope.resolveIn env name outer) values offset = .ok r) :
        r.anchor = .sp ∨ ∃ offset', env.resolveGlobal name offset' = .ok r := by
      induction values generalizing offset with
      | nil => exact ih h
      | cons v rest ih' =>
        simp only [Scope.seek, except_bind_ok, Count.checked_ok] at h
        obtain ⟨size, hsize, _, ⟨-, rfl⟩, h⟩ := h
        split at h
        · cases h
          exact .inl rfl
        · exact ih' _ h
    simp only [Scope.resolveIn, except_bind_ok, Count.checked_ok] at h
    obtain ⟨_, _, h⟩ := h
    exact hseek _ _ h

/-- A chain of members leads to a part of what it starts from, and is as constant as that. -/
theorem follow_contains {path : Access} {members : List Name} {r r' : Resolved}
    (hl : Structs.Laid env.structs.layouts) (h : Codegen.follow env path r members = .ok r') :
    r'.anchor = r.anchor ∧ r'.const = r.const ∧ ∀ ks, env.structs.slots r.ty = .ok ks →
      ∃ d : Nat, r'.offset = r.offset + d ∧ env.structs.Contains r.ty r'.ty d := by
  induction members generalizing r with
  | nil =>
    cases h
    exact ⟨rfl, rfl, fun ks hks => ⟨0, by simp, Structs.contains_self hks⟩⟩
  | cons m rest ih =>
    -- one member, and then the rest of the chain inside it
    have hinner {ty : Ty} {i : Nat} (hpart : env.structs.Contains r.ty ty i)
        (hf : Codegen.follow env path { r with ty, offset := r.offset + i } rest = .ok r') :
        r'.anchor = r.anchor ∧ r'.const = r.const ∧ ∀ ks, env.structs.slots r.ty = .ok ks →
          ∃ d : Nat, r'.offset = r.offset + d ∧ env.structs.Contains r.ty r'.ty d := by
      obtain ⟨hanchor, hconst, hrest⟩ := ih hf
      obtain ⟨ks, hks⟩ := hpart.part
      obtain ⟨d, hd, hpart'⟩ := hrest ks hks
      refine ⟨hanchor, hconst, fun _ _ => ⟨i + d, ?_, hpart.trans hpart'⟩⟩
      simp only at hd
      omega
    cases hty : r.ty with
    | vector =>
      simp only [Codegen.follow, hty] at h
      split at h
      · rename_i i hi
        have hlt : i < 3 := by
          have := (List.findIdx?_eq_some_iff_getElem.mp hi).1
          simpa [Codegen.axes] using this
        simp only [except_bind_ok, Count.checked_ok] at h
        obtain ⟨_, ⟨-, rfl⟩, h⟩ := h
        rw [← hty]
        exact hinner (hty ▸ env.structs.contains_float hlt) h
      · cases h
    | struct name =>
      simp only [Codegen.follow, hty, except_bind_ok, Count.checked_ok] at h
      obtain ⟨offset, ho, _, ⟨-, rfl⟩, ty, ht, h⟩ := h
      rw [← hty]
      exact hinner (hty ▸ Structs.slots_member hl ho ht) h
    | _ => simp [Codegen.follow, hty] at h

/-- Members lie inside what they are members of, and are as constant as it is. -/
theorem follow_inside {path : Access} {members : List Name} {r r' : Resolved}
    (hl : Structs.Laid env.structs.layouts) (h : Codegen.follow env path r members = .ok r') :
    r'.anchor = r.anchor ∧ r'.const = r.const ∧ ∀ n, env.sizeOf r.ty = .ok n →
      ∃ m, env.sizeOf r'.ty = .ok m ∧ r.offset ≤ r'.offset ∧ r'.offset + m ≤ r.offset + n := by
  obtain ⟨hanchor, hconst, hpart⟩ := follow_contains hl h
  refine ⟨hanchor, hconst, fun n hn => ?_⟩
  obtain ⟨ks, hks, rfl⟩ := Structs.slots_of_sizeOf hl hn
  obtain ⟨d, hd, before, ks', after, hks', rfl, hpart⟩ := hpart ks hks
  cases hks.symm.trans hks'
  refine ⟨ks'.length, Structs.sizeOf_of_slots hl hpart, by omega, ?_⟩
  simp only [List.length_append]
  omega

end Finding

end NwScript
