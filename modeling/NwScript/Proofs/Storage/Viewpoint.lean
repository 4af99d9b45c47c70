-- A variable stands where it stands, from wherever it is looked for. Seen from a block, the slot of
-- a name is counted down from the top of the stack; counted up from the bottom of the frame it is
-- the same for every block that sees the variable, however many temporaries lie above it. Where
-- such a number is too large to be counted, there is none.
import NwScript.Proofs.Codegen.Steps
import NwScript.Proofs.Storage.Sized

namespace NwScript

/-! ## The layers of the stack -/

/-- One layer of the stack of a function: a variable, or the temporaries on top of a block. -/
inductive Layer where
  | variable (v : Variable)
  | temps (slots : Int)

namespace Layer

def size (env : Env) : Layer → Int
  | .variable v => env.extent v.ty
  | .temps slots => slots

/-- The slots of some layers together. -/
def total (env : Env) : List Layer → Int
  | [] => 0
  | p :: rest => p.size env + total env rest

@[simp] theorem total_append (env : Env) (ps qs : List Layer) :
    total env (ps ++ qs) = total env ps + total env qs := by
  induction ps with
  | nil => simp [total]
  | cons p rest ih =>
    simp only [List.cons_append, total, ih]
    omega

@[simp] theorem total_reverse (env : Env) (ps : List Layer) :
    total env ps.reverse = total env ps := by
  induction ps with
  | nil => rfl
  | cons p rest ih =>
    simp only [List.reverse_cons, total_append, total, ih]
    omega

theorem total_nonneg {env : Env} {ps : List Layer} (h : ∀ p ∈ ps, 0 ≤ p.size env) :
    0 ≤ total env ps := by
  induction ps with
  | nil => exact Int.le_refl 0
  | cons p rest ih =>
    have hp := h p List.mem_cons_self
    have hrest := ih fun q hq => h q (List.mem_cons_of_mem _ hq)
    simp only [total]
    omega

/-- A layer that lies above another one starts behind its end. -/
theorem total_above {env : Env} {below above below' above' : List Layer} {p q : Layer}
    (hsplit : below ++ p :: above = below' ++ q :: above') (hne : p ≠ q)
    (hlen : below.length ≤ below'.length) (hsize : ∀ x ∈ below', 0 ≤ x.size env) :
    total env below + p.size env ≤ total env below' := by
  rcases List.append_eq_append_iff.mp hsplit with ⟨mid, rfl, hmid⟩ | ⟨mid, rfl, hmid⟩
  · cases mid with
    | nil =>
      cases hmid
      exact absurd rfl hne
    | cons x mid =>
      cases hmid
      have hnonneg := @total_nonneg env mid fun x hx => hsize x (by simp [hx])
      simp only [total_append, total]
      omega
  · cases mid with
    | nil =>
      cases hmid
      exact absurd rfl hne
    | cons x mid =>
      simp only [List.length_append, List.length_cons] at hlen
      omega

end Layer

/-- Two stretches of slots have none in common. -/
def Apart (a n b m : Int) : Prop := a + n ≤ b ∨ b + m ≤ a

theorem Apart.symm {a n b m : Int} (h : Apart a n b m) : Apart b m a n := Or.symm h

/-- Different layers of one stack lie apart. -/
theorem Layer.apart {env : Env} {below above below' above' : List Layer} {p q : Layer}
    (hsplit : below ++ p :: above = below' ++ q :: above') (hne : p ≠ q)
    (hsize : ∀ x ∈ below ++ p :: above, 0 ≤ x.size env) :
    Apart (total env below) (p.size env) (total env below') (q.size env) := by
  have hsize' := hsize
  rw [hsplit] at hsize'
  rcases Nat.le_total below.length below'.length with hlen | hlen
  · exact .inl (total_above hsplit hne hlen fun x hx => hsize' x (List.mem_append_left _ hx))
  · exact .inr (total_above hsplit.symm hne.symm hlen
      fun x hx => hsize x (List.mem_append_left _ hx))

namespace Scope

/-- The stack of a chain of blocks, lowest first: for each block, from the outermost one inward, its
variables in the order in which they were pushed, and then its temporaries. -/
def stack : List Block → List Layer
  | [] => []
  | b :: outer => stack outer ++ (b.values.reverse.map .variable ++ [.temps b.temps])

theorem stack_append (inner outer : List Block) :
    stack (inner ++ outer) = stack outer ++ stack inner := by
  induction inner with
  | nil => simp [stack]
  | cons b inner ih => simp [stack, ih]

theorem stack_nonneg {env : Env} {chain : List Block} (h : ∀ b ∈ chain, 0 ≤ b.temps) :
    ∀ p ∈ stack chain, 0 ≤ p.size env := by
  induction chain with
  | nil => simp [stack]
  | cons b outer ih =>
    have hb := h b List.mem_cons_self
    have houter := ih fun c hc => h c (List.mem_cons_of_mem _ hc)
    intro p hp
    simp only [stack, List.mem_append, List.mem_map, List.mem_singleton] at hp
    rcases hp with hp | ⟨v, _, rfl⟩ | rfl
    · exact houter p hp
    · simp [Layer.size]
    · exact hb

/-! ## Heights and offsets -/

section Finding

variable {env : Env} {name : Name}

theorem extents_total {vs : List Variable} :
    (env.extents vs : Int) = Layer.total env (vs.map .variable) := by
  induction vs with
  | nil => rfl
  | cons v rest ih =>
    simp only [Env.extents, List.map_cons, List.foldr_cons, Layer.total, Layer.size] at ih ⊢
    omega

theorem total_variables_nonneg (vs : List Variable) :
    0 ≤ Layer.total env (vs.map .variable) := by
  apply Layer.total_nonneg
  simp [Layer.size]

theorem depth_total {chain : List Block} : depth env chain = Layer.total env (stack chain) := by
  induction chain with
  | nil => rfl
  | cons b outer ih =>
    simp only [depth, Block.extent, stack, Layer.total_append, List.map_reverse,
      Layer.total_reverse, Layer.total, Layer.size, extents_total, ih]
    omega

/-- The height of a chain of blocks is what its layers take, if that can be counted. -/
theorem height_stack {chain : List Block} (h : ∀ b ∈ chain, ∀ v ∈ b.values, env.Sized v.ty)
    (htemps : ∀ b ∈ chain, 0 ≤ b.temps) :
    height env chain =
      Count.within [Layer.total env (stack chain)] (Layer.total env (stack chain)) := by
  rw [height_within h, ← depth_total]
  exact Count.within_congr (counted_fits htemps)

/-- Variables of other names are passed over, and counted. -/
theorem seek_append {below : Int → Except Failure Resolved} {newer rest : List Variable}
    {offset : Int} (hoffset : Count.Fits offset) (hsized : ∀ v ∈ newer, env.Sized v.ty)
    (hname : ∀ v ∈ newer, v.name ≠ name) :
    seek env name below (newer ++ rest) offset =
      (Count.checked (offset - Layer.total env (newer.map .variable)) >>=
        seek env name below rest) := by
  induction newer generalizing offset with
  | nil =>
    rw [List.map_nil, Layer.total, Int.sub_zero, Count.checked_of_fits hoffset]
    rfl
  | cons v newer ih =>
    have hv := Env.sizeOf_extent (hsized v List.mem_cons_self)
    have hne := hname v List.mem_cons_self
    simp only [List.cons_append, seek, hv, hne, if_false]
    exact Count.checked_down hoffset (by simp) (total_variables_nonneg newer) fun hfits =>
      ih hfits (fun v hv => hsized v (List.mem_cons_of_mem _ hv))
        fun v hv => hname v (List.mem_cons_of_mem _ hv)

theorem seek_head {below : Int → Except Failure Resolved} {v : Variable}
    {older : List Variable} {offset : Int} (hsized : env.Sized v.ty) (hname : v.name = name) :
    seek env name below (v :: older) offset =
      (Count.checked (offset - env.extent v.ty) >>= fun o => .ok ⟨v.ty, o, .sp, false⟩) := by
  simp only [seek, Env.sizeOf_extent hsized, hname, if_true]
  rfl

/-- Blocks without the name are passed over, with all that is on their stack. -/
theorem resolveIn_append {inner outer : List Block} {offset : Int} (hoffset : Count.Fits offset)
    (hsized : ∀ b ∈ inner, ∀ v ∈ b.values, env.Sized v.ty) (htemps : ∀ b ∈ inner, 0 ≤ b.temps)
    (hname : ∀ b ∈ inner, ∀ v ∈ b.values, v.name ≠ name) :
    resolveIn env name (inner ++ outer) offset =
      (Count.checked (offset - Layer.total env (stack inner)) >>= resolveIn env name outer) := by
  induction inner generalizing offset with
  | nil =>
    rw [stack, Layer.total, Int.sub_zero, Count.checked_of_fits hoffset]
    rfl
  | cons b inner ih =>
    obtain ⟨hb, htemps⟩ := List.forall_mem_cons.mp htemps
    have hnonneg := Layer.total_nonneg (@stack_nonneg env inner htemps)
    have hseek {o : Int} (ho : Count.Fits o) :
        seek env name (resolveIn env name (inner ++ outer)) b.values o =
          (Count.checked (o - (Layer.total env (b.values.map .variable) +
            Layer.total env (stack inner))) >>= resolveIn env name outer) := by
      have hvalues := @seek_append env name (resolveIn env name (inner ++ outer)) b.values [] o ho
        (hsized b List.mem_cons_self) (hname b List.mem_cons_self)
      rw [List.append_nil] at hvalues
      rw [hvalues]
      exact Count.checked_down ho (total_variables_nonneg b.values) hnonneg fun hfits => ih hfits
        (fun c hc => hsized c (List.mem_cons_of_mem _ hc)) htemps
        fun c hc => hname c (List.mem_cons_of_mem _ hc)
    have hvalues := @total_variables_nonneg env b.values
    rw [List.cons_append, resolveIn]
    refine (Count.checked_down hoffset hb (by omega) fun hfits => hseek hfits).trans ?_
    congr 2
    simp only [stack, List.map_reverse, Layer.total_append, Layer.total_reverse, Layer.total,
      Layer.size]
    omega

end Finding

/-! ## What a name leads to -/

/-- Some block has a variable of the name. -/
def Has (s : Scope) (name : Name) : Prop := ∃ b ∈ s.chain, ∃ v ∈ b.values, v.name = name

/-- The newest variable of a name in the innermost block that has one, and what lies below it. -/
def Sees (s : Scope) (name : Name) (v : Variable) (below : List Layer) : Prop :=
  ∃ inner b outer newer older, s.chain = inner ++ b :: outer ∧ b.values = newer ++ v :: older ∧
    v.name = name ∧ (∀ c ∈ inner, ∀ w ∈ c.values, w.name ≠ name) ∧ (∀ w ∈ newer, w.name ≠ name) ∧
    below = stack outer ++ older.reverse.map .variable

/-- All slots of the stack of a function, be they countable or not. -/
def slots (s : Scope) (env : Env) : Int := Layer.total env (stack s.chain)

/-- From here, a name leads to slots that start at a base, counted from the bottom of the frame: the
distance to the top of the stack is what the base lacks to all slots. It is given unless it does not
fit. -/
def LeadsTo (s : Scope) (env : Env) (name : Name) (ty : Ty) (base : Int) : Prop :=
  s.resolve env name =
    Count.within [base - s.slots env] ⟨ty, base - s.slots env, .sp, false⟩

section Sees

variable {env : Env} {s deeper : Scope} {name : Name} {v : Variable} {below : List Layer}
  {inner : List Block}

theorem exists_sees (h : s.Has name) : ∃ v below, s.Sees name v below := by
  unfold Sees
  obtain ⟨b, hb, v, hv, hname⟩ := h
  generalize s.chain = chain at hb
  induction chain with
  | nil => cases hb
  | cons c outer ih =>
    by_cases hc : ∃ w ∈ c.values, w.name = name
    · -- the first one in the block is the newest
      have hsome : (c.values.find? (·.name == name)).isSome := by
        rw [List.find?_isSome]
        simpa using hc
      obtain ⟨w, hw⟩ := Option.isSome_iff_exists.mp hsome
      obtain ⟨hwname, newer, older, hsplit, hnewer⟩ := List.find?_eq_some_iff_append.mp hw
      have hhidden : ∀ w ∈ newer, w.name ≠ name := by simpa using hnewer
      exact ⟨w, _, [], c, outer, newer, older, rfl, hsplit, by simpa using hwname, by simp, hhidden,
        rfl⟩
    · rcases List.mem_cons.mp hb with rfl | hb
      · exact absurd ⟨v, hv, hname⟩ hc
      · obtain ⟨w, below, inner, d, outer', newer, older, rfl, hsplit, hwname, hinner, hrest⟩ :=
          ih hb
        refine ⟨w, below, c :: inner, d, outer', newer, older, rfl, hsplit, hwname, ?_, hrest⟩
        rw [List.forall_mem_cons]
        exact ⟨fun w hw hwname => hc ⟨w, hw, hwname⟩, hinner⟩

/-- What is seen is a layer of the stack. -/
theorem Sees.layer (h : s.Sees name v below) :
    v.name = name ∧ ∃ above, stack s.chain = below ++ .variable v :: above := by
  obtain ⟨inner, b, outer, newer, older, hchain, hsplit, hname, _, _, rfl⟩ := h
  refine ⟨hname, newer.reverse.map .variable ++ [.temps b.temps] ++ stack inner, ?_⟩
  rw [hchain, stack_append, stack, hsplit]
  simp

/-- The slots of a variable start where the layers below it end. -/
theorem Sees.leads (h : s.Sees name v below) (hsized : s.Sized env)
    (htemps : ∀ b ∈ s.chain, 0 ≤ b.temps) :
    s.LeadsTo env name v.ty (Layer.total env below) := by
  obtain ⟨inner, b, outer, newer, older, hchain, hsplit, hname, hinner, hnewer, rfl⟩ := h
  unfold Sized at hsized
  rw [hchain] at hsized htemps
  have hb : ∀ w ∈ newer ++ v :: older, env.Sized w.ty := by
    rw [← hsplit]
    exact hsized b (by simp)
  have htemps' : ∀ c ∈ inner, 0 ≤ c.temps := fun c hc => htemps c (List.mem_append_left _ hc)
  have hnonneg := Layer.total_nonneg (@stack_nonneg env inner htemps')
  have hpasses := @resolveIn_append env name inner (b :: outer) 0 Count.fits_zero
    (fun c hc => hsized c (List.mem_append_left _ hc)) htemps' hinner
  -- in the block itself: its temporaries, its newer variables, and the variable
  have hseek {o : Int} (ho : Count.Fits o) :
      seek env name (resolveIn env name outer) b.values o =
        (Count.checked (o - (Layer.total env (newer.map .variable) + env.extent v.ty)) >>=
          fun o => .ok ⟨v.ty, o, .sp, false⟩) := by
    rw [hsplit, seek_append ho (fun w hw => hb w (List.mem_append_left _ hw)) hnewer]
    exact Count.checked_down ho (total_variables_nonneg newer) (by simp)
      fun _ => seek_head (hb v (by simp)) hname
  have hblock {o : Int} (ho : Count.Fits o) :
      resolveIn env name (b :: outer) o =
        (Count.checked (o - (b.temps + (Layer.total env (newer.map .variable) +
          env.extent v.ty))) >>= fun o => .ok ⟨v.ty, o, .sp, false⟩) := by
    have hnewer := @total_variables_nonneg env newer
    rw [resolveIn]
    exact Count.checked_down ho (htemps b (by simp)) (by omega) fun hfits => hseek hfits
  have hvalues := @total_variables_nonneg env newer
  have hown := htemps b (by simp)
  unfold LeadsTo
  rw [resolve, resolveFrom, hchain, hpasses]
  refine (Count.checked_down Count.fits_zero hnonneg (by omega) fun hfits => hblock hfits).trans ?_
  have hbase : Layer.total env (stack outer ++ older.reverse.map .variable) - s.slots env =
      0 - (Layer.total env (stack inner) + (b.temps + (Layer.total env (newer.map .variable) +
        env.extent v.ty))) := by
    rw [slots, hchain, stack_append, stack, hsplit]
    simp only [List.reverse_append, List.reverse_cons, List.map_append, List.map_cons,
      List.map_nil, List.map_reverse, Layer.total_append, Layer.total_reverse, Layer.total,
      Layer.size]
    omega
  rw [hbase, Count.checked_within]
  exact Count.within_bind (l := []) fun _ => rfl

/-- More temporaries change nothing about what is seen, and neither does a block that is further in
and has no variable of the name. -/
theorem Sees.further {k : Int} (h : s.Sees name v below)
    (hchain : deeper.chain = inner ++ (s.grown k).chain)
    (hinner : ∀ c ∈ inner, ∀ w ∈ c.values, w.name ≠ name) : deeper.Sees name v below := by
  obtain ⟨inner', b, outer, newer, older, hs, hsplit, hname, hinner', hnewer, hbelow⟩ := h
  unfold Scope.chain grown at hchain
  cases inner' with
  | nil =>
    -- the variable is in the block that has the new temporaries
    obtain ⟨rfl, rfl⟩ := List.cons.inj hs
    exact ⟨inner, _, s.outer, newer, older, hchain, hsplit, hname, hinner, hnewer, hbelow⟩
  | cons c rest =>
    obtain ⟨rfl, hrest⟩ := List.cons.inj hs
    refine ⟨inner ++ { s.block with temps := s.block.temps + k } :: rest, b, outer, newer, older,
      ?_, hsplit, hname, ?_, hnewer, hbelow⟩
    · rw [Scope.chain, hchain, hrest]
      simp
    · intro c hc
      rcases List.mem_append.mp hc with hc | hc
      · exact hinner c hc
      · rcases List.mem_cons.mp hc with rfl | hc
        · exact hinner' s.block List.mem_cons_self
        · exact hinner' c (List.mem_cons_of_mem _ hc)

/-- A name that no block has is looked for among the globals, below everything. -/
theorem resolveFrom_global {offset : Int} (hoffset : Count.Fits offset) (hsized : s.Sized env)
    (htemps : ∀ b ∈ s.chain, 0 ≤ b.temps) (h : ¬s.Has name) :
    s.resolveFrom env name offset =
      (Count.checked (offset - s.slots env) >>= env.resolveGlobal name) := by
  have hpasses := @resolveIn_append env name s.chain [] offset hoffset hsized htemps
    fun b hb v hv hname => h ⟨b, hb, v, hv, hname⟩
  rw [List.append_nil] at hpasses
  exact hpasses

end Sees

end Scope

/-! ## Different names -/

/-- The first slot of what was found, counted from the bottom of the frame, above which there are
`full` slots. Globals that have a base of their own count as if they ended at that bottom. -/
def Resolved.start (r : Resolved) (full : Int) : Int := r.anchor.origin full 0 + r.offset

/-- The name leads to a variable of a block. -/
def Scope.FindsVariable (s : Scope) (env : Env) (name : Name) (r : Resolved) : Prop :=
  ∃ v below above, v.name = name ∧ Scope.stack s.chain = below ++ .variable v :: above ∧
    r.ty = v.ty ∧ r.start (s.slots env) = Layer.total env below

/-- The name leads to a global, which lies below the frame and below the globals that are newer. -/
def Scope.FindsGlobal (s : Scope) (env : Env) (name : Name) (r : Resolved) : Prop :=
  ∃ newer g older, ∃ n : Nat, g.name = name ∧ env.globals.reverse = newer ++ g :: older ∧
    r.ty = g.ty ∧ env.sizeOfAll (newer.map (·.ty)) = .ok n ∧
    env.sizeOf g.ty = .ok (env.extent g.ty) ∧
    r.start (s.slots env) + env.extent g.ty = -n

section Names

variable {env : Env} {s : Scope} {x y : Name} {r r' : Resolved}

theorem finds_of_resolve (hsized : s.Sized env) (htemps : ∀ b ∈ s.chain, 0 ≤ b.temps)
    (h : s.resolve env x = .ok r) : s.FindsVariable env x r ∨ s.FindsGlobal env x r := by
  by_cases hx : s.Has x
  · left
    obtain ⟨v, below, hv⟩ := Scope.exists_sees hx
    obtain ⟨hname, above, hstack⟩ := hv.layer
    have hleads := hv.leads hsized htemps
    rw [Scope.LeadsTo, h, eq_comm, Count.within_ok] at hleads
    obtain ⟨-, rfl⟩ := hleads
    refine ⟨v, below, above, hname, hstack, rfl, ?_⟩
    simp only [Resolved.start, Anchor.origin]
    omega
  · right
    rw [Scope.resolve, Scope.resolveFrom_global Count.fits_zero hsized htemps hx, except_bind_ok]
      at h
    simp only [Count.checked_ok] at h
    obtain ⟨_, ⟨-, rfl⟩, h⟩ := h
    obtain ⟨newer, g, older, n, size, hsplit, hname, hn, hsize, rfl⟩ := seekGlobal_found h
    have hextent : env.extent g.ty = size := by
      rw [Env.extent, hsize]
      rfl
    refine ⟨newer, g, older, n, hname, hsplit, ?_, hn, by rw [hsize, hextent], ?_⟩
    · unfold Env.foundAt
      split <;> rfl
    · unfold Resolved.start Env.foundAt
      by_cases hsealed : env.sealed
      · rw [if_pos hsealed]
        simp only [Anchor.origin]
        omega
      · rw [if_neg hsealed]
        simp only [Anchor.origin]
        omega

/-- Variables start in the frame, and globals end below it. -/
theorem global_apart_variable (htemps : ∀ b ∈ s.chain, 0 ≤ b.temps) (hr : s.FindsGlobal env x r)
    {below above : List Layer} {p : Layer} (hstack : Scope.stack s.chain = below ++ p :: above) :
    Apart (r.start (s.slots env)) (env.extent r.ty)
      (Layer.total env below) (p.size env) := by
  obtain ⟨newer, g, older, n, _, _, hty, _, _, hend⟩ := hr
  have hlayers := @Scope.stack_nonneg env s.chain htemps
  have hbelow := Layer.total_nonneg fun p hp => hlayers p (hstack ▸ List.mem_append_left _ hp)
  left
  rw [hty]
  omega

theorem variable_apart_layer (htemps : ∀ b ∈ s.chain, 0 ≤ b.temps) (hr : s.FindsVariable env x r)
    {below above : List Layer} {p : Layer} (hstack : Scope.stack s.chain = below ++ p :: above)
    (hp : ∀ v : Variable, v.name = x → .variable v ≠ p) :
    Apart (r.start (s.slots env)) (env.extent r.ty)
      (Layer.total env below) (p.size env) := by
  obtain ⟨v, below', above', hname, hstack', hty, hstart⟩ := hr
  have hlayers := @Scope.stack_nonneg env s.chain htemps
  rw [hstart, hty]
  rw [hstack'] at hlayers
  exact Layer.apart (hstack'.symm.trans hstack) (hp v hname) hlayers

theorem globals_apart (hne : x ≠ y) (hr : s.FindsGlobal env x r) (hr' : s.FindsGlobal env y r') :
    Apart (r.start (s.slots env)) (env.extent r.ty)
      (r'.start (s.slots env)) (env.extent r'.ty) := by
  obtain ⟨newer, g, older, n, hname, hsplit, hty, hn, hsize, hend⟩ := hr
  obtain ⟨newer', g', older', n', hname', hsplit', hty', hn', hsize', hend'⟩ := hr'
  have hg : g ≠ g' := by
    rintro rfl
    exact hne (hname.symm.trans hname')
  rw [hty, hty']
  rcases Nat.le_total newer.length newer'.length with hlen | hlen
  · have hbelow := spans_above (hsplit.symm.trans hsplit') hg hlen hn hsize hn'
    right
    omega
  · have hbelow := spans_above (hsplit'.symm.trans hsplit) hg.symm hlen hn' hsize' hn
    left
    omega

/-- What two different names lead to lies apart. -/
theorem resolved_apart (hsized : s.Sized env) (htemps : ∀ b ∈ s.chain, 0 ≤ b.temps) (hne : x ≠ y)
    (hr : s.resolve env x = .ok r) (hr' : s.resolve env y = .ok r') :
    Apart (r.start (s.slots env)) (env.extent r.ty)
      (r'.start (s.slots env)) (env.extent r'.ty) := by
  rcases finds_of_resolve hsized htemps hr with hx | hx
  · rcases finds_of_resolve hsized htemps hr' with
      ⟨w, below, above, hname, hstack, hty, hstart⟩ | hy
    · rw [hstart, hty]
      apply variable_apart_layer htemps hx hstack
      rintro v rfl ⟨⟩
      exact hne hname
    · obtain ⟨v, below, above, _, hstack, hty, hstart⟩ := hx
      rw [hstart, hty]
      exact (global_apart_variable htemps hy hstack).symm
  · rcases finds_of_resolve hsized htemps hr' with ⟨w, below, above, _, hstack, hty, hstart⟩ | hy
    · rw [hstart, hty]
      exact global_apart_variable htemps hx hstack
    · exact globals_apart hne hx hy

/-- What a name leads to lies apart from the temporaries of every block. -/
theorem resolved_apart_temps {low high : List Layer} {k : Int} (hsized : s.Sized env)
    (htemps : ∀ b ∈ s.chain, 0 ≤ b.temps) (hr : s.resolve env x = .ok r)
    (hstack : Scope.stack s.chain = low ++ .temps k :: high) :
    Apart (r.start (s.slots env)) (env.extent r.ty)
      (Layer.total env low) k := by
  rcases finds_of_resolve hsized htemps hr with hx | hx
  · apply variable_apart_layer htemps hx hstack
    rintro v _ ⟨⟩
  · exact global_apart_variable htemps hx hstack

end Names

/-- For every scope in which all types are known, with the blocks around it and all that is pending
on their stacks: a name leads to the newest variable of that name in the innermost block that has
one, and its slots start where everything that was stacked before it ends. That stays so when
temporaries are pushed, and from every block further in that does not hide the name. Different names
have no slot in common, and none with a temporary. A name that is in no block is looked for among
the globals, at the bottom of all that is stacked. The height of the stack and the distances to its
top are given whenever they are numbers of 32 bits, and only then. -/
theorem slots_seen_alike {env : Env} {s : Scope} (hsized : s.Sized env)
    (htemps : ∀ b ∈ s.chain, 0 ≤ b.temps) :
    s.fullSize env = Count.within [s.slots env] (s.slots env) ∧
    (∀ name, s.Has name → ∃ v below, s.Sees name v below) ∧
    (∀ name v below, s.Sees name v below →
      s.LeadsTo env name v.ty (Layer.total env below) ∧
      ∀ (k : Int) (deeper : Scope) (inner : List Block),
        deeper.chain = inner ++ (s.grown k).chain → deeper.Sized env →
        (∀ b ∈ deeper.chain, 0 ≤ b.temps) → (∀ c ∈ inner, ∀ w ∈ c.values, w.name ≠ name) →
        deeper.LeadsTo env name v.ty (Layer.total env below)) ∧
    (∀ x y r r', x ≠ y → s.resolve env x = .ok r → s.resolve env y = .ok r' →
      Apart (r.start (s.slots env)) (env.extent r.ty) (r'.start (s.slots env))
        (env.extent r'.ty)) ∧
    (∀ x r low k high, s.resolve env x = .ok r →
      Scope.stack s.chain = low ++ .temps k :: high →
      Apart (r.start (s.slots env)) (env.extent r.ty) (Layer.total env low) k) ∧
    ∀ name offset, Count.Fits offset → ¬s.Has name →
      s.resolveFrom env name offset =
        (Count.checked (offset - s.slots env) >>= env.resolveGlobal name) := by
  refine ⟨Scope.height_stack hsized htemps, fun name => Scope.exists_sees, ?_,
    fun x y r r' hne hr hr' => resolved_apart hsized htemps hne hr hr',
    fun x r low k high hr hstack => resolved_apart_temps hsized htemps hr hstack,
    fun name offset hoffset => Scope.resolveFrom_global hoffset hsized htemps⟩
  intro name v below hv
  refine ⟨hv.leads hsized htemps, ?_⟩
  intro k deeper inner hchain hdeeper htemps' hinner
  exact (hv.further hchain hinner).leads hdeeper htemps'

namespace Nest

/-- The block of a function, with a value pending. -/
def body : Block := { values := [⟨"place", .vector⟩, ⟨"n", .int⟩], temps := 1 }

/-- A block inside that hides a variable of the function. -/
def loop : Block := { values := [⟨"label", .string⟩, ⟨"n", .float⟩], temps := 2 }

def scope : Scope := ⟨loop, [body]⟩

theorem sized (s : Scope) (h : ∀ b ∈ s.chain, ∀ v ∈ b.values, v.ty.structName? = none) :
    s.Sized {} := by
  intro b hb v hv
  exact Env.sized_builtin (h b hb v hv)

end Nest

open Nest in
/-- The place starts behind the number, in slot 1, as the function sees it and as the loop does. The
number of the loop starts behind the function, in slot 5, and the loop finds it four slots down. -/
theorem nest_seen_alike :
    scope.Sized {} ∧ (∀ b ∈ scope.chain, 0 ≤ b.temps) ∧
      (Scope.mk body []).LeadsTo {} "place" .vector 1 ∧ scope.LeadsTo {} "place" .vector 1 ∧
      scope.LeadsTo {} "n" .float 5 ∧ scope.fullSize {} = .ok 9 ∧
      scope.resolve {} "n" = .ok ⟨.float, -4, .sp, false⟩ := by
  have hbody := sized ⟨body, []⟩ (by decide)
  have hscope := sized scope (by decide)
  obtain ⟨_, _, hfunction, _⟩ := slots_seen_alike hbody (by decide)
  obtain ⟨hplace, hdeeper⟩ := hfunction "place" ⟨"place", .vector⟩ [.variable ⟨"n", .int⟩]
    ⟨[], body, [], [], [⟨"n", .int⟩], rfl, rfl, rfl, by simp, by simp, rfl⟩
  obtain ⟨hfull, _, hloop, _⟩ := slots_seen_alike hscope (by decide)
  obtain ⟨hn, _⟩ := hloop "n" ⟨"n", .float⟩ (Scope.stack [body])
    ⟨[], loop, [body], [⟨"label", .string⟩], [], rfl, rfl, rfl, by simp, by decide, rfl⟩
  exact ⟨hscope, by decide, hplace, hdeeper 0 scope [loop] rfl hscope (by decide) (by decide), hn,
    hfull, hn⟩

end NwScript
