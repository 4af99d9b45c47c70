-- Where variables stand on the stack. The blocks around a statement lie one on the other, each with
-- its variables below its temporaries, and the globals lie below them all or at a base of their
-- own. What a name resolves to is where the newest variable of that name stands.
import NwScript.Proofs.Success
import NwScript.Storage.Scope

namespace NwScript

/-! ## Named values -/

/-- Values by name. Of several with one name the first one counts. -/
abbrev Named (β : Type) := List (Name × β)

namespace Named

variable {α β : Type}

def get? (name : Name) : Named β → Option β
  | [] => none
  | (n, x) :: rest => if n = name then some x else get? name rest

def put? (name : Name) (y : β) : Named β → Option (Named β)
  | [] => none
  | (n, x) :: rest => if n = name then some ((n, y) :: rest)
    else (put? name y rest).map ((n, x) :: ·)

/-- The cells of variables on the stack. The newest one comes first in the list and is on top. -/
def cells (flat : β → List α) : Named β → List α
  | [] => []
  | (_, x) :: older => cells flat older ++ flat x

end Named

/-- The variables that a function sees: those of the blocks around, the innermost first, and the
globals. -/
structure Store (β : Type) where
  blocks : List (Named β) := []
  globals : Named β := []

namespace Store

variable {α β : Type}

def getIn (name : Name) : List (Named β) → Option β
  | [] => none
  | vs :: outer => match vs.get? name with
    | some x => some x
    | none => getIn name outer

def putIn (name : Name) (y : β) : List (Named β) → Option (List (Named β))
  | [] => none
  | vs :: outer => match vs.put? name y with
    | some ws => some (ws :: outer)
    | none => (putIn name y outer).map (vs :: ·)

/-- The newest variable of a name in the innermost block that has one, or else the global. -/
def get? (s : Store β) (name : Name) : Option β :=
  match getIn name s.blocks with
  | some x => some x
  | none => s.globals.get? name

def put? (s : Store β) (name : Name) (y : β) : Option (Store β) :=
  match putIn name y s.blocks with
  | some blocks => some { s with blocks }
  | none => (s.globals.put? name y).map fun globals => { s with globals }

/-- The cells of the blocks, where `temps` are the temporaries on top of each of them. -/
def frame (flat : β → List α) : List (Named β) → List (List α) → List α
  | vs :: outer, ts :: temps => frame flat outer temps ++ vs.cells flat ++ ts
  | _, _ => []

end Store

/-- More temporaries on top of the innermost block. -/
def pushTemps {α : Type} (cs : List α) : List (List α) → List (List α)
  | [] => []
  | ts :: outer => (ts ++ cs) :: outer

/-! ## Agreement with the scope -/

section Agreement

variable {α β : Type}

/-- Values for some variables, each of them right for the type of its variable. -/
inductive Agree (R : Ty → β → Prop) : List Variable → Named β → Prop
  | nil : Agree R [] []
  | cons {v : Variable} {x : β} {older : List Variable} {rest : Named β} :
      R v.ty x → Agree R older rest → Agree R (v :: older) ((v.name, x) :: rest)

/-- Values and temporaries for a chain of blocks. -/
inductive Matches (R : Ty → β → Prop) : List Block → List (Named β) → List (List α) → Prop
  | nil : Matches R [] [] []
  | cons {b : Block} {vs : Named β} {ts : List α} {outer : List Block} {vss : List (Named β)}
      {tss : List (List α)} :
      Agree R b.values vs → b.temps = ts.length → Matches R outer vss tss →
      Matches R (b :: outer) (vs :: vss) (ts :: tss)

theorem Matches.inv {R : Ty → β → Prop} {b : Block} {outer : List Block} {vss : List (Named β)}
    {tss : List (List α)} (h : Matches R (b :: outer) vss tss) :
    ∃ vs vss' ts tss', vss = vs :: vss' ∧ tss = ts :: tss' ∧ Agree R b.values vs ∧
      b.temps = ts.length ∧ Matches R outer vss' tss' := by
  cases h with
  | cons ha ht hm => exact ⟨_, _, _, _, rfl, rfl, ha, ht, hm⟩

theorem Matches.push {R : Ty → β → Prop} {b : Block} {outer : List Block} {vss : List (Named β)}
    {tss : List (List α)} {cs : List α} {k : Int} (h : Matches R (b :: outer) vss tss)
    (hk : k = cs.length) :
    Matches R ({ b with temps := b.temps + k } :: outer) vss (pushTemps cs tss) := by
  cases h with
  | cons ha ht hm => exact .cons ha (by simp [ht, hk]) hm

theorem Matches.frame_push {R : Ty → β → Prop} {flat : β → List α} {b : Block} {outer : List Block}
    {vss : List (Named β)} {tss : List (List α)} {cs : List α}
    (h : Matches R (b :: outer) vss tss) :
    Store.frame flat vss (pushTemps cs tss) = Store.frame flat vss tss ++ cs := by
  cases h with
  | cons => simp [Store.frame, pushTemps]

/-- The globals as variables, the newest first. -/
def Env.globalVariables (env : Env) : List Variable :=
  env.globals.reverse.map fun g => ⟨g.name, g.ty⟩

/-- Whatever right value is put in the place of a variable, it takes just the cells of the variable,
between those `before` and those `after` it. -/
def Replaces {γ : Type} (flat : β → List α) (R : Ty → β → Prop) (ty : Ty) (before after : List α)
    (put : β → Option γ) (good : γ → Prop) (cells : γ → List α) : Prop :=
  ∀ y, R ty y → ∃ c, put y = some c ∧ good c ∧ cells c = before ++ flat y ++ after

end Agreement

/-! ## Where a name points -/

section Pointing

variable {α β : Type} {flat : β → List α} {R : Ty → β → Prop} {env : Env} {name : Name}
  {r : Resolved}

theorem seek_cases {below : Int → Except Failure Resolved} {values : List Variable}
    {vs : Named β} {offset : Int} (hR : ∀ ty x, R ty x → env.sizeOf ty = .ok (flat x).length)
    (ha : Agree R values vs) (h : Scope.seek env name below values offset = .ok r) :
    (∃ x before after, vs.get? name = some x ∧ R r.ty x ∧
      vs.cells flat = before ++ flat x ++ after ∧
      r.offset = offset - ((flat x).length + after.length : Nat) ∧ r.anchor = .sp ∧
      r.const = false ∧
      Replaces flat R r.ty before after (vs.put? name ·) (Agree R values) (Named.cells flat)) ∨
    (vs.get? name = none ∧ (∀ y, vs.put? name y = none) ∧
      below (offset - (vs.cells flat).length) = .ok r) := by
  induction ha generalizing offset with
  | nil =>
    right
    exact ⟨rfl, fun _ => rfl, by simpa [Named.cells, Scope.seek] using h⟩
  | @cons v x older rest hx hrest ih =>
    simp only [Scope.seek, except_bind_ok, hR _ _ hx, Except.ok.injEq, exists_eq_left',
      Count.checked_ok] at h
    obtain ⟨_, ⟨-, rfl⟩, h⟩ := h
    by_cases hn : v.name = name
    · left
      simp only [hn, if_true, except_pure_ok] at h
      subst h
      refine ⟨x, rest.cells flat, [], by simp [Named.get?, hn], hx, by simp [Named.cells],
        by simp, rfl, rfl, ?_⟩
      intro y hy
      exact ⟨(v.name, y) :: rest, by simp [Named.put?, hn], .cons hy hrest, by simp [Named.cells]⟩
    · simp only [hn, if_false] at h
      rcases ih h with ⟨y, before, after, hg, hy, hc, ho, hanchor, hconst, hrep⟩ | ⟨hg, hp, hb⟩
      · left
        refine ⟨y, before, after ++ flat x, by simp [Named.get?, hn, hg], hy,
          by simp [Named.cells, hc], ?_, hanchor, hconst, ?_⟩
        · rw [ho]
          simp only [List.length_append]
          omega
        · intro z hz
          obtain ⟨ws, hput, hagree, hcells⟩ := hrep z hz
          exact ⟨(v.name, x) :: ws, by simp [Named.put?, hn, hput], .cons hx hagree,
            by simp [Named.cells, hcells]⟩
      · right
        refine ⟨by simp [Named.get?, hn, hg], fun y => by simp [Named.put?, hn, hp y], ?_⟩
        rw [← hb]
        congr 1
        simp only [Named.cells, List.length_append]
        omega

theorem resolveIn_cases {chain : List Block} {vss : List (Named β)} {tss : List (List α)}
    {offset : Int} (hR : ∀ ty x, R ty x → env.sizeOf ty = .ok (flat x).length)
    (hm : Matches R chain vss tss) (h : Scope.resolveIn env name chain offset = .ok r) :
    (∃ x before after, Store.getIn name vss = some x ∧ R r.ty x ∧
      Store.frame flat vss tss = before ++ flat x ++ after ∧
      r.offset = offset - ((flat x).length + after.length : Nat) ∧ r.anchor = .sp ∧
      r.const = false ∧
      Replaces flat R r.ty before after (Store.putIn name · vss) (Matches R chain · tss)
        (Store.frame flat · tss)) ∨
    (Store.getIn name vss = none ∧ (∀ y, Store.putIn name y vss = none) ∧
      env.resolveGlobal name (offset - (Store.frame flat vss tss).length) = .ok r) := by
  induction hm generalizing offset with
  | nil =>
    right
    exact ⟨rfl, fun _ => rfl, by simpa [Store.frame, Scope.resolveIn] using h⟩
  | @cons b vs ts outer vss tss ha ht hm ih =>
    simp only [Scope.resolveIn, except_bind_ok, Count.checked_ok] at h
    obtain ⟨_, ⟨-, rfl⟩, h⟩ := h
    rcases seek_cases hR ha h with
      ⟨x, before, after, hg, hx, hc, ho, hanchor, hconst, hrep⟩ | ⟨hg, hp, hb⟩
    · left
      refine ⟨x, Store.frame flat vss tss ++ before, after ++ ts, by simp [Store.getIn, hg], hx,
        by simp [Store.frame, hc], ?_, hanchor, hconst, ?_⟩
      · rw [ho, ht]
        simp only [List.length_append]
        omega
      · intro y hy
        obtain ⟨ws, hput, hagree, hcells⟩ := hrep y hy
        exact ⟨ws :: vss, by simp [Store.putIn, hput], .cons hagree ht hm,
          by simp [Store.frame, hcells]⟩
    · rcases ih hb with ⟨x, before, after, hg', hx, hc, ho, hanchor, hconst, hrep⟩ | ⟨hg', hp', hb'⟩
      · left
        refine ⟨x, before, after ++ vs.cells flat ++ ts, by simp [Store.getIn, hg, hg'], hx,
          by simp [Store.frame, hc], ?_, hanchor, hconst, ?_⟩
        · rw [ho, ht]
          simp only [List.length_append]
          omega
        · intro y hy
          obtain ⟨wss, hput, hmatch, hcells⟩ := hrep y hy
          exact ⟨vs :: wss, by simp [Store.putIn, hp y, hput], .cons ha ht hmatch,
            by simp [Store.frame, hcells]⟩
      · right
        refine ⟨by simp [Store.getIn, hg, hg'], fun y => by simp [Store.putIn, hp y, hp' y], ?_⟩
        rw [← hb', ht]
        congr 1
        simp only [Store.frame, List.length_append]
        omega

/-- Where a global is found: from the base of the globals once they are complete, else from the top
of the stack, which is `above` from them. -/
theorem seekGlobal_cases {gs : List Global} {vs : Named β} {above below : Int}
    (hR : ∀ ty x, R ty x → env.sizeOf ty = .ok (flat x).length)
    (ha : Agree R (gs.map fun g => ⟨g.name, g.ty⟩) vs)
    (h : env.seekGlobal name above gs below = .ok r) :
    ∃ x before after, vs.get? name = some x ∧ R r.ty x ∧
      vs.cells flat = before ++ flat x ++ after ∧
      r.offset = (if env.sealed then 0 else above) + below -
        ((flat x).length + after.length : Nat) ∧
      r.anchor = (if env.sealed then .bp else .sp) ∧
      Replaces flat R r.ty before after (vs.put? name ·)
        (Agree R (gs.map fun g => ⟨g.name, g.ty⟩)) (Named.cells flat) := by
  induction gs generalizing vs below with
  | nil => simp [Env.seekGlobal] at h
  | cons g older ih =>
    obtain ⟨⟩ | ⟨hx, hrest⟩ := ha
    rename_i x rest
    simp only [Env.seekGlobal, except_bind_ok, hR _ _ hx, Except.ok.injEq, exists_eq_left',
      Count.checked_ok] at h
    obtain ⟨_, ⟨-, rfl⟩, h⟩ := h
    by_cases hn : g.name = name
    · simp only [hn, if_true] at h
      have hr : r = ⟨g.ty, (if env.sealed then 0 else above) + (below - (flat x).length),
          if env.sealed then .bp else .sp, g.const⟩ := by
        split at h
        · rename_i hs
          simp only [except_pure_ok] at h
          simp [← h, hs]
        · rename_i hs
          simp only [except_bind_ok, Count.checked_ok, except_pure_ok] at h
          obtain ⟨_, ⟨-, rfl⟩, rfl⟩ := h
          simp [hs]
      subst hr
      refine ⟨x, rest.cells flat, [], by simp [Named.get?, hn], hx,
        by simp [Named.cells], ?_, rfl, ?_⟩
      · simp only [List.length_nil]
        omega
      · intro y hy
        exact ⟨(g.name, y) :: rest, by simp [Named.put?, hn], .cons hy hrest, by simp [Named.cells]⟩
    · simp only [hn, if_false] at h
      obtain ⟨y, before, after, hg, hy, hc, ho, hanchor, hrep⟩ := ih hrest h
      refine ⟨y, before, after ++ flat x, by simp [Named.get?, hn, hg], hy,
        by simp [Named.cells, hc], ?_, hanchor, ?_⟩
      · rw [ho]
        simp only [List.length_append]
        omega
      · intro z hz
        obtain ⟨ws, hput, hagree, hcells⟩ := hrep z hz
        exact ⟨(g.name, x) :: ws, by simp [Named.put?, hn, hput], .cons hx hagree,
          by simp [Named.cells, hcells]⟩

end Pointing

end NwScript
