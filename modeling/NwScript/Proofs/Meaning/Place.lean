-- Where the variables of a function stand while it runs. What the code generator resolves a name
-- or a chain of members to is the stretch of the stack that holds it, and storing there changes
-- that variable and nothing else.
import NwScript.Proofs.Meaning.Datum
import NwScript.Proofs.Codegen.Steps

namespace NwScript

/-! ## Reading and writing variables -/

namespace Store

/-- The value of a variable or of a member of it. -/
def read? (σ : Store Datum) (path : Access) : Option Datum :=
  (σ.get? path.head).bind (Datum.get? path.members)

/-- The store with another value for a variable or a member of it. -/
def write? (σ : Store Datum) (path : Access) (y : Datum) : Option (Store Datum) := do
  let d ← σ.get? path.head
  let d ← Datum.put? path.members y d
  σ.put? path.head d

/-- The stack of a function: the globals on top of `low`, then `mid` with everything of its callers,
and then its own blocks with their temporaries. -/
def stack (low mid : List Cell) (σ : Store Datum) (temps : List (List Cell)) : List Cell :=
  low ++ σ.globals.cells Datum.cells ++ mid ++ frame Datum.cells σ.blocks temps

end Store

/-- The stack holds values for all variables of the scope, and the globals end at the base. As long
as they are incomplete, they are found from the top of the stack and nothing may come between. -/
structure Held (env : Env) (s : Scope) (low mid : List Cell) (base : Nat)
    (temps : List (List Cell)) (σ : Store Datum) : Prop where
  blocks : Matches (Datum.Fits env.structs) s.chain σ.blocks temps
  globals : Agree (Datum.Fits env.structs) env.globalVariables σ.globals
  base_eq : base = (low ++ σ.globals.cells Datum.cells).length
  reach : env.sealed = true ∨ env.globals = [] ∨ mid = []

section Places

variable {env : Env} {s : Scope} {low mid : List Cell} {base : Nat} {temps : List (List Cell)}
  {σ τ : Store Datum} {cs : List Cell}

/-! ## Temporaries -/

theorem Held.push (h : Held env s low mid base temps σ) {k : Int} (hk : k = cs.length) :
    Held env (s.grown k) low mid base (pushTemps cs temps) σ :=
  ⟨h.blocks.push hk, h.globals, h.base_eq, h.reach⟩

theorem Held.pop {k : Int} (hk : k = cs.length) (hne : temps ≠ [])
    (h : Held env (s.grown k) low mid base (pushTemps cs temps) σ) :
    Held env s low mid base temps σ := by
  refine ⟨?_, h.globals, h.base_eq, h.reach⟩
  obtain ⟨us, outer, rfl⟩ := List.exists_cons_of_ne_nil hne
  obtain ⟨vs, vss, ts, tss, hvs, hts, ha, ht, hm⟩ := h.blocks.inv
  cases hts
  rw [hvs]
  refine .cons ha ?_ hm
  simp only [Scope.grown, List.length_append] at ht
  omega

theorem Held.temps_ne (h : Held env s low mid base temps σ) : temps ≠ [] := by
  obtain ⟨_, _, _, _, _, rfl, _⟩ := h.blocks.inv
  simp

theorem Held.blocks_ne (h : Held env s low mid base temps σ) : σ.blocks ≠ [] := by
  obtain ⟨_, _, _, _, hvs, _⟩ := h.blocks.inv
  simp [hvs]

theorem stack_pushTemps (hb : σ.blocks ≠ []) (hne : temps ≠ []) :
    σ.stack low mid (pushTemps cs temps) = σ.stack low mid temps ++ cs := by
  obtain ⟨vs, outer, hvs⟩ := List.exists_cons_of_ne_nil hb
  obtain ⟨ts, rest, rfl⟩ := List.exists_cons_of_ne_nil hne
  simp [Store.stack, Store.frame, pushTemps, hvs]

theorem Held.stack_push (h : Held env s low mid base temps σ) :
    σ.stack low mid (pushTemps cs temps) = σ.stack low mid temps ++ cs :=
  stack_pushTemps h.blocks_ne h.temps_ne

/-! ## Variables -/

/-- A variable lies where it was resolved to. -/
theorem variable_lies {name : Name} {r : Resolved} (hs : Structs.Laid env.structs.layouts)
    (h : Held env s low mid base temps σ) (hr : s.resolve env name = .ok r) :
    ∃ d before after, σ.get? name = some d ∧ Datum.Fits env.structs r.ty d ∧
      σ.stack low mid temps = before ++ d.cells ++ after ∧
      r.anchor.position base (σ.stack low mid temps) + r.offset = before.length ∧
      Replaces Datum.cells (Datum.Fits env.structs) r.ty before after (σ.put? name ·)
        (Held env s low mid base temps) (Store.stack low mid · temps) := by
  have hsize : ∀ ty x, Datum.Fits env.structs ty x → env.sizeOf ty = .ok x.cells.length :=
    fun ty x hx => hx.size hs
  rcases resolveIn_cases hsize h.blocks hr with
    ⟨d, before, after, hget, hd, hcells, hoffset, hanchor, _, hput⟩ | ⟨hget, hput, hglobal⟩
  · refine ⟨d, low ++ σ.globals.cells Datum.cells ++ mid ++ before, after,
      by simp [Store.get?, hget], hd, by simp [Store.stack, hcells], ?_, ?_⟩
    · simp only [hanchor, Anchor.position, hoffset, Store.stack, hcells, List.length_append]
      omega
    · intro y hy
      obtain ⟨blocks, hblocks, hmatch, hcells'⟩ := hput y hy
      exact ⟨{ σ with blocks }, by simp [Store.put?, hblocks],
        ⟨hmatch, h.globals, h.base_eq, h.reach⟩, by simp [Store.stack, hcells']⟩
  · obtain ⟨d, before, after, hget', hd, hcells, hoffset, hanchor, hput'⟩ :=
      seekGlobal_cases hsize h.globals hglobal
    refine ⟨d, low ++ before, after ++ mid ++ Store.frame Datum.cells σ.blocks temps,
      by simp [Store.get?, hget, hget'], hd, by simp [Store.stack, hcells], ?_, ?_⟩
    · rw [hoffset, hanchor]
      rcases h.reach with hsealed | hnone | hmid
      · simp only [hsealed, if_true, Anchor.position, h.base_eq, hcells, List.length_append]
        omega
      · simp [Env.resolveGlobal, hnone, Env.seekGlobal] at hglobal
      · by_cases hsealed : env.sealed = true
        · simp only [hsealed, if_true, Anchor.position, h.base_eq, hcells, List.length_append]
          omega
        · simp only [hsealed, if_false, Anchor.position, Store.stack, hmid, hcells,
            List.length_append, List.length_nil, Bool.false_eq_true]
          omega
    · intro y hy
      obtain ⟨globals, hglobals, hagree, hcells'⟩ := hput' y hy
      have hlen : y.cells.length = d.cells.length := by
        have := hsize _ _ hy
        rw [hsize _ _ hd] at this
        exact (Except.ok.inj this).symm
      refine ⟨{ σ with globals }, by simp [Store.put?, hput y, hglobals],
        ⟨h.blocks, hagree, ?_, h.reach⟩, by simp [Store.stack, hcells']⟩
      rw [h.base_eq, hcells, hcells']
      simp only [List.length_append]
      omega

/-- A variable or a member of it lies where it was resolved to. -/
theorem access_lies {path : Access} {r : Resolved} (hs : Structs.Laid env.structs.layouts)
    (h : Held env s low mid base temps σ) (hr : Codegen.resolveAccess env s path = .ok r) :
    ∃ d before after, σ.read? path = some d ∧ Datum.Fits env.structs r.ty d ∧
      σ.stack low mid temps = before ++ d.cells ++ after ∧
      r.anchor.position base (σ.stack low mid temps) + r.offset = before.length ∧
      Replaces Datum.cells (Datum.Fits env.structs) r.ty before after (σ.write? path ·)
        (Held env s low mid base temps) (Store.stack low mid · temps) := by
  simp only [Codegen.resolveAccess, except_bind_ok] at hr
  obtain ⟨r₀, hr₀, hf⟩ := hr
  obtain ⟨d₀, before, after, hget, hd₀, hstack, hoffset, hput⟩ := variable_lies hs h hr₀
  obtain ⟨d, before', after', hget', hd, hcells, hoffset', hanchor, hput'⟩ :=
    Datum.path_lies hs hf hd₀
  refine ⟨d, before ++ before', after' ++ after, by simp [Store.read?, hget, hget'], hd,
    by simp [hstack, hcells], ?_, ?_⟩
  · rw [hanchor, hoffset', ← Int.add_assoc, hoffset]
    simp
  · intro y hy
    obtain ⟨d₁, hd₁, hfit, hcells₁⟩ := hput' y hy
    obtain ⟨τ, hτ, hheld, hstack'⟩ := hput d₁ hfit
    exact ⟨τ, by simp [Store.write?, hget, hd₁, hτ], hheld, by simp [hstack', hcells₁]⟩

end Places

end NwScript
