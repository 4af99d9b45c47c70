-- Function tables in other circumstances. Functions keep their names; their entries, parameters and
-- default values are recast.
import NwScript.Build.Function
import NwScript.Proofs.Recast.Expr

namespace NwScript

namespace Recast

variable {c : Recast}

/-! ## Signatures -/

theorem constant_renamed {engine : Engine} (h : c.Respects engine) (e : Expr) :
    (e.renamed c.name).constant engine = e.constant engine := by
  induction e using Expr.inductOn with
  | literal v => rfl
  | vector x y z hx hy hz => simp only [Expr.renamed, Expr.constant, hx, hy, hz]
  | access path =>
    simp only [Expr.renamed, Expr.constant, Codegen.identifier?_renamed]
    cases path.identifier? with
    | none => rfl
    | some n => simp only [Option.map_some, h.constant]
  | assign op target e he => rfl
  | binary op l r hl hr => simp only [Expr.renamed, Expr.constant, hl, hr]
  | unary op e he => simp only [Expr.renamed, Expr.constant, he]
  | step op fix target => rfl
  | call name args hargs => rfl

theorem constantDefault_renamed {engine : Engine} (h : c.Respects engine) (p : Param) :
    Signature.constantDefault engine (p.renamed c.name) = Signature.constantDefault engine p := by
  obtain ⟨ty, name, default⟩ := p
  cases default with
  | none => rfl
  | some e => exact constant_renamed h e

theorem misplaced?_renamed (params : List Param) :
    Signature.misplaced? (params.map (·.renamed c.name)) =
      (Signature.misplaced? params).map (·.renamed c.name) := by
  have hnone : (fun p : Param => p.default.isNone) ∘ (·.renamed c.name) =
      fun p : Param => p.default.isNone := by
    funext p
    exact Option.isNone_map
  unfold Signature.misplaced?
  rw [List.dropWhile_map, List.find?_map, hnone]

theorem checkDefaults_recast {engine : Engine} (h : c.Respects engine) (s : Signature) :
    c.Matches id (s.checkDefaults engine) ((s.renamed c.name).checkDefaults engine) := by
  have hconst : (fun p => !Signature.constantDefault engine p) ∘ (·.renamed c.name) =
      fun p => !Signature.constantDefault engine p := by
    funext p
    exact congrArg (! ·) (constantDefault_renamed h p)
  simp only [Signature.checkDefaults, Signature.renamed, misplaced?_renamed, List.find?_map, hconst]
  cases Signature.misplaced? s.params with
  | some p => exact .error fun hname => by rw [hname]; rfl
  | none =>
    cases s.params.find? fun p => !Signature.constantDefault engine p with
    | some p => exact .error fun hname => by rw [hname]; rfl
    | none => exact .ok

theorem checkParams_recast (structs : Structs) (params : List Param) :
    c.Matches id (Build.checkParams structs params)
      (Build.checkParams structs (params.map (·.renamed c.name))) := by
  induction params with
  | nil => exact .ok
  | cons p rest ih =>
    rw [List.map_cons, Build.checkParams, Build.checkParams]
    refine .ite Iff.rfl (fun _ => ?_) fun _ => .throw fun hname => by rw [hname]; rfl
    exact (matches_same _).bind fun _ => ih

theorem checkTypes_recast (structs : Structs) (s : Signature) :
    c.Matches id (Build.checkTypes structs s)
      (Build.checkTypes structs (s.renamed c.name)) := by
  unfold Build.checkTypes
  refine (matches_same _).bind fun _ => ?_
  exact .ite Iff.rfl (fun _ => .throw (sameError_refl _)) fun _ =>
    checkParams_recast structs s.params

/-! ## The table -/

theorem defined?_functions (fs : Functions) (name : Name) :
    (c.functions fs).defined? name = (fs.defined? name).map c.function := by
  rw [Functions.defined?, find?_functions, Functions.defined?]
  cases fs.find? name with
  | none => rfl
  | some f =>
    obtain ⟨entry, signature, defined⟩ := f
    cases defined <;> rfl

theorem put_functions (fs : Functions) (f : Entry) :
    (c.functions fs).put (c.entry f) = c.functions (fs.put f) := by
  have hsame :
      (fun g : Entry => g.signature.name == (c.entry f).signature.name) ∘ c.entry =
        fun g : Entry => g.signature.name == f.signature.name := rfl
  unfold Functions.put
  dsimp only
  simp only [functions, List.any_map, hsame]
  split
  · simp only [List.map_map, Functions.mk.injEq]
    refine List.map_congr_left fun g _ => ?_
    exact (apply_ite c.entry _ f g).symm
  · simp only [List.map_append, List.map_cons, List.map_nil]

theorem marked_functions (fs : Functions) (names : List Name) :
    (c.functions fs).marked names = c.functions (fs.marked names) := by
  simp only [Functions.marked, functions, List.map_map]
  rfl

theorem isCalled_functions (fs : Functions) (name : Name) :
    (c.functions fs).isCalled name = fs.isCalled name := by
  rw [Functions.isCalled, lookup?_functions, Functions.isCalled]
  cases fs.lookup? name <;> rfl

theorem undefinedCalled_functions (fs : Functions) :
    (c.functions fs).undefinedCalled = fs.undefinedCalled := by
  simp only [Functions.undefinedCalled, functions, List.filter_map, List.map_map]
  rfl

theorem paramDifferences_renamed (first : Nat) (expected found : List Param) :
    Functions.paramDifferences first (expected.map (·.renamed c.name))
        (found.map (·.renamed c.name)) = [] ↔
      Functions.paramDifferences first expected found = [] := by
  induction expected generalizing found first with
  | nil => rfl
  | cons e expected ih =>
    cases found with
    | nil => rfl
    | cons f found =>
      have hrest := ih (first + 1) found
      simp only [Functions.paramDifferences, List.map_cons, List.zip_cons_cons, List.zipIdx_cons,
        List.filterMap_cons] at hrest ⊢
      by_cases hty : e.ty = f.ty
      · simpa only [Param.renamed, hty, if_true] using hrest
      · simp [Param.renamed, hty]

/-- Only the types count in a comparison of signatures. -/
theorem differences_renamed (expected found : Signature) :
    Functions.differences (expected.renamed c.name) (found.renamed c.name) = [] ↔
      Functions.differences expected found = [] := by
  simp only [Functions.differences, List.append_eq_nil_iff, Signature.renamed, List.length_map,
    paramDifferences_renamed]
  exact Iff.rfl

theorem merged_renamed (expected found : Signature) :
    Functions.merged (expected.renamed c.name) (found.renamed c.name) =
      (Functions.merged expected found).renamed c.name := by
  have hinherit (f e : Param) : Functions.inherit (f.renamed c.name) (e.renamed c.name) =
      (Functions.inherit f e).renamed c.name := by
    simp only [Functions.inherit, Param.renamed, Option.map_or]
  simp only [Functions.merged, Signature.renamed, List.zipWith_map, List.map_zipWith, hinherit]

theorem reconcile_recast (fs : Functions) (s : Signature) :
    c.Matches (Option.map fun known => (c.handle known.1, known.2.renamed c.name))
      (fs.reconcile s) ((c.functions fs).reconcile (s.renamed c.name)) := by
  unfold Functions.reconcile
  rw [show (s.renamed c.name).name = s.name from rfl, find?_functions]
  cases fs.find? s.name with
  | none => exact .ok
  | some f =>
    refine .ite Iff.rfl (fun _ => .error (sameError_refl _)) fun _ => ?_
    have hdiff := @differences_renamed c f.signature s
    simp only [function]
    cases hd : Functions.differences f.signature s with
    | nil =>
      rw [hdiff.mpr hd, merged_renamed]
      exact .ok
    | cons d ds =>
      cases hd' : Functions.differences (f.signature.renamed c.name) (s.renamed c.name) with
      | nil => rw [hdiff.mp hd'] at hd; cases hd
      | cons d' ds' =>
        refine .error fun hname => ?_
        rw [hname, Signature.renamed_id, Signature.renamed_id, hd] at hd'
        rw [hd']

end Recast

end NwScript
