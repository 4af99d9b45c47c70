-- The life of a function in the registry: it is announced, gets its body, and from then on stays as
-- it is. Calls that were compiled against the announcement are calls of the final function.
import Mathlib.Data.List.Chain
import NwScript.Proofs.Ending
import NwScript.Proofs.Program.Layout
import NwScript.Proofs.Shape.Expr

namespace NwScript

/-! ## What may become of a function -/

/-- What calls rely on stays, no default is lost, and a function with a body does not change. -/
structure Function.Becomes (f g : Function) : Prop where
  entry : g.entry = f.entry
  returnType : g.signature.returnType = f.signature.returnType
  paramTypes : g.signature.params.map (·.ty) = f.signature.params.map (·.ty)
  defaults : ∀ i : Nat, (f.signature.params[i]?.bind (·.default)).isSome →
    (g.signature.params[i]?.bind (·.default)).isSome
  settled : f.defined = true → g = f

/-- A function that was called stays called, also when its body takes the place of the
announcement. -/
structure Entry.Becomes (f g : Entry) : Prop extends f.toFunction.Becomes g.toFunction where
  called : f.called = true → g.called = true

/-- All that a session knew is still known: every function has stayed or has got its body. -/
def Session.Advances (s t : Session) : Prop :=
  ∀ name f, s.env.functions.lookup? name = some f →
    ∃ g, t.env.functions.lookup? name = some g ∧ f.Becomes g

theorem Function.Becomes.refl (f : Function) : f.Becomes f :=
  ⟨rfl, rfl, rfl, fun _ h => h, fun _ => rfl⟩

theorem Function.Becomes.trans {f g k : Function} (h : f.Becomes g) (h' : g.Becomes k) :
    f.Becomes k where
  entry := h'.entry.trans h.entry
  returnType := h'.returnType.trans h.returnType
  paramTypes := h'.paramTypes.trans h.paramTypes
  defaults i hi := h'.defaults i (h.defaults i hi)
  settled hf := by
    have hg := h.settled hf
    rw [h'.settled (hg ▸ hf), hg]

theorem Entry.Becomes.refl (f : Entry) : f.Becomes f := ⟨.refl _, fun h => h⟩

theorem Entry.Becomes.trans {f g k : Entry} (h : f.Becomes g) (h' : g.Becomes k) : f.Becomes k :=
  ⟨h.toBecomes.trans h'.toBecomes, fun hf => h'.called (h.called hf)⟩

instance : Std.Refl Session.Advances := ⟨fun _ _ f hf => ⟨f, hf, .refl f⟩⟩

theorem Session.Advances.trans {s t u : Session} (h : s.Advances t) (h' : t.Advances u) :
    s.Advances u := by
  intro name f hf
  obtain ⟨g, hg, hfg⟩ := h name f hf
  obtain ⟨k, hk, hgk⟩ := h' name g hg
  exact ⟨k, hk, hfg.trans hgk⟩

instance : IsTrans Session Session.Advances := ⟨fun _ _ _ => .trans⟩

instance : Trans Session.Advances Session.Advances Session.Advances := ⟨.trans⟩

/-- A function that was found is found later, and has stayed or has got its body. -/
theorem Session.Advances.found {s t : Session} (h : s.Advances t) {name : Name} {f : Function}
    (hf : s.env.functions.find? name = some f) :
    ∃ g, t.env.functions.find? name = some g ∧ f.Becomes g := by
  obtain ⟨e, he, rfl⟩ := Option.map_eq_some_iff.mp hf
  obtain ⟨g, hg, heg⟩ := h name e he
  exact ⟨g.toFunction, by simp [Functions.find?, hg], heg.toBecomes⟩

section Advances

variable {s t : Session}

theorem advances_same (h : t.env.functions = s.env.functions) : s.Advances t := by
  intro name f hf
  exact ⟨f, by rw [h]; exact hf, .refl f⟩

theorem advances_marked {names : List Name}
    (h : t.env.functions = s.env.functions.marked names) : s.Advances t := by
  intro name f hf
  refine ⟨{ f with called := f.called || names.contains name }, ?_, .refl _, fun hcalled => ?_⟩
  · rw [h, Functions.lookup?_marked, hf]
    rfl
  · simp [hcalled]

/-- A function is put under a free name, or in the place of one that becomes it. -/
theorem advances_put {g : Entry}
    (hg : ∀ f, s.env.functions.lookup? g.signature.name = some f → f.Becomes g)
    (h : t.env.functions = s.env.functions.put g) : s.Advances t := by
  intro name f hf
  rw [h, Functions.lookup?_put]
  by_cases hname : g.signature.name = name
  · subst hname
    exact ⟨g, if_pos rfl, hg f hf⟩
  · exact ⟨f, by rw [if_neg hname, hf], .refl f⟩

end Advances

namespace Build

open Codegen

/-- A function that was announced gets its body, with the merged signature. -/
theorem becomes_merged {k : Function} {sig : Signature} (hk : k.defined = false)
    (h : Functions.differences k.signature sig = []) :
    k.Becomes ⟨k.entry, Functions.merged k.signature sig, true⟩ := by
  obtain ⟨hret, hparams⟩ := types_of_differences h
  refine ⟨rfl, hret.symm, (merged_agrees h).2, ?_, by simp [hk]⟩
  intro i hi
  have hty := congrArg (·[i]?) hparams
  simp only [List.getElem?_map] at hty
  cases hp : k.signature.params[i]? with
  | none => simp [hp] at hi
  | some p =>
    cases hq : sig.params[i]? with
    | none => simp [hp, hq] at hty
    | some q =>
      rw [hp] at hi
      simp only [Functions.merged, List.getElem?_zipWith, hp, hq]
      simpa [Functions.inherit] using .inr hi

/-! ## Steps that only look -/

section Looks

variable {α : Type} {R : Session → Session → Prop} [Std.Refl R]

theorem lift_moves {x : Except Failure α} : Moves R (lift x) := by
  cases x with
  | ok a => exact moves_pure a
  | error e => exact moves_throw e

theorem env_moves : Moves R env := fun s => refl_of R s

theorem stream_moves : Moves R stream := fun s => refl_of R s

theorem checkSignature_moves [IsTrans Session R] {sig : Signature} :
    Moves R (checkSignature sig) :=
  env_moves.bind fun _ => lift_moves.bind fun _ => lift_moves

end Looks

/-! ## Steps that leave the functions alone, or only note calls -/

section Steps

variable {α β : Type} {s t : Session}

theorem modify_advances {f : Session → Session}
    (h : ∀ s, (f s).env.functions = s.env.functions) :
    Moves Session.Advances (modify f : Build PUnit) :=
  moves_modify fun s => advances_same (h s)

theorem edit_advances {e : Edit α} : Moves Session.Advances (edit e) :=
  moves_focus fun _ _ => advances_same rfl

theorem reportAll_advances {events : List Event} : Moves Session.Advances (reportAll events) :=
  modify_advances fun _ => rfl

theorem report_advances {e : Event} : Moves Session.Advances (report e) := reportAll_advances

theorem generate_advances {g : Gen α} : Moves Session.Advances (generate g) :=
  moves_focus fun _ _ => advances_marked rfl

theorem aside_advances {g : Gen Unit} : Moves Session.Advances (aside g) :=
  moves_focus fun _ _ => advances_marked rfl

theorem refuse_advances {c : Prop} [Decidable c] {m : Mistake} {f : α → Build β} {x : Build β}
    (h : Moves Session.Advances x) :
    Moves Session.Advances (if c then mistake m >>= f else x) := by
  split
  · exact fun _ => refl_of _ _
  · exact h

theorem require_advances {c : Prop} [Decidable c] {m : Mistake} {f : α → Build β} {x : Build β}
    (h : Moves Session.Advances x) :
    Moves Session.Advances (if c then x else mistake m >>= f) := by
  split
  · exact h
  · exact fun _ => refl_of _ _

theorem items_advances {setup : Setup} {script : Script} :
    Moves Session.Advances (Build.items setup script) := by
  refine moves_get.bind fun _ => Moves.bind (modify_advances ?_) fun _ =>
    reportAll_advances.bind fun _ => lift_moves.bind fun _ => report_advances.bind fun _ =>
    moves_pure _
  exact fun _ => rfl

theorem global_advances {g : GlobalDef} : Moves Session.Advances (global g) := by
  refine env_moves.bind fun before => require_advances <| lift_moves.bind fun _ =>
    refuse_advances <| refuse_advances <| lift_moves.bind fun _ => generate_advances.bind fun _ =>
    Moves.bind (modify_advances ?_) fun _ => ?_
  · exact fun _ => rfl
  cases g.init with
  | none => exact report_advances
  | some e =>
    exact env_moves.bind fun _ => generate_advances.bind fun _ => report_advances

theorem struct_advances {d : StructDef} : Moves Session.Advances (struct d) := by
  refine Moves.bind (moves_focus fun _ _ => ?_) fun _ => report_advances
  exact advances_same rfl

theorem sealGlobals_advances : Moves Session.Advances sealGlobals := by
  refine env_moves.bind fun env => ?_
  have hend {n : Nat} : Moves Session.Advances (do
      let entryIndex := (← stream).code.length
      modify fun s => { s with entryIndex }
      report (.globalsCompiled n entryIndex)) := by
    refine stream_moves.bind fun _ => Moves.bind (modify_advances ?_) fun _ => report_advances
    exact fun _ => rfl
  dsimp only
  split
  · exact hend
  · refine edit_advances.bind fun _ => Moves.bind (modify_advances ?_) fun _ => hend
    exact fun _ => rfl

theorem checkCalled_advances : Moves Session.Advances checkCalled := by
  refine env_moves.bind fun _ => ?_
  dsimp only
  split
  · exact moves_pure _
  · exact moves_throw _

theorem insertEntry_advances {op : Op} {target : Option Handle} :
    Moves Session.Advances (insertEntry op target) :=
  moves_get.bind fun _ => edit_advances.bind fun _ => moves_pure _

theorem trampoline_advances : Moves Session.Advances trampoline := by
  refine moves_get.bind fun s => ?_
  split
  · exact insertEntry_advances.bind fun _ => insertEntry_advances.bind fun _ => report_advances
  · split
    · exact insertEntry_advances.bind fun _ => insertEntry_advances.bind fun _ =>
        insertEntry_advances.bind fun _ => report_advances
    · exact moves_throw _

/-! ## Steps that change the registry -/

theorem define_toError {R : Session → Session → Prop} {sig : Signature} {entry : Handle} :
    MovesToError R (define sig entry) := by
  intro s e t h
  cases (show define sig entry s = .ok () _ from rfl).symm.trans h

/-- A refused announcement changes nothing, one that is not refused takes a free name. -/
theorem declare_advances {sig : Signature} {stub : Handle} :
    Moves Session.Advances (register (Functions.declare sig stub)) := by
  intro s
  cases h : register (Functions.declare sig stub) s with
  | ok e t =>
    obtain ⟨_, hd, rfl⟩ := register_ok.mp h
    obtain ⟨hfree, _, rfl⟩ := Functions.declare_ok.mp hd
    refine advances_put (g := ⟨⟨stub, sig, false⟩, false⟩) (fun f hf => ?_) rfl
    simp [Functions.find?, hf] at hfree
  | error e t =>
    obtain ⟨_, hd, rfl⟩ := register_error h
    exact advances_same (Functions.declare_error hd).1

theorem prototype_advances {sig : Signature} : Moves Session.Advances (prototype sig) :=
  checkSignature_moves.bind fun _ => env_moves.bind fun _ => refuse_advances <|
    edit_advances.bind fun _ => declare_advances.bind fun _ => report_advances

/-- Until a function is registered, only calls are noted. -/
theorem function_advancesToError {f : FunctionDef} :
    MovesToError Session.Advances (function f) := by
  refine env_moves.bindToError fun env => lift_moves.bindToError fun found => ?_
  cases found with
  | none =>
    exact checkSignature_moves.bindToError fun _ => edit_advances.bindToError fun _ =>
      env_moves.bindToError fun _ => generate_advances.bindToError fun _ =>
      report_advances.bindToError fun _ => define_toError
  | some announced =>
    exact checkSignature_moves.bindToError fun _ => env_moves.bindToError fun _ =>
      aside_advances.bindToError fun _ => edit_advances.bindToError fun _ =>
      report_advances.bindToError fun _ => define_toError

/-- A definition takes a free name, or the place of an announcement of which it keeps all that
matters. -/
theorem function_advances {f : FunctionDef} : Moves Session.Advances (function f) := by
  intro s
  cases h : function f s with
  | error e t => exact function_advancesToError s e t h
  | ok u t =>
    cases hf : s.env.functions.find? f.signature.name with
    | none =>
      obtain ⟨_, st', _, henv, _⟩ := function_new_ok h hf
      let mid : Session := { s with env := s.env.marked st'.marks }
      have hmid : s.Advances mid := advances_marked rfl
      refine hmid.trans (advances_put (fun k hk => ?_) (by rw [ending, henv]; rfl))
      have hnone : mid.env.functions.find? f.signature.name = none := by
        simpa [mid, Env.marked] using hf
      rw [Functions.find?, hk] at hnone
      cases hnone
    | some k =>
      obtain ⟨hdefined, hdiff, _, st', _, _, _, henv, _⟩ := function_announced_ok h hf
      let mid : Session := { s with env := s.env.marked st'.marks }
      have hmid : s.Advances mid := advances_marked rfl
      refine hmid.trans (advances_put (fun e he => ?_) (by rw [ending, henv]; rfl))
      have he' : mid.env.functions.lookup? f.signature.name = some e := he
      have hk : e.toFunction = k := by
        have hfound : mid.env.functions.find? f.signature.name = some k := by
          simpa [mid, Env.marked] using hf
        rw [Functions.find?, he'] at hfound
        exact Option.some.inj hfound
      subst hk
      refine ⟨becomes_merged hdefined hdiff, fun hcalled => ?_⟩
      have hsame : mid.env.functions.isCalled f.signature.name = e.called := by
        simp [Functions.isCalled, he']
      exact hsame.trans hcalled

end Steps

/-! ## The steps of a script -/

/-- What an item does in the pass over the globals. -/
def globalStep : Item → Build Unit
  | .global g => global g
  | .struct d => struct d
  | _ => pure ()

/-- What an item does in the pass over the functions. -/
def functionStep : Item → Build Unit
  | .prototype s => prototype s
  | .function f => function f
  | .include name => throw (.internal (.includeLeft name))
  | .global _ | .struct _ => pure ()

/-- The compilation of the items of a script, step by step. -/
def steps (setup : Setup) (items : Script) : List (Build Unit) :=
  items.map globalStep ++ sealGlobals :: items.map functionStep ++
    [checkCalled, trampoline,
      do if setup.options.traceListing then report (.listed (← stream).listing)]

/-- Takes steps one after another, as long as they end well. -/
def takeAll : List (Build Unit) → Build Unit
  | [] => pure ()
  | x :: rest => do
    x
    takeAll rest

theorem globals_eq (items : Script) : globals items = takeAll (items.map globalStep) := by
  induction items with
  | nil => rfl
  | cons item rest ih => cases item <;> simp [globals, takeAll, globalStep, ih]

theorem functions_eq (items : Script) : functions items = takeAll (items.map functionStep) := by
  induction items with
  | nil => rfl
  | cons item rest ih => cases item <;> simp [functions, takeAll, functionStep, ih]

theorem takeAll_append (xs ys : List (Build Unit)) :
    takeAll (xs ++ ys) = (takeAll xs >>= fun _ => takeAll ys) := by
  induction xs with
  | nil => simp [takeAll]
  | cons x rest ih => simp [takeAll, ih]

theorem script_eq (setup : Setup) (script : Script) :
    Build.script setup script =
      (Build.items setup script >>= fun items => takeAll (steps setup items)) := by
  simp [Build.script, steps, takeAll_append, takeAll, globals_eq, functions_eq]

/-- The sessions that some steps lead to, up to the first one that fails. -/
def passed : List (Build Unit) → Session → List Session
  | [], _ => []
  | x :: rest, s => match x s with
    | .ok _ t => t :: passed rest t
    | .error _ t => [t]

/-- All sessions that the compilation of a script goes through, with the first and the last one. -/
def moments (setup : Setup) (script : Script) (s : Session) : List Session :=
  s :: match Build.items setup script s with
    | .ok items t => t :: passed (steps setup items) t
    | .error _ t => [t]

section Moments

variable {setup : Setup} {script items : Script} {s : Session}

theorem ending_takeAll (xs : List (Build Unit)) (s : Session) :
    (s :: passed xs s).getLast? = some (ending (takeAll xs s)) := by
  induction xs generalizing s with
  | nil => rfl
  | cons x rest ih =>
    simp only [passed, takeAll, bind, EStateM.bind]
    cases x s with
    | error e t => rfl
    | ok u t =>
      rw [List.getLast?_cons_cons]
      exact ih t

theorem moments_last : (moments setup script s).getLast? =
    some (ending (Build.script setup script s)) := by
  rw [script_eq, moments]
  simp only [bind, EStateM.bind]
  cases Build.items setup script s with
  | error e t => rfl
  | ok items t =>
    rw [List.getLast?_cons_cons]
    exact ending_takeAll _ t

/-- Steps that each move along a relation make a chain of sessions. -/
theorem passed_chain {R : Session → Session → Prop} {xs : List (Build Unit)}
    (h : ∀ x ∈ xs, Moves R x) (s : Session) : List.IsChain R (s :: passed xs s) := by
  induction xs generalizing s with
  | nil => exact .singleton s
  | cons x rest ih =>
    have hx := h x List.mem_cons_self s
    have hrest := ih fun y hy => h y (List.mem_cons_of_mem x hy)
    simp only [passed]
    cases hs : x s with
    | error e t =>
      rw [hs] at hx
      exact .cons_cons hx (.singleton t)
    | ok u t =>
      rw [hs] at hx
      exact .cons_cons hx (hrest t)

theorem steps_advance {x : Build Unit} (hx : x ∈ steps setup items) : Moves Session.Advances x := by
  simp only [steps, List.append_assoc, List.cons_append, List.mem_append, List.mem_cons,
    List.mem_map, List.not_mem_nil, or_false] at hx
  rcases hx with ⟨item, _, rfl⟩ | rfl | ⟨item, _, rfl⟩ | rfl | rfl | rfl
  · cases item with
    | global g => exact global_advances
    | struct d => exact struct_advances
    | _ => exact moves_pure _
  · exact sealGlobals_advances
  · cases item with
    | prototype sig => exact prototype_advances
    | function f => exact function_advances
    | global _ | struct _ => exact moves_pure _
    | _ => exact moves_throw _
  · exact checkCalled_advances
  · exact trampoline_advances
  · split
    · exact stream_moves.bind fun _ => report_advances
    · exact moves_pure _

theorem moments_pairwise : (moments setup script s).Pairwise Session.Advances := by
  rw [← List.isChain_iff_pairwise, moments]
  have hitems := @items_advances setup script s
  cases hs : Build.items setup script s with
  | error e t =>
    rw [hs] at hitems
    exact .cons_cons hitems (.singleton t)
  | ok items t =>
    rw [hs] at hitems
    exact .cons_cons hitems (passed_chain (fun _ => steps_advance) t)

end Moments

/-! ## Calls -/

/-- The code of a call of `g`: room for its result, a value for each of its parameters, and the jump
to its entry. -/
def CallCode (env : Env) (g : Function) (scope : Scope) (n : Handle) (code : List Instruction) :
    Prop :=
  ∃ ks bound arguments m, ∃ k : Nat, env.structs.slots g.signature.returnType = .ok ks ∧
    env.sizeOf g.signature.returnType = .ok k ∧
    bound.map (·.1.ty) = g.signature.params.map (·.ty) ∧
    Emits env (scope.grown k) (n + ks.length) (.arguments bound)
      ((g.signature.params.map (·.ty)).filter (· ≠ .action)) arguments m ∧
    code = numbered n (ks.map .reserve) ++ arguments ++ [⟨m, .jump .jsr, some g.entry⟩]

/-- However a call is compiled against some functions, it is noted, and it is a call of the function
that the session has under the name. -/
def CallsReach (fs : Functions) (t : Session) : Prop :=
  ∀ (env : Env) (depth : Nat) (name : Name) (args : List Expr) (f : Function) (ty : Ty)
    (st st' : State), env.functions = fs → fs.find? name = some f →
    exprWith env (defaultExpr env depth) (.call name args) st = .ok ty st' →
    name ∈ st'.marks ∧ ∃ g code, t.env.functions.find? name = some g ∧
      ty = g.signature.returnType ∧ st'.code = st.code ++ code ∧
      CallCode env g st.scope st.next code

section Calls

variable {s t : Session}

theorem callCode_of_emits {env : Env} {name : Name} {args : List Expr} {f : Function}
    {tys : List Ty} {scope : Scope} {n m : Handle} {code : List Instruction}
    (hf : env.functions.find? name = some f)
    (h : Emits env scope n (.value (.call name args)) tys code m) :
    tys = [f.signature.returnType] ∧ CallCode env f scope n code := by
  cases h with
  | callRoutine hnone => simp [hf] at hnone
  | @callFunction _ _ _ _ _ f' bound ks k tys arguments hf' hbound hks hk hargs =>
    cases hf.symm.trans hf'
    have hparams : bound.map (·.1.ty) = f.signature.params.map (·.ty) := by
      simp [← bind?_params hbound, Function.comp_def]
    have htys := arguments_pushed hargs
    rw [hparams] at htys
    exact ⟨rfl, ks, bound, arguments, _, k, hks, hk, hparams, htys ▸ hargs, rfl⟩

theorem CallCode.becomes {env : Env} {f g : Function} {scope : Scope} {n : Handle}
    {code : List Instruction} (h : CallCode env f scope n code) (hfg : f.Becomes g) :
    CallCode env g scope n code := by
  simpa only [CallCode, hfg.entry, hfg.returnType, hfg.paramTypes] using h

theorem callsReach_of_advances (h : s.Advances t) : CallsReach s.env.functions t := by
  intro env depth name args f ty st st' henv hf hcall
  rw [← henv] at hf
  obtain ⟨g, hg, hfg⟩ := h.found (henv ▸ hf)
  obtain ⟨code, _, hcode, hwrote, _⟩ :=
    exprWith_emitted (fun _ _ _ _ h => defaultExpr_emitted h) hcall
  obtain ⟨hty, hcallCode⟩ := callCode_of_emits hf hcode
  refine ⟨call_noted (fun _ _ _ _ h => defaultExpr_emitted h) hf hcall, g, code, hg, ?_, hwrote,
    hcallCode.becomes hfg⟩
  rw [hfg.returnType]
  exact (List.cons.inj hty).1

end Calls

/-! ## The whole run -/

section Run

variable {setup : Setup} {script : Script} {s t : Session} {u : Unit}

theorem insertEntry_kept {op : Op} {target : Option Handle}
    (h : insertEntry op target s = .ok u t) : t.env = s.env := by
  simp only [insertEntry, bind_ok, get_ok, edit_ok, pure_ok] at h
  obtain ⟨_, _, ⟨rfl, rfl⟩, _, _, ⟨_, _, rfl⟩, _, rfl⟩ := h
  rfl

theorem trampoline_kept (h : trampoline s = .ok u t) : t.env = s.env := by
  simp only [trampoline, bind_ok, get_ok] at h
  obtain ⟨_, _, ⟨rfl, rfl⟩, h⟩ := h
  cases hmain : s.env.functions.defined? mainName with
  | some f =>
    simp only [hmain, bind_ok, report_ok] at h
    obtain ⟨_, _, h₁, _, _, h₂, rfl⟩ := h
    exact (insertEntry_kept h₂).trans (insertEntry_kept h₁)
  | none =>
    cases hcond : s.env.functions.defined? conditionalName with
    | none => simp [hmain, hcond, throw_ok] at h
    | some f =>
      simp only [hmain, hcond, bind_ok, report_ok] at h
      obtain ⟨_, _, h₁, _, _, h₂, _, _, h₃, rfl⟩ := h
      exact (insertEntry_kept h₃).trans ((insertEntry_kept h₂).trans (insertEntry_kept h₁))

/-- When a script has been compiled, every function that is called has a body. -/
theorem script_defined (h : Build.script setup script s = .ok u t) {name : Name}
    (hcalled : t.env.functions.isCalled name = true) :
    ∃ f, t.env.functions.find? name = some f ∧ f.defined = true := by
  simp only [Build.script, bind_ok] at h
  obtain ⟨items, s₁, _, _, s₂, _, _, s₃, _, _, s₄, _, _, s₅, hc, _, s₆, ht, h⟩ := h
  obtain ⟨rfl, hdefined⟩ := checkCalled_ok hc
  have hlast : t.env = s₆.env := by
    split at h
    · simp only [bind_ok, stream_ok, report_ok] at h
      obtain ⟨_, _, ⟨rfl, rfl⟩, rfl⟩ := h
      rfl
    · simp only [pure_ok] at h
      rw [h.2]
  rw [hlast, trampoline_kept ht] at hcalled ⊢
  cases he : s₄.env.functions.lookup? name with
  | none => simp [Functions.isCalled, he] at hcalled
  | some e =>
    have hf : s₄.env.functions.find? name = some e.toFunction := by simp [Functions.find?, he]
    exact ⟨e.toFunction, hf, hdefined name _ hcalled hf⟩

/-- Every call in the code of a script leads to a function of the registry that has a body. -/
theorem script_answered {engine : Engine}
    (h : Build.script setup script { env := { engine } } = .ok u t) {i : Instruction}
    (hi : i ∈ t.out.stream.code) (hop : i.op = .jump .jsr) :
    ∃ f, t.env.functions.find? f.signature.name = some f ∧ f.defined = true ∧
      i.target = some f.entry := by
  obtain ⟨items, env, p, _, ha⟩ := script_assembled h
  obtain ⟨mid, hsegs, _⟩ := ha.segmented
  rw [ha.code_eq] at hi
  obtain ⟨g, hg, hbody, htarget⟩ := ha.called hi hop
  exact ⟨g.function, find?_of_mem ha.table hsegs.distinct hg, hbody, htarget⟩

/-- The registry only grows while a script is compiled, however that ends: between any two moments
functions have stayed or have got their bodies, and called ones are still called. So a call that was
compiled at any moment is a call of the function that stands there in the end, and if all went well
that function has a body. -/
theorem registry_only_grows :
    (moments setup script s).head? = some s ∧
    (moments setup script s).getLast? = some (ending (Build.script setup script s)) ∧
    (moments setup script s).Pairwise Session.Advances ∧
    (∀ m ∈ moments setup script s,
      CallsReach m.env.functions (ending (Build.script setup script s))) ∧
    ∀ u t, Build.script setup script s = .ok u t →
      (∀ name, t.env.functions.isCalled name = true →
        ∃ f, t.env.functions.find? name = some f ∧ f.defined = true) ∧
      ∀ engine, s = { env := { engine } } → ∀ i ∈ t.out.stream.code, i.op = .jump .jsr →
        ∃ f, t.env.functions.find? f.signature.name = some f ∧ f.defined = true ∧
          i.target = some f.entry := by
  have hpairs := @moments_pairwise setup script s
  have hlast := @moments_last setup script s
  refine ⟨rfl, hlast, hpairs, fun m hm => ?_, ?_⟩
  · obtain ⟨init, hinit⟩ := List.getLast?_eq_some_iff.mp hlast
    rw [hinit] at hm hpairs
    have hbefore := (List.pairwise_append.mp hpairs).2.2
    rcases List.mem_append.mp hm with hm | hm
    · exact callsReach_of_advances (hbefore m hm _ (List.mem_singleton_self _))
    · rw [List.mem_singleton.mp hm]
      exact callsReach_of_advances (refl_of _ _)
  · intro u t ht
    refine ⟨fun name hcalled => script_defined ht hcalled, ?_⟩
    rintro engine rfl i hi hop
    exact script_answered ht hi hop

end Run

/-- A function that is called before it has its body, with a default value that only its prototype
has. -/
def doubling : Script :=
  let n : Expr := .access ⟨"n", []⟩
  [.prototype ⟨.int, "twice", [⟨.int, "n", some (.literal (.int 1))⟩]⟩,
   .function ⟨⟨.void, "main", []⟩, [.expr (.call "twice" [])]⟩,
   .function ⟨⟨.int, "twice", [⟨.int, "n", none⟩]⟩, [.ret (some (.binary .add n n))]⟩]

theorem doubling_only_grows :
    ∃ t, Build.script {} doubling { env := { engine := {} } } = .ok () t ∧
      (moments {} doubling { env := { engine := {} } }).Pairwise Session.Advances ∧
      ∀ name, t.env.functions.isCalled name = true →
        ∃ f, t.env.functions.find? name = some f ∧ f.defined = true := by
  obtain ⟨t, ht⟩ := @compiles_of_gives doubling { env := { engine := {} } } rfl (by decide +kernel)
  obtain ⟨_, _, hpairs, _, hbodies⟩ :=
    @registry_only_grows {} doubling { env := { engine := {} } }
  exact ⟨t, ht, hpairs, (hbodies () t ht).1⟩

end Build

end NwScript
