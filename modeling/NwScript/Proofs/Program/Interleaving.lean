-- What a script compiles to depends only on the order of its directives, on that of its globals and
-- structs, and on that of its prototypes and functions. How the three are mixed does not matter.
import NwScript.Proofs.Include.Order
import NwScript.Build.Script

namespace NwScript

/-! ## Scripts that differ only in how their items are mixed -/

namespace Script

/-- The globals and structs of a script, in order. -/
def data (items : Script) : Script :=
  items.filter fun
    | .global _ | .struct _ => true
    | _ => false

/-- The prototypes and functions of a script, in order. -/
def functions (items : Script) : Script :=
  items.filter fun
    | .prototype _ | .function _ => true
    | _ => false

/-- The same items of each sort, each sort in the same order. -/
structure Alike (p q : Script) : Prop where
  directives : p.directives = q.directives
  data : p.data = q.data
  functions : p.functions = q.functions

@[simp] theorem data_append (p q : Script) : (p ++ q).data = p.data ++ q.data :=
  List.filter_append ..

@[simp] theorem data_include (name : String) (items : Script) :
    data (.include name :: items) = data items := rfl

@[simp] theorem functions_append (p q : Script) :
    (p ++ q).functions = p.functions ++ q.functions := List.filter_append ..

@[simp] theorem functions_include (name : String) (items : Script) :
    functions (.include name :: items) = functions items := rfl

theorem Alike.symm {p q : Script} (h : p.Alike q) : q.Alike p :=
  ⟨h.directives.symm, h.data.symm, h.functions.symm⟩

theorem Alike.behind {p q : Script} (h : p.Alike q) (items : Script) :
    (items ++ p).Alike (items ++ q) := by
  constructor
  · rw [directives_append, directives_append, h.directives]
  · rw [data_append, data_append, h.data]
  · rw [functions_append, functions_append, h.functions]

theorem length_eq_sorts (p : Script) :
    p.length = p.directives.length + p.data.length + p.functions.length := by
  induction p with
  | nil => rfl
  | cons item rest ih => cases item <;> simp [directives, data, functions] at * <;> omega

theorem Alike.length {p q : Script} (h : p.Alike q) : p.length = q.length := by
  rw [length_eq_sorts p, length_eq_sorts q, h.directives, h.data, h.functions]

/-- Both have their last directive in common, and without it they are still alike. -/
theorem Alike.splitLast {p q before after : Script} {name : String} (h : p.Alike q)
    (hp : p.splitLast = some (before, name, after)) :
    ∃ before' after', q.splitLast = some (before', name, after') ∧
      (before ++ after).Alike (before' ++ after') := by
  have hqueue := queue_of_splitLast hp
  rw [h.directives] at hqueue
  cases hq : q.splitLast with
  | none => simp [(of_splitLast_none hq).1] at hqueue
  | some found =>
    obtain ⟨before', name', after'⟩ := found
    rw [queue_of_splitLast hq] at hqueue
    obtain ⟨rfl, hrest⟩ := List.cons.inj hqueue
    refine ⟨before', after', rfl, List.reverse_inj.mp hrest.symm, ?_, ?_⟩
    · have hdata := h.data
      rw [eq_of_splitLast hp, eq_of_splitLast hq] at hdata
      simpa using hdata
    · have hfunctions := h.functions
      rw [eq_of_splitLast hp, eq_of_splitLast hq] at hfunctions
      simpa using hfunctions

theorem Alike.splitLast_none {p q : Script} (h : p.Alike q) (hp : p.splitLast = none) :
    q.splitLast = none := by
  have hd := (of_splitLast_none hp).1
  rw [h.directives] at hd
  cases hq : q.splitLast with
  | none => rfl
  | some found => simp [directives_of_splitLast hq] at hd

end Script

/-! ## Expanding them -/

namespace Expansion

variable {s : Setup} {included : List String} {p q : Script}

theorem parallel_alike : Parallel s s Script.Alike where
  key := rfl
  plain := Script.Alike.splitLast_none
  split := Script.Alike.splitLast
  failed h := h
  loaded {_ _ items} h := ⟨items, h, rfl, fun _ _ hpq => hpq.behind items⟩

/-- One of them comes to an end if the other does. -/
theorem expand_alike (h : p.Alike q) :
    Related Script.Alike (expand s included p) (expand s included q) := by
  unfold expand
  cases hp : run s included [] p with
  | some x =>
    obtain ⟨y, hq, hxy⟩ := run_related parallel_alike h hp
    rw [hq]
    exact hxy
  | none =>
    cases hq : run s included [] q with
    | none => exact .error
    | some y =>
      obtain ⟨x, hx, _⟩ := run_related parallel_alike h.symm hq
      rw [hp] at hx
      cases hx

end Expansion

/-! ## Compiling them -/

namespace Build

/-- Only globals and structs count in the pass over the globals. -/
theorem globals_data (items : Script) : globals items.data = globals items := by
  induction items with
  | nil => rfl
  | cons item rest ih =>
    cases item with
    | global g => exact congrArg (global g >>= fun _ => ·) ih
    | struct d => exact congrArg (struct d >>= fun _ => ·) ih
    | «include» _ | prototype _ | function _ => exact ih

/-- Without directives only prototypes and functions count in the pass over the functions. -/
theorem functions_functions {items : Script} (h : items.directives = []) :
    functions items.functions = functions items := by
  induction items with
  | nil => rfl
  | cons item rest ih =>
    cases item with
    | prototype sig => exact congrArg (prototype sig >>= fun _ => ·) (ih h)
    | function f => exact congrArg (function f >>= fun _ => ·) (ih h)
    | «include» name => cases h
    | global _ | struct _ => exact ih h

/-- The session after an expansion, with what it has to report. -/
def expanded (s : Session) (x : Expansion) : Session :=
  { s with included := x.included, out := { s.out with events :=
    match x.items with
    | .ok items => s.out.events ++ x.events ++ [.includesProcessed items.length x.included.length]
    | .error _ => s.out.events ++ x.events } }

theorem items_eq (setup : Setup) (script : Script) (s : Session) :
    Build.items setup script s =
      match (Expansion.expand setup s.included script).items with
      | .ok items => .ok items (expanded s (Expansion.expand setup s.included script))
      | .error e => .error e (expanded s (Expansion.expand setup s.included script)) := by
  change (do
    let x := Expansion.expand setup s.included script
    modify fun s => { s with included := x.included }
    reportAll x.events
    let items ← lift x.items
    report (.includesProcessed items.length x.included.length)
    return items : Build Script) s = _
  generalize Expansion.expand setup s.included script = x
  obtain ⟨included, events, _ | items⟩ := x
  · rfl
  · rfl

/-- The expansion ends in the same state, with items that are alike or with the same error. -/
theorem items_alike {setup : Setup} {p q : Script} (h : p.Alike q) (s : Session) :
    (∃ e t, Build.items setup p s = .error e t ∧ Build.items setup q s = .error e t) ∨
      ∃ a b t, Build.items setup p s = .ok a t ∧ Build.items setup q s = .ok b t ∧
        a.directives = [] ∧ a.Alike b := by
  have hx := @Expansion.expand_alike setup s.included p q h
  rw [items_eq, items_eq]
  generalize Expansion.expand setup s.included p = x at hx ⊢
  generalize Expansion.expand setup s.included q = y at hx ⊢
  cases hx with
  | error => exact .inl ⟨_, _, rfl, rfl⟩
  | @ok included events a b hplain halike =>
    refine .inr ⟨a, b, _, rfl, ?_, (Script.of_splitLast_none hplain).1, halike⟩
    simp only [expanded, halike.length]

/-- However a script is mixed, the same steps are taken. -/
theorem script_interleaved {setup : Setup} {p q : Script} (h : p.Alike q) :
    Build.script setup p = Build.script setup q := by
  funext s
  simp only [Build.script, bind, EStateM.bind]
  rcases @items_alike setup p q h s with ⟨e, t, hp, hq⟩ | ⟨a, b, t, hp, hq, hplain, halike⟩
  · rw [hp, hq]
  · have hglobals : globals a = globals b := by
      rw [← globals_data a, halike.data, globals_data b]
    have hfunctions : functions a = functions b := by
      rw [← functions_functions hplain, halike.functions,
        functions_functions (halike.directives ▸ hplain)]
    rw [hp, hq]
    dsimp only
    rw [hglobals, hfunctions]

end Build

/-- Two scripts with the same directives, the same globals and structs, and the same prototypes and
functions, each in the same order, are compiled with the same result, be it a stream or an error,
and with the same reports. How the items are mixed does not matter. -/
theorem compile_interleaved {setup : Setup} {engine : Engine} {p q : Script}
    (hdirectives : p.directives = q.directives) (hdata : p.data = q.data)
    (hfunctions : p.functions = q.functions) : compile setup engine p = compile setup engine q := by
  unfold compile
  rw [Build.script_interleaved ⟨hdirectives, hdata, hfunctions⟩]

namespace Catalogue

def raised : Signature := ⟨.int, "raised", []⟩

def raise : Item := .function ⟨raised, [.ret (some (.step .inc .pre ⟨"total", []⟩))]⟩

def buy : Item := .function ⟨⟨.void, "main", []⟩, [.expr (.call "raised" [])]⟩

/-- Every sort of item on its own. -/
def sorted : Script := [.include "prices", total, .prototype raised, buy, raise]

/-- The global after the functions that need it, and the directive last. -/
def mixed : Script := [.prototype raised, buy, total, raise, .include "prices"]

end Catalogue

open Catalogue in
theorem catalogue_interleaved :
    mixed.directives = sorted.directives ∧ mixed.data = sorted.data ∧
      mixed.functions = sorted.functions ∧ compile setup {} mixed = compile setup {} sorted :=
  ⟨rfl, rfl, rfl, compile_interleaved rfl rfl rfl⟩

end NwScript
