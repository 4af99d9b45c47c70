-- The code of a function body does what the body means, wherever the function stands in a program.
import NwScript.Proofs.Meaning.Simulation
import NwScript.Proofs.Program.Layout

namespace NwScript

open Codegen

/-! ## Calls -/

/-- The parameters as variables, the newest first. -/
def Signature.variables (s : Signature) : List Variable :=
  s.params.reverse.map fun p => ⟨p.name, p.ty⟩

/-- What is in the slots of the result after a body has ended. -/
def Outcome.result (before : List Cell) : Outcome → List Cell
  | .returned (some v) => v.cells
  | _ => before

/-- How a function can end: at the end of its body, or with a return of a value of its type. -/
def Outcome.Fits (structs : Structs) (ty : Ty) : Outcome → Prop
  | .normal => True
  | .returned value => ∀ v, value = some v → Datum.Fits structs ty v
  | .broke | .continued => False

/-! ## Bodies -/

/-- The code of a body runs from its start to its return instruction. -/
theorem Activation.body_runs {a : Activation} {s s' : Scope} {n m : Handle} {flow : Flow}
    {code : List Instruction} {sig : Signature} {stmts : List Stmt} {params globals : Named Datum}
    {o : Outcome} {τ : Store Datum} {pc : Nat} (hbinds : Binds a.env {} sig.params s)
    (hl : Lays a.env a.frame s n (.block stmts) s' flow code m) (hs : a.stream.Stands pc code)
    (hexit : a.exit = pc + code.length)
    (hparams : Agree (Datum.Fits a.env.structs) sig.variables params)
    (hglobals : Agree (Datum.Fits a.env.structs) a.env.globalVariables globals)
    (hbase : a.base = (a.low ++ globals.cells Datum.cells).length)
    (hreach : a.env.sealed = true ∨ a.env.globals = [])
    (h : Exec a.alu a.env.engine a.env.structs ⟨[params], globals⟩ (.seq stmts) o τ) :
    o.Fits a.env.structs a.frame.returnType ∧
      Agree (Datum.Fits a.env.structs) a.env.globalVariables τ.globals ∧
      a.Runs ⟨pc, a.low ++ globals.cells Datum.cells ++ a.callers ++ a.result ++
          params.cells Datum.cells⟩
        ⟨a.exit, a.low ++ τ.globals.cells Datum.cells ++ a.callers ++ o.result a.result⟩ := by
  obtain ⟨hvalues, htemps, hextends⟩ := block_of_binds hbinds
  have hchain : s.chain = [s.block] := by rw [Scope.chain, hextends.outer]
  have hholds : a.Holds s [[]] ⟨[params], globals⟩ := by
    refine ⟨?_, hglobals, hbase, hreach.imp id .inl⟩
    rw [hchain]
    refine .cons ?_ htemps .nil
    rw [hvalues, List.append_nil]
    exact hparams
  have htargets : a.Targets s := fun x hx => absurd
    ((leaves_of_binds hbinds).mp hx) not_leaves_empty
  obtain ⟨t, c, he, _, ht, harrives, hr⟩ := (exec_simulated h).1 hl hs htargets hholds
  -- The block of the body is the only one, so that nothing is left of the frame behind it.
  have hleave : τ.leave.blocks = [] := by
    obtain ⟨vs, vss, _, _, hvs, hts, _, _, hm⟩ := ht.blocks.inv
    cases hts
    rw [he.outer, hextends.outer] at hm
    cases hm
    simp [Store.leave, hvs]
  have hnone (target : Block → Option Handle) (ht : target s.block = none)
      {tss : List (List Cell)} : leftAt target s.chain τ.blocks tss = none := by
    rw [hchain]
    cases τ.blocks <;> cases tss <;> simp [leftAt, ht]
  have hstart : a.stack ⟨[params], globals⟩ [[]] =
      a.low ++ globals.cells Datum.cells ++ a.callers ++ a.result ++ params.cells Datum.cells := by
    simp [stack, Store.stack, Store.frame]
  rw [hstart] at hr
  cases harrives with
  | normal =>
    refine ⟨trivial, ht.globals, ?_⟩
    simpa [stack, Store.stack, hleave, Store.frame, hexit, Store.leave, Outcome.result] using hr
  | broke hleft _ => simp [hnone (·.breakTo) hextends.breakTo] at hleft
  | continued hleft _ => simp [hnone (·.continueTo) hextends.continueTo] at hleft
  | @returned value hv =>
    refine ⟨hv, ht.globals, ?_⟩
    cases value <;> exact hr

/-! ## Functions of a program -/

theorem Signature.Agrees.variables {sig sig' : Signature} (h : sig.Agrees sig') :
    sig.variables = sig'.variables := by
  have hparams := congrArg (fun ps => ps.reverse.map fun p => Variable.mk p.1 p.2) h.2.2
  simpa [Signature.variables, ← List.map_reverse, Function.comp_def] using hparams

namespace Build

/-- The function of a name is called at `entry`, and its code ends with a return at `exit`. -/
def Spans (s : Session) (name : Name) (entry exit : Nat) : Prop :=
  ∃ k first r, s.env.functions.find? name = some k ∧
    s.out.stream.indexOf? k.entry = some entry ∧
    s.out.stream.Stands entry (⟨k.entry, .nop, none⟩ :: (first ++ [⟨r, .retn, none⟩])) ∧
    exit = entry + 1 + first.length

/-- A call of the function, in any state of the stack and with any arithmetic: whatever the body
means, the code does. From the entry it gets to the return instruction; parameters and locals are
gone then, the globals have their new values, and the result has been returned. -/
def Performs (s : Session) (f : FunctionDef) (entry exit : Nat) : Prop :=
  ∀ (alu : Alu) (low callers result : List Cell) (params globals : Named Datum) (o : Outcome)
    (τ : Store Datum),
    Agree (Datum.Fits s.env.structs) f.signature.variables params →
    Agree (Datum.Fits s.env.structs) s.env.globalVariables globals →
    s.env.sizeOf f.signature.returnType = .ok result.length →
    Exec alu s.env.engine s.env.structs ⟨[params], globals⟩ (.seq f.body) o τ →
    o.Fits s.env.structs f.signature.returnType ∧
      Agree (Datum.Fits s.env.structs) s.env.globalVariables τ.globals ∧
      s.out.stream.Runs alu (low ++ globals.cells Datum.cells).length
        ⟨entry, low ++ globals.cells Datum.cells ++ callers ++ result ++ params.cells Datum.cells⟩
        ⟨exit, low ++ τ.globals.cells Datum.cells ++ callers ++ o.result result⟩

section Functions

variable {engine : Engine} {items : Script} {env : Env} {p : Program} {s : Session}
  {f : FunctionDef}

/-- The body of a function, laid out where the function stands. -/
theorem Assembled.body (h : Assembled engine items env p s) (hf : .function f ∈ items) :
    ∃ (sig : Signature) (fs : Functions) (scope scope' : Scope) (n m retn : Handle) (flow : Flow)
      (first : List Instruction) (entry : Nat), sig.Agrees f.signature ∧
      Binds { s.env with functions := fs } {} sig.params scope ∧
      Lays { s.env with functions := fs } ⟨sig.name, sig.returnType, retn⟩ scope n (.block f.body)
        scope' flow first m ∧
      s.out.stream.indexOf? retn = some (entry + 1 + first.length) ∧
      s.out.stream.Stands (entry + 1) first ∧
      Spans s f.signature.name entry (entry + 1 + first.length) := by
  obtain ⟨mid, hsegs, _⟩ := h.segmented
  obtain ⟨g, hg, hc⟩ := hsegs.defined f hf
  obtain ⟨fs, s₁, s₂, n, m, retn, flow, first, hbody, _, hbinds, hlays⟩ := h.laid hc
  obtain ⟨l, r, hsplit⟩ := List.append_of_mem hg
  have hstands := h.segment hsplit
  rw [Segment.code, hbody, Option.getD_some] at hstands
  have hn : (s.out.stream.code.map (·.handle)).Nodup := by
    rw [h.code_eq]
    exact h.nodup
  refine ⟨g.signature, fs, s₁, s₂, n, m, retn, flow, first, _, hc.1, hbinds, hlays,
    hstands.tail.right.index hn, hstands.tail.left, g.function, first, retn, ?_, hstands.index hn,
    hstands, rfl⟩
  rw [← hc.1.1]
  exact find?_of_mem h.table hsegs.distinct hg

/-- Every function of a program does what its body means. -/
theorem functions_perform {setup : Setup} {script : Script} {u : Unit} (ht : engine.Typed)
    (h : Build.script setup script { env := { engine } } = .ok u s) :
    ∃ items, (Expansion.expand setup [] script).items = .ok items ∧ s.env.engine = engine ∧
      s.env.globals = items.filterMap Item.global? ∧
      ∀ f, .function f ∈ items → ∃ entry exit, Spans s f.signature.name entry exit ∧
        Performs s f entry exit := by
  obtain ⟨items, env, p, hitems, ha⟩ := script_assembled h
  obtain ⟨hengine, hglobal, hbuilt, hsealed⟩ := ha.sees
  refine ⟨items, hitems, hengine, hglobal, ?_⟩
  intro f hf
  obtain ⟨sig, fs, scope, scope', n, m, retn, flow, first, entry, hagrees, hbinds, hlays, hretn,
    hstands, hspans⟩ := ha.body hf
  refine ⟨entry, _, hspans, ?_⟩
  intro alu low callers result params globals o τ hparams hglobals hroom hexec
  have hn : (s.out.stream.code.map (·.handle)).Nodup := by
    rw [ha.code_eq]
    exact ha.nodup
  have hruns := @Activation.body_runs {
    alu, low, callers, result
    env := { s.env with functions := fs }
    frame := ⟨sig.name, sig.returnType, retn⟩
    stream := s.out.stream
    base := (low ++ globals.cells Datum.cells).length
    laid := hbuilt.laid
    typed := by
      rw [← hengine] at ht
      exact ht
    distinct := hn
    room := by
      rw [← hagrees.2.1] at hroom
      exact hroom
    exit := entry + 1 + first.length
    exit_eq := hretn } scope scope' n m flow first sig f.body params globals o τ
      (entry + 1) hbinds hlays
      hstands rfl (by rw [hagrees.variables]; exact hparams) hglobals rfl hsealed hexec
  obtain ⟨hfits, hafter, hruns⟩ := hruns
  rw [← hagrees.2.1]
  obtain ⟨k, first', r, _, _, hnop, _⟩ := hspans
  exact ⟨hfits, hafter, (Stream.runs_nop hnop).trans hruns⟩

end Functions

/-! ## A function that is left from inside -/

/-- A function that returns from a block in a loop, after a switch with a break and an arm that is
fallen into. -/
def pick : FunctionDef :=
  let int (n : Int32) : Expr := .literal (.int n)
  let n : Expr := .access ⟨"n", []⟩
  ⟨⟨.int, "pick", [⟨.int, "n", none⟩]⟩,
    [.declare .int [⟨"seen", none⟩],
     .doWhile
       [.switch n
          [([.case (int 2)], [.breakOut]),
           ([.default], [.expr (.assign .set ⟨"last", []⟩ n)]),
           ([.case (int 3)], [.expr (.step .inc .post ⟨"seen", []⟩), .breakOut])],
        .ifElse (.access ⟨"seen", []⟩)
          [.declare .int [⟨"copy", some n⟩], .ret (some (.access ⟨"copy", []⟩))] none]
       (int 1),
     .ret (some (int 0))]⟩

def picking : Script :=
  [.global ⟨false, .int, "last", none⟩, .function ⟨⟨.void, "main", []⟩, []⟩, .function pick]

/-- Arithmetic that counts, and finds no two values equal. -/
def counting : Alu := { (default : Alu) with step := fun _ n => n + 1 }

/-- The store of the function, `inner` being the blocks in the loop. -/
def pickStore (inner : List (Named Datum)) (seen last : Int32) : Store Datum :=
  ⟨inner ++ [[("seen", .cell (.int seen)), ("n", .cell (.int 7))]], [("last", .cell (.int last))]⟩

theorem pick_exec (structs : Structs) :
    Exec counting {} structs ⟨[[("n", .cell (.int 7))]], [("last", .cell (.int 0))]⟩
      (.seq pick.body) (.returned (some (.cell (.int 7)))) (pickStore [] 1 7) := by
  have hint (n : Int32) : Datum.Fits structs .int (.cell (.int n)) := rfl
  have hzero : Datum.Zero (.cell (.int 0)) := by
    simp [Datum.Zero, Datum.cells, Cell.zero, Cell.kind]
  refine .seqNext (.declare (.plain rfl (hint 0) hzero .nil)) (.seqLeft ?_ (by simp))
  refine @Exec.doLeft _ _ _ _ (pickStore [[]] 1 7) _ _ (.returned _)
    (@Exec.seqNext _ _ _ _ (pickStore [[]] 1 7) _ _ _ _ ?_ (.seqLeft ?_ (by simp))) rfl
  · -- No label is equal, so that the default is selected, and the arm behind it is fallen into.
    exact @Exec.switch _ _ _ _ _ (pickStore [[]] 0 0)
      (pickStore [[], []] 1 7) _ _ 1 _ .broke rfl rfl (.armsNext (.seqNext (.expr rfl) .seqEnd)
        (.armsLeft (.seqNext (.expr rfl) (.seqLeft .breakOut (by simp))) (by simp)))
  · exact @Exec.ifTrue _ _ _ _ _ (pickStore [[("copy", .cell (.int 7))], []] 1 7) _ _ _ _ rfl
      (.seqNext (.declare (.initialized rfl (hint 0) hzero rfl rfl .nil))
        (.seqLeft (.exitWith rfl) (by simp)))

theorem pick_performs :
    ∃ s entry exit, Build.script {} picking { env := { engine := {} } } = .ok () s ∧
      Spans s "pick" entry exit ∧
      s.out.stream.Runs counting 1
        ⟨entry, [.int 0] ++ [.float ⟨1⟩] ++ [.int 0] ++ [.int 7]⟩
        ⟨exit, [.int 7] ++ [.float ⟨1⟩] ++ [.int 7]⟩ := by
  obtain ⟨s, hs⟩ := @compiles_of_gives picking { env := { engine := {} } } rfl (by decide +kernel)
  obtain ⟨items, hitems, hengine, hglobals, hfunctions⟩ :=
    functions_perform (by simp [Engine.Typed]) hs
  rw [Expansion.expand_plain rfl] at hitems
  cases hitems
  obtain ⟨entry, exit, hspans, hperforms⟩ := hfunctions pick (by simp [picking])
  have hparam : Agree (Datum.Fits s.env.structs) pick.signature.variables [("n", .cell (.int 7))] :=
    .cons rfl .nil
  have hlast : Agree (Datum.Fits s.env.structs) s.env.globalVariables
      [("last", .cell (.int 0))] := by
    rw [Env.globalVariables, hglobals]
    exact .cons rfl .nil
  have hexec := pick_exec s.env.structs
  rw [← hengine] at hexec
  exact ⟨s, entry, exit, hs, hspans,
    (hperforms counting [] [.float ⟨1⟩] [.int 0] _ _ _ _ hparam hlast rfl hexec).2.2⟩

end Build

end NwScript
