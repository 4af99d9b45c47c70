-- Ways out of blocks. Whatever blocks, variables and pending values lie between a `break` or a
-- `continue` and the block that it leaves, exactly they are popped: the stack is as high again as
-- when that block was entered.
import NwScript.Proofs.Codegen.Lays
import NwScript.Proofs.Machine.Cell
import NwScript.Proofs.Storage.Sized

namespace NwScript

namespace Scope

section Unwinding

variable {env : Env} {target : Block → Option Handle} {b : Block} {inner outer : List Block}
  {h : Handle} {passed : Int}

theorem depth_append : depth env (inner ++ outer) = depth env inner + depth env outer := by
  induction inner with
  | nil => simp [depth]
  | cons b inner ih =>
    simp only [List.cons_append, depth, ih]
    omega

theorem depth_fits (h : ∀ n ∈ counted env outer, Count.Fits n) : Count.Fits (depth env outer) := by
  cases outer with
  | nil => exact Count.fits_zero
  | cons b outer => exact h _ (by simp [counted])

/-- A block that was just entered has nothing on the stack. -/
theorem fullSize_fresh (hvalues : b.values = []) (htemps : b.temps = 0)
    (hsized : ∀ c ∈ outer, ∀ v ∈ c.values, env.Sized v.ty) :
    (Scope.mk b outer).fullSize env = height env outer := by
  have hextent : b.extent env = 0 := by simp [Block.extent, hvalues, htemps, Env.extents]
  have hdepth : depth env (b :: outer) = depth env outer := by rw [depth, hextent, Int.zero_add]
  have hb : ∀ c ∈ b :: outer, ∀ v ∈ c.values, env.Sized v.ty :=
    List.forall_mem_cons.mpr ⟨by simp [hvalues], hsized⟩
  rw [fullSize, chain, height_within hb, height_within hsized, hdepth]
  apply Count.within_congr
  have hextents : env.extents b.values = 0 := by simp [hvalues, Env.extents]
  simp only [counted, hdepth, hextent, hextents, Int.natCast_zero, List.forall_mem_cons,
    List.forall_mem_append, List.not_mem_nil, false_implies, implies_true, and_true]
  exact ⟨fun hall => hall.2.2.1, fun houter =>
    ⟨Count.fits_zero, Count.fits_zero, houter, depth_fits houter⟩⟩

/-- The numbers that come up on the way out of some blocks. -/
def climbed (env : Env) (passed : Int) : List Block → List Int
  | [] => []
  | b :: outer =>
    (env.extents b.values : Int) :: b.extent env :: (passed + b.extent env) ::
      climbed env (passed + b.extent env) outer

/-- A block without a target is passed, and what is on its stack is counted. -/
theorem unwind_pass (hsized : ∀ v ∈ b.values, env.Sized v.ty) (hb : target b = none)
    {found : Option (Handle × Int)} {ns : List Int}
    (houter : unwind env target outer (passed + b.extent env) = Count.within ns found) :
    unwind env target (b :: outer) passed =
      Count.within ((env.extents b.values : Int) :: b.extent env :: (passed + b.extent env) :: ns)
        found := by
  simp only [unwind, Block.size_within hsized, Count.checked_within, hb]
  exact Count.within_bind (l := b.extent env :: (passed + b.extent env) :: ns) fun _ =>
    Count.within_bind (l := (passed + b.extent env) :: ns) fun _ =>
      Count.within_bind fun _ => houter

theorem unwind_hit (hsized : ∀ v ∈ b.values, env.Sized v.ty) (hb : target b = some h) :
    unwind env target (b :: outer) passed =
      Count.within (climbed env passed [b]) (some (h, passed + b.extent env)) := by
  simp only [unwind, Block.size_within hsized, Count.checked_within, hb]
  exact Count.within_bind (l := [b.extent env, passed + b.extent env]) fun _ =>
    Count.within_bind (l := [passed + b.extent env]) fun _ =>
      Count.within_bind (l := []) fun _ => by rfl

/-- Where no block has a target, none is found. -/
theorem unwind_none (hsized : ∀ b ∈ outer, ∀ v ∈ b.values, env.Sized v.ty)
    (hnone : ∀ b ∈ outer, target b = none) :
    unwind env target outer passed = Count.within (climbed env passed outer) none := by
  induction outer generalizing passed with
  | nil => rfl
  | cons b outer ih =>
    obtain ⟨hb, houter⟩ := List.forall_mem_cons.mp hnone
    exact unwind_pass (hsized b List.mem_cons_self) hb
      (ih (fun c hc => hsized c (List.mem_cons_of_mem _ hc)) houter)

/-- What is popped on the way to the nearest target: everything down to the bottom of its block. -/
theorem unwind_nearest
    (hsized : ∀ c ∈ inner ++ b :: outer, ∀ v ∈ c.values, env.Sized v.ty)
    (hinner : ∀ c ∈ inner, target c = none) (hb : target b = some h) :
    unwind env target (inner ++ b :: outer) passed =
      Count.within (climbed env passed (inner ++ [b]))
        (some (h, passed + depth env (inner ++ [b]))) := by
  induction inner generalizing passed with
  | nil => simpa [depth] using unwind_hit (hsized b List.mem_cons_self) hb
  | cons c inner ih =>
    obtain ⟨hc, hinner⟩ := List.forall_mem_cons.mp hinner
    have hrest := @ih (passed + c.extent env) (fun d hd => hsized d (List.mem_cons_of_mem _ hd))
      hinner
    rw [Int.add_assoc] at hrest
    exact unwind_pass (hsized c List.mem_cons_self) hc hrest

/-- Where nothing is taken away, the numbers on the way out are none too many if the last one is
not. -/
theorem climbed_fits (hpassed : 0 ≤ passed) (htemps : ∀ c ∈ inner ++ [b], 0 ≤ c.temps) :
    (∀ n ∈ climbed env passed (inner ++ [b]), Count.Fits n) ↔
      Count.Fits (passed + depth env (inner ++ [b])) := by
  have hvalues (c : Block) (hc : 0 ≤ c.temps) : (env.extents c.values : Int) ≤ c.extent env := by
    unfold Block.extent
    omega
  induction inner generalizing passed with
  | nil =>
    have hb := hvalues b (htemps b (by simp))
    simp only [List.nil_append, climbed, depth, Int.add_zero, List.forall_mem_cons,
      List.not_mem_nil, false_implies, implies_true, and_true]
    refine ⟨fun hall => hall.2.2, fun hfits => ⟨?_, ?_, hfits⟩⟩
    all_goals exact Count.fits_zero.between hfits (by omega) (by omega)
  | cons c inner ih =>
    obtain ⟨hc, hrest⟩ := List.forall_mem_cons.mp htemps
    have hextent := hvalues c hc
    have hnonneg := @depth_nonneg env (inner ++ [b]) hrest
    simp only [List.cons_append, climbed, depth, List.forall_mem_cons,
      @ih (passed + c.extent env) (by omega) hrest, Int.add_assoc]
    refine ⟨fun hall => hall.2.2.2, fun hfits => ⟨?_, ?_, ?_, hfits⟩⟩
    all_goals exact Count.fits_zero.between hfits (by omega) (by omega)

end Unwinding

end Scope

/-! ## Break and continue -/

/-- The statements that leave blocks. -/
inductive Way where
  | breakOut
  | continueLoop

namespace Way

def stmt : Way → Stmt
  | .breakOut => .breakOut
  | .continueLoop => .continueLoop

/-- Where a block sends the statement. -/
def target : Way → Block → Option Handle
  | .breakOut, b => b.breakTo
  | .continueLoop, b => b.continueTo

/-- Where the statement goes from a scope, and what it pops before. -/
def found (way : Way) (s : Scope) (env : Env) : Except Failure (Option (Handle × Int)) :=
  match way with
  | .breakOut => s.breakTarget env
  | .continueLoop => s.continueTarget env

/-- Where some block has a target, one is the nearest. -/
theorem exists_nearest {target : Block → Option Handle} {chain : List Block}
    (h : ¬∀ b ∈ chain, target b = none) :
    ∃ inner b outer h, chain = inner ++ b :: outer ∧ (∀ c ∈ inner, target c = none) ∧
      target b = some h := by
  induction chain with
  | nil => simp at h
  | cons b outer ih =>
    cases hb : target b with
    | some h => exact ⟨[], b, outer, h, rfl, by simp, hb⟩
    | none =>
      obtain ⟨inner, c, rest, h', rfl, hinner, hc⟩ := ih fun hall =>
        h (List.forall_mem_cons.mpr ⟨hb, hall⟩)
      exact ⟨b :: inner, c, rest, h', rfl, List.forall_mem_cons.mpr ⟨hb, hinner⟩, hc⟩

theorem found_eq (way : Way) (s : Scope) (env : Env) :
    way.found s env = Scope.unwind env way.target s.chain 0 := by
  cases way <;> rfl

/-- The statement leaves some blocks for the target of the last of them, and of the `full` slots
above the frame `below` ones stay, as long as they can be counted. -/
structure Pops (way : Way) (env : Env) (s : Scope) (h : Handle) (left outer : List Block)
    (full below : Int) : Prop where
  here : s.fullSize env = Count.within (Scope.counted env s.chain) full
  around : Scope.height env outer = Count.within (Scope.counted env outer) below
  /-- The block of the target was entered on a stack of that height. -/
  entered : ∀ fresh : Block, fresh.values = [] → fresh.temps = 0 →
    (Scope.mk fresh outer).fullSize env = Scope.height env outer
  found : way.found s env =
    Count.within (Scope.climbed env 0 left) (some (h, full - below))
  /-- If no block takes slots away, nothing on the way is larger than what is found. -/
  plain : (∀ b ∈ s.chain, 0 ≤ b.temps) → s.fullSize env = Count.within [full] full ∧
    Scope.height env outer = Count.within [below] below ∧
    way.found s env = Count.within [full - below] (some (h, full - below))
  /-- With handles for both, the pop and the jump are written. -/
  code : ∀ (frame : Codegen.Frame) (st : Codegen.State), st.scope = s →
    (∀ n ∈ -(full - below) :: Scope.climbed env 0 left, Count.Fits n) →
    st.next + 2 ≤ Handle.limit →
    Codegen.stmt env frame way.stmt st = .ok .next (st.wrote
      [⟨st.next, .moveSp (-(full - below)), none⟩, ⟨st.next + 1, .jump .jmp, some h⟩]
      (st.next + 2))
  /-- On the machine, the lowest slots stay as they are and all others go. -/
  restores : (∀ b ∈ s.chain, 0 ≤ b.temps) → ∀ (alu : Alu) (base depth : Nat) (stack : List Cell),
    (stack.length : Int) = depth + full →
    ∃ rest, Op.effect alu base stack (.moveSp (-(full - below))) = some rest ∧
      (rest.length : Int) = depth + below ∧ rest <+: stack

section Pops

variable {way : Way} {env : Env} {s : Scope} {h : Handle}

theorem leave_found {st : Codegen.State} {keyword : String} {size : Int}
    {target : Except Failure (Option (Handle × Int))} (ht : target = .ok (some (h, size)))
    (hfits : Count.Fits (-size)) (hroom : st.next + 2 ≤ Handle.limit) :
    Codegen.leave keyword target st = .ok () (st.wrote
      [⟨st.next, .moveSp (-size), none⟩, ⟨st.next + 1, .jump .jmp, some h⟩] (st.next + 2)) := by
  subst ht
  have hfirst : st.next < Handle.limit := Nat.lt_of_lt_of_le (by simp) hroom
  rw [Codegen.leave, bind_ok]
  refine ⟨some (h, size), st, rfl, ?_⟩
  dsimp only
  rw [bind_ok]
  exact ⟨(), _, Codegen.pop_ok.mpr ⟨⟨hfits, hfirst⟩, rfl⟩,
    Codegen.jump_ok.mpr ⟨hroom, by simp⟩⟩

theorem stmt_found {frame : Codegen.Frame} {st : Codegen.State} {size : Int} (hst : st.scope = s)
    (hfound : way.found s env = .ok (some (h, size))) (hfits : Count.Fits (-size))
    (hroom : st.next + 2 ≤ Handle.limit) :
    Codegen.stmt env frame way.stmt st = .ok .next (st.wrote
      [⟨st.next, .moveSp (-size), none⟩, ⟨st.next + 1, .jump .jmp, some h⟩] (st.next + 2)) := by
  subst hst
  cases way with
  | breakOut =>
    simp only [Way.stmt, Codegen.stmt, bind_ok, Codegen.scope_ok, pure_ok]
    exact ⟨_, _, ⟨rfl, rfl⟩, _, _, leave_found hfound hfits hroom, trivial, rfl⟩
  | continueLoop =>
    simp only [Way.stmt, Codegen.stmt, bind_ok, Codegen.scope_ok, pure_ok]
    exact ⟨_, _, ⟨rfl, rfl⟩, _, _, leave_found hfound hfits hroom, trivial, rfl⟩

/-- A stack is cut down to a height. -/
theorem effect_cut {alu : Alu} {base : Nat} {stack : List Cell} {high low : Int}
    (hstack : (stack.length : Int) = high) (hlow : 0 ≤ low) (hle : low ≤ high) :
    ∃ rest, Op.effect alu base stack (.moveSp (-(high - low))) = some rest ∧
      (rest.length : Int) = low ∧ rest <+: stack := by
  have hlength : ((stack.take low.toNat).length : Int) = low := by
    rw [List.length_take]
    omega
  refine ⟨stack.take low.toNat, ?_, hlength, List.take_prefix _ _⟩
  have hcut := @effect_moveSp alu base (stack.take low.toNat) (stack.drop low.toNat)
    (-(high - low)) (by rw [List.length_drop]; omega)
  rwa [List.take_append_drop] at hcut

end Pops

end Way

/-- For every scope in which all types are known, whatever variables, temporaries and targets its
blocks have: a `break` (or a `continue`) goes nowhere exactly if no block from here outward has a
target for it. Otherwise it goes to the target of the nearest block that has one, and pops the
difference between the height here and the height of the blocks around that block. So on the machine
the stack becomes as high as it was when the block was entered. All this holds as far as the slots
can be counted; where they cannot, there is no answer. -/
theorem unwinding_exact {env : Env} {s : Scope} (hsized : s.Sized env) (way : Way) :
    (way.found s env = .ok none ↔ (∀ b ∈ s.chain, way.target b = none) ∧
      ∀ n ∈ Scope.climbed env 0 s.chain, Count.Fits n) ∧
    ∀ inner b outer h, s.chain = inner ++ b :: outer → (∀ c ∈ inner, way.target c = none) →
      way.target b = some h → way.Pops env s h (inner ++ [b]) outer (Scope.depth env s.chain)
        (Scope.depth env outer) := by
  have hnearest : ∀ inner b outer h, s.chain = inner ++ b :: outer →
      (∀ c ∈ inner, way.target c = none) → way.target b = some h →
      way.found s env = Count.within (Scope.climbed env 0 (inner ++ [b]))
        (some (h, Scope.depth env (inner ++ [b]))) := by
    intro inner b outer h hchain hinner hb
    unfold Scope.Sized at hsized
    rw [hchain] at hsized
    rw [Way.found_eq, hchain, Scope.unwind_nearest hsized hinner hb, Int.zero_add]
  refine ⟨?_, ?_⟩
  · by_cases hnone : ∀ b ∈ s.chain, way.target b = none
    · rw [Way.found_eq, Scope.unwind_none hsized hnone, Count.within_ok]
      exact ⟨fun h => ⟨hnone, h.1⟩, fun h => ⟨h.2, rfl⟩⟩
    · -- the first block with a target is the one that is found
      obtain ⟨inner, b, outer, h, hchain, hinner, hb⟩ := Way.exists_nearest hnone
      rw [hnearest inner b outer h hchain hinner hb, Count.within_ok]
      simp [hnone]
  · intro inner b outer h hchain hinner hb
    have hfound := hnearest inner b outer h hchain hinner hb
    have hdepth : Scope.depth env (inner ++ [b]) =
        Scope.depth env s.chain - Scope.depth env outer := by
      rw [hchain, Scope.depth_append, Scope.depth_append, Scope.depth, Scope.depth, Scope.depth]
      omega
    have houter : ∀ c ∈ outer, ∀ v ∈ c.values, env.Sized v.ty := fun c hc =>
      hsized c (by simp [hchain, hc])
    rw [hdepth] at hfound
    refine ⟨Scope.height_within hsized, Scope.height_within houter, ?_, hfound, ?_, ?_, ?_⟩
    · intro fresh hvalues htemps
      exact Scope.fullSize_fresh hvalues htemps houter
    · intro htemps
      have hleft : ∀ c ∈ inner ++ [b], 0 ≤ c.temps := fun c hc => htemps c (by grind)
      refine ⟨?_, ?_, ?_⟩
      · rw [Scope.fullSize, Scope.height_within hsized]
        exact Count.within_congr (Scope.counted_fits htemps)
      · rw [Scope.height_within houter]
        exact Count.within_congr (Scope.counted_fits fun c hc => htemps c (by simp [hchain, hc]))
      · rw [hfound]
        apply Count.within_congr
        rw [Scope.climbed_fits (Int.le_refl 0) hleft, Int.zero_add, hdepth,
          List.forall_mem_singleton]
    · intro frame st hst hfits hroom
      obtain ⟨hpop, hclimbed⟩ := List.forall_mem_cons.mp hfits
      exact Way.stmt_found hst (hfound.trans (Count.within_of_fits hclimbed)) hpop hroom
    · intro htemps alu base depth stack hstack
      -- what is popped is there, as no block takes slots away
      have hlow := @Scope.depth_nonneg env outer fun c hc => htemps c (by simp [hchain, hc])
      have hleft := @Scope.depth_nonneg env (inner ++ [b]) fun c hc => htemps c (by grind)
      have hcut := @Way.effect_cut alu base stack (depth + Scope.depth env s.chain)
        (depth + Scope.depth env outer) hstack (by omega) (by omega)
      rwa [Int.add_sub_add_left] at hcut

namespace Detour

/-- The block of a function. -/
def outermost : Block := { values := [⟨"i", .int⟩] }

/-- The body of a loop, on which the value of a `switch` is pending. -/
def loop : Block :=
  { values := [⟨"n", .int⟩], temps := 1, breakTo := some 0, continueTo := some 1 }

/-- The arms of the `switch`, which can be left but not continued. -/
def arms : Block := { values := [⟨"k", .vector⟩], breakTo := some 2 }

def scope : Scope := ⟨{}, [arms, loop, outermost]⟩

end Detour

open Detour in
/-- A `break` leaves the arms and pops their three slots. A `continue` also leaves the loop, with
the value that is pending there. -/
theorem detour_exact :
    scope.Sized {} ∧ Way.breakOut.Pops {} scope 2 [{}, arms] [loop, outermost] 6 3 ∧
      Way.continueLoop.Pops {} scope 1 [{}, arms, loop] [outermost] 6 1 ∧
      scope.breakTarget {} = .ok (some (2, 3)) ∧ scope.continueTarget {} = .ok (some (1, 5)) := by
  have hsized : scope.Sized {} := by
    have hbuiltin : ∀ b ∈ scope.chain, ∀ v ∈ b.values, v.ty.structName? = none := by decide
    exact fun b hb v hv => Env.sized_builtin (hbuiltin b hb v hv)
  have hbreak := (unwinding_exact hsized .breakOut).2 [{}] arms [loop, outermost] 2 rfl (by decide)
    rfl
  have hcontinue := (unwinding_exact hsized .continueLoop).2 [{}, arms] loop [outermost] 1 rfl
    (by decide) rfl
  exact ⟨hsized, hbreak, hcontinue, hbreak.found, hcontinue.found⟩

end NwScript
