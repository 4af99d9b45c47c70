-- Whole programs verify: there are shapes for all instructions of the globals and of the functions,
-- so that each of them finds its operands, and control always arrives with the shape that is there.
import NwScript.Proofs.Shape.Stmt
import NwScript.Proofs.Shape.Globals
import NwScript.Proofs.Program.Layout

namespace NwScript

open Codegen

/-! ## Functions -/

/-- The return at the end of a function finds just the slots of the result. -/
def Returns (whole : Env) (segs : List Segment) (spots : List Spot) (x : Spot) : Prop :=
  ∃ l g r front back, segs = l ++ g :: r ∧ spots = front ++ x :: back ∧
    (front ++ [x]).map Spot.instr = (l ++ [g]).flatMap Segment.code ∧
    whole.shape? g.signature.returnType = some x.shape

/-- The entry of a function finds the slots of the result and above them the parameters. -/
def Enters (whole : Env) (sig : Signature) (shape : Shape) : Prop :=
  ∃ result params, whole.shape? sig.returnType = some result ∧
    whole.shapes? (sig.params.map (·.ty)) = some params ∧ shape = result ++ params

/-- Shapes for functions one behind the other, with `behind` as the shape that follows. -/
structure Checked (whole : Env) (segs : List Segment) (behind : Shape) (spots : List Spot) :
    Prop where
  code : spots.map Spot.instr = segs.flatMap Segment.code
  linked : Linked whole (Spotted spots) spots behind
  entries : ∀ l g r, segs = l ++ g :: r → g.body.isSome → ∃ front x back,
    spots = front ++ x :: back ∧ front.map Spot.instr = l.flatMap Segment.code ∧
      Enters whole g.signature x.shape
  snapshots : ∀ x ∈ spots, ∀ globals locals, x.instr.op = .storeState globals locals →
    ∃ y, Defers spots x y
  returns : ∀ x ∈ spots, x.instr.op = .retn →
    (∃ y, Defers spots y x) ∨ Returns whole segs spots x

section Functions

variable {env whole : Env} {segs segs' : List Segment} {g : Segment} {behind below : Shape}
  {spots spots' : List Spot} {x : Spot}

theorem Returns.within (h : Returns whole segs spots x) (hs : spots'.map Spot.instr =
    segs'.flatMap Segment.code) (more : List Segment) (rest : List Spot) :
    Returns whole (segs' ++ segs ++ more) (spots' ++ spots ++ rest) x := by
  obtain ⟨l, g, r, front, back, rfl, rfl, hcode, hshape⟩ := h
  refine ⟨segs' ++ l, g, r ++ more, spots' ++ front, back ++ rest, by simp, by simp, ?_, hshape⟩
  rw [List.append_assoc, List.map_append, hs, hcode]
  simp

theorem Checked.append (h : Checked whole segs (entering spots' behind) spots)
    (h' : Checked whole segs' behind spots') :
    Checked whole (segs ++ segs') behind (spots ++ spots') := by
  have hleft : ∀ x ∈ spots, x ∈ spots ++ spots' := fun x => List.mem_append_left _
  have hright : ∀ x ∈ spots', x ∈ spots ++ spots' := fun x => List.mem_append_right _
  refine ⟨by simp [h.code, h'.code], linked_append.mpr ⟨h.linked.mono fun t x => .mono hleft,
    h'.linked.mono fun t x => .mono hright⟩, ?_, ?_, ?_⟩
  · intro l g r hsplit hb
    rcases List.append_eq_append_iff.mp hsplit with ⟨l', rfl, hr⟩ | ⟨r', hl, hr⟩
    · obtain ⟨front, x, back, rfl, hfront, henters⟩ := h'.entries l' g r hr hb
      exact ⟨spots ++ front, x, back, by simp, by simp [h.code, hfront], henters⟩
    · cases r' with
      | nil =>
        obtain ⟨front, x, back, rfl, hfront, henters⟩ := h'.entries [] g r hr.symm hb
        refine ⟨spots ++ front, x, back, by simp, ?_, henters⟩
        simp [h.code, hfront, hl]
      | cons g' r' =>
        cases hr
        obtain ⟨front, x, back, rfl, hfront, henters⟩ := h.entries l g r' hl hb
        exact ⟨front, x, back ++ spots', by simp, hfront, henters⟩
  · intro x hx a b hop
    rcases List.mem_append.mp hx with hx | hx
    · obtain ⟨y, hy⟩ := h.snapshots x hx a b hop
      exact ⟨y, by simpa using hy.within [] spots'⟩
    · obtain ⟨y, hy⟩ := h'.snapshots x hx a b hop
      exact ⟨y, by simpa using hy.within spots []⟩
  · intro x hx hop
    rcases List.mem_append.mp hx with hx | hx
    · refine (h.returns x hx hop).imp ?_ fun hr => ?_
      · rintro ⟨y, hy⟩
        exact ⟨y, by simpa using hy.within [] spots'⟩
      · simpa using @Returns.within _ _ [] _ [] _ hr rfl segs' spots'
    · refine (h'.returns x hx hop).imp ?_ fun hr => ?_
      · rintro ⟨y, hy⟩
        exact ⟨y, by simpa using hy.within spots []⟩
      · simpa using hr.within h.code [] []

/-- Control goes on from a function that is only announced to what is behind it. -/
theorem checked_announced (h : g.body = none) :
    Checked whole [g] behind [⟨⟨g.entry, .nop, none⟩, behind⟩] := by
  refine ⟨by simp [Segment.code, h], ⟨⟨_, rfl, fun _ => rfl, nofun⟩, trivial⟩, ?_, ?_, ?_⟩
  · intro l k r hsplit hb
    obtain ⟨rfl, rfl, rfl⟩ : l = [] ∧ k = g ∧ r = [] := by
      cases l <;> simp_all
    simp [h] at hb
  · simp
  · simp

theorem binds_outlined {s s' : Scope} {params : List Param} {tss : List Shape}
    (hp : env.PartOf whole) (h : Binds env s params s')
    (ho : Outlined env whole s below ([] :: tss)) :
    (∀ p ∈ params, env.structs.slots p.ty = .ok (whole.kinds p.ty)) ∧
      Outlined env whole s' below ([] :: tss) ∧
      s'.outline whole below ([] :: tss) =
        s.outline whole below ([] :: tss) ++ params.flatMap fun p => whole.kinds p.ty := by
  induction h with
  | nil => exact ⟨by simp, ho, by simp⟩
  | cons hk _ ih =>
    obtain ⟨hslots, _⟩ := hp.sized hk
    obtain ⟨ho', houtline⟩ := ho.declare hslots
    obtain ⟨hknown, hlast, hrest⟩ := ih ho'
    refine ⟨?_, hlast, by simp [hrest, houtline]⟩
    intro p hmem
    rcases List.mem_cons.mp hmem with rfl | hmem
    · exact hslots
    · exact hknown p hmem

/-- The code of a body goes from the result and the parameters to the result alone. -/
theorem body_inOrder {frame : Frame} {scope scope' : Scope} {params : List Param} {body : List Stmt}
    {n m : Handle} {flow : Flow} {code : List Instruction} (hp : env.PartOf whole)
    (hsealed : env.sealed = true ∨ env.globals = []) (hbinds : Binds env {} params scope)
    (hlays : Lays env frame scope n (.block body) scope' flow code m) :
    InOrder whole (fun t x => t = frame.retn ∧ x = whole.kinds frame.returnType) []
      (whole.kinds frame.returnType ++ params.flatMap fun p => whole.kinds p.ty) code
      (whole.kinds frame.returnType) := by
  obtain ⟨hempty, hnone⟩ := @outlined_empty env whole (whole.kinds frame.returnType)
    (hsealed.imp_right .inl)
  obtain ⟨_, ho, houtline⟩ := binds_outlined hp hbinds hempty
  obtain ⟨_, _, hextends⟩ := block_of_binds hbinds
  rw [hnone] at houtline
  have hall := (lays_orderly hp rfl hlays [] ho).2
    (fun t x => t = frame.retn ∧ x = whole.kinds frame.returnType)
      (whole.kinds frame.returnType) ?_ ?_
  · rw [houtline] at hall
    exact hall
  · -- There is only one block, and it has no targets.
    rintro t x (⟨vss, tss, hleft, _⟩ | hx)
    · simp [Scope.chain, leftAt, hextends.breakTo, hextends.continueTo, hextends.outer] at hleft
    · exact hx
  · intro _
    simp [Piece.leaves, (Scope.Extends.of_lays hlays).outer, hextends.outer, Store.frame]

theorem checked_defined {scope scope' : Scope} {body : List Stmt} {n m retn : Handle} {flow : Flow}
    {first : List Instruction} (hp : env.PartOf whole)
    (hsealed : env.sealed = true ∨ env.globals = [])
    (hret : ∃ ks, env.structs.slots g.signature.returnType = .ok ks)
    (hbody : g.body = some (first ++ [⟨retn, .retn, none⟩]))
    (hbinds : Binds env {} g.signature.params scope)
    (hlays : Lays env ⟨g.signature.name, g.signature.returnType, retn⟩ scope n (.block body) scope'
      flow first m) : ∃ spots, Checked whole [g] behind spots := by
  obtain ⟨hempty, _⟩ := @outlined_empty env whole (whole.kinds g.signature.returnType)
    (hsealed.imp_right .inl)
  obtain ⟨hparams, _⟩ := binds_outlined hp hbinds hempty
  obtain ⟨spots, hcode, _, hchain⟩ := body_inOrder hp hsealed hbinds hlays
  let result := whole.kinds g.signature.returnType
  let params := g.signature.params.flatMap fun p => whole.kinds p.ty
  let entry : Spot := ⟨⟨g.entry, .nop, none⟩, result ++ params⟩
  let last : Spot := ⟨⟨retn, .retn, none⟩, result⟩
  have hresult : whole.shape? g.signature.returnType = some result :=
    hret.elim fun ks hks => hp.known_shape hks
  have hargs : whole.shapes? (g.signature.params.map (·.ty)) = some params := by
    rw [Env.shapes?_of_slots, List.flatMap_map]
    intro ty hty
    obtain ⟨p, hmem, rfl⟩ := List.mem_map.mp hty
    exact hp.slots _ _ (hparams p hmem)
  have hinside : ∀ x ∈ spots, x ∈ entry :: (spots ++ [last]) := by simp +contextual
  refine ⟨entry :: (spots ++ [last]), by simp [entry, last, hcode, Segment.code, hbody],
    ?_, ?_, ?_, ?_⟩
  · have hfirst : Linked whole (Spotted (entry :: (spots ++ [last]))) spots result := by
      refine hchain.linked.mono fun t x hx => ?_
      rcases hx with ⟨rfl, rfl⟩ | hx
      · exact ⟨last, by simp, rfl, rfl⟩
      · exact hx.mono hinside
    have hend : last.Leads whole (Spotted (entry :: (spots ++ [last]))) behind :=
      ⟨_, rfl, (by intro hop; cases hop), (by intro hop; cases hop)⟩
    refine ⟨⟨_, rfl, fun _ => ?_, (by intro hop; cases hop)⟩,
      linked_append.mpr ⟨hfirst, hend, trivial⟩⟩
    rw [entering_append]
    exact hchain.entering
  · intro l k r hsplit _
    obtain ⟨rfl, rfl, rfl⟩ : l = [] ∧ k = g ∧ r = [] := by
      cases l <;> simp_all
    exact ⟨[], entry, spots ++ [last], rfl, rfl, result, params, hresult, hargs, rfl⟩
  · intro x hx globals locals hop
    simp only [List.mem_cons, List.mem_append, List.not_mem_nil, or_false] at hx
    rcases hx with rfl | hx | rfl
    · cases hop
    · obtain ⟨y, hy⟩ := (hchain.paired x hx).1 globals locals hop
      exact ⟨y, hy.within [entry] [last]⟩
    · cases hop
  · intro x hx hop
    simp only [List.mem_cons, List.mem_append, List.not_mem_nil, or_false] at hx
    rcases hx with rfl | hx | rfl
    · cases hop
    · obtain ⟨y, hy⟩ := (hchain.paired x hx).2 hop
      exact .inl ⟨y, hy.within [entry] [last]⟩
    · refine .inr ⟨[], g, [], entry :: spots, [], rfl, rfl, ?_, hresult⟩
      simp [entry, last, hcode, Segment.code, hbody]

theorem checked_all (h : ∀ g ∈ segs, ∀ behind, ∃ spots, Checked whole [g] behind spots) :
    ∃ spots, Checked whole segs behind spots := by
  induction segs with
  | nil => exact ⟨[], rfl, trivial, by simp, by simp, by simp⟩
  | cons g rest ih =>
    obtain ⟨more, hmore⟩ := ih fun k hk => h k (List.mem_cons_of_mem _ hk)
    obtain ⟨spots, hspots⟩ := h g List.mem_cons_self (entering more behind)
    exact ⟨spots ++ more, hspots.append hmore⟩

end Functions

end NwScript
