-- Handles stay good while a stream is edited. Whatever is put in between or aimed anew, every
-- instruction keeps its handle and its place among the others, and jumps lead where they led.
import Mathlib.Data.List.Forall2
import NwScript.Proofs.Ending
import NwScript.Proofs.Machine.Edits
import NwScript.Proofs.Machine.Stands

namespace NwScript

/-! ## Changes -/

/-- A stream that is worked on, and the new instructions that have no place yet. -/
structure Draft where
  stream : Stream
  loose : List Instruction := []
deriving DecidableEq

abbrev Drafting := EStateM Failure Draft

namespace Draft

def edit {α : Type} (e : Edit α) : Drafting α :=
  focus (·.stream) (fun d stream => { d with stream }) e

/-- Works on another stream, with the same loose instructions. -/
def onFork (fork : Stream) (x : Drafting Unit) : Drafting Draft := fun d =>
  match x { d with stream := fork } with
  | .ok _ e => .ok e d
  | .error f _ => .error f d

/-- An error is left alone. -/
def attempt (x : Drafting Unit) : Drafting Unit := fun d => .ok () (ending (x d))

end Draft

/-- A change that takes no new handle. -/
inductive Move where
  /-- Places a loose instruction at the end. -/
  | place (handle : Handle)
  /-- Sets the destination of an instruction. -/
  | aim (handle target : Handle)

inductive Change where
  | add (op : Op) (target : Option Handle)
  | insert (index : Nat) (op : Op) (target : Option Handle)
  | detach (op : Op) (target : Option Handle)
  | move (m : Move)
  /-- Edits a fork and splices it in behind a marker. Between the two, the stream itself takes no
  new handle. -/
  | graft (side : List Change) (meanwhile : List Move) (marker : Handle)

namespace Move

/-- Only what is loose can be placed. A destination that cannot be set is left alone. -/
def run : Move → Drafting Unit
  | .place h => do
    match (← get).loose.find? (·.handle == h) with
    | some i =>
      let _ ← Draft.edit (Stream.push i)
      modify fun d => { d with loose := d.loose.erase i }
    | none => return
  | .aim h target => Draft.attempt (Draft.edit (Stream.setTarget h target))

def runAll : List Move → Drafting Unit
  | [] => return
  | m :: rest => do
    m.run
    runAll rest

/-- The instruction whose destination is set. -/
def aimed : Move → List Handle
  | .place _ => []
  | .aim h _ => [h]

end Move

namespace Change

mutual

/-- Fork and stream share what is loose. A fork that cannot be spliced in is dropped. -/
def run : Change → Drafting Unit
  | .add op target => do let _ ← Draft.edit (Stream.add op target)
  | .insert index op target => do let _ ← Draft.edit (Stream.insert index op target)
  | .detach op target => do
    let i ← Draft.edit (Stream.detached op target)
    modify fun d => { d with loose := i :: d.loose }
  | .move m => m.run
  | .graft side meanwhile marker => do
    let fork := (← get).stream.fork
    Move.runAll meanwhile
    let edited ← Draft.onFork fork (runAll side)
    Draft.attempt do
      Draft.edit (Stream.spliceAfter marker edited.stream)
      modify fun d => { d with loose := edited.loose }

def runAll : List Change → Drafting Unit
  | [] => return
  | c :: rest => do
    c.run
    runAll rest

end

/-- The instructions of the stream itself whose destination is set. A fork knows only its own. -/
def aimed : Change → List Handle
  | .move m => m.aimed
  | .graft _ meanwhile _ => meanwhile.flatMap Move.aimed
  | _ => []

mutual

/-- How many handles are asked for. -/
def asked : Change → Nat
  | .add .. | .insert .. | .detach .. => 1
  | .move _ => 0
  | .graft side _ _ => askedByAll side

def askedByAll : List Change → Nat
  | [] => 0
  | c :: rest => c.asked + askedByAll rest

end

/-- The changes of a fork come before the graft. -/
theorem inductOn {P : Change → Prop} (add : ∀ op target, P (.add op target))
    (insert : ∀ index op target, P (.insert index op target))
    (detach : ∀ op target, P (.detach op target)) (move : ∀ m, P (.move m))
    (graft : ∀ side meanwhile marker, (∀ c ∈ side, P c) → P (.graft side meanwhile marker))
    (c : Change) : P c :=
  @Change.rec P (fun side => ∀ c ∈ side, P c) add insert detach move
    (fun side meanwhile marker hside => graft side meanwhile marker hside)
    (fun _ hc => absurd hc List.not_mem_nil)
    (fun _ _ hhead htail _ hc => by
      rcases List.mem_cons.mp hc with rfl | hc
      · exact hhead
      · exact htail _ hc) c

end Change

/-! ## Where a handle leads -/

namespace Stream

variable {s t : Stream}

theorem split_of_indexOf? {h : Handle} {k : Nat} (hk : s.indexOf? h = some k) :
    ∃ before i after, s.code = before ++ i :: after ∧ i.handle = h ∧ before.length = k := by
  obtain ⟨i, hi, hh⟩ := get_of_indexOf? hk
  obtain ⟨hlt, hget⟩ := List.getElem?_eq_some_iff.mp hi
  refine ⟨s.code.take k, i, s.code.drop (k + 1), ?_, hh, by simp [Nat.le_of_lt hlt]⟩
  rw [← hget, List.getElem_cons_drop, List.take_append_drop]

/-- What is spliced in stands in one piece right behind the marker. -/
theorem spliceAfter_split {marker : Handle} {other : Stream} {u : Unit}
    (h : spliceAfter marker other s = .ok u t) :
    ∃ before m after, s.code = before ++ m :: after ∧ m.handle = marker ∧
      t = ⟨before ++ m :: (other.code ++ after), max s.next other.next⟩ := by
  obtain ⟨k, hk, rfl⟩ := spliceAfter_ok.mp h
  obtain ⟨before, m, after, hcode, hm, rfl⟩ := split_of_indexOf? hk
  refine ⟨before, m, after, hcode, hm, ?_⟩
  rw [hcode]
  simp [List.take_append, List.take_of_length_le]

theorem setTarget_split {x target : Handle} {u : Unit} (h : setTarget x target s = .ok u t) :
    ∃ before i after, s.code = before ++ i :: after ∧ i.handle = x ∧
      t = { s with code := before ++ { i with target := some target } :: after } := by
  obtain ⟨k, hk, rfl⟩ := setTarget_ok.mp h
  obtain ⟨before, i, after, hcode, hi, rfl⟩ := split_of_indexOf? hk
  refine ⟨before, i, after, hcode, hi, ?_⟩
  rw [hcode, List.modify_eq_take_cons_drop (by simp)]
  simp

end Stream

/-! ## What editing keeps -/

/-- Handles are distinct and were all handed out by the stream, whose counter can count them. -/
structure Stream.WellFormed (s : Stream) : Prop where
  distinct : (s.code.map (·.handle)).Nodup
  below : ∀ i ∈ s.code, i.handle < s.next
  counted : s.next ≤ Handle.limit

/-- The same instruction, with the same destination unless it was aimed anew. -/
structure Instruction.Same (aimed : List Handle) (i j : Instruction) : Prop where
  handle : j.handle = i.handle
  op : j.op = i.op
  target : i.handle ∉ aimed → j.target = i.target

instance {aimed : List Handle} : Std.Refl (Instruction.Same aimed) :=
  ⟨fun _ => ⟨rfl, rfl, fun _ => rfl⟩⟩

instance {aimed : List Handle} : IsTrans Instruction (Instruction.Same aimed) where
  trans _ _ _ h h' := by
    refine ⟨h'.handle.trans h.handle, h'.op.trans h.op, fun hi => ?_⟩
    exact (h'.target (h.handle ▸ hi)).trans (h.target hi)

theorem Instruction.Same.eq {aimed : List Handle} {i j : Instruction} (h : i.Same aimed j)
    (hi : i.handle ∉ aimed) : j = i := by
  obtain ⟨hhandle, hop, htarget⟩ := h
  cases i
  cases j
  cases hhandle
  cases hop
  cases htarget hi
  rfl

/-- Each of the instructions is among the others. -/
theorem Instruction.exists_same {aimed : List Handle} {xs ys : List Instruction} {i : Instruction}
    (h : List.SublistForall₂ (Instruction.Same aimed) xs ys) (hi : i ∈ xs) :
    ∃ j ∈ ys, i.Same aimed j := by
  induction h with
  | nil => cases hi
  | cons hsame _ ih =>
    rcases List.mem_cons.mp hi with rfl | hi
    · exact ⟨_, List.mem_cons_self, hsame⟩
    · obtain ⟨j, hj, hsame⟩ := ih hi
      exact ⟨j, List.mem_cons_of_mem _ hj, hsame⟩
  | cons_right _ ih =>
    obtain ⟨j, hj, hsame⟩ := ih hi
    exact ⟨j, List.mem_cons_of_mem _ hj, hsame⟩

/-- All of the stream `s` is in `t`: its instructions in their order, each where its handle is
found, and every jump that is not aimed anew with its landing. -/
structure Stream.Keeps (aimed : List Handle) (s t : Stream) : Prop where
  order : List.SublistForall₂ (Instruction.Same aimed) s.code t.code
  found : ∀ h k, s.indexOf? h = some k → ∃ i j k', s.code[k]? = some i ∧ t.indexOf? h = some k' ∧
    t.code[k']? = some j ∧ i.Same aimed j
  jumps : ∀ i ∈ s.code, i.handle ∉ aimed → i ∈ t.code ∧ ∀ k, s.landing? i = some k →
    ∃ k' x y, t.landing? i = some k' ∧ s.code[k]? = some x ∧ t.code[k']? = some y ∧ x.Same aimed y

namespace Draft

def handles (d : Draft) : List Handle := (d.stream.code ++ d.loose).map (·.handle)

/-- New handles came out of the counter, each of them once, and none was lost. -/
structure Grows (d e : Draft) : Prop where
  next_le : d.stream.next ≤ e.stream.next
  counted : d.stream.next ≤ Handle.limit → e.stream.next ≤ Handle.limit
  handles : ∃ new, e.handles.Perm (new ++ d.handles) ∧ new.Nodup ∧
    ∀ x ∈ new, d.stream.next ≤ x ∧ x < e.stream.next

/-- The draft has grown, and its code is still there in its order. -/
structure Follows (aimed : List Handle) (d e : Draft) : Prop extends d.Grows e where
  code : List.SublistForall₂ (Instruction.Same aimed) d.stream.code e.stream.code

section Follows

variable {d e f : Draft} {aimed : List Handle}

theorem Grows.trans (h : d.Grows e) (h' : e.Grows f) : d.Grows f := by
  obtain ⟨new, hnew, hdistinct, hrange⟩ := h.handles
  obtain ⟨newer, hnewer, hdistinct', hrange'⟩ := h'.handles
  refine ⟨Nat.le_trans h.next_le h'.next_le, h'.counted ∘ h.counted, newer ++ new, ?_, ?_, ?_⟩
  · rw [List.append_assoc]
    exact hnewer.trans (hnew.append_left newer)
  · refine List.nodup_append.mpr ⟨hdistinct', hdistinct, ?_⟩
    rintro x hx y hy rfl
    exact Nat.not_lt_of_le (hrange' x hx).1 (hrange x hy).2
  · intro x hx
    rcases List.mem_append.mp hx with hx | hx
    · exact ⟨Nat.le_trans h.next_le (hrange' x hx).1, (hrange' x hx).2⟩
    · exact ⟨(hrange x hx).1, Nat.lt_of_lt_of_le (hrange x hx).2 h'.next_le⟩

theorem Follows.refl (d : Draft) : d.Follows aimed d :=
  ⟨⟨Nat.le_refl _, id, [], .refl _, List.nodup_nil, by simp⟩, refl_of _ d.stream.code⟩

theorem Follows.trans (h : d.Follows aimed e) (h' : e.Follows aimed f) : d.Follows aimed f :=
  ⟨h.toGrows.trans h'.toGrows, trans_of _ h.code h'.code⟩

instance : Std.Refl (Follows aimed) := ⟨.refl⟩

instance : IsTrans Draft (Follows aimed) := ⟨fun _ _ _ => .trans⟩

/-- Code is put in between, made of loose and of new instructions. -/
theorem Follows.of_split {before middle after loose : List Instruction} {next : Handle}
    {new : List Handle} (hcode : d.stream.code = before ++ after) (hnext : d.stream.next ≤ next)
    (hcounted : d.stream.next ≤ Handle.limit → next ≤ Handle.limit)
    (hnew : ((middle ++ loose).map (·.handle)).Perm (new ++ d.loose.map (·.handle)))
    (hdistinct : new.Nodup) (hrange : ∀ x ∈ new, d.stream.next ≤ x ∧ x < next) :
    d.Follows aimed ⟨⟨before ++ middle ++ after, next⟩, loose⟩ := by
  refine ⟨⟨hnext, hcounted, new, ?_, hdistinct, hrange⟩, ?_⟩
  · have hcount : (before ++ middle ++ after ++ loose).Perm
        (before ++ after ++ (middle ++ loose)) := by grind
    calc ((before ++ middle ++ after ++ loose).map (·.handle)).Perm
          ((before ++ after ++ (middle ++ loose)).map (·.handle)) := hcount.map _
      _ = (before ++ after).map (·.handle) ++ (middle ++ loose).map (·.handle) := List.map_append
      List.Perm _ ((before ++ after).map (·.handle) ++ (new ++ d.loose.map (·.handle))) :=
        hnew.append_left _
      List.Perm _ (new ++ ((before ++ after).map (·.handle) ++ d.loose.map (·.handle))) :=
        List.perm_append_comm_assoc _ _ _
      _ = new ++ d.handles := by rw [handles, hcode, ← List.map_append]
  · rw [hcode]
    refine List.Sublist.sublistForall₂ ?_
    exact (List.sublist_append_left before middle).append_right after

/-- One new instruction, in its place or loose. -/
theorem Follows.of_new {before middle after loose : List Instruction}
    (hroom : d.stream.next < Handle.limit) (hcode : d.stream.code = before ++ after)
    (hnew : (middle ++ loose).map (·.handle) = [d.stream.next] ++ d.loose.map (·.handle)) :
    d.Follows aimed ⟨⟨before ++ middle ++ after, d.stream.next + 1⟩, loose⟩ :=
  of_split hcode (Nat.le_succ _) (fun _ => hroom) (.of_eq hnew) (by simp) (by simp)

/-- A handle is given out and not used. -/
theorem Follows.of_lost (hroom : d.stream.next < Handle.limit) :
    d.Follows aimed { d with stream := ⟨d.stream.code, d.stream.next + 1⟩ } :=
  ⟨⟨Nat.le_succ _, fun _ => hroom, [], .refl _, List.nodup_nil, by simp⟩, refl_of _ d.stream.code⟩

/-- A destination is set. -/
theorem Follows.of_aim {s : Stream} {h target : Handle} {u : Unit}
    (hs : Stream.setTarget h target d.stream = .ok u s) (hh : h ∈ aimed) :
    d.Follows aimed { d with stream := s } := by
  obtain ⟨before, i, after, hcode, rfl, rfl⟩ := Stream.setTarget_split hs
  have hsame : i.Same aimed { i with target := some target } :=
    ⟨rfl, rfl, fun hi => absurd hh hi⟩
  refine ⟨⟨Nat.le_refl _, id, [], ?_, List.nodup_nil, by simp⟩, ?_⟩
  · simp [handles, hcode]
  · rw [hcode, List.sublistForall₂_iff]
    refine ⟨_, ?_, List.Sublist.refl _⟩
    exact List.rel_append (List.forall₂_refl before) (.cons hsame (List.forall₂_refl after))

end Follows

/-! ## Single changes -/

section Changes

variable {d e : Draft} {aimed : List Handle}

theorem edit_ok {α : Type} {x : Edit α} {a : α} :
    edit x d = .ok a e ↔ ∃ s, x d.stream = .ok a s ∧ e = { d with stream := s } := focus_ok

theorem edit_error {α : Type} {x : Edit α} {f : Failure} (h : edit x d = .error f e) :
    ∃ s, x d.stream = .error f s ∧ e = { d with stream := s } := error_of_focus h

/-- A move always comes to its end. -/
theorem Follows.of_move {m : Move} (hm : m.aimed ⊆ aimed) :
    ∃ e, m.run d = .ok () e ∧ d.Follows aimed e ∧ e.stream.next = d.stream.next := by
  cases m with
  | place x =>
    cases hi : d.loose.find? (·.handle == x) with
    | none =>
      refine ⟨d, ?_, .refl d, rfl⟩
      rw [Move.run, bind_of_ok (get_ok.mpr ⟨rfl, rfl⟩), hi]
      rfl
    | some i =>
      have hloose : i ∈ d.loose := List.mem_of_find?_eq_some hi
      refine ⟨⟨⟨d.stream.code ++ [i], d.stream.next⟩, d.loose.erase i⟩, ?_, ?_, rfl⟩
      · rw [Move.run, bind_of_ok (get_ok.mpr ⟨rfl, rfl⟩), hi]
        rfl
      · have hsplit := @Follows.of_split d aimed d.stream.code [i] [] (d.loose.erase i)
          d.stream.next [] (by simp) (Nat.le_refl _) id
          ((List.perm_cons_erase hloose).symm.map _) List.nodup_nil (by simp)
        simpa using hsplit
  | aim x target =>
    refine ⟨_, rfl, ?_⟩
    cases hedit : edit (Stream.setTarget x target) d with
    | error f e =>
      obtain ⟨s, hs, rfl⟩ := edit_error hedit
      rw [(Stream.setTarget_error hs).1]
      exact ⟨.refl d, rfl⟩
    | ok u e =>
      obtain ⟨s, hs, rfl⟩ := edit_ok.mp hedit
      have hnext : s.next = d.stream.next := by
        obtain ⟨_, _, _, _, _, rfl⟩ := Stream.setTarget_split hs
        rfl
      exact ⟨.of_aim hs (hm (List.mem_singleton_self x)), hnext⟩

theorem Follows.of_moves {ms : List Move} (hms : ms.flatMap Move.aimed ⊆ aimed) :
    ∃ e, Move.runAll ms d = .ok () e ∧ d.Follows aimed e ∧ e.stream.next = d.stream.next := by
  induction ms generalizing d with
  | nil => exact ⟨d, rfl, .refl _, rfl⟩
  | cons m rest ih =>
    rw [List.flatMap_cons, List.append_subset] at hms
    obtain ⟨f, hf, hfollows, hnext⟩ := @of_move d aimed m hms.1
    obtain ⟨e, he, hfollows', hnext'⟩ := @ih f hms.2
    exact ⟨e, (bind_of_ok hf).trans he, hfollows.trans hfollows', hnext'.trans hnext⟩

/-- A fork breaks off, is dropped or is spliced in. -/
theorem graft_cases {side : List Change} {meanwhile : List Move} {marker : Handle}
    {parent : Draft} (hparent : Move.runAll meanwhile d = .ok () parent) :
    (∃ f e, Change.runAll side ⟨d.stream.fork, parent.loose⟩ = .error f e ∧
      (Change.graft side meanwhile marker).run d = .error f parent) ∨
    ∃ fork, Change.runAll side ⟨d.stream.fork, parent.loose⟩ = .ok () fork ∧
      ((Change.graft side meanwhile marker).run d = .ok () parent ∨
        ∃ s, Stream.spliceAfter marker fork.stream parent.stream = .ok () s ∧
          (Change.graft side meanwhile marker).run d = .ok () ⟨s, fork.loose⟩) := by
  have hrun : (Change.graft side meanwhile marker).run d = (do
      let edited ← onFork d.stream.fork (Change.runAll side)
      attempt do
        edit (Stream.spliceAfter marker edited.stream)
        modify fun d => { d with loose := edited.loose } : Drafting Unit) parent := by
    rw [Change.run, bind_of_ok (get_ok.mpr ⟨rfl, rfl⟩)]
    exact bind_of_ok hparent
  rw [hrun]
  cases hside : Change.runAll side ⟨d.stream.fork, parent.loose⟩ with
  | error f e =>
    refine .inl ⟨f, e, rfl, bind_error ?_⟩
    simp only [onFork, hside]
  | ok u fork =>
    have hfork : onFork d.stream.fork (Change.runAll side) parent = .ok fork parent := by
      simp only [onFork, hside]
    refine .inr ⟨fork, rfl, ?_⟩
    rw [bind_of_ok hfork]
    cases hs : Stream.spliceAfter marker fork.stream parent.stream with
    | error f s =>
      have hedit : edit (Stream.spliceAfter marker fork.stream) parent = .error f parent := by
        rw [edit, focus_error hs, (Stream.spliceAfter_error hs).1]
      rw [attempt, bind_error hedit]
      exact .inl rfl
    | ok u s =>
      rw [attempt, bind_of_ok (edit_ok.mpr ⟨s, hs, rfl⟩)]
      exact .inr ⟨s, rfl, rfl⟩

/-- What was edited on a fork is spliced in. -/
theorem Follows.of_graft {parent fork : Draft} {marker : Handle} {s : Stream} {u : Unit}
    (hnext : parent.stream.next = d.stream.next)
    (hfork : Grows ⟨d.stream.fork, parent.loose⟩ fork)
    (hs : Stream.spliceAfter marker fork.stream parent.stream = .ok u s) :
    parent.Follows aimed ⟨s, fork.loose⟩ := by
  obtain ⟨before, m, after, hcode, _, rfl⟩ := Stream.spliceAfter_split hs
  obtain ⟨new, hnew, hdistinct, hrange⟩ := hfork.handles
  have hbounds : ∀ x ∈ new, parent.stream.next ≤ x ∧ x < max parent.stream.next fork.stream.next :=
    fun x hx =>
      ⟨hnext ▸ (hrange x hx).1, Nat.lt_of_lt_of_le (hrange x hx).2 (Nat.le_max_right _ _)⟩
  have hcounted (h : parent.stream.next ≤ Handle.limit) :
      max parent.stream.next fork.stream.next ≤ Handle.limit :=
    Nat.max_le.mpr ⟨h, hfork.counted (hnext ▸ h)⟩
  have hsplit := @Follows.of_split parent aimed (before ++ [m]) fork.stream.code after fork.loose
    _ new (by simp [hcode]) (Nat.le_max_left _ _) hcounted hnew hdistinct hbounds
  simpa using hsplit

theorem Follows.of_all {changes : List Change}
    (hall : ∀ c ∈ changes, ∀ aimed, c.aimed ⊆ aimed → Moves (Follows aimed) c.run)
    (hchanges : changes.flatMap Change.aimed ⊆ aimed) :
    Moves (Follows aimed) (Change.runAll changes) := by
  induction changes with
  | nil => exact moves_pure ()
  | cons c rest ih =>
    rw [List.flatMap_cons, List.append_subset] at hchanges
    refine (hall c List.mem_cons_self aimed hchanges.1).bind fun _ => ?_
    exact ih (fun x hx => hall x (List.mem_cons_of_mem c hx)) hchanges.2

theorem add_follows (op : Op) (target : Option Handle) :
    Moves (Follows aimed) (Change.add op target).run := by
  refine Moves.bind (fun d => ?_) fun _ => moves_pure _
  cases h : edit (Stream.add op target) d with
  | ok x e =>
    obtain ⟨_, hadd, rfl⟩ := edit_ok.mp h
    obtain ⟨hroom, -, rfl⟩ := Stream.add_ok.mp hadd
    have hnew := @Follows.of_new d aimed d.stream.code [⟨d.stream.next, op, target⟩] [] d.loose
      hroom (by simp) rfl
    rw [List.append_nil] at hnew
    exact hnew
  | error f e =>
    obtain ⟨_, hadd, rfl⟩ := edit_error h
    rw [(Stream.add_error hadd).2]
    exact .refl d

theorem insert_follows (index : Nat) (op : Op) (target : Option Handle) :
    Moves (Follows aimed) (Change.insert index op target).run := by
  refine Moves.bind (fun d => ?_) fun _ => moves_pure _
  cases h : edit (Stream.insert index op target) d with
  | ok x e =>
    obtain ⟨_, hinsert, rfl⟩ := edit_ok.mp h
    obtain ⟨⟨hroom, -⟩, -, rfl⟩ := Stream.insert_ok.mp hinsert
    have hnew := @Follows.of_new d aimed (d.stream.code.take index) [⟨d.stream.next, op, target⟩]
      (d.stream.code.drop index) d.loose hroom (by simp) rfl
    rw [List.append_assoc, List.singleton_append] at hnew
    exact hnew
  | error f e =>
    obtain ⟨_, hinsert, rfl⟩ := edit_error h
    rcases Stream.insert_error hinsert with ⟨-, rfl⟩ | ⟨-, hroom, rfl⟩
    · exact .refl d
    · exact .of_lost hroom

theorem detach_follows (op : Op) (target : Option Handle) :
    Moves (Follows aimed) (Change.detach op target).run := by
  intro d
  rw [Change.run]
  cases h : edit (Stream.detached op target) d with
  | ok i e =>
    rw [bind_of_ok h]
    obtain ⟨_, hdetached, rfl⟩ := edit_ok.mp h
    obtain ⟨hroom, rfl, rfl⟩ := Stream.detached_ok.mp hdetached
    have hnew := @Follows.of_new d aimed d.stream.code [] []
      (⟨d.stream.next, op, target⟩ :: d.loose) hroom (by simp) rfl
    rw [List.append_nil, List.append_nil] at hnew
    exact hnew
  | error f e =>
    rw [bind_error h]
    obtain ⟨_, hdetached, rfl⟩ := edit_error h
    rw [(Stream.detached_error hdetached).2]
    exact .refl d

theorem graft_follows {side : List Change} {meanwhile : List Move} {marker : Handle}
    (hside : ∀ c ∈ side, ∀ aimed, c.aimed ⊆ aimed → Moves (Follows aimed) c.run)
    (hmeanwhile : meanwhile.flatMap Move.aimed ⊆ aimed) :
    Moves (Follows aimed) (Change.graft side meanwhile marker).run := by
  intro d
  obtain ⟨parent, hparent, hbefore, hnext⟩ := @Follows.of_moves d aimed meanwhile hmeanwhile
  rcases @graft_cases d side meanwhile marker parent hparent with
    ⟨f, e, -, hrun⟩ | ⟨fork, hfork, hrun | ⟨s, hs, hrun⟩⟩
  · rw [hrun]
    exact hbefore
  · rw [hrun]
    exact hbefore
  · rw [hrun]
    -- of the fork only its handles matter, whatever is aimed in it
    have hgrown := (Follows.of_all hside (List.Subset.refl _)).ok hfork
    exact hbefore.trans (.of_graft hnext hgrown.toGrows hs)

/-- What a change has done to a draft, whether or not it came to its end. -/
theorem Follows.of_change {c : Change} (hc : c.aimed ⊆ aimed) : Moves (Follows aimed) c.run := by
  induction c using Change.inductOn generalizing aimed with
  | add op target => exact add_follows op target
  | insert index op target => exact insert_follows index op target
  | detach op target => exact detach_follows op target
  | move m =>
    intro d
    obtain ⟨e, he, hfollows, -⟩ := @of_move d aimed m hc
    rw [show (Change.move m).run = m.run from rfl, he]
    exact hfollows
  | graft side meanwhile marker ih => exact graft_follows (fun c hc _ => ih c hc) hc

/-- A whole history of changes. -/
theorem Follows.of_changes (changes : List Change) :
    Moves (Follows (changes.flatMap Change.aimed)) (Change.runAll changes) :=
  of_all (fun _ _ _ => of_change) (List.Subset.refl _)

end Changes

/-! ## Running out of handles -/

/-- The computation takes at most so many handles, and breaks off only at an index beyond the end or
if there are not so many left. -/
structure Takes (n : Nat) (x : Drafting Unit) : Prop where
  ok {d e : Draft} : x d = .ok () e → e.stream.next ≤ d.stream.next + n
  error {d e : Draft} {f : Failure} : x d = .error f e →
    f = .panic .beyondEnd ∨ f = .panic .overflow ∧ Handle.limit < d.stream.next + n

section Takes

variable {m n : Nat}

theorem Takes.andThen {x y : Drafting Unit} (hx : Takes m x) (hy : Takes n y) :
    Takes (m + n) (x >>= fun _ => y) := by
  constructor
  · intro d e h
    obtain ⟨_, _, hfirst, hrest⟩ := bind_ok.mp h
    rw [← Nat.add_assoc]
    exact Nat.le_trans (hy.ok hrest) (Nat.add_le_add_right (hx.ok hfirst) n)
  · intro d e f h
    rw [← Nat.add_assoc]
    cases hfirst : x d with
    | error f' e' =>
      rw [bind_error hfirst] at h
      cases h
      exact (hx.error hfirst).imp_right fun ⟨hf, hlimit⟩ =>
        ⟨hf, Nat.lt_of_lt_of_le hlimit (Nat.le_add_right _ n)⟩
    | ok u d' =>
      rw [bind_of_ok hfirst] at h
      exact (hy.error h).imp_right fun ⟨hf, hlimit⟩ =>
        ⟨hf, Nat.lt_of_lt_of_le hlimit (Nat.add_le_add_right (hx.ok hfirst) n)⟩

/-- A step that asks for one handle. -/
theorem takes_one {α : Type} {x : Edit α} {k : α → Drafting Unit}
    (hok : ∀ s a t, x s = .ok a t → t.next = s.next + 1)
    (herror : ∀ s f t, x s = .error f t →
      f = .panic .beyondEnd ∨ f = .panic .overflow ∧ Handle.limit ≤ s.next)
    (hk : ∀ a d, ∃ e, k a d = .ok () e ∧ e.stream = d.stream) : Takes 1 (edit x >>= k) := by
  constructor
  · intro d e h
    obtain ⟨a, d', hfirst, hrest⟩ := bind_ok.mp h
    obtain ⟨s, hs, rfl⟩ := edit_ok.mp hfirst
    obtain ⟨e', he', hstream⟩ := hk a { d with stream := s }
    cases he'.symm.trans hrest
    rw [hstream]
    exact Nat.le_of_eq (hok _ _ _ hs)
  · intro d e f h
    cases hfirst : edit x d with
    | error f' e' =>
      rw [bind_error hfirst] at h
      cases h
      obtain ⟨s, hs, rfl⟩ := edit_error hfirst
      exact (herror _ _ _ hs).imp_right fun ⟨hf, hlimit⟩ => ⟨hf, Nat.lt_succ_of_le hlimit⟩
    | ok a d' =>
      rw [bind_of_ok hfirst] at h
      obtain ⟨e', he', -⟩ := hk a d'
      cases he'.symm.trans h

theorem takes_all {changes : List Change} (hall : ∀ c ∈ changes, Takes c.asked c.run) :
    Takes (Change.askedByAll changes) (Change.runAll changes) := by
  induction changes with
  | nil =>
    constructor
    · intro d e h
      cases h
      exact Nat.le_refl _
    · intro d e f h
      cases h
  | cons c rest ih =>
    exact (hall c List.mem_cons_self).andThen (ih fun x hx => hall x (List.mem_cons_of_mem c hx))

theorem graft_takes {side : List Change} {meanwhile : List Move} {marker : Handle}
    (hside : Takes (Change.askedByAll side) (Change.runAll side)) :
    Takes (Change.askedByAll side) (Change.graft side meanwhile marker).run := by
  constructor
  · intro d e h
    obtain ⟨parent, hparent, -, hnext⟩ := @Follows.of_moves d _ meanwhile (List.Subset.refl _)
    have hkept : parent.stream.next ≤ d.stream.next + Change.askedByAll side := by
      rw [hnext]
      exact Nat.le_add_right _ _
    rcases @graft_cases d side meanwhile marker parent hparent with
      ⟨f, e', -, hrun⟩ | ⟨fork, hfork, hrun | ⟨s, hs, hrun⟩⟩
    · cases hrun.symm.trans h
    · cases hrun.symm.trans h
      exact hkept
    · cases hrun.symm.trans h
      obtain ⟨_, _, _, _, _, rfl⟩ := Stream.spliceAfter_split hs
      exact Nat.max_le.mpr ⟨hkept, @Takes.ok _ _ hside ⟨d.stream.fork, _⟩ _ hfork⟩
  · intro d e f h
    obtain ⟨parent, hparent, -⟩ := @Follows.of_moves d _ meanwhile (List.Subset.refl _)
    rcases @graft_cases d side meanwhile marker parent hparent with
      ⟨f', e', hfork, hrun⟩ | ⟨fork, -, hrun | ⟨s, -, hrun⟩⟩
    · cases hrun.symm.trans h
      exact @Takes.error _ _ hside ⟨d.stream.fork, _⟩ _ _ hfork
    · cases hrun.symm.trans h
    · cases hrun.symm.trans h

theorem takes_change (c : Change) : Takes c.asked c.run := by
  induction c using Change.inductOn with
  | add op target =>
    refine takes_one (fun s a t h => ?_) (fun s f t h => ?_) fun _ d => ⟨d, rfl, rfl⟩
    · obtain ⟨-, -, rfl⟩ := Stream.add_ok.mp h
      rfl
    · exact .inr (Stream.add_error h).1
  | insert index op target =>
    refine takes_one (fun s a t h => ?_) (fun s f t h => ?_) fun _ d => ⟨d, rfl, rfl⟩
    · obtain ⟨-, -, rfl⟩ := Stream.insert_ok.mp h
      rfl
    · rcases Stream.insert_error h with ⟨hfull, -⟩ | ⟨hbeyond, -⟩
      · exact .inr hfull
      · exact .inl hbeyond
  | detach op target =>
    refine takes_one (fun s a t h => ?_) (fun s f t h => ?_) fun i d => ⟨_, rfl, rfl⟩
    · obtain ⟨-, -, rfl⟩ := Stream.detached_ok.mp h
      rfl
    · exact .inr (Stream.detached_error h).1
  | move m =>
    have hmove (d : Draft) := @Follows.of_move d m.aimed m (List.Subset.refl _)
    constructor
    · intro d e h
      obtain ⟨e', he', -, hnext⟩ := hmove d
      cases he'.symm.trans h
      exact Nat.le_of_eq hnext
    · intro d e f h
      obtain ⟨e', he', -⟩ := hmove d
      cases he'.symm.trans h
  | graft side meanwhile marker ih => exact graft_takes (takes_all ih)

end Takes

/-! ## Handles -/

/-- All handles of the draft, placed or loose, are distinct and were handed out by the stream. -/
structure WellFormed (d : Draft) : Prop where
  distinct : d.handles.Nodup
  below : ∀ x ∈ d.handles, x < d.stream.next
  counted : d.stream.next ≤ Handle.limit

section WellFormed

variable {d e : Draft}

theorem Grows.wellFormed (h : d.Grows e) (hd : d.WellFormed) : e.WellFormed := by
  obtain ⟨new, hnew, hdistinct, hrange⟩ := h.handles
  refine ⟨?_, ?_, h.counted hd.counted⟩
  · refine hnew.nodup_iff.mpr (List.nodup_append.mpr ⟨hdistinct, hd.distinct, ?_⟩)
    rintro x hx y hy rfl
    exact Nat.not_lt_of_le (hrange x hx).1 (hd.below x hy)
  · intro x hx
    rcases List.mem_append.mp (hnew.mem_iff.mp hx) with hx | hx
    · exact (hrange x hx).2
    · exact Nat.lt_of_lt_of_le (hd.below x hx) h.next_le

theorem WellFormed.of_stream {s : Stream} (hs : s.WellFormed) : WellFormed ⟨s, []⟩ := by
  refine ⟨?_, ?_, hs.counted⟩
  · simpa [handles] using hs.distinct
  · simpa [handles] using hs.below

theorem WellFormed.stream (hd : d.WellFormed) : d.stream.WellFormed := by
  refine ⟨?_, ?_, hd.counted⟩
  · have hdistinct := hd.distinct
    rw [handles, List.map_append] at hdistinct
    exact (List.nodup_append.mp hdistinct).1
  · intro i hi
    exact hd.below _ (List.mem_map_of_mem (List.mem_append_left _ hi))

end WellFormed

end Draft

namespace Stream

section Keeps

variable {s t : Stream} {aimed : List Handle}

/-- In a stream with distinct handles, an instruction is found where it stands. -/
theorem indexOf?_of_mem {i : Instruction} (hs : s.WellFormed) (hi : i ∈ s.code) :
    ∃ k, s.indexOf? i.handle = some k ∧ s.code[k]? = some i := by
  obtain ⟨before, after, hcode⟩ := List.append_of_mem hi
  have hstands : s.Stands before.length (i :: after) := ⟨before, [], by simp [hcode], rfl⟩
  exact ⟨_, hstands.index hs.distinct, hstands.get⟩

/-- If the code is still there in its order, its handles and its jumps are as good as before. -/
theorem keeps_of_code (ht : t.WellFormed)
    (h : List.SublistForall₂ (Instruction.Same aimed) s.code t.code) : s.Keeps aimed t := by
  have hfound (x : Handle) (k : Nat) (hk : s.indexOf? x = some k) : ∃ i j k', s.code[k]? = some i ∧
      t.indexOf? x = some k' ∧ t.code[k']? = some j ∧ i.Same aimed j := by
    obtain ⟨i, hi, rfl⟩ := get_of_indexOf? hk
    obtain ⟨j, hj, hsame⟩ := Instruction.exists_same h (List.mem_of_getElem? hi)
    obtain ⟨k', hk', hget⟩ := indexOf?_of_mem ht hj
    rw [hsame.handle] at hk'
    exact ⟨i, j, k', hi, hk', hget, hsame⟩
  refine ⟨h, hfound, fun i hi hfree => ?_⟩
  obtain ⟨j, hj, hsame⟩ := Instruction.exists_same h hi
  refine ⟨hsame.eq hfree ▸ hj, fun k hk => ?_⟩
  obtain ⟨x, hx, hk⟩ := Option.bind_eq_some_iff.mp hk
  obtain ⟨y, z, k', hy, hk', hz, hsame'⟩ := hfound x k hk
  exact ⟨k', y, z, by rw [landing?, hx]; exact hk', hy, hz, hsame'⟩

/-- A marker that has a place takes code in right behind it. -/
theorem spliceAfter_of_split {before after : List Instruction} {m : Instruction}
    (hs : s.WellFormed) (hcode : s.code = before ++ m :: after) (other : Stream) :
    spliceAfter m.handle other s =
      .ok () ⟨before ++ m :: (other.code ++ after), max s.next other.next⟩ := by
  have hstands : s.Stands before.length (m :: after) := ⟨before, [], by simp [hcode], rfl⟩
  refine spliceAfter_ok.mpr ⟨_, hstands.index hs.distinct, ?_⟩
  rw [hcode]
  simp [List.take_append, List.take_of_length_le]

end Keeps

/-- Instructions can be relied on by their handles while a stream is edited, with forks that are
edited in turn and spliced in. After any history of changes to a well-formed stream, and through all
that follow, the stream stays well-formed and keeps what is in it: every instruction in its order
with its handle and its operation, and with its destination unless that is set; every handle
leads to the same instruction, and every jump too. A history that breaks off wants an instruction
beyond the end, or more handles than are left, and what it has done until then keeps everything too.
What is spliced in stands in one piece right behind the marker. -/
theorem handles_survive_editing {s : Stream} (hs : s.WellFormed) {earlier : List Change} {d : Draft}
    (hd : Change.runAll earlier ⟨s, []⟩ = .ok () d) (later : List Change) :
    (ending (Change.runAll later d)).stream.WellFormed ∧
    d.stream.Keeps (later.flatMap Change.aimed) (ending (Change.runAll later d)).stream ∧
    (∀ f e, Change.runAll later d = .error f e → f = .panic .beyondEnd ∨
      f = .panic .overflow ∧ Handle.limit < d.stream.next + Change.askedByAll later) ∧
    ∀ before m after, d.stream.code = before ++ m :: after → ∀ other,
      spliceAfter m.handle other d.stream =
        .ok () ⟨before ++ m :: (other.code ++ after), max d.stream.next other.next⟩ := by
  have hwell := ((Draft.Follows.of_changes earlier).ok hd).wellFormed (.of_stream hs)
  have hlater := Draft.Follows.of_changes later d
  have hend := (hlater.wellFormed hwell).stream
  refine ⟨hend, keeps_of_code hend hlater.code, fun f e h => ?_, fun before m after hcode => ?_⟩
  · exact (Draft.takes_all fun c _ => Draft.takes_change c).error h
  · exact spliceAfter_of_split hwell.stream hcode

namespace Sketch

def start : Stream := ⟨[⟨0, .jump .jmp, some 1⟩, ⟨1, .retn, none⟩], 2⟩

/-- A jump to a label that has no place yet. -/
def earlier : List Change := [.detach .nop none, .add (.jump .jz) (some 2)]

def draft : Draft :=
  ⟨⟨[⟨0, .jump .jmp, some 1⟩, ⟨1, .retn, none⟩, ⟨3, .jump .jz, some 2⟩], 4⟩, [⟨2, .nop, none⟩]⟩

/-- A fork with a fork in it goes right behind the first instruction. Meanwhile the label is placed
and the jump to it is aimed anew. What the fork has left loose is placed at the end. -/
def later : List Change :=
  [.graft [.add (.constI 7) none, .graft [.add .nop none] [] 4, .detach .retn none]
     [.place 2, .aim 3 0] 0,
   .insert 0 .saveBp none, .move (.place 6)]

def final : Draft :=
  ⟨⟨[⟨7, .saveBp, none⟩, ⟨0, .jump .jmp, some 1⟩, ⟨4, .constI 7, none⟩, ⟨5, .nop, none⟩,
     ⟨1, .retn, none⟩, ⟨3, .jump .jz, some 0⟩, ⟨2, .nop, none⟩, ⟨6, .retn, none⟩], 8⟩, []⟩

end Sketch

open Sketch in
theorem sketch_survives :
    Change.runAll earlier ⟨start, []⟩ = .ok () draft ∧ Change.runAll later draft = .ok () final ∧
      final.stream.WellFormed ∧ draft.stream.Keeps [3] final.stream ∧
      spliceAfter 1 ⟨[⟨4, .nop, none⟩], 5⟩ draft.stream = .ok () ⟨[⟨0, .jump .jmp, some 1⟩,
        ⟨1, .retn, none⟩, ⟨4, .nop, none⟩, ⟨3, .jump .jz, some 2⟩], 5⟩ := by
  have hstart : start.WellFormed := ⟨by decide, by decide, by decide⟩
  have hdraft : Change.runAll earlier ⟨start, []⟩ = .ok () draft := rfl
  have hfinal : Change.runAll later draft = .ok () final := rfl
  obtain ⟨hwell, hkeeps, -, hsplice⟩ := handles_survive_editing hstart hdraft later
  rw [hfinal] at hwell hkeeps
  exact ⟨hdraft, hfinal, hwell, hkeeps, hsplice [⟨0, .jump .jmp, some 1⟩] ⟨1, .retn, none⟩
    [⟨3, .jump .jz, some 2⟩] rfl ⟨[⟨4, .nop, none⟩], 5⟩⟩

end Stream

end NwScript
