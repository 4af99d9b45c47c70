-- Whole scripts in other circumstances: behind what the stream held before, the same program.
import NwScript.Build.Script
import NwScript.Proofs.Program.Assembly
import NwScript.Proofs.Program.Interleaving
import NwScript.Proofs.Program.Session
import NwScript.Proofs.Program.Table
import NwScript.Proofs.Recast.Stmt
import NwScript.Proofs.Recast.Table

namespace NwScript

theorem Recast.marked_env {c : Recast} {env : Env} {names : List Name} :
    (c.env env).marked names = c.env (env.marked names) := by
  simp only [Env.marked, Recast.env, Recast.marked_functions]

namespace Build

/-- The code of the second session is that of the first one, recast, behind some other code. -/
def Written (c : Recast) (front : List Instruction) (s t : Session) : Prop :=
  t.out.stream.code = front ++ s.out.stream.code.map c.instruction

/-- The instruction of the handle is there, and in the second session it is found behind the other
code. -/
def Placed (c : Recast) (front : List Instruction) (s : Session) (h : Handle) : Prop :=
  h ∈ s.out.stream.code.map (·.handle) ∧ ∀ i ∈ front, i.handle < c.handle h

/-- The second session stands where the first one stands, recast. In the first one the instructions
of `known` have their places. -/
structure Follows (c : Recast) (front : List Instruction) (gap : Nat) (known : List Handle)
    (s t : Session) : Prop where
  env : t.env = c.env s.env
  entryIndex : t.entryIndex = s.entryIndex + gap
  written : Written c front s t
  next : t.out.stream.next = c.handle s.out.stream.next
  bound : t.out.stream.next ≤ Handle.limit
  fresh : ∀ i ∈ front, i.handle < t.out.stream.next
  engine : c.Respects s.env.engine
  entries : ∀ f ∈ s.env.functions.all, Placed c front s f.entry
  placed : ∀ h ∈ known, Placed c front s h

/-- Failing alike, with code that goes together. -/
def Fails (c : Recast) (front : List Instruction) (e e' : Failure) (s t : Session) : Prop :=
  c.SameError e e' ∧ Written c front s t

/-- With handles further on, the second run may break off. -/
def leeway (c : Recast) (front : List Instruction) : Leeway Session where
  early := c.raised ≠ 0
  late t := c.Counts ∧ front <+: t.out.stream.code
  beyond s := c.Respects s.env.engine ∧ c.Beyond s.out.stream.next

/-- From sessions of which the second follows the first, the computations end alike. -/
abbrev Couples {α β : Type} (c : Recast) (front : List Instruction) (gap : Nat)
    (known : List Handle) (post : α → Session → Session → Prop) (f : α → β) (x : Build α)
    (y : Build β) : Prop :=
  Coupled (leeway c front) (Follows c front gap known) post (Fails c front) f x y

/-- The same, where the second session still follows the first one. -/
abbrev Relays {α β : Type} (c : Recast) (front : List Instruction) (gap : Nat)
    (known : List Handle) (f : α → β) (x : Build α) (y : Build β) : Prop :=
  Couples c front gap known (fun _ => Follows c front gap known) f x y

theorem Written.kept {c : Recast} {front : List Instruction} {s t : Session}
    (h : Written c front s t) : front <+: t.out.stream.code := ⟨_, h.symm⟩

section Steps

variable {α β γ δ : Type} {c : Recast} {front : List Instruction} {gap : Nat}
  {known : List Handle} {f : α → β} {g : γ → δ} {post : γ → Session → Session → Prop}
  {s t : Session}

/-- Code that comes behind that of the first session, and a change of what was noted. -/
theorem Follows.kept {e : Env} {s' t' : Session} (h : Follows c front gap known s t)
    (henv : s'.env = e) (henv' : t'.env = c.env e) (hengine : e.engine = s.env.engine)
    (hall : ∀ f ∈ e.functions.all, Placed c front s f.entry)
    (hindex : t'.entryIndex = s'.entryIndex + gap) (hwritten : Written c front s' t')
    (hnext : t'.out.stream.next = c.handle s'.out.stream.next)
    (hle : s.out.stream.next ≤ s'.out.stream.next) (hbound : t'.out.stream.next ≤ Handle.limit)
    (hcode : ∀ h ∈ s.out.stream.code.map (·.handle), h ∈ s'.out.stream.code.map (·.handle)) :
    Follows c front gap known s' t' := by
  have hplaced {h : Handle} (hp : Placed c front s h) : Placed c front s' h := ⟨hcode h hp.1, hp.2⟩
  refine ⟨henv ▸ henv', hindex, hwritten, hnext, hbound, fun i hi => ?_, ?_, ?_, ?_⟩
  · refine Nat.lt_of_lt_of_le (h.fresh i hi) ?_
    rw [h.next, hnext]
    exact Nat.add_le_add_right hle _
  · rw [henv, hengine]
    exact h.engine
  · rw [henv]
    exact fun f hf => hplaced (hall f hf)
  · exact fun x hx => hplaced (h.placed x hx)

theorem Follows.forget (h : Follows c front gap known s t) : Follows c front gap [] s t :=
  { h with placed := fun _ hx => absurd hx List.not_mem_nil }

theorem env_couples {k : Env → Build γ} {l : Env → Build δ}
    (h : ∀ e, c.Respects e.engine → Couples c front gap known post g (k e) (l (c.env e))) :
    Couples c front gap known post g (env >>= k) (env >>= l) := by
  constructor
  · intro s t hst
    have hrun := (h s.env hst.engine).steps s t hst
    rw [← hst.env] at hrun
    exact hrun
  · intro s a t hs ht
    obtain ⟨e, u, he, ht⟩ := bind_ok.mp ht
    obtain ⟨rfl, rfl⟩ := env_ok.mp he
    exact (h s.env hs.1).keeps hs ht

theorem throw_couples {e e' : Failure} {k : α → Build γ} {l : α → Build δ}
    (h : c.SameError e e') :
    Couples c front gap known post g (throw e >>= k) (throw e' >>= l) :=
  ⟨fun _ _ hst => .error ⟨h, hst.written⟩, fun _ ht => by simp [bind_ok, throw_ok] at ht⟩

theorem mistake_couples {m m' : Mistake} {k : α → Build γ} {l : α → Build δ}
    (hm : c.name = id → m' = m) :
    Couples c front gap known post g (mistake m >>= k) (mistake m' >>= l) :=
  throw_couples fun hname => congrArg Failure.semantic (hm hname)

/-- A test that both runs pass or neither. -/
theorem refuse_couples {p p' : Prop} [Decidable p] [Decidable p'] {m m' : Mistake}
    {k : α → Build γ} {l : α → Build δ} {x : Build γ} {y : Build δ} (hp : p ↔ p')
    (hm : c.name = id → m' = m) (h : Couples c front gap known post g x y) :
    Couples c front gap known post g
      (if p then mistake m >>= k else x) (if p' then mistake m' >>= l else y) :=
  .ite hp (fun _ => mistake_couples hm) fun _ => h

theorem require_couples {p p' : Prop} [Decidable p] [Decidable p'] {m m' : Mistake}
    {k : α → Build γ} {l : α → Build δ} {x : Build γ} {y : Build δ} (hp : p ↔ p')
    (hm : c.name = id → m' = m) (h : Couples c front gap known post g x y) :
    Couples c front gap known post g
      (if p then x else mistake m >>= k) (if p' then y else mistake m' >>= l) :=
  .ite hp (fun _ => h) fun _ => mistake_couples hm

/-- A change that touches neither the code nor what the engine is. -/
theorem modify_couples {change change' : Session → Session}
    {post : PUnit → Session → Session → Prop}
    (h : ∀ s t, Follows c front gap known s t → post ⟨⟩ (change s) (change' t))
    (hkept : ∀ s, (change s).env.engine = s.env.engine ∧ (change s).out.stream = s.out.stream) :
    Couples c front gap known post id (modify change) (modify change') := by
  constructor
  · exact fun s t hst => .ok (h s t hst)
  · intro s a t hs ht
    obtain ⟨hengine, hstream⟩ := hkept s
    rw [modify_ok.mp ht]
    change c.Respects (change s).env.engine ∧ c.Beyond (change s).out.stream.next
    rw [hengine, hstream]
    exact hs

theorem report_relays (event event' : Event) :
    Relays c front gap known id (report event) (report event') :=
  modify_couples (fun _ _ hst => { hst with }) fun _ => ⟨rfl, rfl⟩

theorem pure_relays : Relays c front gap known id (pure ()) (pure ()) :=
  ⟨fun _ _ hst => .ok hst, fun hs ht => (pure_ok.mp ht).2 ▸ hs⟩

/-! ## Generating code -/

variable (hlevel : c.raised = 0)

include hlevel

/-- A result that is looked at before what comes next. -/
theorem lift_bind_couples {x : Except Failure α} {y : Except Failure β}
    {k : α → Build γ} {l : β → Build δ} (h : c.Matches f x y)
    (hk : ∀ a, x = .ok a → Couples c front gap known post g (k a) (l (f a))) :
    Couples c front gap known post g (lift x >>= k) (lift y >>= l) := by
  constructor
  · intro s t hst
    cases h with
    | ok => exact (hk _ rfl).steps s t hst
    | error he => exact .error ⟨he, hst.written⟩
    | early he => exact absurd hlevel he
    | late he => exact absurd hlevel he
  · intro s b t hs hb
    obtain ⟨a, u, ha, hb⟩ := bind_ok.mp hb
    obtain ⟨hx, rfl⟩ := lift_ok.mp ha
    exact (hk a hx).keeps hs hb

theorem lift_couples {x : Except Failure α} {y : Except Failure β} (h : c.Matches f x y) :
    Relays c front gap known f (lift x) (lift y) := by
  have hlift := lift_bind_couples hlevel h fun a _ =>
    (⟨fun _ _ hst => .ok hst, fun hs ht => (pure_ok.mp ht).2 ▸ hs⟩ :
      Relays c front gap known f (pure a) (pure (f a)))
  rwa [bind_pure, bind_pure] at hlift

/-- Code generation starts from states that mirror each other. -/
theorem Follows.mirrors (h : Follows c front gap known s t) :
    Codegen.Mirrors c ⟨s.out.stream.code, t.out.stream.code, s.out.stream.next, Handle.limit,
      Nat.le_refl _⟩ ⟨s.out, {}, []⟩ ⟨t.out, {}, []⟩ := by
  refine ⟨⟨[], ?_, ?_⟩, h.next, Nat.le_refl _, h.bound, rfl, (Recast.scope_empty hlevel).symm⟩
  · exact (List.append_nil _).symm
  · exact (List.append_nil _).symm

omit hlevel in
/-- What was generated stands behind what there was. -/
theorem Follows.generated {u v : Codegen.State} (h : Follows c front gap known s t)
    (hend : Codegen.Mirrors c ⟨s.out.stream.code, t.out.stream.code, s.out.stream.next,
      Handle.limit, Nat.le_refl _⟩ u v) :
    Follows c front gap known { s with env := s.env.marked u.marks, out := u.out }
      { t with env := t.env.marked v.marks, out := v.out } := by
  obtain ⟨written, hu, hv⟩ := hend.code
  refine h.kept rfl ?_ rfl ?_ h.entryIndex ?_ hend.next hend.since hend.bound ?_
  · rw [hend.marks, h.env, Recast.marked_env]
  · rw [show (s.env.marked u.marks).functions.all = s.env.functions.all from Functions.all_marked]
    exact h.entries
  · change v.code = front ++ u.code.map c.instruction
    rw [hu, hv, h.written, List.map_append, List.append_assoc]
  · intro x hx
    change x ∈ u.code.map (·.handle)
    rw [hu, List.map_append]
    exact List.mem_append_left _ hx

theorem generate_relays {x : Gen α} {y : Gen β} (h : Codegen.Recasts c f x y) :
    Relays c front gap known f (generate x) (generate y) := by
  constructor
  · intro s t hst
    have hrun := (h _).steps _ _ (hst.mirrors hlevel)
    cases hy : y ⟨t.out, {}, []⟩ with
    | ok b v =>
      rw [hy] at hrun
      generalize hx : x ⟨s.out, {}, []⟩ = r at hrun
      cases hrun with
      | ok hend =>
        rw [generate_ok.mpr ⟨_, hx, rfl⟩, generate_ok.mpr ⟨_, hy, rfl⟩]
        exact .ok (hst.generated hend)
      | early he => exact absurd hlevel he
    | error e v =>
      rw [hy] at hrun
      rw [generate_error hy]
      generalize hx : x ⟨s.out, {}, []⟩ = r at hrun
      cases hrun with
      | error hend =>
        rw [generate_error hx]
        exact .error ⟨hend.1, (hst.generated hend.2).written⟩
      | early he => exact absurd hlevel he
      | late hl hbeyond =>
        refine .late ⟨hl.1, hst.written.kept.trans hl.2⟩ fun a s' hs' => ?_
        obtain ⟨u, hu, rfl⟩ := generate_ok.mp hs'
        exact ⟨hst.engine, hbeyond a u (hx.symm.trans hu)⟩
  · intro s a t hs ht
    obtain ⟨u, hu, rfl⟩ := generate_ok.mp ht
    refine ⟨hs.1, ?_⟩
    exact (h ⟨[], [], 0, Handle.limit, Nat.le_refl _⟩).keeps (s := ⟨s.out, {}, []⟩) hs.2 hu

omit hlevel in
/-- An edit of the stream is an edit by code generation. -/
theorem edit_eq_generate (e : Edit α) : edit e = generate (Codegen.edit e) := by
  funext s
  have hmarked : s.env.marked [] = s.env := by rw [Env.marked, Functions.marked_nil]
  cases h : e s.out.stream with
  | ok a stream =>
    rw [edit_ok.mpr ⟨stream, h, rfl⟩,
      generate_ok.mpr ⟨_, Codegen.edit_ok.mpr ⟨stream, h, rfl⟩, rfl⟩, hmarked]
  | error f stream =>
    have hgen : Codegen.edit e ⟨s.out, {}, []⟩ =
        .error f ⟨{ s.out with stream }, {}, []⟩ := Codegen.edit_error h
    rw [edit_error h, generate_error hgen, hmarked]

omit hlevel in
theorem edit_bind {e : Edit α} {k : α → Edit β} :
    edit (e >>= k) = edit e >>= fun a => edit (k a) :=
  focus_bind (fun _ _ => rfl) fun _ _ _ => rfl

theorem add_relays {op op' : Op} (h : op' = c.op op) :
    Relays c front gap known c.handle (edit (Stream.add op)) (edit (Stream.add op')) := by
  rw [edit_eq_generate, edit_eq_generate]
  exact generate_relays hlevel (Codegen.added_recasts h none)

/-- A new instruction that functions may start at. -/
theorem stub_couples :
    Couples c front gap known (fun stub => Follows c front gap (stub :: known)) c.handle
      (edit (Stream.add .nop)) (edit (Stream.add .nop)) := by
  have hadd : Relays c front gap known c.handle (edit (Stream.add .nop)) (edit (Stream.add .nop)) :=
    add_relays hlevel rfl
  constructor
  · intro s t hst
    have hrun := hadd.steps s t hst
    generalize hs : edit (Stream.add .nop) s = r at hrun ⊢
    generalize edit (Stream.add .nop) t = r' at hrun ⊢
    cases hrun with
    | ok hend =>
      obtain ⟨_, hstream, rfl⟩ := edit_ok.mp hs
      obtain ⟨-, rfl, rfl⟩ := Stream.add_ok.mp hstream
      refine .ok { hend with placed := fun x hx => ?_ }
      rcases List.mem_cons.mp hx with rfl | hx
      · exact ⟨by simp, fun i hi => hst.next ▸ hst.fresh i hi⟩
      · exact hend.placed x hx
    | error hend => exact .error hend
    | early he => exact .early he
    | late hl hbeyond => exact .late hl hbeyond
  · exact hadd.keeps

end Steps

/-! ## Editing the stream -/

section Streams

variable {c : Recast} {front : List Instruction} {st st' : Stream}

/-- The instructions in front have other handles, so the same instruction is found. -/
theorem indexOf?_behind {h : Handle} (hfront : ∀ i ∈ front, i.handle < c.handle h)
    (hcode : st'.code = front ++ st.code.map c.instruction) :
    st'.indexOf? (c.handle h) = (st.indexOf? h).map (· + front.length) := by
  have hnone : front.findIdx? (·.handle == c.handle h) = none := by
    rw [List.findIdx?_eq_none_iff]
    intro i hi
    simpa using Nat.ne_of_lt (hfront i hi)
  have hsame : (fun i : Instruction => i.handle == c.handle h) ∘ c.instruction =
      fun i => i.handle == h := by
    funext i
    rw [Bool.eq_iff_iff]
    simp only [Function.comp_apply, beq_iff_eq]
    exact Recast.handle_injective.eq_iff
  rw [Stream.indexOf?, Stream.indexOf?, hcode, List.findIdx?_append, hnone, Option.none_or,
    List.findIdx?_map, hsame]

/-- A body is put behind the same instruction. -/
theorem spliceAfter_behind {stub : Handle} (hfront : ∀ i ∈ front, i.handle < c.handle stub)
    (hcode : st'.code = front ++ st.code.map c.instruction) (hnext : st'.next = c.handle st.next)
    (hstub : stub ∈ st.code.map (·.handle)) (body : Stream) :
    ∃ u u', Stream.spliceAfter stub body st = .ok () u ∧
      Stream.spliceAfter (c.handle stub) (c.stream body) st' = .ok () u' ∧
      u'.code = front ++ u.code.map c.instruction ∧ u'.next = c.handle u.next ∧
      u'.next = max st'.next (c.stream body).next ∧
      ∀ h ∈ st.code.map (·.handle), h ∈ u.code.map (·.handle) := by
  obtain ⟨index, hindex⟩ : ∃ index, st.indexOf? stub = some index := by
    obtain ⟨i, hi, rfl⟩ := List.mem_map.mp hstub
    rw [← Option.isSome_iff_exists, Stream.indexOf?, List.findIdx?_isSome, List.any_eq_true]
    exact ⟨i, hi, by simp⟩
  have hindex' := indexOf?_behind hfront hcode
  rw [hindex, Option.map_some] at hindex'
  refine ⟨_, _, Stream.spliceAfter_ok.mpr ⟨_, hindex, rfl⟩,
    Stream.spliceAfter_ok.mpr ⟨_, hindex', rfl⟩, ?_, ?_, rfl, ?_⟩
  · have hafter : index + front.length + 1 = front.length + (index + 1) := by omega
    simp only [hcode, hafter, List.take_length_add_append, List.drop_length_add_append,
      Recast.stream, List.map_append, List.map_take, List.map_drop, List.append_assoc]
  · rw [hnext]
    exact Nat.add_max_add_right ..
  · intro h hh
    rw [← List.take_append_drop (index + 1) st.code, List.map_append, List.mem_append] at hh
    simp only [List.map_append, List.mem_append]
    exact hh.elim (fun hh => .inl (.inl hh)) .inr

end Streams

/-! ## Items -/

section Items

variable {γ δ : Type} {c : Recast} {front : List Instruction} {gap : Nat} {known : List Handle}
  {g : γ → δ} {post : γ → Session → Session → Prop} (hlevel : c.raised = 0)

theorem mem_all_put {fs : Functions} {f : Entry} {k : Function} (h : k ∈ (fs.put f).all) :
    k = f.toFunction ∨ k ∈ fs.all := by
  obtain ⟨e, he, rfl⟩ := List.mem_map.mp h
  unfold Functions.put at he
  dsimp only at he
  split at he
  · obtain ⟨g, hg, rfl⟩ := List.mem_map.mp he
    split
    · exact .inl rfl
    · exact .inr (List.mem_map_of_mem hg)
  · rcases List.mem_append.mp he with he | he
    · exact .inr (List.mem_map_of_mem he)
    · rw [List.mem_singleton.mp he]
      exact .inl rfl

/-- A body goes behind the entry of an announced function. -/
theorem reconciled_entry {fs : Functions} {sig sig' : Signature} {stub : Handle}
    (h : fs.reconcile sig = .ok (some (stub, sig'))) : ∃ f ∈ fs.all, f.entry = stub := by
  unfold Functions.reconcile at h
  split at h
  · cases h
  · rename_i f hf
    split at h
    · cases h
    · split at h
      · cases h
        exact ⟨f, Functions.mem_of_find? hf, rfl⟩
      · cases h

/-- A function that is put into the table starts at a known instruction. -/
theorem Follows.put {s t : Session} (h : Follows c front gap known s t) {f : Entry}
    (hf : f.entry ∈ known) :
    Follows c front gap known { s with env := { s.env with functions := s.env.functions.put f } }
      { t with env := { t.env with functions := t.env.functions.put (c.entry f) } } := by
  refine h.kept rfl ?_ rfl (fun k hk => ?_) h.entryIndex h.written h.next (Nat.le_refl _) h.bound
    fun _ hx => hx
  · rw [h.env]
    simp only [Recast.env, Recast.put_functions]
  · rcases mem_all_put hk with rfl | hk
    · exact h.placed _ hf
    · exact h.entries k hk

theorem define_relays {entry : Handle} (sig : Signature) :
    Relays c front gap (entry :: known) id (define sig entry)
      (define (sig.renamed c.name) (c.handle entry)) := by
  have hchange := @modify_couples c front gap (entry :: known)
    (fun s => { s with env := { s.env with functions := s.env.functions.define sig entry } })
    (fun t => { t with env := { t.env with
      functions := t.env.functions.define (sig.renamed c.name) (c.handle entry) } })
    (fun _ => Follows c front gap (entry :: known))
  refine hchange (fun s t hst => ?_) fun _ => ⟨rfl, rfl⟩
  have hput := @Follows.put _ _ _ _ _ _ hst
    ⟨⟨entry, sig, true⟩, s.env.functions.isCalled sig.name⟩ (.head _)
  have hcalled : t.env.functions.isCalled (sig.renamed c.name).name =
      s.env.functions.isCalled sig.name := by
    rw [hst.env]
    exact Recast.isCalled_functions s.env.functions sig.name
  rw [Functions.define, Functions.define, hcalled]
  exact hput

theorem declare_relays {stub : Handle} (sig : Signature) :
    Relays c front gap (stub :: known) (fun _ => .prototypeDeclared sig.name (c.handle stub))
      (register (Functions.declare sig stub))
      (register (Functions.declare (sig.renamed c.name) (c.handle stub))) := by
  constructor
  · intro s t hst
    have hfind : t.env.functions.find? (sig.renamed c.name).name =
        (s.env.functions.find? sig.name).map c.function := by
      rw [hst.env]
      exact Recast.find?_functions s.env.functions sig.name
    cases hfound : s.env.functions.find? sig.name with
    | some f =>
      rw [hfound] at hfind
      have hx := @Functions.declare_known s.env.functions sig stub (by rw [hfound]; rfl)
      have hy := @Functions.declare_known t.env.functions (sig.renamed c.name) (c.handle stub)
        (by rw [hfind]; rfl)
      simp only [register, focus, hx, hy]
      exact .error ⟨Recast.sameError_refl _, hst.written⟩
    | none =>
      rw [hfound] at hfind
      have hx := @Functions.declare_ok s.env.functions _ sig stub _ |>.mpr ⟨hfound, rfl, rfl⟩
      have hy := @Functions.declare_ok t.env.functions _ (sig.renamed c.name) (c.handle stub) _
        |>.mpr ⟨hfind, rfl, rfl⟩
      simp only [register, focus, hx, hy]
      exact .ok (@Follows.put _ _ _ _ _ _ hst ⟨⟨stub, sig, false⟩, false⟩ (.head _))
  · intro s e t hs ht
    obtain ⟨fs, _, rfl⟩ := focus_ok.mp ht
    exact hs

theorem struct_relays (d : StructDef) : Relays c front gap known id (struct d) (struct d) := by
  have hdefine : Relays c front gap known id
      (focus (·.env.structs) (fun s structs => { s with env := { s.env with structs } })
        (Structs.define d) : Build Event)
      (focus (·.env.structs) (fun s structs => { s with env := { s.env with structs } })
        (Structs.define d)) := by
    constructor
    · intro s t hst
      have hstructs : t.env.structs = s.env.structs := by rw [hst.env]; rfl
      simp only [focus, hstructs]
      cases Structs.define d s.env.structs with
      | ok e structs =>
        refine .ok { hst with env := ?_ }
        rw [hst.env]
        rfl
      | error e structs => exact .error ⟨Recast.sameError_refl _, hst.written⟩
    · intro s e t hs ht
      obtain ⟨structs, _, rfl⟩ := focus_ok.mp ht
      exact hs
  exact hdefine.bind fun e => report_relays e e

include hlevel

theorem checkSignature_relays (sig : Signature) :
    Relays c front gap known id (checkSignature sig) (checkSignature (sig.renamed c.name)) := by
  unfold checkSignature
  refine env_couples fun e hengine => ?_
  refine (lift_couples hlevel (Recast.checkDefaults_recast hengine sig)).bind fun _ => ?_
  exact lift_couples hlevel (Recast.checkTypes_recast e.structs sig)

theorem prototype_couples (sig : Signature) :
    Couples c front gap known (fun _ => Follows c front gap []) id (prototype sig)
      (prototype (sig.renamed c.name)) := by
  unfold prototype
  refine (checkSignature_relays hlevel sig).bind fun _ => env_couples fun e _ => ?_
  have hfind : ((c.env e).functions.find? (sig.renamed c.name).name).isSome =
      (e.functions.find? sig.name).isSome := by
    rw [show (c.env e).functions = c.functions e.functions from rfl, Recast.find?_functions,
      Option.isSome_map]
    rfl
  refine refuse_couples (by rw [hfind]) (fun _ => rfl) ?_
  refine (stub_couples hlevel).bind fun stub => ?_
  refine (declare_relays sig).bind fun event => ?_
  exact (report_relays _ _).mono fun _ _ _ hend => hend.forget

/-- A definition is reconciled with the same announcement, whose instruction is there. -/
theorem reconcile_couples {k l : Option (Handle × Signature) → Build γ} (sig : Signature)
    (hnew : Couples c front gap known post id (k none) (l none))
    (hannounced : ∀ stub sig', Couples c front gap (stub :: known) post id (k (some (stub, sig')))
      (l (some (c.handle stub, sig'.renamed c.name)))) :
    Couples c front gap known post id (env >>= fun e => lift (e.functions.reconcile sig) >>= k)
      (env >>= fun e => lift (e.functions.reconcile (sig.renamed c.name)) >>= l) := by
  constructor
  · intro s t hst
    have hfound := @Recast.reconcile_recast c s.env.functions sig
    rw [show c.functions s.env.functions = t.env.functions by rw [hst.env]; rfl] at hfound
    rw [bind_of_ok (env_ok.mpr ⟨rfl, rfl⟩), bind_of_ok (env_ok.mpr ⟨rfl, rfl⟩)]
    generalize hx : s.env.functions.reconcile sig = x at hfound ⊢
    generalize t.env.functions.reconcile (sig.renamed c.name) = y at hfound ⊢
    cases hfound with
    | @ok found =>
      cases found with
      | none => exact hnew.steps s t hst
      | some found =>
        obtain ⟨stub, sig'⟩ := found
        refine (hannounced stub sig').steps s t { hst with placed := fun h hh => ?_ }
        rcases List.mem_cons.mp hh with rfl | hh
        · obtain ⟨f, hf, rfl⟩ := reconciled_entry hx
          exact hst.entries f hf
        · exact hst.placed h hh
    | error he => exact .error ⟨he, hst.written⟩
    | early he => exact absurd hlevel he
    | late he => exact absurd hlevel he
  · intro s b t hs hb
    obtain ⟨e, u, he, hb⟩ := bind_ok.mp hb
    obtain ⟨rfl, rfl⟩ := env_ok.mp he
    obtain ⟨found, u, hfound, hb⟩ := bind_ok.mp hb
    obtain ⟨-, rfl⟩ := lift_ok.mp hfound
    cases found with
    | none => exact hnew.keeps hs hb
    | some found => exact (hannounced found.1 found.2).keeps hs hb

/-- Forks hand out the handles of their streams. -/
theorem Follows.forked {s t : Session} (h : Follows c front gap known s t) :
    Codegen.Mirrors c ⟨[], [], s.out.stream.next, Handle.limit, Nat.le_refl _⟩
      ⟨{ s.out with stream := s.out.stream.fork }, {}, []⟩
      ⟨{ t.out with stream := t.out.stream.fork }, {}, []⟩ :=
  ⟨⟨[], rfl, rfl⟩, h.next, Nat.le_refl _, h.bound, rfl, (Recast.scope_empty hlevel).symm⟩

omit hlevel in
/-- The fork of the second session is that of the first one, recast, and so it is put in there. -/
theorem Follows.spliced {s t : Session} {stub : Handle} {u v : Codegen.State}
    (h : Follows c front gap (stub :: known) s t)
    (hend : Codegen.Mirrors c ⟨[], [], s.out.stream.next, Handle.limit, Nat.le_refl _⟩ u v) :
    ∃ w w',
      edit (Stream.spliceAfter stub u.out.stream) { s with
          env := s.env.marked u.marks, out := { u.out with stream := s.out.stream } } =
        .ok () { s with env := s.env.marked u.marks, out := { u.out with stream := w } } ∧
      edit (Stream.spliceAfter (c.handle stub) v.out.stream) { t with
          env := t.env.marked v.marks, out := { v.out with stream := t.out.stream } } =
        .ok () { t with env := t.env.marked v.marks, out := { v.out with stream := w' } } ∧
      Follows c front gap (stub :: known)
        { s with env := s.env.marked u.marks, out := { u.out with stream := w } }
        { t with env := t.env.marked v.marks, out := { v.out with stream := w' } } := by
  have hstream : v.out.stream = c.stream u.out.stream := by
    obtain ⟨written, hu, hv⟩ := hend.code
    have hcode : v.code = u.code.map c.instruction := by
      rw [hv, hu, List.nil_append, List.nil_append]
    change v.out.stream = ⟨u.code.map c.instruction, c.handle u.next⟩
    rw [← hcode, ← hend.next]
    rfl
  obtain ⟨hstub, hfront⟩ := h.placed stub (.head _)
  obtain ⟨w, w', hw, hw', hcode, hnext, hmax, hkept⟩ :=
    spliceAfter_behind hfront h.written h.next hstub u.out.stream
  rw [← hstream] at hw' hmax
  refine ⟨w, w', edit_ok.mpr ⟨w, hw, rfl⟩, edit_ok.mpr ⟨w', hw', rfl⟩, ?_⟩
  refine h.kept rfl ?_ rfl ?_ h.entryIndex hcode hnext ?_ ?_ hkept
  · rw [hend.marks, h.env, Recast.marked_env]
  · rw [show (s.env.marked u.marks).functions.all = s.env.functions.all from Functions.all_marked]
    exact h.entries
  · obtain ⟨_, _, rfl⟩ := Stream.spliceAfter_ok.mp hw
    exact Nat.le_max_left ..
  · change w'.next ≤ Handle.limit
    rw [hmax]
    exact Nat.max_le.mpr ⟨h.bound, hend.bound⟩

omit hlevel in
/-- A body that was put in, and how far the handles have come with it. -/
theorem spliced_ok {s t : Session} {x : Gen Unit} {stub : Handle} {a : Unit}
    (h : (aside x >>= fun body => edit (Stream.spliceAfter stub body)) s = .ok a t) :
    ∃ u, x ⟨{ s.out with stream := s.out.stream.fork }, {}, []⟩ = .ok () u ∧
      t.env.engine = s.env.engine ∧ t.out.stream.next = max s.out.stream.next u.next := by
  obtain ⟨body, _, haside, hedit⟩ := bind_ok.mp h
  obtain ⟨u, hu, rfl, rfl⟩ := aside_ok.mp haside
  obtain ⟨_, hsplice, rfl⟩ := edit_ok.mp hedit
  obtain ⟨_, _, rfl⟩ := Stream.spliceAfter_ok.mp hsplice
  exact ⟨u, hu, rfl, rfl⟩

/-- A body that is compiled on the side and put behind the instruction of its announcement. -/
theorem spliced_relays {x y : Gen Unit} (h : Codegen.Recasts c id x y) {stub : Handle} :
    Relays c front gap (stub :: known) id
      (aside x >>= fun body => edit (Stream.spliceAfter stub body))
      (aside y >>= fun body => edit (Stream.spliceAfter (c.handle stub) body)) := by
  constructor
  · intro s t hst
    have hrun := (h _).steps _ _ (hst.forked hlevel)
    generalize hx : x ⟨{ s.out with stream := s.out.stream.fork }, {}, []⟩ = r at hrun
    generalize hy : y ⟨{ t.out with stream := t.out.stream.fork }, {}, []⟩ = r' at hrun
    cases hrun with
    | @ok _ u v hend =>
      obtain ⟨w, w', hw, hw', hfollows⟩ := hst.spliced hend
      rw [bind_ok.mpr ⟨_, _, aside_ok.mpr ⟨u, hx, rfl, rfl⟩, hw⟩,
        bind_ok.mpr ⟨_, _, aside_ok.mpr ⟨v, hy, rfl, rfl⟩, hw'⟩]
      exact .ok hfollows
    | error hend =>
      rw [bind_error (aside_error hx), bind_error (aside_error hy)]
      exact .error ⟨hend.1, hst.written⟩
    | early he => exact absurd hlevel he
    | late hl hbeyond =>
      rw [bind_error (aside_error hy)]
      refine .late ⟨hl.1, hst.written.kept⟩ fun _ s' hs' => ?_
      obtain ⟨u, hu, hengine, hnext⟩ := spliced_ok hs'
      have hend : c.Beyond u.next := hbeyond () u (hx.symm.trans hu)
      refine ⟨by rw [hengine]; exact hst.engine, ?_⟩
      rw [hnext]
      exact hend.mono (Nat.le_max_right ..)
  · intro s a t hs ht
    obtain ⟨_, -, hengine, hnext⟩ := spliced_ok ht
    refine ⟨by rw [hengine]; exact hs.1, ?_⟩
    rw [hnext]
    exact hs.2.mono (Nat.le_max_left ..)

/-- The same, and what comes next. -/
theorem spliced_couples {x y : Gen Unit} (h : Codegen.Recasts c id x y) {stub : Handle}
    {k : Build γ} {l : Build δ} (hk : Couples c front gap (stub :: known) post g k l) :
    Couples c front gap (stub :: known) post g
      (do let body ← aside x; edit (Stream.spliceAfter stub body); k)
      (do let body ← aside y; edit (Stream.spliceAfter (c.handle stub) body); l) := by
  have hall := (spliced_relays hlevel h).bind (k := fun _ => k) (l := fun _ => l) fun _ => hk
  rwa [bind_assoc, bind_assoc] at hall

theorem function_couples (f : FunctionDef) :
    Couples c front gap known (fun _ => Follows c front gap []) id (function f)
      (function (f.renamed c.name)) := by
  have hdone {entry : Handle} {known : List Handle} (sig : Signature) (event event' : Event) :
      Couples c front gap (entry :: known) (fun _ => Follows c front gap []) id
        (do report event; define sig entry)
        (do report event'; define (sig.renamed c.name) (c.handle entry)) := by
    refine (report_relays _ _).bind fun _ => ?_
    exact (define_relays sig).mono fun _ _ _ hend => hend.forget
  unfold function
  refine reconcile_couples hlevel f.signature ?_ fun stub sig => ?_
  · refine (checkSignature_relays hlevel f.signature).bind fun _ => ?_
    refine (stub_couples hlevel).bind fun entry => env_couples fun e hengine => ?_
    have hbody := Codegen.body_recasts hlevel hengine f.signature f.body
    exact (generate_relays hlevel hbody).bind fun _ => hdone f.signature _ _
  · refine (checkSignature_relays hlevel sig).bind fun _ => env_couples fun e hengine => ?_
    have hbody := Codegen.body_recasts hlevel hengine sig f.body
    exact spliced_couples hlevel hbody (hdone sig _ _)

theorem functions_relays (items : Script) :
    Relays c front gap [] id (functions items) (functions (items.renamed c.name)) := by
  induction items with
  | nil => exact pure_relays
  | cons item rest ih =>
    cases item with
    | «include» name => exact throw_couples (Recast.sameError_refl _)
    | global g => exact ih
    | struct d => exact ih
    | prototype sig => exact (prototype_couples hlevel sig).bind fun _ => ih
    | function f => exact (function_couples hlevel f).bind fun _ => ih

theorem global_relays (d : GlobalDef) :
    Relays c front gap known id (global d) (global (d.renamed c.name)) := by
  unfold global
  refine env_couples fun e _ => ?_
  refine require_couples Iff.rfl (fun hname => by rw [hname]; rfl) ?_
  refine (lift_couples hlevel (Recast.matches_same _)).bind fun _ => ?_
  have hany : (c.env e).globals.any (·.name == (d.renamed c.name).name) =
      e.globals.any (·.name == d.name) := by
    simp only [Recast.env, List.any_map]
    refine congrArg (e.globals.any ·) (funext fun h => ?_)
    exact Recast.name_beq h.name d.name
  refine refuse_couples (by rw [hany]) (fun hname => by rw [hname]; rfl) ?_
  have hinit : (d.renamed c.name).init.isNone = d.init.isNone := Option.isNone_map
  refine refuse_couples (by rw [hinit]; rfl) (fun hname => by rw [hname]; rfl) ?_
  refine lift_bind_couples hlevel (Recast.matches_same _) fun ops hops => ?_
  refine (generate_relays hlevel (Codegen.emitAll_recasts (Codegen.op_reserving hops))).bind
    fun _ => ?_
  have hadded := @modify_couples c front gap known
    (fun s => { s with env := { s.env with
      globals := s.env.globals ++ [⟨d.name, d.ty, d.const⟩] } })
    (fun t => { t with env := { t.env with
      globals := t.env.globals ++ [⟨c.name d.name, d.ty, d.const⟩] } })
    (fun _ => Follows c front gap known)
  refine (hadded (fun s t hst => { hst with env := ?_ }) fun _ => ⟨rfl, rfl⟩).bind fun _ => ?_
  · rw [hst.env]
    simp [Recast.env, Recast.global]
  · dsimp only [GlobalDef.renamed]
    cases d.init with
    | none => exact report_relays _ _
    | some value =>
      refine env_couples fun after hengine => ?_
      have hvalue := Codegen.initialValue_recasts hengine hlevel d.name d.ty value
      exact (generate_relays hlevel hvalue).bind fun _ => report_relays _ _

theorem globals_relays (items : Script) :
    Relays c front gap known id (globals items) (globals (items.renamed c.name)) := by
  induction items with
  | nil => exact pure_relays
  | cons item rest ih =>
    cases item with
    | «include» _ | prototype _ | function _ => exact ih
    | global d => exact (global_relays hlevel d).bind fun _ => ih
    | struct d => exact (struct_relays d).bind fun _ => ih

omit hlevel

/-- Calls start behind the globals, and so behind what there was before. -/
theorem entry_couples (count count' : Nat) :
    Couples c front gap known (fun _ => Follows c front front.length known) id
      (do let entryIndex := (← stream).code.length
          modify fun s => { s with entryIndex }
          report (.globalsCompiled count entryIndex))
      (do let entryIndex := (← stream).code.length
          modify fun s => { s with entryIndex }
          report (.globalsCompiled count' entryIndex)) := by
  constructor
  · intro s t hst
    refine .ok { hst with entryIndex := ?_ }
    have hlength := congrArg List.length hst.written
    simp only [List.length_append, List.length_map] at hlength
    change t.out.stream.code.length = s.out.stream.code.length + front.length
    omega
  · intro s a t hs ht
    simp only [bind_ok, stream_ok, modify_ok, report_ok] at ht
    obtain ⟨_, _, ⟨rfl, rfl⟩, _, _, rfl, rfl⟩ := ht
    exact hs

include hlevel

theorem sealGlobals_couples :
    Couples c front gap known (fun _ => Follows c front front.length known) id
      sealGlobals sealGlobals := by
  unfold sealGlobals
  refine env_couples fun e _ => ?_
  refine .ite (by simp [Recast.env]) (fun _ => entry_couples _ _) fun _ => ?_
  refine (add_relays hlevel rfl).bind fun _ => ?_
  have hclosed := @modify_couples c front gap known
    (fun s => { s with env := { s.env with sealed := true } })
    (fun t => { t with env := { t.env with sealed := true } })
    (fun _ => Follows c front gap known)
  refine (hclosed (fun s t hst => { hst with env := ?_ }) fun _ => ⟨rfl, rfl⟩).bind
    fun _ => entry_couples _ _
  rw [hst.env]
  rfl

omit hlevel

/-- The session is looked at before what comes next. -/
theorem get_couples {k l : Session → Build γ}
    (h : ∀ s t, t.env = c.env s.env → Couples c front gap known post id (k s) (l t)) :
    Couples c front gap known post id (get >>= k) (get >>= l) := by
  constructor
  · exact fun s t hst => (h s t hst.env).steps s t hst
  · intro s a t hs ht
    exact (h s { s with env := c.env s.env } rfl).keeps hs ht

theorem checkCalled_relays : Relays c front gap known id checkCalled checkCalled := by
  unfold checkCalled
  refine env_couples fun e _ => ?_
  have hmissing : (c.env e).functions.undefinedCalled = e.functions.undefinedCalled :=
    Recast.undefinedCalled_functions e.functions
  dsimp only
  rw [hmissing]
  refine .ite Iff.rfl (fun _ => pure_relays) fun _ => ?_
  exact ⟨fun _ _ hst => .error ⟨Recast.sameError_refl _, hst.written⟩,
    fun _ ht => (mistake_ok.mp ht).elim⟩

/-! ## Starting -/

/-- Puts a new instruction in at an index. -/
def putIn (index : Nat) (i : Instruction) : Edit Handle := do
  let s ← get
  if index ≤ s.code.length then
    set { s with code := s.code.take index ++ i :: s.code.drop index }
    return i.handle
  else throw (.panic .beyondEnd)

theorem putIn_ok {index : Nat} {i : Instruction} {st st' : Stream} {h : Handle} :
    putIn index i st = .ok h st' ↔ index ≤ st.code.length ∧ h = i.handle ∧
      st' = { st with code := st.code.take index ++ i :: st.code.drop index } := by
  simp only [putIn, bind_ok, get_ok]
  constructor
  · rintro ⟨_, _, ⟨rfl, rfl⟩, hrest⟩
    split at hrest
    · simp only [bind_ok, set_ok, pure_ok] at hrest
      obtain ⟨_, _, rfl, rfl, rfl⟩ := hrest
      exact ⟨‹_›, rfl, rfl⟩
    · exact (throw_ok.mp hrest).elim
  · rintro ⟨hindex, rfl, rfl⟩
    refine ⟨_, _, ⟨rfl, rfl⟩, ?_⟩
    rw [if_pos hindex]
    rfl

theorem putIn_error {index : Nat} {i : Instruction} {st : Stream} (h : st.code.length < index) :
    putIn index i st = .error (.panic .beyondEnd) st := by
  rw [putIn, bind_of_ok (get_ok.mpr ⟨rfl, rfl⟩), if_neg (Nat.not_le.mpr h)]
  rfl

/-- Behind what there was before, an instruction goes to the same place. -/
theorem putIn_relays (index : Nat) (i : Instruction) :
    Relays c front gap known c.handle (edit (putIn index i))
      (edit (putIn (index + front.length) (c.instruction i))) := by
  constructor
  · intro s t hst
    have hlength : t.out.stream.code.length = front.length + s.out.stream.code.length := by
      rw [show t.out.stream.code = front ++ _ from hst.written, List.length_append, List.length_map]
    by_cases hindex : index ≤ s.out.stream.code.length
    · have hindex' : index + front.length ≤ t.out.stream.code.length := by omega
      rw [edit_ok.mpr ⟨_, putIn_ok.mpr ⟨hindex, rfl, rfl⟩, rfl⟩,
        edit_ok.mpr ⟨_, putIn_ok.mpr ⟨hindex', rfl, rfl⟩, rfl⟩]
      refine .ok (hst.kept rfl hst.env rfl hst.entries hst.entryIndex ?_ hst.next (Nat.le_refl _)
        hst.bound fun h hh => ?_)
      · change List.take _ _ ++ _ = _
        rw [show t.out.stream.code = front ++ _ from hst.written, Nat.add_comm index,
          List.take_length_add_append, List.drop_length_add_append]
        simp only [List.map_append, List.map_cons, List.map_take, List.map_drop, List.append_assoc]
      · rw [← List.take_append_drop index s.out.stream.code, List.map_append,
          List.mem_append] at hh
        simp only [List.map_append, List.map_cons, List.mem_append, List.mem_cons]
        exact hh.imp_right .inr
    · have hout := Nat.lt_of_not_le hindex
      have hout' : t.out.stream.code.length < index + front.length := by omega
      rw [edit_error (putIn_error hout), edit_error (putIn_error hout')]
      exact .error ⟨Recast.sameError_refl _, hst.written⟩
  · intro s h t hs ht
    obtain ⟨_, hput, rfl⟩ := edit_ok.mp ht
    obtain ⟨-, -, rfl⟩ := putIn_ok.mp hput
    exact hs

include hlevel

theorem insert_relays {op : Op} (hop : op = c.op op) (index : Nat) (target : Option Handle) :
    Relays c front gap known c.handle (edit (Stream.insert index op target))
      (edit (Stream.insert (index + front.length) op (target.map c.handle))) := by
  have hparts (index : Nat) (target : Option Handle) : edit (Stream.insert index op target) =
      edit (Stream.detached op target) >>= fun i => edit (putIn index i) := edit_bind
  rw [hparts, hparts, edit_eq_generate (Stream.detached op target),
    edit_eq_generate (Stream.detached op (target.map c.handle))]
  exact (generate_relays hlevel (Codegen.new_recasts hop target)).bind (putIn_relays index)

theorem insertEntry_relays {op : Op} (hop : op = c.op op) (target : Option Handle) :
    Relays c front front.length known id (insertEntry op target)
      (insertEntry op (target.map c.handle)) := by
  have hat (index : Nat) : Relays c front front.length known id
      (do let _ ← edit (Stream.insert index op target))
      (do let _ ← edit (Stream.insert (index + front.length) op (target.map c.handle))) :=
    (insert_relays hlevel hop index target).bind fun _ => pure_relays
  constructor
  · intro s t hst
    have hrun := (hat s.entryIndex).steps s t hst
    rw [← hst.entryIndex] at hrun
    exact hrun
  · exact fun {s} _ _ hs ht => (hat s.entryIndex).keeps hs ht

theorem trampoline_relays : Relays c front front.length known id trampoline trampoline := by
  unfold trampoline
  refine get_couples fun s t henv => ?_
  have hdefined (name : Name) : t.env.functions.defined? name =
      (s.env.functions.defined? name).map c.function := by
    rw [henv]
    exact Recast.defined?_functions s.env.functions name
  rw [hdefined]
  cases s.env.functions.defined? mainName with
  | some f =>
    refine (insertEntry_relays hlevel rfl none).bind fun _ => ?_
    refine (insertEntry_relays hlevel rfl (some f.entry)).bind fun _ => ?_
    exact report_relays _ _
  | none =>
    dsimp only
    rw [hdefined]
    cases s.env.functions.defined? conditionalName with
    | some f =>
      refine (insertEntry_relays hlevel rfl none).bind fun _ => ?_
      refine (insertEntry_relays hlevel rfl (some f.entry)).bind fun _ => ?_
      exact (insertEntry_relays hlevel rfl none).bind fun _ => report_relays _ _
    | none =>
      exact ⟨fun _ _ hst => .error ⟨Recast.sameError_refl _, hst.written⟩,
        fun _ ht => (throw_ok.mp ht).elim⟩

/-! ## Scripts -/

omit hlevel

/-- Everything that is done with the items of a script. -/
def program (listed : Bool) (items : Script) : Build Unit := do
  globals items
  sealGlobals
  functions items
  checkCalled
  trampoline
  if listed then report (.listed (← stream).listing)

theorem script_program (setup : Setup) (script : Script) :
    Build.script setup script = Build.items setup script >>= program setup.options.traceListing :=
  rfl

theorem listing_relays :
    Relays c front gap known id (do report (.listed (← stream).listing))
      (do report (.listed (← stream).listing)) := by
  constructor
  · exact fun s t hst => .ok { hst with }
  · intro s a t hs ht
    simp only [bind_ok, stream_ok, report_ok] at ht
    obtain ⟨_, _, ⟨rfl, rfl⟩, rfl⟩ := ht
    exact hs

include hlevel

/-- The items of a script give the same program, recast. -/
theorem program_couples (listed : Bool) (items : Script) :
    Couples c front gap [] (fun _ => Follows c front front.length []) id
      (program listed items) (program listed (items.renamed c.name)) := by
  unfold program
  refine (globals_relays hlevel items).bind fun _ => ?_
  refine (sealGlobals_couples hlevel).bind fun _ => ?_
  refine (functions_relays hlevel items).bind fun _ => checkCalled_relays.bind fun _ => ?_
  refine (trampoline_relays hlevel).bind fun _ => ?_
  exact .ite Iff.rfl (fun _ => listing_relays) fun _ => pure_relays

/-- A script is compiled to the same program, recast, if its items are. -/
theorem script_in_step {setup setup' : Setup} {script script' : Script} {s t : Session}
    (hlisted : setup'.options.traceListing = setup.options.traceListing)
    (hitems : c.Matches (Script.renamed c.name) (Expansion.expand setup s.included script).items
      (Expansion.expand setup' t.included script').items)
    (hst : Follows c front gap [] s t) :
    InStep (leeway c front) (fun _ => Follows c front front.length []) (Fails c front) id
      (Build.script setup script s) (Build.script setup' script' t) := by
  rw [script_program, script_program, hlisted]
  simp only [bind, EStateM.bind, items_eq]
  generalize Expansion.expand setup s.included script = x at hitems ⊢
  generalize Expansion.expand setup' t.included script' = y at hitems ⊢
  generalize hx : x.items = items at hitems ⊢
  generalize hy : y.items = items' at hitems ⊢
  cases hitems with
  | ok => exact (program_couples hlevel _ _).steps _ _ { hst with }
  | error he => exact .error ⟨he, hst.written⟩
  | early he => exact absurd hlevel he
  | late he => exact absurd hlevel he

end Items

end Build

end NwScript
