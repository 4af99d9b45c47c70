-- The values of a script, told by their members and not by slots, and how they lie in cells. What a
-- chain of members reads or changes is just the stretch of cells that its offset points at.
import NwScript.Proofs.Machine.Cell
import NwScript.Proofs.Storage.Slots
import NwScript.Proofs.Storage.Stack
import NwScript.Codegen.Access

namespace NwScript

/-! ## Values -/

inductive Datum where
  | cell (c : Cell)
  | vector (x y z : Binary32)
  | struct (name : Name) (fields : List (Name × Datum))

def Cell.ty : Cell → Ty
  | .int _ => .int
  | .float _ => .float
  | .string _ => .string
  | .object _ => .object
  | .effect _ => .effect
  | .event _ => .event
  | .location _ => .location
  | .talent _ => .talent

namespace Datum

@[match_pattern] abbrev int (n : Int32) : Datum := .cell (.int n)

@[match_pattern] abbrev float (x : Binary32) : Datum := .cell (.float x)

@[match_pattern] abbrev string (s : String) : Datum := .cell (.string s)

@[match_pattern] abbrev object (handle : Int32) : Datum := .cell (.object handle)

/-- The fields of a struct come before it. -/
theorem inductOn {P : Datum → Prop} (cell : ∀ c, P (.cell c)) (vector : ∀ x y z, P (.vector x y z))
    (struct : ∀ name fields, (∀ f ∈ fields, P f.2) → P (.struct name fields)) (d : Datum) : P d :=
  @Datum.rec P (fun fields => ∀ f ∈ fields, P f.2) (fun f => P f.2) cell vector struct
    (fun _ h => nomatch h)
    (fun _ _ hhead htail _ hf => by
      rcases List.mem_cons.mp hf with rfl | hf
      · exact hhead
      · exact htail _ hf)
    (fun _ _ h => h) d

def ty : Datum → Ty
  | .cell c => c.ty
  | .vector _ _ _ => .vector
  | .struct name _ => .struct name

mutual

/-- The cells of a value, lowest first. -/
def cells : Datum → List Cell
  | .cell c => [c]
  | .vector x y z => [.float x, .float y, .float z]
  | .struct _ fields => fieldCells fields

/-- The cells of fields, one field after another. -/
def fieldCells : List (Name × Datum) → List Cell
  | [] => []
  | (_, d) :: rest => cells d ++ fieldCells rest

end

mutual

/-- Whether a value is of a type, which for a struct means that it has just the members of the
struct. -/
def Fits (structs : Structs) : Ty → Datum → Prop
  | ty, .cell c => ty = c.ty
  | ty, .vector _ _ _ => ty = .vector
  | ty, .struct name fields =>
    ty = .struct name ∧ ∃ l, structs.find? name = some l ∧ FieldsFit structs l.members fields

def FieldsFit (structs : Structs) : List Member → List (Name × Datum) → Prop
  | [], [] => True
  | m :: ms, (name, d) :: rest => m.name = name ∧ Fits structs m.ty d ∧ FieldsFit structs ms rest
  | [], _ :: _ => False
  | _ :: _, [] => False

end

/-! ## Members -/

def member? (name : Name) : Datum → Option Datum
  | .cell _ => none
  | .vector x y z => (Codegen.axes.idxOf? name).bind fun i => [x, y, z][i]?.map fun v =>
    .cell (.float v)
  | .struct _ fields => Named.get? name fields

/-- The value with another member. -/
def setMember? (name : Name) (y : Datum) : Datum → Option Datum
  | .cell _ => none
  | .vector a b c => match Codegen.axes.idxOf? name, y with
    | some 0, .cell (.float v) => some (.vector v b c)
    | some 1, .cell (.float v) => some (.vector a v c)
    | some 2, .cell (.float v) => some (.vector a b v)
    | _, _ => none
  | .struct s fields => (Named.put? name y fields).map (.struct s)

/-- What a chain of members leads to. -/
def get? : List Name → Datum → Option Datum
  | [], d => some d
  | m :: rest, d => (d.member? m).bind (get? rest)

/-- The value with something else at the end of a chain of members. -/
def put? : List Name → Datum → Datum → Option Datum
  | [], y, _ => some y
  | m :: rest, y, d => do
    let inner ← d.member? m
    let inner ← put? rest y inner
    setMember? m inner d

/-! ## Cells of a value of a type -/

variable {structs : Structs} {ty : Ty} {d : Datum}

theorem Fits.ty_eq (h : Fits structs ty d) : d.ty = ty := by
  cases d with
  | cell c => exact Eq.symm h
  | vector x y z => exact Eq.symm h
  | struct name fields => exact h.1.symm

theorem slots_cell (c : Cell) : structs.slots c.ty = .ok [c.kind] := by cases c <;> rfl

/-- The cells of a value are of the kinds that its type says. -/
theorem Fits.slots (hs : Structs.Laid structs.layouts) (h : Fits structs ty d) :
    structs.slots ty = .ok (d.cells.map Cell.kind) := by
  induction d using inductOn generalizing ty with
  | cell c =>
    rw [show ty = c.ty from h]
    exact slots_cell c
  | vector x y z =>
    rw [show ty = .vector from h]
    rfl
  | struct name fields ih =>
    obtain ⟨rfl, l, hl, hf⟩ := h
    obtain ⟨_, kss, hk, hslots⟩ := Structs.row_of_find hs hl
    rw [show structs.slots (.struct name) = Structs.structSlots structs.layouts name
      from rfl, hslots]
    congr 1
    clear hslots hl
    generalize l.members = ms at hf hk
    induction fields generalizing ms kss with
    | nil =>
      cases ms with
      | nil =>
        cases hk
        rfl
      | cons m ms => exact hf.elim
    | cons field rest ihrest =>
      cases ms with
      | nil => exact hf.elim
      | cons m ms =>
        obtain ⟨_, hhead, htail⟩ := hf
        simp only [List.mapM_cons, except_bind_ok, except_pure_ok] at hk
        obtain ⟨ks, hks, kss', hrest, rfl⟩ := hk
        have hcells := ih field (by simp) hhead
        rw [show structs.slots m.ty = Structs.slotsWith _ m.ty from rfl, hks] at hcells
        cases hcells
        have htl := ihrest (fun f hf => ih f (List.mem_cons_of_mem _ hf)) kss' ms htail hrest
        simpa [cells, fieldCells] using htl

theorem Fits.size (hs : Structs.Laid structs.layouts) (h : Fits structs ty d) :
    structs.sizeOf ty = .ok d.cells.length := by
  have := Structs.sizeOf_of_slots hs (h.slots hs)
  simpa using this

/-! ## Where members lie -/

/-- A field lies where the row of members has it. -/
theorem field_lies {ms : List Member} {fields : List (Name × Datum)} {n size : Nat} {name : Name}
    {m : Member} (hs : Structs.Laid structs.layouts) (h : FieldsFit structs ms fields)
    (hrow : Structs.Row structs.layouts n ms size)
    (hm : ms.find? (·.name == name) = some m) :
    ∃ e before after, Named.get? name fields = some e ∧ Fits structs m.ty e ∧
      fieldCells fields = before ++ e.cells ++ after ∧ n + before.length = m.offset ∧
      Replaces cells (Fits structs) m.ty before after (Named.put? name · fields)
        (FieldsFit structs ms) fieldCells := by
  induction fields generalizing ms n with
  | nil =>
    cases ms with
    | nil => simp at hm
    | cons m ms => exact h.elim
  | cons field rest ih =>
    obtain ⟨fname, d⟩ := field
    obtain ⟨⟩ | ⟨hks, hoffset, hrow⟩ := hrow
    · exact h.elim
    rename_i head ks ms
    obtain ⟨rfl, hhead, htail⟩ := h
    have hlen : ks.length = d.cells.length := by
      have hslots := hhead.slots hs
      rw [show structs.slots head.ty = Structs.slotsWith _ head.ty from rfl, hks] at hslots
      cases hslots
      simp
    by_cases hn : head.name = name
    · simp only [List.find?_cons, hn, beq_self_eq_true, Option.some.injEq] at hm
      subst hm
      refine ⟨d, [], fieldCells rest, by simp [Named.get?, hn], hhead, by simp [fieldCells],
        by simp [hoffset], ?_⟩
      intro y hy
      exact ⟨(head.name, y) :: rest, by simp [Named.put?, hn], ⟨rfl, hy, htail⟩,
        by simp [fieldCells]⟩
    · have hne : (head.name == name) = false := by simpa using hn
      simp only [List.find?_cons, hne] at hm
      obtain ⟨e, before, after, hget, he, hcells, hbefore, hput⟩ := ih htail hrow hm
      refine ⟨e, d.cells ++ before, after, by simp [Named.get?, hn, hget], he,
        by simp [fieldCells, hcells], ?_, ?_⟩
      · simp only [List.length_append]
        omega
      · intro y hy
        obtain ⟨fs, hfs, hfit, hc⟩ := hput y hy
        exact ⟨(head.name, d) :: fs, by simp [Named.put?, hn, hfs], ⟨rfl, hhead, hfit⟩,
          by simp [fieldCells, hc]⟩

/-- A member of a struct lies at its offset. -/
theorem member_lies {name member : Name} {offset : Nat} {inner : Ty}
    (hs : Structs.Laid structs.layouts) (h : Fits structs (.struct name) d)
    (ho : structs.memberOffset name member = .ok offset)
    (ht : structs.memberType name member = .ok inner) :
    ∃ e before after, d.member? member = some e ∧ Fits structs inner e ∧
      d.cells = before ++ e.cells ++ after ∧ before.length = offset ∧
      Replaces cells (Fits structs) inner before after (setMember? member · d)
        (Fits structs (.struct name)) cells := by
  obtain ⟨l, m, hl, hm, rfl, rfl⟩ := Structs.member_found ho ht
  cases d with
  | cell c => cases c <;> cases h
  | vector x y z => cases h
  | struct name' fields =>
    obtain ⟨hname, l', hl', hfit⟩ := h
    cases hname
    rw [hl] at hl'
    cases hl'
    obtain ⟨e, before, after, hget, he, hcells, hbefore, hput⟩ :=
      field_lies hs hfit (Structs.row_of_find hs hl).1 hm
    refine ⟨e, before, after, hget, he, hcells, by omega, ?_⟩
    intro y hy
    obtain ⟨fs, hfs, hfit', hc⟩ := hput y hy
    exact ⟨.struct name fs, by simp [setMember?, hfs], ⟨rfl, l, hl, hfit'⟩, hc⟩

/-- A component of a vector lies at its index. -/
theorem component_lies {member : Name} {i : Nat} (h : Fits structs .vector d)
    (hi : Codegen.axes.idxOf? member = some i) :
    ∃ e before after, d.member? member = some e ∧ Fits structs .float e ∧
      d.cells = before ++ e.cells ++ after ∧ before.length = i ∧
      Replaces cells (Fits structs) .float before after (setMember? member · d)
        (Fits structs .vector) cells := by
  have hfloat : ∀ y, Fits structs .float y → ∃ v, y = .cell (.float v) := by
    intro y hy
    cases y with
    | cell c =>
      cases c with
      | float v => exact ⟨v, rfl⟩
      | _ => cases hy
    | vector => cases hy
    | struct => cases hy.1
  cases d with
  | cell c => cases c <;> cases h
  | struct name fields => cases h.1
  | vector a b c =>
    have hlt : i < 3 := by
      have := (List.findIdx?_eq_some_iff_getElem.mp hi).1
      simpa [Codegen.axes] using this
    obtain rfl | rfl | rfl : i = 0 ∨ i = 1 ∨ i = 2 := by omega
    · refine ⟨.cell (.float a), [], [.float b, .float c], by simp [member?, hi], rfl, rfl, rfl, ?_⟩
      intro y hy
      obtain ⟨v, rfl⟩ := hfloat y hy
      exact ⟨.vector v b c, by simp [setMember?, hi], rfl, rfl⟩
    · refine ⟨.cell (.float b), [.float a], [.float c], by simp [member?, hi], rfl, rfl, rfl, ?_⟩
      intro y hy
      obtain ⟨v, rfl⟩ := hfloat y hy
      exact ⟨.vector a v c, by simp [setMember?, hi], rfl, rfl⟩
    · refine ⟨.cell (.float c), [.float a, .float b], [], by simp [member?, hi], rfl, rfl, rfl, ?_⟩
      intro y hy
      obtain ⟨v, rfl⟩ := hfloat y hy
      exact ⟨.vector a b v, by simp [setMember?, hi], rfl, rfl⟩

/-- What a chain of members leads to lies as far above the start as the chain was followed. -/
theorem path_lies {env : Env} {path : Access} {members : List Name} {r r' : Resolved}
    (hs : Structs.Laid env.structs.layouts) (hf : Codegen.follow env path r members = .ok r')
    (h : Fits env.structs r.ty d) :
    ∃ e before after, d.get? members = some e ∧ Fits env.structs r'.ty e ∧
      d.cells = before ++ e.cells ++ after ∧ r'.offset = r.offset + before.length ∧
      r'.anchor = r.anchor ∧
      Replaces cells (Fits env.structs) r'.ty before after (put? members · d)
        (Fits env.structs r.ty) cells := by
  induction members generalizing r d with
  | nil =>
    cases hf
    exact ⟨d, [], [], rfl, h, by simp, by simp, rfl, fun y hy => ⟨y, rfl, hy, by simp⟩⟩
  | cons m rest ih =>
    -- one member, and then the rest of the chain inside it
    have hinner {inner : Ty} {i : Nat} {e : Datum} {before after : List Cell}
        (hget : d.member? m = some e) (he : Fits env.structs inner e)
        (hcells : d.cells = before ++ e.cells ++ after) (hlen : before.length = i)
        (hset : Replaces cells (Fits env.structs) inner before after (setMember? m · d)
          (Fits env.structs r.ty) cells)
        (hf : Codegen.follow env path { r with ty := inner, offset := r.offset + i } rest =
          .ok r') :
        ∃ e before after, d.get? (m :: rest) = some e ∧ Fits env.structs r'.ty e ∧
          d.cells = before ++ e.cells ++ after ∧ r'.offset = r.offset + before.length ∧
          r'.anchor = r.anchor ∧
          Replaces cells (Fits env.structs) r'.ty before after (put? (m :: rest) · d)
            (Fits env.structs r.ty) cells := by
      obtain ⟨e', before', after', hget', he', hcells', hoffset, hanchor, hput⟩ := ih hf he
      refine ⟨e', before ++ before', after' ++ after, by simp [get?, hget, hget'], he',
        by simp [hcells, hcells'], ?_, hanchor, ?_⟩
      · rw [hoffset]
        simp only [List.length_append]
        omega
      · intro y hy
        obtain ⟨e₂, he₂, hfit₂, hc₂⟩ := hput y hy
        obtain ⟨d₂, hd₂, hfit, hc⟩ := hset e₂ hfit₂
        exact ⟨d₂, by simp [put?, hget, he₂, hd₂], hfit, by simp [hc, hc₂]⟩
    rw [Codegen.follow] at hf
    split at hf
    · rename_i hty
      split at hf
      · rename_i i hi
        simp only [except_bind_ok, Count.checked_ok] at hf
        obtain ⟨_, ⟨-, rfl⟩, hf⟩ := hf
        rw [hty] at h
        obtain ⟨e, before, after, hget, he, hcells, hlen, hset⟩ := component_lies h hi
        rw [← hty] at hset
        exact hinner hget he hcells hlen hset hf
      · cases hf
    · rename_i name hty
      simp only [except_bind_ok, Count.checked_ok] at hf
      obtain ⟨offset, ho, _, ⟨-, rfl⟩, inner, ht, hf⟩ := hf
      rw [hty] at h
      obtain ⟨e, before, after, hget, he, hcells, hlen, hset⟩ := member_lies hs h ho ht
      rw [← hty] at hset
      exact hinner hget he hcells hlen hset hf
    · cases hf

/-! ## Literals and operands -/

/-- What a literal stands for. -/
def ofValue : Value → Datum
  | .int n => .cell (.int n)
  | .float x => .cell (.float x)
  | .string s => .cell (.string s)
  | .object handle => .cell (.object handle)
  | .vector x y z => .vector x y z

theorem fits_ofValue (v : Value) : Fits structs v.ty (ofValue v) := by cases v <;> rfl

theorem effects_pushing {alu : Alu} {base : Nat} {stack : List Cell} (v : Value) :
    Op.effects alu base (Op.pushing v) stack = some (stack ++ (ofValue v).cells) := by
  cases v <;> simp [Op.pushing, Op.effects, Op.effect, ofValue, cells]

def ofOperand : {ty : Ty} → Operand ty → Datum
  | .int, (n : Int32) => .cell (.int n)
  | .object, (handle : Int32) => .cell (.object handle)
  | .float, (x : Binary32) => .cell (.float x)
  | .string, (s : String) => .cell (.string s)
  | .vector, (x, y, z) => .vector x y z

theorem fits_ofOperand (x : Operand ty) : Fits structs ty (ofOperand x) := by
  cases ty <;> first | rfl | cases x

@[simp] theorem cells_ofOperand (x : Operand ty) : (ofOperand x).cells = x.cells := by
  cases ty <;> first | rfl | cases x

/-- A value of a type with arithmetic is an operand. -/
theorem Fits.operand (h : Fits structs ty d) (hty : ty ∈ Operand.types) :
    ∃ x : Operand ty, d = ofOperand x := by
  cases d with
  | cell c =>
    cases h
    cases c with
    | int n => exact ⟨n, rfl⟩
    | float x => exact ⟨x, rfl⟩
    | string text => exact ⟨text, rfl⟩
    | object handle => exact ⟨handle, rfl⟩
    | _ => simp [Cell.ty, Operand.types] at hty
  | vector x y z =>
    cases h
    exact ⟨(x, y, z), rfl⟩
  | struct name fields =>
    cases h.1
    simp [Operand.types] at hty

end Datum

end NwScript
