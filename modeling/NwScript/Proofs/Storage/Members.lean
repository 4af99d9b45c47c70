-- The members of structs. Offsets and sizes are fixed when a struct is defined, while the
-- instructions that reserve it are put together later, member by member and through all that is
-- nested. After any definitions, failed ones too, the two agree, for members and for chains.
import NwScript.Proofs.Codegen.Steps
import NwScript.Proofs.Ending
import NwScript.Proofs.Storage.Sized

namespace NwScript

/-- What a definition has checked: there are members, they have different names, all of them can be
stored, and their slots can be counted. -/
structure Layout.WellFormed (l : Layout) : Prop where
  nonempty : l.members ≠ []
  names : (l.members.map (·.name)).Nodup
  storable : ∀ m ∈ l.members, m.ty.storable = true
  counted : Count.Fits l.size

namespace Structs

/-! ## Definitions one after another -/

/-- The registry that a definition leaves behind, be it refused or not. -/
def attempt (s : Structs) (d : StructDef) : Structs := ending (define d s)

/-- The registry after some definitions. -/
def defined (defs : List StructDef) : Structs := defs.foldl attempt {}

/-- Every struct is well formed and laid out as its definition said. -/
structure Regular (s : Structs) : Prop where
  laid : Laid s.layouts
  formed : ∀ l ∈ s.layouts, l.WellFormed

section Defining

variable {s t : Structs} {struct : Name} {fields : List Field} {placed : List Member} {n : Nat}
  {l : Layout} {d : StructDef} {e : Event}

theorem place_wellFormed (h : s.place struct placed n fields = .ok l)
    (hnames : (placed.map (·.name)).Nodup) (hstorable : ∀ m ∈ placed, m.ty.storable = true)
    (hsome : placed ≠ [] ∨ fields ≠ []) (hn : Count.Fits n) : l.WellFormed := by
  induction fields generalizing placed n with
  | nil =>
    cases h
    exact ⟨by simpa using hsome, hnames, hstorable, hn⟩
  | cons field rest ih =>
    simp only [place, except_require_ok, except_refuse_ok, except_bind_ok, Count.sum_ok] at h
    obtain ⟨hfield, hnew, _, _, size, _, _, ⟨hfits, rfl⟩, hrest⟩ := h
    apply ih hrest
    · rw [List.map_append, List.nodup_append]
      refine ⟨hnames, by simp, ?_⟩
      rintro k hk _ hname rfl
      cases List.mem_singleton.mp hname
      obtain ⟨m, hm, hmname⟩ := List.mem_map.mp hk
      exact hnew (List.any_eq_true.mpr ⟨m, hm, by simpa using hmname⟩)
    · rw [List.forall_mem_append]
      exact ⟨hstorable, by simpa using hfield⟩
    · exact .inl (by simp)
    · simpa using hfits

theorem Regular.define (h : s.Regular) (hd : Structs.define d s = .ok e t) : t.Regular := by
  refine ⟨laid_define h.laid hd, ?_⟩
  obtain ⟨l, hl, _, rfl⟩ := define_ok.mp hd
  simp only [layOut, except_refuse_ok] at hl
  obtain ⟨hfields, _, hplace⟩ := hl
  rw [List.forall_mem_cons]
  exact ⟨place_wellFormed hplace (by simp) (by simp) (.inr (by simpa using hfields))
    Count.fits_zero, h.formed⟩

/-- A definition keeps the registry regular, whether it succeeds or not. -/
theorem Regular.attempt (h : s.Regular) : (s.attempt d).Regular := by
  unfold Structs.attempt
  cases hd : Structs.define d s with
  | ok e t => exact h.define hd
  | error e t =>
    rw [define_error hd]
    exact h

theorem regular_defined (defs : List StructDef) : (defined defs).Regular := by
  have hrun (s : Structs) (hs : s.Regular) : (defs.foldl Structs.attempt s).Regular := by
    induction defs generalizing s with
    | nil => exact hs
    | cons d rest ih => exact ih _ hs.attempt
  exact hrun {} ⟨.nil, by simp⟩

end Defining

/-! ## What is storable takes a slot -/

/-- The slots of a storable type, given that every struct has some. -/
theorem slotsWith_ne_nil {struct : Name → Except Failure (List SlotKind)} {ty : Ty}
    {ks : List SlotKind} (hstruct : ∀ name ks, struct name = .ok ks → ks ≠ [])
    (hty : ty.storable = true) (h : slotsWith struct ty = .ok ks) : ks ≠ [] := by
  cases ty with
  | struct name => exact hstruct name ks h
  | void => cases hty
  | action => cases hty
  | _ =>
    cases h
    simp [Ty.builtinSlots]

theorem structSlots_ne_nil {ls : List Layout} (hformed : ∀ l ∈ ls, l.WellFormed) :
    ∀ name ks, structSlots ls name = .ok ks → ks ≠ [] := by
  induction ls with
  | nil =>
    intro name ks h
    cases h
  | cons l older ih =>
    have holder := ih fun l hl => hformed l (List.mem_cons_of_mem _ hl)
    intro name ks h
    by_cases hname : l.name = name
    · -- the first member already has slots
      rw [structSlots, if_pos hname] at h
      have hl := hformed l List.mem_cons_self
      cases hms : l.members with
      | nil => exact absurd hms hl.nonempty
      | cons m rest =>
        simp only [hms, List.mapM_cons, except_bind_ok, except_pure_ok] at h
        obtain ⟨_, ⟨ks, hks, kss, _, rfl⟩, rfl⟩ := h
        have hm := slotsWith_ne_nil holder (hl.storable m (by simp [hms])) hks
        simp [hm]
    · rw [structSlots, if_neg hname] at h
      exact holder name ks h

/-! ## Members side by side -/

section Rows

variable {older : List Layout} {n size : Nat} {ms before after : List Member} {m : Member}

/-- What stands before a member ends where the member starts, and the others go on behind it. -/
theorem Row.split (h : Row older n ms size) (hms : ms = before ++ m :: after) :
    ∃ ks, slotsWith (structSlots older) m.ty = .ok ks ∧ n ≤ m.offset ∧
      Row older (m.offset + ks.length) after size := by
  induction h generalizing before with
  | nil => simp at hms
  | @cons n size head ks rest hs ho hrest ih =>
    cases before with
    | nil =>
      cases hms
      exact ⟨ks, hs, Nat.le_of_eq ho.symm, ho ▸ hrest⟩
    | cons _ before =>
      cases hms
      obtain ⟨ks', hs', hle, hrest'⟩ := ih rfl
      exact ⟨ks', hs', by omega, hrest'⟩

/-- Every slot of a row belongs to one of its members. -/
theorem Row.fills {x : Nat} (h : Row older n ms size) (hn : n ≤ x) (hx : x < size) :
    ∃ m ∈ ms, ∃ ks, slotsWith (structSlots older) m.ty = .ok ks ∧ m.offset ≤ x ∧
      x < m.offset + ks.length := by
  induction h with
  | nil => omega
  | @cons n size m ks rest hs ho _ ih =>
    by_cases hlast : x < n + ks.length
    · exact ⟨m, List.mem_cons_self, ks, hs, by omega, by omega⟩
    · obtain ⟨m', hm', hslots⟩ := ih (by omega) hx
      exact ⟨m', List.mem_cons_of_mem _ hm', hslots⟩

/-- Of two different members, one ends before the other starts. -/
theorem Row.apart {k : Member} {ks ks' : List SlotKind} (h : Row older n ms size) (hm : m ∈ ms)
    (hk : k ∈ ms) (hne : m ≠ k) (hks : slotsWith (structSlots older) m.ty = .ok ks)
    (hks' : slotsWith (structSlots older) k.ty = .ok ks') :
    m.offset + ks.length ≤ k.offset ∨ k.offset + ks'.length ≤ m.offset := by
  have hordered {a b : Member} {ls : List SlotKind} {l r : List Member} (hsplit : ms = l ++ a :: r)
      (hb : b ∈ r) (hls : slotsWith (structSlots older) a.ty = .ok ls) :
      a.offset + ls.length ≤ b.offset := by
    obtain ⟨_, ha, _, hrest⟩ := h.split hsplit
    cases hls.symm.trans ha
    obtain ⟨l', r', rfl⟩ := List.append_of_mem hb
    obtain ⟨_, _, hle, _⟩ := hrest.split rfl
    exact hle
  obtain ⟨l, r, hsplit⟩ := List.append_of_mem hm
  rw [hsplit, List.mem_append, List.mem_cons] at hk
  rcases hk with hk | rfl | hk
  · obtain ⟨l', mid, rfl⟩ := List.append_of_mem hk
    exact .inr (hordered (by simpa using hsplit) (by simp) hks')
  · exact absurd rfl hne
  · exact .inl (hordered hsplit hk hks)

end Rows

/-- A struct has a member of a type at an offset, with some slots. -/
def HasMember (s : Structs) (struct name : Name) (ty : Ty) (offset size : Nat) : Prop :=
  s.memberOffset struct name = .ok offset ∧ s.memberType struct name = .ok ty ∧
    s.sizeOf ty = .ok size

section Members

variable {s : Structs} {struct name name' : Name} {ty ty' : Ty} {offset offset' size size' : Nat}
  {l : Layout} {m : Member}

/-- Where names are distinct, each leads to what has it. -/
theorem find?_of_nodup {α : Type} {f : α → Name} {xs : List α} {x : α} (h : (xs.map f).Nodup)
    (hx : x ∈ xs) : xs.find? (f · == f x) = some x := by
  obtain ⟨before, after, rfl⟩ := List.append_of_mem hx
  rw [List.map_append, List.map_cons, List.nodup_append] at h
  rw [List.find?_eq_some_iff_append]
  refine ⟨by simp, before, after, rfl, ?_⟩
  intro y hy
  simpa using h.2.2 _ (List.mem_map_of_mem hy) _ List.mem_cons_self

theorem Laid.names {ls : List Layout} (h : Laid ls) : (ls.map (·.name)).Nodup := by
  induction h with
  | nil => simp
  | cons _ hnew _ ih =>
    rw [List.map_cons, List.nodup_cons]
    refine ⟨fun hmem => ?_, ih⟩
    obtain ⟨k, hk, hname⟩ := List.mem_map.mp hmem
    exact hnew k hk hname

/-- The members of a struct are found under its name, in a row. -/
theorem Regular.row (h : s.Regular) (hl : l ∈ s.layouts) :
    s.find? l.name = some l ∧ Row s.layouts 0 l.members l.size := by
  have hfind : s.find? l.name = some l := find?_of_nodup h.laid.names hl
  exact ⟨hfind, (row_of_find h.laid hfind).1⟩

/-- Every member of a struct is found under its name. -/
theorem Regular.hasMember (h : s.Regular) (hl : l ∈ s.layouts) (hm : m ∈ l.members) :
    ∃ size, s.HasMember l.name m.name m.ty m.offset size := by
  obtain ⟨hfind, hrow⟩ := h.row hl
  obtain ⟨before, after, hsplit⟩ := List.append_of_mem hm
  obtain ⟨ks, hks, _⟩ := hrow.split hsplit
  have hmember : l.members.find? (·.name == m.name) = some m :=
    find?_of_nodup (h.formed l hl).names hm
  refine ⟨ks.length, ?_, ?_, sizeOf_of_slots h.laid hks⟩
  · simp only [memberOffset, layout, hfind, Layout.member, hmember, bind, Except.bind, pure,
      Except.pure]
  · simp only [memberType, layout, hfind, Layout.member, hmember, bind, Except.bind, pure,
      Except.pure]

/-- What is found as a member is one. -/
theorem HasMember.found (h : s.HasMember struct name ty offset size) :
    ∃ l ∈ s.layouts, ∃ m ∈ l.members, l.name = struct ∧ m.name = name ∧ m.offset = offset ∧
      m.ty = ty := by
  obtain ⟨l, m, hl, hm, ho, ht⟩ := member_found h.1 h.2.1
  refine ⟨l, List.mem_of_find?_eq_some hl, m, List.mem_of_find?_eq_some hm, ?_, ?_, ho, ht⟩
  · simpa using List.find?_some hl
  · simpa using List.find?_some hm

/-- Members of different names have no slot in common. -/
theorem Regular.members_apart (h : s.Regular) (hm : s.HasMember struct name ty offset size)
    (hm' : s.HasMember struct name' ty' offset' size') (hne : name ≠ name') :
    offset + size ≤ offset' ∨ offset' + size' ≤ offset := by
  obtain ⟨l, hl, m, hml, rfl, rfl, rfl, rfl⟩ := hm.found
  obtain ⟨l', hl', k, hkl, hname, rfl, rfl, rfl⟩ := hm'.found
  have hsame : l' = l := by
    have hfind := (h.row hl').1
    rw [hname, (h.row hl).1] at hfind
    exact (Option.some.inj hfind).symm
  subst hsame
  obtain ⟨ks, hks, rfl⟩ := Structs.slots_of_sizeOf h.laid hm.2.2
  obtain ⟨ks', hks', rfl⟩ := Structs.slots_of_sizeOf h.laid hm'.2.2
  exact (h.row hl).2.apart hml hkl (fun heq => hne (heq ▸ rfl)) hks hks'

/-- The members of a struct fill it. -/
theorem Regular.members_fill {total x : Nat} (h : s.Regular)
    (htotal : s.sizeOf (.struct struct) = .ok total) (hx : x < total) :
    ∃ name ty offset size, s.HasMember struct name ty offset size ∧ offset ≤ x ∧
      x < offset + size := by
  simp only [sizeOf, Structs.size] at htotal
  split at htotal
  · rename_i l hfind
    cases htotal
    have hname : l.name = struct := by simpa using List.find?_some hfind
    have hl : l ∈ s.layouts := List.mem_of_find?_eq_some hfind
    obtain ⟨m, hm, ks, hks, hlow, hhigh⟩ := (h.row hl).2.fills (Nat.zero_le x) hx
    obtain ⟨size, hmember⟩ := h.hasMember hl hm
    cases hmember.2.2.symm.trans (sizeOf_of_slots h.laid hks)
    exact ⟨m.name, m.ty, m.offset, _, hname ▸ hmember, hlow, hhigh⟩
  · cases htotal

end Members

/-! ## Reservations -/

/-- Of the instructions that reserve a value of a type, those from an offset on are the ones that
reserve a part of it. -/
def ReservedAt (s : Structs) (ty part : Ty) (offset : Nat) : Prop :=
  ∃ whole ops, s.reserve ty = .ok whole ∧ s.sizeOf ty = .ok whole.length ∧
    s.reserve part = .ok ops ∧ s.sizeOf part = .ok ops.length ∧
    offset + ops.length ≤ whole.length ∧ (whole.drop offset).take ops.length = ops

section Reserving

variable {s : Structs} {ty part : Ty} {ks : List SlotKind} {offset : Nat}

theorem reserve_of_slots (h : s.slots ty = .ok ks) : s.reserve ty = .ok (ks.map .reserve) := by
  simp only [reserve, h, bind, Except.bind, pure, Except.pure]

theorem Contains.reservedAt (h : s.Contains ty part offset) (hl : Laid s.layouts) :
    s.ReservedAt ty part offset := by
  obtain ⟨before, ks, after, hty, rfl, hpart⟩ := h
  refine ⟨_, _, reserve_of_slots hty, ?_, reserve_of_slots hpart, ?_, ?_, ?_⟩
  · rw [List.length_map]
    exact sizeOf_of_slots hl hty
  · rw [List.length_map]
    exact sizeOf_of_slots hl hpart
  · simp only [List.length_map, List.length_append]
    omega
  · simp

/-- Every size can be counted. -/
theorem Regular.counted (h : s.Regular) {n : Nat} (hn : s.sizeOf ty = .ok n) : Count.Fits n := by
  cases ty with
  | struct name =>
    simp only [sizeOf, size] at hn
    split at hn
    · rename_i l hl
      cases hn
      exact (h.formed l (List.mem_of_find?_eq_some hl)).counted
    · cases hn
  | _ =>
    cases hn
    decide

/-- What passes the check is reserved, with one instruction for each of its slots. -/
theorem Regular.reserves (h : s.Regular) (hc : s.check ty = .ok ()) :
    ∃ kinds : List SlotKind, s.reserve ty = .ok (kinds.map .reserve) ∧
      s.sizeOf ty = .ok kinds.length ∧ (ty.storable = true → 1 ≤ kinds.length) := by
  obtain ⟨ks, hks⟩ := slots_of_check h.laid hc
  refine ⟨ks, reserve_of_slots hks, sizeOf_of_slots h.laid hks, ?_⟩
  intro hty
  exact List.length_pos_iff.mpr (slotsWith_ne_nil (structSlots_ne_nil h.formed) hty hks)

end Reserving

end Structs

/-! ## Chains of members -/

section Chains

variable {env : Env} {name : Name} {r : Resolved}

theorem seek_sized {below : Int → Except Failure Resolved} {values : List Variable}
    {offset : Int} (hbelow : ∀ offset, below offset = .ok r → env.Sized r.ty)
    (h : Scope.seek env name below values offset = .ok r) : env.Sized r.ty := by
  induction values generalizing offset with
  | nil => exact hbelow offset h
  | cons v older ih =>
    simp only [Scope.seek, except_bind_ok, Count.checked_ok] at h
    obtain ⟨size, hsize, _, -, h⟩ := h
    split at h
    · cases h
      exact ⟨size, hsize⟩
    · exact ih h

/-- Whatever a name leads to has a size, which was counted on the way. -/
theorem resolveIn_sized {chain : List Block} {offset : Int}
    (h : Scope.resolveIn env name chain offset = .ok r) : env.Sized r.ty := by
  induction chain generalizing offset with
  | nil =>
    obtain ⟨_, g, _, _, size, _, _, _, hsize, rfl⟩ := seekGlobal_found h
    refine ⟨size, ?_⟩
    unfold Env.foundAt
    split <;> exact hsize
  | cons b outer ih =>
    simp only [Scope.resolveIn, except_bind_ok] at h
    obtain ⟨_, _, h⟩ := h
    exact seek_sized (fun _ => ih) h

/-- A chain of members leads to a part of its variable that was reserved as what it is. -/
theorem access_reserved {scope : Scope} {path : Access}
    (hl : Structs.Laid env.structs.layouts) (h : Codegen.resolveAccess env scope path = .ok r) :
    ∃ v, ∃ d : Nat, scope.resolve env path.head = .ok v ∧ r.anchor = v.anchor ∧
      r.offset = v.offset + d ∧ env.structs.ReservedAt v.ty r.ty d := by
  simp only [Codegen.resolveAccess, except_bind_ok] at h
  obtain ⟨v, hv, hfollow⟩ := h
  obtain ⟨n, hn⟩ := resolveIn_sized hv
  obtain ⟨ks, hks, _⟩ := Structs.slots_of_sizeOf hl hn
  obtain ⟨hanchor, _, hpart⟩ := follow_contains hl hfollow
  obtain ⟨d, hoffset, hcontains⟩ := hpart ks hks
  exact ⟨v, d, hv, hanchor, hoffset, hcontains.reservedAt hl⟩

end Chains

/-- After any definitions, failed ones included: what passes the check is reserved at the end of
every stream that has handles left, with as many instructions as it has slots, which is a number of
32 bits, and with one at least if it is storable.
Every member of a struct is found under its name, and is reserved at its offset among the
instructions that reserve the struct; the members lie side by side and fill the struct. So every
chain of members leads to a part of its variable that was reserved as a value of the type in which
the chain ends. -/
theorem layout_matches_reservation {s : Structs} {defs : List StructDef}
    (hs : Structs.defined defs = s) :
    (∀ ty, s.check ty = .ok () → ∃ kinds : List SlotKind,
      s.reserve ty = .ok (kinds.map .reserve) ∧ s.sizeOf ty = .ok kinds.length ∧
      Count.Fits kinds.length ∧ (ty.storable = true → 1 ≤ kinds.length) ∧
      ∀ st : Codegen.State,
        (st.next + kinds.length ≤ Handle.limit →
          (Codegen.lift (s.reserve ty) >>= Codegen.emitAll) st =
            .ok () (st.wrote (Codegen.numbered st.next (kinds.map .reserve))
              (st.next + kinds.length))) ∧
        (kinds ≠ [] → Handle.limit < st.next + kinds.length → ∃ t,
          (Codegen.lift (s.reserve ty) >>= Codegen.emitAll) st = .error (.panic .overflow) t)) ∧
    (∀ l ∈ s.layouts, ∀ m ∈ l.members, ∃ size, s.HasMember l.name m.name m.ty m.offset size) ∧
    (∀ struct name ty offset, s.memberOffset struct name = .ok offset →
      s.memberType struct name = .ok ty → s.ReservedAt (.struct struct) ty offset) ∧
    (∀ struct a b ty ty' i j n k, s.HasMember struct a ty i n → s.HasMember struct b ty' j k →
      a ≠ b → i + n ≤ j ∨ j + k ≤ i) ∧
    (∀ struct total, s.sizeOf (.struct struct) = .ok total → ∀ x < total,
      ∃ name ty offset size, s.HasMember struct name ty offset size ∧ offset ≤ x ∧
        x < offset + size) ∧
    ∀ (env : Env) (scope : Scope) (path : Access) (r : Resolved), env.structs = s →
      Codegen.resolveAccess env scope path = .ok r →
      ∃ v, ∃ d : Nat, scope.resolve env path.head = .ok v ∧ r.anchor = v.anchor ∧
        r.offset = v.offset + d ∧ s.ReservedAt v.ty r.ty d := by
  subst hs
  have h := Structs.regular_defined defs
  refine ⟨?_, fun l hl m hm => h.hasMember hl hm, ?_, ?_, ?_, ?_⟩
  · intro ty hc
    obtain ⟨kinds, hreserve, hsize, hpos⟩ := h.reserves hc
    refine ⟨kinds, hreserve, hsize, h.counted hsize, hpos, fun st => ?_⟩
    rw [hreserve, bind_of_ok (Codegen.lift_ok.mpr ⟨rfl, rfl⟩)]
    refine ⟨fun hroom => ?_, fun hsome hfull => Codegen.emitAll_full ?_ ?_⟩
    · rw [Codegen.emitAll_ok, List.length_map]
      exact ⟨fun _ => hroom, rfl⟩
    · simpa using hsome
    · rwa [List.length_map]
  · intro struct name ty offset ho ht
    exact (Structs.slots_member h.laid ho ht).reservedAt h.laid
  · intro struct a b ty ty' i j n k ha hb hne
    exact h.members_apart ha hb hne
  · intro struct total htotal x hx
    exact h.members_fill htotal hx
  · rintro env scope path r henv haccess
    rw [← henv] at h ⊢
    exact access_reserved h.laid haccess

namespace Chest

/-- Two structs, one inside the other, and three definitions that fail: of a struct without members,
of a struct that is there already, and of one that would contain itself. -/
def defs : List StructDef := [
  ⟨"Spot", [⟨.int, "area"⟩, ⟨.vector, "place"⟩]⟩,
  ⟨"Nothing", []⟩,
  ⟨"Spot", [⟨.int, "area"⟩]⟩,
  ⟨"Chest", [⟨.string, "label"⟩, ⟨.struct "Spot", "spot"⟩, ⟨.object, "owner"⟩]⟩,
  ⟨"Loop", [⟨.struct "Loop", "loop"⟩]⟩]

def env : Env := { structs := .defined defs }

def scope : Scope := ⟨{ values := [⟨"n", .int⟩, ⟨"chest", .struct "Chest"⟩] }, []⟩

/-- A coordinate of the place at which the chest stands: `chest.spot.place.y`. -/
def path : Access := ⟨"chest", ["spot", "place", "y"]⟩

end Chest

open Chest in
/-- The chest takes six slots, of which the coordinate is the fourth. -/
theorem chest_matches_reservation :
    (Structs.defined defs).sizeOf (.struct "Chest") = .ok 6 ∧
      Codegen.resolveAccess env scope path = .ok ⟨.float, -4, .sp, false⟩ ∧
      (Structs.defined defs).ReservedAt (.struct "Spot") .vector 1 ∧
      (Structs.defined defs).ReservedAt (.struct "Chest") .float 3 := by
  have haccess : Codegen.resolveAccess env scope path = .ok ⟨.float, -4, .sp, false⟩ := rfl
  obtain ⟨_, _, hmember, _, _, hchain⟩ := layout_matches_reservation (s := env.structs) rfl
  obtain ⟨v, d, hv, _, hoffset, hreserved⟩ := hchain env scope path _ rfl haccess
  have hchest : scope.resolve env path.head = .ok ⟨.struct "Chest", -7, .sp, false⟩ := rfl
  cases hv.symm.trans hchest
  have hd : d = 3 := by
    simp only at hoffset
    omega
  subst hd
  exact ⟨rfl, haccess, hmember "Spot" "place" .vector 1 rfl rfl, hreserved⟩

end NwScript
