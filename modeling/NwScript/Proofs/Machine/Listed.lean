-- What a listing says about jumps. The listing looks for destinations in a way of its own; where
-- handles are distinct it finds the places where jumps land. So its lines tell the truth, one line
-- for each instruction, and the handles themselves leave no trace in it.
import NwScript.Machine.Listing
import NwScript.Proofs.Machine.Stands

namespace NwScript

namespace Stream

/-- Some instruction leads to an index. -/
def LedTo (s : Stream) (index : Nat) : Prop := ∃ i ∈ s.code, s.landing? i = some index

instance (s : Stream) (index : Nat) : Decidable (s.LedTo index) :=
  inferInstanceAs (Decidable (∃ i ∈ s.code, s.landing? i = some index))

/-- All handles that the stream knows: those of its instructions, and those they lead to. -/
def mentioned (s : Stream) : List Handle := s.code.map (·.handle) ++ s.code.filterMap (·.target)

end Stream

/-- The instruction under another handle. -/
def Instruction.renumbered (f : Handle → Handle) (i : Instruction) : Instruction :=
  ⟨f i.handle, i.op, i.target.map f⟩

namespace Listing

/-! ## Texts on one line -/

/-- There is no line break in the text. -/
def OneLine (t : String) : Prop := '\n' ∉ t.toList

section OneLine

variable {a b : String}

theorem OneLine.append (ha : OneLine a) (hb : OneLine b) : OneLine (a ++ b) := by
  rw [OneLine, String.toList_append, List.mem_append, not_or]
  exact ⟨ha, hb⟩

theorem oneLine_ofList {cs : List Char} : OneLine (String.ofList cs) ↔ '\n' ∉ cs := by
  rw [OneLine, String.toList_ofList]

theorem newline_toDigits {base : Nat} (hbase : 1 < base) (n : Nat) :
    '\n' ∉ Nat.toDigits base n := by
  induction n using Nat.strongRecOn with
  | ind n ih =>
    rw [Nat.toDigits_eq_if hbase]
    split
    · simp
    · have hrest := ih (n / base) (Nat.div_lt_self (by omega) hbase)
      simp [hrest]

theorem newline_decimalDigits (n : Nat) : '\n' ∉ decimalDigits n := newline_toDigits (by decide) n

theorem nat_oneLine (n : Nat) : OneLine (toString n) := by
  rw [OneLine, Nat.toString_eq_repr, Nat.toList_repr]
  exact newline_decimalDigits n

theorem int_oneLine (n : Int) : OneLine (toString n) := by
  rw [show toString n = n.repr from rfl, Int.repr_eq_if]
  split
  · exact nat_oneLine _
  · exact .append (by simp [OneLine]) (nat_oneLine _)

theorem position_oneLine (n : Nat) : OneLine (position n) := by
  rw [position, oneLine_ofList, List.mem_append, not_or]
  exact ⟨by simp, newline_decimalDigits n⟩

theorem padded_oneLine (width : Nat) (ha : OneLine a) : OneLine (padded width a) :=
  ha.append (oneLine_ofList.mpr (by simp))

theorem newline_positional (d : Decimal) : '\n' ∉ d.positional := by
  have hdigits := newline_decimalDigits d.digits
  unfold Decimal.positional
  split
  · simp [hdigits]
  · split
    · rw [List.mem_append, List.mem_cons]
      rintro (hwhole | hpoint | hrest)
      · exact hdigits (List.mem_of_mem_take hwhole)
      · cases hpoint
      · exact hdigits (List.mem_of_mem_drop hrest)
    · simp [hdigits]

theorem newline_scientific (d : Decimal) : '\n' ∉ d.scientific := by
  have hdigits := newline_decimalDigits d.digits
  have hleading := int_oneLine d.leading
  unfold Decimal.scientific
  split <;> simp_all [OneLine]

theorem number_oneLine (x : Binary32) : OneLine x.text := by
  have hmagnitude : '\n' ∉ x.magnitude := by
    unfold Binary32.magnitude Decimal.write
    split
    · simp
    · split
      · simp
      · split
        · exact newline_positional _
        · exact newline_scientific _
  unfold Binary32.text
  split
  · simp [OneLine]
  · rw [oneLine_ofList]
    split <;> simp [hmagnitude]

/-- A line break in a text is written with a backslash. -/
theorem newline_quotedChar (c : Char) : '\n' ∉ Text.quotedChar c := by
  have hpoint : '\n' ∉ Text.codePoint c := by simp [Text.codePoint, newline_toDigits]
  unfold Text.quotedChar
  by_cases hc : c = '\n'
  · subst hc
    decide
  · have hself : '\n' ∉ [c] := by simpa using Ne.symm hc
    repeat' split
    all_goals first | exact hpoint | exact hself | simp

theorem quoted_oneLine (s : String) : OneLine (Text.quoted s) := by
  simp [Text.quoted, OneLine, newline_quotedChar]

theorem operands_oneLine {op : Op} {text : String} (h : operands op = some text) :
    OneLine text := by
  have hcomma : OneLine ", " := by simp [OneLine]
  cases op with
  | constI n | constO n | moveSp n | step _ _ n | equalTT n | notEqualTT n =>
    cases h
    exact int_oneLine _
  | constF x =>
    cases h
    exact number_oneLine x
  | constS s =>
    cases h
    exact quoted_oneLine s
  | copyDown _ offset size | copyTop _ offset size | storeState offset size =>
    cases h
    exact ((int_oneLine offset).append hcomma).append (int_oneLine size)
  | action routine argc =>
    cases h
    exact ((nat_oneLine routine.toNat).append hcomma).append (nat_oneLine argc.toNat)
  | _ => cases h

theorem mnemonic_oneLine (op : Op) : OneLine op.mnemonic := by
  unfold OneLine
  cases op with
  | reserve kind => cases kind <;> simp [Op.mnemonic, SlotKind.letters]
  | copyDown anchor offset size => cases anchor <;> simp [Op.mnemonic, Anchor.letters]
  | copyTop anchor offset size => cases anchor <;> simp [Op.mnemonic, Anchor.letters]
  | step op anchor offset => cases op <;> cases anchor <;> simp [Op.mnemonic, Anchor.letters]
  | binary code => cases code <;> simp [Op.mnemonic, BinaryCode.mnemonic]
  | unary code => cases code <;> simp [Op.mnemonic, UnaryCode.mnemonic]
  | jump code => cases code <;> simp [Op.mnemonic, JumpCode.mnemonic]
  | _ => simp [Op.mnemonic]

theorem instruction_oneLine (s : Stream) (index : Nat) (i : Instruction) :
    OneLine (instruction s index i) := by
  have hname := padded_oneLine 11 (mnemonic_oneLine i.op)
  have hblank : OneLine " " := by simp [OneLine]
  unfold instruction
  dsimp only
  split
  · split
    · refine (((hname.append hblank).append (position_oneLine _)).append hblank).append ?_
      split <;> simp [OneLine, toString]
    · exact hname.append (by simp [OneLine, toString])
  · split
    · rename_i hoperands
      exact (hname.append hblank).append (operands_oneLine hoperands)
    · exact mnemonic_oneLine i.op

end OneLine

/-! ## Destinations as they are shown -/

/-- The digits of a position make up its number. -/
theorem ofDigitChars_position (n : Nat) : Nat.ofDigitChars 10 (position n).toList 0 = n := by
  have hzeros (k : Nat) (cs : List Char) :
      Nat.ofDigitChars 10 (List.replicate k '0' ++ cs) 0 = Nat.ofDigitChars 10 cs 0 := by
    induction k with
    | zero => rfl
    | succ k ih =>
      rw [List.replicate_succ, List.cons_append, Nat.ofDigitChars_cons]
      exact ih
  rw [position, String.toList_ofList, hzeros]
  exact Nat.ofDigitChars_toDigits (by decide) (by decide)

/-- What the line at an index shows of where a jump lands: the place and whether it lies further on,
or that there is none. -/
def shown (index : Nat) : Option Nat → String
  | some place => position place ++ " " ++ (if place ≤ index then "↑" else "↓")
  | none => "????"

theorem shown_some (index n : Nat) : ∃ arrow, arrow ≠ '?' ∧
    (shown index (some n)).toList = (position n).toList ++ [' ', arrow] := by
  by_cases hn : n ≤ index
  · exact ⟨'↑', by decide, by simp [shown, hn]⟩
  · exact ⟨'↓', by decide, by simp [shown, hn]⟩

theorem shown_ne_lost (index n : Nat) : shown index (some n) ≠ shown index none := by
  intro heq
  obtain ⟨arrow, hne, hn⟩ := shown_some index n
  rw [heq] at hn
  have hlast : '?' = arrow := by simpa [shown] using congrArg List.getLast? hn
  exact hne hlast.symm

/-- Destinations that are shown alike are the same. -/
theorem shown_injective {index : Nat} {a b : Option Nat} (h : shown index a = shown index b) :
    a = b := by
  cases a with
  | none =>
    cases b with
    | none => rfl
    | some n => exact absurd h.symm (shown_ne_lost index n)
  | some m =>
    cases b with
    | none => exact absurd h (shown_ne_lost index m)
    | some n =>
      obtain ⟨_, _, hm⟩ := shown_some index m
      obtain ⟨_, _, hn⟩ := shown_some index n
      rw [h, hn] at hm
      have hdigits := (List.append_inj' hm rfl).1
      rw [← ofDigitChars_position m, ← ofDigitChars_position n, hdigits]

/-! ## Where jumps land -/

section Landing

variable {s t : Stream} {index : Nat} {i : Instruction}

/-- Where handles are distinct, the last place of a handle is also the first. -/
theorem place?_eq_indexOf? (hs : (s.code.map (·.handle)).Nodup) (h : Handle) :
    place? s h = s.indexOf? h := by
  unfold place?
  cases hfind : s.code.zipIdx.reverse.find? (·.1.handle == h) with
  | none =>
    symm
    unfold Stream.indexOf?
    rw [Option.map_none, List.findIdx?_eq_none_iff]
    intro i hi
    obtain ⟨k, hk, rfl⟩ := List.getElem_of_mem hi
    have hmem : (s.code[k], k) ∈ s.code.zipIdx.reverse := by
      rw [List.mem_reverse, List.mk_mem_zipIdx_iff_getElem?]
      exact List.getElem?_eq_getElem hk
    simpa using List.find?_eq_none.mp hfind _ hmem
  | some found =>
    obtain ⟨i, k⟩ := found
    have hi : s.code[k]? = some i := by
      rw [← List.mk_mem_zipIdx_iff_getElem?, ← List.mem_reverse]
      exact List.mem_of_find?_eq_some hfind
    -- whatever has the handle is the only one to have it
    have hhandle : i.handle = h := by simpa using List.find?_some hfind
    rw [← hhandle, (Stream.stands_of_get hi).index hs]
    rfl

theorem landing_found (hs : (s.code.map (·.handle)).Nodup) (i : Instruction) :
    i.target.bind (place? s) = s.landing? i := by
  rw [Stream.landing?, funext (place?_eq_indexOf? hs)]

/-- The line of a jump shows where it lands. -/
theorem instruction_jump (hs : (s.code.map (·.handle)).Nodup) (hjump : i.op.isJump = true) :
    instruction s index i = padded 11 i.op.mnemonic ++ " " ++ shown index (s.landing? i) := by
  unfold instruction
  rw [if_pos hjump, landing_found hs]
  cases s.landing? i with
  | none => rw [shown, String.append_assoc]; rfl
  | some place => simp only [shown, toString, String.append_assoc]

theorem contains_destinations (hs : (s.code.map (·.handle)).Nodup) :
    (destinations s).contains index = true ↔ s.LedTo index := by
  unfold destinations Stream.LedTo
  rw [List.contains_iff_mem, funext (landing_found hs), List.mem_filterMap]

/-- The lines of an instruction: its own, and a rule above it exactly if it is led to. -/
def entry (s : Stream) (index : Nat) (i : Instruction) : List String :=
  if s.LedTo index then [rule, position index ++ " ► " ++ instruction s index i ++ "\n"]
  else [position index ++ "   " ++ instruction s index i ++ "\n"]

theorem line_eq_entry (hs : (s.code.map (·.handle)).Nodup) :
    line s (destinations s) index i = String.join (entry s index i) := by
  unfold line entry
  by_cases hled : s.LedTo index
  · rw [if_pos ((contains_destinations hs).mpr hled), if_pos hled]
    simp [toString, String.join_cons]
  · rw [if_neg (mt (contains_destinations hs).mp hled), if_neg hled]
    simp [toString, String.join_cons]

theorem listing_eq (s : Stream) : s.listing =
    String.join (header s :: s.code.zipIdx.map fun p => line s (destinations s) p.2 p.1) := rfl

/-- Below the header stand the entries of the instructions, in their order. -/
theorem listing_entries (hs : (s.code.map (·.handle)).Nodup) : s.listing =
    String.join (header s :: (s.code.zipIdx.map fun p => entry s p.2 p.1).flatten) := by
  rw [listing_eq, String.join_cons, String.join_cons]
  congr 1
  induction s.code.zipIdx with
  | nil => rfl
  | cons p rest ih =>
    rw [List.map_cons, List.map_cons, List.flatten_cons, String.join_cons, String.join_append,
      line_eq_entry hs, ih]

/-- A text with a line break at its end and nowhere else. -/
def IsLine (t : String) : Prop := ∃ body, t = body ++ "\n" ∧ OneLine body

theorem entry_lines {t : String} (ht : t ∈ entry s index i) : IsLine t := by
  have hindex := position_oneLine index
  have htext := instruction_oneLine s index i
  unfold entry at ht
  split at ht
  · rw [List.mem_cons, List.mem_singleton] at ht
    rcases ht with rfl | rfl
    · exact ⟨"      ┌──────────────────────────────────", by decide, by simp [OneLine]⟩
    · exact ⟨_, rfl, (hindex.append (by simp [OneLine])).append htext⟩
  · cases List.mem_singleton.mp ht
    exact ⟨_, rfl, (hindex.append (by simp [OneLine])).append htext⟩

theorem header_line (s : Stream) : IsLine (header s) := by
  refine ⟨"=== NCS (" ++ toString s.code.length ++ " instructions) ===", ?_, ?_⟩
  · simp [header, toString, String.append_assoc]
  · have hopening : OneLine "=== NCS (" := by simp [OneLine]
    exact (hopening.append (nat_oneLine _)).append (by simp [OneLine])

end Landing

/-! ## Other handles -/

section Renumbering

variable {s t : Stream} {f : Handle → Handle}
  (hf : ∀ x ∈ s.mentioned, ∀ y ∈ s.mentioned, f x = f y → x = y)
  (ht : t.code = s.code.map (·.renumbered f))

include hf ht

theorem place?_renumbered {x : Handle} (hx : x ∈ s.mentioned) : place? t (f x) = place? s x := by
  have hsame (p : Instruction × Nat) (hp : p ∈ s.code.zipIdx.reverse) :
      ((p.1.renumbered f).handle == f x) = (p.1.handle == x) := by
    have hmem : p.1.handle ∈ s.mentioned := by
      have hp := List.fst_mem_of_mem_zipIdx (List.mem_reverse.mp hp)
      exact List.mem_append_left _ (List.mem_map_of_mem hp)
    rw [Bool.eq_iff_iff, beq_iff_eq, beq_iff_eq]
    exact ⟨hf _ hmem x hx, congrArg f⟩
  unfold place?
  rw [ht, List.zipIdx_map, ← List.map_reverse, List.find?_map, Option.map_map, ← List.head?_filter,
    ← List.head?_filter]
  exact congrArg (fun found => found.head?.map (·.2)) (List.filter_congr hsame)

theorem found_renumbered {i : Instruction} (hi : i ∈ s.code) :
    (i.renumbered f).target.bind (place? t) = i.target.bind (place? s) := by
  rw [Instruction.renumbered, Option.bind_map]
  apply Option.bind_congr
  intro x hx
  exact place?_renumbered hf ht (List.mem_append_right _ (List.mem_filterMap.mpr ⟨i, hi, hx⟩))

/-- A listing shows places and no handles. -/
theorem listing_renumbered : t.listing = s.listing := by
  have hdestinations : destinations t = destinations s := by
    have hfound := List.map_congr_left fun i hi => found_renumbered hf ht hi
    have hthere := congrArg (List.filterMap id) hfound
    rw [List.filterMap_map, List.filterMap_map] at hthere
    rw [destinations, ht, List.filterMap_map]
    exact hthere
  have hlines (p : Instruction × Nat) (hp : p ∈ s.code.zipIdx) :
      line t (destinations t) p.2 (p.1.renumbered f) = line s (destinations s) p.2 p.1 := by
    have hfound := found_renumbered hf ht (List.fst_mem_of_mem_zipIdx hp)
    unfold line instruction
    rw [hdestinations, hfound]
    rfl
  have hheader : header t = header s := by rw [header, header, ht, List.length_map]
  rw [listing_eq, listing_eq, hheader, ht, List.zipIdx_map, List.map_map]
  exact congrArg (fun lines => String.join (header s :: lines)) (List.map_congr_left hlines)

end Renumbering

end Listing

open Listing in
/-- For every stream whose handles are distinct: the listing is a header and then, instruction by
instruction, one line for each, under a rule and with a mark exactly if some instruction leads
there. The line of a jump shows the place where the jump lands, and an arrow up if that is not
further on; or that it lands nowhere. So the handles may be exchanged for others, as long as
different ones stay different. -/
theorem listing_tells_landings {s : Stream} (hs : (s.code.map (·.handle)).Nodup) :
    (∃ entries : List (List String), s.listing = String.join (header s :: entries.flatten) ∧
      (∀ t ∈ header s :: entries.flatten, IsLine t) ∧ entries.length = s.code.length ∧
      ∀ index i, s.code[index]? = some i → entries[index]? = some (entry s index i)) ∧
    (∀ index i landing, i.op.isJump = true →
      (instruction s index i = padded 11 i.op.mnemonic ++ " " ++ shown index landing ↔
        s.landing? i = landing)) ∧
    ∀ (f : Handle → Handle) (t : Stream),
      (∀ x ∈ s.mentioned, ∀ y ∈ s.mentioned, f x = f y → x = y) →
      t.code = s.code.map (·.renumbered f) → t.listing = s.listing := by
  refine ⟨⟨s.code.zipIdx.map fun p => entry s p.2 p.1, ?_, ?_, by simp, ?_⟩, ?_,
    fun f t hf ht => listing_renumbered hf ht⟩
  · exact listing_entries hs
  · rw [List.forall_mem_cons]
    refine ⟨header_line s, fun t ht => ?_⟩
    obtain ⟨lines, hlines, ht⟩ := List.mem_flatten.mp ht
    obtain ⟨p, _, rfl⟩ := List.mem_map.mp hlines
    exact entry_lines ht
  · intro index i hi
    simp [List.getElem?_zipIdx, hi]
  · intro index i landing hjump
    rw [instruction_jump hs hjump]
    constructor
    · intro h
      exact shown_injective (String.append_right_inj _ |>.mp h)
    · rintro rfl
      rfl

namespace Excerpt

/-- A loop, a jump to itself, a jump to nowhere, and an instruction that is no jump but leads
somewhere. -/
def stream : Stream := ⟨[
  ⟨3, .nop, none⟩, ⟨1, .constI 0, none⟩, ⟨0, .jump .jz, some 4⟩, ⟨2, .jump .jmp, some 3⟩,
  ⟨4, .constS "a\nb", none⟩, ⟨6, .jump .jmp, some 6⟩, ⟨7, .jump .jsr, some 9⟩,
  ⟨5, .retn, some 1⟩], 8⟩

/-- The same with the handles in reverse order. -/
def reversed : Stream := ⟨stream.code.map (·.renumbered (9 - ·)), 10⟩

end Excerpt

open Excerpt in
theorem excerpt_tells_landings :
    (stream.code.map (·.handle)).Nodup ∧
      Listing.instruction stream 2 ⟨0, .jump .jz, some 4⟩ = "JZ          0004 ↓" ∧
      Listing.instruction stream 5 ⟨6, .jump .jmp, some 6⟩ = "JMP         0005 ↑" ∧
      Listing.instruction stream 6 ⟨7, .jump .jsr, some 9⟩ = "JSR         ????" ∧
      reversed.listing = stream.listing := by
  have hs : (stream.code.map (·.handle)).Nodup := by decide
  obtain ⟨_, hjump, hother⟩ := listing_tells_landings hs
  refine ⟨hs, ?_, ?_, ?_, hother (9 - ·) reversed (by decide) rfl⟩
  · rw [(hjump 2 _ (some 4) rfl).mpr (by decide)]
    decide +kernel
  · rw [(hjump 5 _ (some 5) rfl).mpr (by decide)]
    decide +kernel
  · rw [(hjump 6 _ none rfl).mpr (by decide)]
    decide +kernel

end NwScript
