-- Streams survive being handed on: a reader takes exactly the bytes that were written from the
-- front and makes the same stream of them, whatever bytes follow.
import Mathlib.Algebra.Group.Int.Defs
import Mathlib.Algebra.Group.Nat.Defs
import NwScript.Wire.Stream

namespace NwScript

namespace Wire

/-! ## Readers that take what was written -/

/-- The reader takes these bytes from the front, makes `a` of them and leaves what follows. -/
def Reader.Takes {α : Type} (r : Reader α) (front : List UInt8) (a : α) : Prop :=
  ∀ rest, r.run (front ++ rest) = .ok (a, rest)

section Takes

variable {α β : Type} {r : Reader α} {front more : List UInt8} {a : α} {b : β}

theorem Reader.Takes.decode (h : r.Takes front a) (rest : List UInt8) :
    r.decode (front ++ rest) = .ok a := by
  rw [Reader.decode, h rest]
  rfl

theorem takes_pure (a : α) : Reader.Takes (pure a) [] a := fun _ => rfl

theorem Reader.Takes.bind {f : α → Reader β} (h : r.Takes front a) (hf : (f a).Takes more b) :
    (r >>= f).Takes (front ++ more) b := by
  intro rest
  rw [StateT.run_bind, List.append_assoc, h (more ++ rest)]
  exact hf rest

theorem Reader.Takes.map (f : α → β) (h : r.Takes front a) : (f <$> r).Takes front (f a) := by
  intro rest
  rw [StateT.run_map, h rest]
  rfl

/-- A last step that takes no bytes. -/
theorem Reader.Takes.finish {f : α → Reader β} (h : r.Takes front a) (hf : f a = pure b) :
    (r >>= f).Takes front b := by
  have := h.bind (hf ▸ takes_pure b)
  rwa [List.append_nil] at this

theorem takes_byte (b : UInt8) : byte.Takes [b] b := fun _ => rfl

theorem takes_bytes (front : List UInt8) : (bytes front.length).Takes front front := by
  intro rest
  simp [bytes, StateT.run]

end Takes

/-! ## Numbers -/

theorem toNat_toUInt8 {n : Nat} (h : n < 256) : n.toUInt8.toNat = n := by
  simp [Nat.mod_eq_of_lt h]

/-- With `more` full groups before a last one, a number is read up to the bound that these give. -/
theorem takes_readGroups {lastBelow : Nat} (hlast : lastBelow ≤ 128) (more n : Nat)
    (hn : n < 128 ^ more * lastBelow) :
    (readGroups lastBelow (more + 1)).Takes (writeNat n) n := by
  induction more generalizing n with
  | zero =>
    have hbyte : n.toUInt8.toNat = n := toNat_toUInt8 (by omega)
    rw [writeNat, if_pos (by omega)]
    refine (takes_byte _).finish ?_
    rw [hbyte, if_pos (by omega), if_neg (by omega)]
  | succ more ih =>
    rw [writeNat]
    split
    · have hbyte : n.toUInt8.toNat = n := toNat_toUInt8 (by omega)
      refine (takes_byte _).finish ?_
      rw [hbyte, if_pos (by omega), if_neg (by omega)]
    · have hbyte : (n % 128 + 128).toUInt8.toNat = n % 128 + 128 := toNat_toUInt8 (by omega)
      have hrest : n / 128 < 128 ^ more * lastBelow := by
        rw [Nat.div_lt_iff_lt_mul (by omega)]
        calc n < 128 ^ (more + 1) * lastBelow := hn
          _ = 128 ^ more * lastBelow * 128 := by rw [Nat.pow_succ, Nat.mul_right_comm]
      refine (takes_byte (n % 128 + 128).toUInt8).bind ?_
      rw [hbyte, if_neg (by omega)]
      refine (ih _ hrest).finish ?_
      rw [show n % 128 + 128 - 128 + 128 * (n / 128) = n by omega]

/-- What a number of the width stays below. -/
def Width.limit (w : Width) : Nat := 128 ^ (w.bytes - 1) * w.lastBelow

theorem takes_readNat {w : Width} {n : Nat} (hbytes : 0 < w.bytes) (hlast : w.lastBelow ≤ 128)
    (hn : n < w.limit) : (readNat w).Takes (writeNat n) n := by
  have h := takes_readGroups hlast (w.bytes - 1) n hn
  rwa [Nat.sub_add_cancel hbytes] at h

theorem takes_short {n : Nat} (hn : n < 2 ^ 16) : (readNat .word16).Takes (writeNat n) n :=
  takes_readNat (by decide) (by decide) hn

theorem takes_word {n : Nat} (hn : n < 2 ^ 32) : (readNat .word32).Takes (writeNat n) n :=
  takes_readNat (by decide) (by decide) hn

theorem takes_length {n : Nat} (hn : n < 2 ^ 64) : (readNat .word64).Takes (writeNat n) n :=
  takes_readNat (by decide) (by decide) hn

/-- The signed numbers of 32 bits. -/
def InWord (n : Int) : Prop := -2 ^ 31 ≤ n ∧ n < 2 ^ 31

instance (n : Int) : Decidable (InWord n) := inferInstanceAs (Decidable (_ ∧ _))

theorem fold_lt {n : Int} (h : InWord n) : fold n < 2 ^ 32 := by
  obtain ⟨hlow, hhigh⟩ := h
  cases n with
  | ofNat n => simp only [fold, Int.ofNat_eq_natCast] at *; omega
  | negSucc n => simp only [fold, Int.negSucc_eq] at *; omega

theorem takes_int {n : Int} (h : InWord n) : readInt.Takes (writeInt n) n := by
  have := (takes_word (fold_lt h)).map unfold
  rwa [unfold_fold] at this

theorem inWord_toInt (n : Int32) : InWord n.toInt := ⟨n.le_toInt, n.toInt_lt⟩

/-- The four bytes of a word, each put back into its place. -/
theorem word_of_bytes (w : UInt32) :
    w.toUInt8.toUInt32 ||| (w >>> 8).toUInt8.toUInt32 <<< 8 |||
      (w >>> 16).toUInt8.toUInt32 <<< 16 ||| (w >>> 24).toUInt8.toUInt32 <<< 24 = w := by
  apply UInt32.eq_of_toBitVec_eq
  ext i hi
  simp only [UInt32.toBitVec_or, UInt32.toBitVec_shiftLeft, UInt8.toBitVec_toUInt32,
    UInt32.toBitVec_toUInt8, UInt32.toBitVec_shiftRight, UInt32.toBitVec_ofNat,
    BitVec.ofNat_eq_ofNat, BitVec.reduceMod, BitVec.ushiftRight_eq', BitVec.toNat_ofNat,
    Nat.reducePow, Nat.reduceMod, BitVec.shiftLeft_eq', BitVec.getElem_or, BitVec.getElem_setWidth,
    BitVec.getLsbD_setWidth, BitVec.getElem_shiftLeft, BitVec.getLsbD_ushiftRight]
  grind

theorem takes_writeWord (w : UInt32) : readWord.Takes (writeWord w) w := by
  intro rest
  exact congrArg (fun v => Except.ok (v, rest)) (word_of_bytes w)

/-! ## Choices, texts and lists -/

theorem takes_option {α : Type} {read : Reader α} {write : α → List UInt8} {o : Option α}
    (h : ∀ a ∈ o, read.Takes (write a) a) : (readOption read).Takes (writeOption write o) o := by
  cases o with
  | none => exact (takes_byte 0).finish rfl
  | some a => exact (takes_byte 1).bind ((h a rfl).finish rfl)

theorem takes_text {s : String} (hs : s.utf8ByteSize < 2 ^ 64) :
    readText.Takes (writeText s) s := by
  have hread : String.fromUTF8? s.toUTF8 = some s := by
    rw [String.fromUTF8?, String.toUTF8_eq_toByteArray, dif_pos s.isValidUTF8]
    rfl
  refine (takes_length hs).bind ((takes_bytes s.toUTF8.data.toList).finish ?_)
  rw [Array.toArray_toList, hread]

section Lists

variable {α : Type} {read : Reader α} {write : α → List UInt8}

theorem takes_many {xs : List α} (h : ∀ x ∈ xs, read.Takes (write x) x) :
    (readMany read xs.length).Takes (xs.flatMap write) xs := by
  induction xs with
  | nil => exact takes_pure []
  | cons x xs ih =>
    have hx := h x List.mem_cons_self
    have hxs := ih fun y hy => h y (List.mem_cons_of_mem x hy)
    rw [List.flatMap_cons]
    exact hx.bind (hxs.finish rfl)

theorem takes_list {xs : List α} (hlen : xs.length < 2 ^ 64)
    (h : ∀ x ∈ xs, read.Takes (write x) x) : (readList read).Takes (writeList write xs) xs :=
  (takes_length hlen).bind (takes_many h)

end Lists

end Wire

open Wire

/-! ## Instructions -/

namespace Op

/-- The operands are numbers of 32 bits, and a text has less than 2⁶⁴ bytes. -/
def Fits : Op → Prop
  | .constS s => s.utf8ByteSize < 2 ^ 64
  | .copyDown _ offset size | .copyTop _ offset size => InWord offset ∧ InWord size
  | .moveSp n | .step _ _ n | .equalTT n | .notEqualTT n => InWord n
  | .storeState globals locals => InWord globals ∧ InWord locals
  | _ => True

instance : (op : Op) → Decidable op.Fits
  | .constS _ => inferInstanceAs (Decidable (_ < _))
  | .copyDown .. | .copyTop .. | .storeState .. => inferInstanceAs (Decidable (_ ∧ _))
  | .moveSp _ | .step .. | .equalTT _ | .notEqualTT _ => inferInstanceAs (Decidable (InWord _))
  | .nop | .reserve _ | .constI _ | .constF _ | .constO _ | .saveBp | .restoreBp | .binary _
  | .unary _ | .jump _ | .retn | .action .. => inferInstanceAs (Decidable True)

theorem tag_lt (op : Op) : op.tag < 2 ^ 32 := by
  fun_cases tag op with
  | case2 kind => cases kind <;> decide
  | case18 code => cases code <;> decide
  | case19 code => cases code <;> decide
  | case22 code => cases code <;> decide
  | _ => decide

theorem takes_operands {op : Op} (h : op.Fits) :
    (operandReader op.tag).Takes op.encodeOperands op := by
  cases op with
  | nop => exact takes_pure Op.nop
  | reserve kind => cases kind <;> exact takes_pure (Op.reserve _)
  | constI n => exact (takes_int (inWord_toInt n)).finish (by simp)
  | constF x => exact ((takes_writeWord x.bits).map Binary32.mk).finish rfl
  | constS s => exact (takes_text h).finish rfl
  | constO n => exact (takes_int (inWord_toInt n)).finish (by simp)
  | copyDown anchor _ _ => cases anchor <;> exact (takes_int h.1).bind ((takes_int h.2).finish rfl)
  | copyTop anchor _ _ => cases anchor <;> exact (takes_int h.1).bind ((takes_int h.2).finish rfl)
  | moveSp _ => exact (takes_int h).finish rfl
  | step way anchor _ => cases way <;> cases anchor <;> exact (takes_int h).finish rfl
  | saveBp => exact takes_pure Op.saveBp
  | restoreBp => exact takes_pure Op.restoreBp
  | binary code => cases code <;> exact takes_pure (Op.binary _)
  | unary code => cases code <;> exact takes_pure (Op.unary _)
  | equalTT _ => exact (takes_int h).finish rfl
  | notEqualTT _ => exact (takes_int h).finish rfl
  | jump code => cases code <;> exact takes_pure (Op.jump _)
  | retn => exact takes_pure Op.retn
  | action routine argc =>
    exact (takes_short routine.toNat_lt).bind ((takes_byte argc).finish (by simp))
  | storeState _ _ => exact (takes_int h.1).bind ((takes_int h.2).finish rfl)

theorem takes_encode {op : Op} (h : op.Fits) : reader.Takes op.encode op :=
  (takes_word op.tag_lt).bind (takes_operands h)

end Op

namespace Instruction

/-- The handles are numbers of 32 bits. -/
def Fits (i : Instruction) : Prop := i.handle < 2 ^ 32 ∧ i.op.Fits ∧ ∀ t ∈ i.target, t < 2 ^ 32

instance (i : Instruction) : Decidable i.Fits := inferInstanceAs (Decidable (_ ∧ _ ∧ _))

theorem takes_encode {i : Instruction} (h : i.Fits) : reader.Takes i.encode i := by
  obtain ⟨hhandle, hop, htarget⟩ := h
  rw [encode, List.append_assoc]
  exact (takes_word hhandle).bind
    ((Op.takes_encode hop).bind ((takes_option fun t ht => takes_word (htarget t ht)).finish rfl))

end Instruction

/-! ## Streams -/

namespace Stream

/-- The numbers of the stream have the widths that they are handed on with. -/
def Fits (s : Stream) : Prop :=
  s.code.length < 2 ^ 64 ∧ s.next < 2 ^ 32 ∧ ∀ i ∈ s.code, i.Fits

instance (s : Stream) : Decidable s.Fits := inferInstanceAs (Decidable (_ ∧ _ ∧ _))

theorem takes_encode {s : Stream} (h : s.Fits) : reader.Takes s.encode s := by
  obtain ⟨hlen, hnext, hcode⟩ := h
  have hlist := takes_list hlen fun i hi => Instruction.takes_encode (hcode i hi)
  exact hlist.bind ((takes_word hnext).finish rfl)

/-- A stream that is handed on is read back as it was, whatever bytes follow it. -/
theorem decode_encode_append {s : Stream} (h : s.Fits) (rest : List UInt8) :
    reader.decode (s.encode ++ rest) = .ok s :=
  (takes_encode h).decode rest

/-- Operands at the ends of their ranges, a number that is none, and a text of letters of one to
four bytes. -/
def extremes : Stream where
  code :=
    [⟨0, .constI Int32.minValue, none⟩, ⟨127, .constF ⟨0x7fc00001⟩, none⟩,
     ⟨128, .constS "aé€😀", none⟩, ⟨16383, .copyDown .bp (-2147483648) 2147483647, none⟩,
     ⟨16384, .action 65535 255, none⟩, ⟨4294967295, .jump .jz, some 4294967295⟩]
  next := 4294967295

theorem extremes_decode :
    extremes.Fits ∧ reader.decode (extremes.encode ++ [128, 255]) = .ok extremes :=
  ⟨by decide, decode_encode_append (by decide) _⟩

end Stream

end NwScript
