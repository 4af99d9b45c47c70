-- Bytes that were cut off are never taken for something else. Whatever a reader makes of the bytes
-- that it sees, it makes of them when more follow too, so that only the end of the bytes is left as
-- an answer to a stream that is not there in full.
import NwScript.Proofs.Wire.RoundTrip

namespace NwScript

namespace Wire

/-! ## Readers that do not look ahead -/

/-- Unless it hits the end of the bytes, the reader answers as it would if more of them followed,
and leaves these alone. -/
def Reader.Settles {α : Type} (r : Reader α) : Prop :=
  ∀ input more, r.run input = .error .unexpectedEnd ∨
    r.run (input ++ more) = (r.run input).map (Prod.map id (· ++ more))

section Settles

variable {α β : Type} {r : Reader α}

theorem settles_pure (a : α) : Reader.Settles (pure a) := fun _ _ => .inr rfl

theorem settles_throw (e : DecodeError) : Reader.Settles (throw e : Reader α) := fun _ _ => .inr rfl

theorem Reader.Settles.bind {f : α → Reader β} (h : r.Settles) (hf : ∀ a, (f a).Settles) :
    (r >>= f).Settles := by
  intro input more
  simp only [StateT.run_bind]
  rcases h input more with hend | hmore
  · rw [hend]
    exact .inl rfl
  · rw [hmore]
    cases hr : r.run input with
    | error e => exact .inr rfl
    | ok found =>
      obtain ⟨a, rest⟩ := found
      exact hf a rest more

theorem Reader.Settles.returned (h : r.Settles) (f : α → β) :
    Reader.Settles (do return f (← r)) := h.bind fun a => settles_pure (f a)

/-- What was cut off from bytes that a reader takes is missed. -/
theorem Reader.Settles.cut {front input : List UInt8} {a : α} (h : r.Settles)
    (ht : r.Takes front a) (hcut : input <+: front) (hne : input ≠ front) :
    r.decode input = .error .unexpectedEnd := by
  obtain ⟨more, rfl⟩ := hcut
  have hall : r.run (input ++ more) = .ok (a, []) := by simpa using ht []
  rw [Reader.decode]
  rcases h input more with hend | hmore
  · rw [hend]
    rfl
  · rw [hmore] at hall
    cases hr : r.run input with
    | error e => simp [hr, Except.map] at hall
    | ok found =>
      rw [hr] at hall
      -- the bytes that were cut off would have been left over
      have hleft : found.2 ++ more = [] := congrArg Prod.snd (Except.ok.inj hall)
      simp [(List.append_eq_nil_iff.mp hleft).2] at hne

end Settles

/-! ## Numbers, choices, texts and lists -/

theorem settles_byte : byte.Settles := by
  intro input more
  cases input with
  | nil => exact .inl rfl
  | cons b rest => exact .inr rfl

theorem settles_bytes (n : Nat) : (bytes n).Settles := by
  intro input more
  by_cases hn : n ≤ input.length
  · right
    have hn' : n ≤ (input ++ more).length := by rw [List.length_append]; omega
    simp [bytes, StateT.run, hn, hn', Except.map, -List.length_append,
      List.take_append_of_le_length hn, List.drop_append_of_le_length hn]
  · left
    simp [bytes, StateT.run, hn]

theorem settles_readGroups (lastBelow count : Nat) : (readGroups lastBelow count).Settles := by
  induction count with
  | zero => exact settles_throw _
  | succ more ih =>
    refine settles_byte.bind fun b => ?_
    split
    · split
      · exact settles_throw _
      · exact settles_pure _
    · exact ih.bind fun _ => settles_pure _

theorem settles_readNat (width : Width) : (readNat width).Settles := settles_readGroups _ _

theorem settles_readInt : readInt.Settles := (settles_readNat _).returned _

theorem settles_readWord : readWord.Settles := by
  intro input more
  rcases input with _ | ⟨_, _ | ⟨_, _ | ⟨_, _ | ⟨_, rest⟩⟩⟩⟩
  case cons.cons.cons.cons => exact .inr rfl
  all_goals exact .inl rfl

theorem settles_option {α : Type} {read : Reader α} (h : read.Settles) :
    (readOption read).Settles := by
  refine settles_byte.bind fun b => ?_
  split
  · exact settles_pure _
  · exact h.returned _
  · exact settles_throw _

theorem settles_text : readText.Settles := by
  refine (settles_readNat _).bind fun n => (settles_bytes n).bind fun utf8 => ?_
  split
  · exact settles_pure _
  · exact settles_throw _

theorem settles_many {α : Type} {read : Reader α} (h : read.Settles) (n : Nat) :
    (readMany read n).Settles := by
  induction n with
  | zero => exact settles_pure _
  | succ n ih => exact h.bind fun _ => ih.bind fun _ => settles_pure _

theorem settles_list {α : Type} {read : Reader α} (h : read.Settles) : (readList read).Settles :=
  (settles_readNat _).bind fun n => settles_many h n

end Wire

open Wire

/-! ## Instructions and streams -/

theorem Op.settles_operands (tag : Nat) : (operandReader tag).Settles := by
  have one (f : Int → Op) : Reader.Settles (do return f (← readInt)) :=
    settles_readInt.returned f
  have two (f : Int → Int → Op) : Reader.Settles (do return f (← readInt) (← readInt)) :=
    settles_readInt.bind fun n => one (f n)
  unfold operandReader
  split
  case h_1 | h_4 | h_9 | h_10 | h_11 | h_12 | h_13 | h_14 | h_15 => exact one _
  case h_5 | h_6 | h_7 | h_8 | h_17 => exact two _
  case h_2 => exact (settles_readWord.returned _).returned _
  case h_3 => exact settles_text.returned _
  case h_16 => exact (settles_readNat _).bind fun _ => settles_byte.returned _
  case h_18 =>
    split
    · exact settles_pure _
    · exact settles_throw _

theorem Op.settles_reader : Op.reader.Settles :=
  (settles_readNat _).bind fun tag => settles_operands tag

theorem Instruction.settles_reader : Instruction.reader.Settles :=
  (settles_readNat _).bind fun _ => Op.settles_reader.bind fun _ =>
    (settles_option (settles_readNat _)).bind fun _ => settles_pure _

namespace Stream

theorem settles_reader : reader.Settles :=
  (settles_list Instruction.settles_reader).bind fun _ => (settles_readNat _).bind fun _ =>
    settles_pure _

/-- A stream that was handed on is read again from all of its bytes and from nothing less. Wherever
they were cut off, it is the end of the bytes that is missed: what is there is read neither as
another stream nor as any other mistake. -/
theorem decode_cut {s : Stream} (h : s.Fits) :
    reader.decode s.encode = .ok s ∧
    ∀ bytes, bytes <+: s.encode → bytes ≠ s.encode →
      reader.decode bytes = .error .unexpectedEnd := by
  refine ⟨?_, fun bytes hcut hne => settles_reader.cut (takes_encode h) hcut hne⟩
  simpa using (takes_encode h).decode []

theorem extremes_cut :
    extremes.Fits ∧ extremes.encode.length = 71 ∧
    ∀ n < 71, reader.decode (extremes.encode.take n) = .error .unexpectedEnd := by
  have hlength : extremes.encode.length = 71 := by decide +kernel
  refine ⟨by decide, hlength, fun n hn => ?_⟩
  refine (decode_cut (by decide)).2 _ (List.take_prefix n _) fun hall => ?_
  have : min n 71 = 71 := by simpa [hlength] using congrArg List.length hall
  omega

end Stream

end NwScript
