import Mathlib.Data.List.Induction
import Mathlib.Logic.Function.Basic
import RingOverlay.Proofs.Wire.RoundTrip

/-!
# Frames Delimit Themselves

Which datagrams are frames. The eight bytes in front are a number, every number
that fits into eight bytes is spelled by exactly one choice of them
(`bigEndian_ofBigEndian`), and nothing is computed with it: it is compared with
how much followed. So a datagram is refused as a frame for two reasons only,
and a number in front that is far too large is just one that differs.

A frame that is cut anywhere and a frame with anything behind it are both
refused, since the text that is left is not the one that was counted. Cutting
needs the text to be one that eight bytes can count, for the count of a longer
one is that of some shorter text; more behind it is refused in any case.

## Main definitions

* `Misframed`: A datagram is refused because of its frame.

## Theorems

* `misframed_iff`: The two reasons for that.
* `unpack_of_framed`: Any other datagram is what its text reads as.
* `ofBigEndian_lt`, `bigEndian_ofBigEndian`: Bytes and numbers correspond.
* `pack_injective`: A datagram is that of one message.
* `frames_delimit_themselves`: Where a frame ends is told by the frame.
-/

namespace RingOverlay.Wire

/-- A datagram is refused because of its frame, before its text is looked at. -/
def Misframed (datagram : List UInt8) : Prop :=
  ∃ fault : FrameFault, unpack datagram = .error (.frame fault.text)

/-- What is unpacked from a datagram, by the two tests on its frame. -/
theorem unpack_of_framed {datagram : List UInt8} (hlong : lengthSize ≤ datagram.length)
    (hcount : ofBigEndian (datagram.take lengthSize) = (datagram.drop lengthSize).length) :
    unpack datagram = (Reading.decode (datagram.drop lengthSize)).mapError .codec := by
  rw [unpack, unframe, if_neg (Nat.not_lt_of_le hlong)]
  simp only [if_pos hcount]
  cases Reading.decode (datagram.drop lengthSize) <;> rfl

theorem misframed_iff (datagram : List UInt8) :
    Misframed datagram ↔ datagram.length < lengthSize ∨
      ofBigEndian (datagram.take lengthSize) ≠ (datagram.drop lengthSize).length := by
  by_cases hshort : datagram.length < lengthSize
  · refine iff_of_true ⟨.short datagram.length, ?_⟩ (Or.inl hshort)
    rw [unpack, unframe, if_pos hshort]
  by_cases hcount : ofBigEndian (datagram.take lengthSize) = (datagram.drop lengthSize).length
  · refine iff_of_false ?_ (by simp only [hshort, hcount, ne_eq, not_true, or_self, not_false_iff])
    rintro ⟨fault, hfault⟩
    rw [unpack_of_framed (Nat.le_of_not_lt hshort) hcount] at hfault
    -- A text that cannot be read is the fault of the text.
    cases hread : Reading.decode (datagram.drop lengthSize) <;> rw [hread] at hfault <;>
      simp only [Except.mapError, reduceCtorEq, Except.error.injEq] at hfault
  · refine iff_of_true ⟨.mismatch (ofBigEndian (datagram.take lengthSize))
      (datagram.drop lengthSize).length, ?_⟩ (Or.inr hcount)
    rw [unpack, unframe, if_neg hshort]
    simp only [if_neg hcount]

theorem ofBigEndian_concat (bytes : List UInt8) (b : UInt8) :
    ofBigEndian (bytes ++ [b]) = 256 * ofBigEndian bytes + b.toNat := by
  rw [ofBigEndian, List.foldl_append]
  rfl

theorem ofBigEndian_lt (bytes : List UInt8) : ofBigEndian bytes < 256 ^ bytes.length := by
  induction bytes using List.reverseRecOn with
  | nil => exact Nat.one_pos
  | append_singleton bytes b ih =>
      have hb := b.toNat_lt
      rw [ofBigEndian_concat, List.length_append, List.length_singleton, Nat.pow_succ]
      omega

/-- Every choice of bytes spells a number, and none spells it otherwise. -/
theorem bigEndian_ofBigEndian (bytes : List UInt8) :
    bigEndian bytes.length (ofBigEndian bytes) = bytes := by
  induction bytes using List.reverseRecOn with
  | nil => rfl
  | append_singleton bytes b ih =>
      have hb : b.toNat < 256 := b.toNat_lt
      have hfront : (256 * ofBigEndian bytes + b.toNat) / 256 = ofBigEndian bytes := by omega
      have hlast : UInt8.ofNat (256 * ofBigEndian bytes + b.toNat) = b := by
        refine UInt8.toNat_inj.mp ?_
        rw [UInt8.toNat_ofNat']
        omega
      rw [ofBigEndian_concat, List.length_append, List.length_singleton, bigEndian, hfront, hlast,
        ih]

theorem take_pack (m : Message) :
    (pack m).take lengthSize = bigEndian lengthSize (messageBytes m).length :=
  List.take_left' (length_bigEndian _ _)

theorem drop_pack (m : Message) : (pack m).drop lengthSize = messageBytes m :=
  List.drop_left' (length_bigEndian _ _)

theorem length_pack_eq (m : Message) : (pack m).length = lengthSize + (messageBytes m).length := by
  rw [pack, frame, List.length_append, length_bigEndian]

/-- A datagram is that of one message only, whatever its length. -/
theorem pack_injective : Function.Injective pack := by
  intro m n hmn
  have htext : messageBytes m = messageBytes n := by rw [← drop_pack, hmn, drop_pack]
  have hread := decode_messageBytes m
  rw [htext, decode_messageBytes] at hread
  exact (Except.ok.inj hread).symm

/-- What is left of a frame that was cut is not what was counted. -/
theorem misframed_of_cut {m : Message} {cut : List UInt8}
    (hm : (messageBytes m).length < 2 ^ 64) (hcut : cut <+: pack m) (hne : cut ≠ pack m) :
    Misframed cut := by
  rw [misframed_iff]
  by_cases hshort : cut.length < lengthSize
  · exact Or.inl hshort
  refine Or.inr ?_
  obtain ⟨missing, hmissing⟩ := hcut
  have hlost : missing ≠ [] := by
    rintro rfl
    exact hne (by rw [← hmissing, List.append_nil])
  have hlengths := congrArg List.length hmissing
  rw [List.length_append, length_pack_eq] at hlengths
  have hfront : cut.take lengthSize = (pack m).take lengthSize := by
    rw [← hmissing, List.take_append_of_le_length (Nat.le_of_not_lt hshort)]
  have hpos := List.length_pos_of_ne_nil hlost
  have hcount : (messageBytes m).length % 256 ^ lengthSize = (messageBytes m).length :=
    Nat.mod_eq_of_lt hm
  rw [hfront, take_pack, ofBigEndian_bigEndian, hcount, List.length_drop]
  omega

/-- What follows a frame was not counted. -/
theorem misframed_of_more (m : Message) {more : List UInt8} (h : more ≠ []) :
    Misframed (pack m ++ more) := by
  have hlong : lengthSize ≤ (pack m).length := by
    rw [length_pack_eq]
    exact Nat.le_add_right _ _
  have hpos := List.length_pos_of_ne_nil h
  rw [misframed_iff]
  refine Or.inr ?_
  rw [List.take_append_of_le_length hlong, take_pack, ofBigEndian_bigEndian, List.length_drop,
    List.length_append, length_pack_eq]
  have := Nat.mod_le (messageBytes m).length (256 ^ lengthSize)
  omega

/-- Where a frame ends is told by the frame. No part of one and nothing that
    goes on after one, such as another frame, is a frame itself; a frame is that
    of one message. In general a datagram is refused as a frame only if it is
    too short to hold a number or holds another number than that of the bytes
    that follow; otherwise it is what these bytes read as. All numbers below
    `2 ^ 64` can stand in front, and each is taken for what it is. -/
theorem frames_delimit_themselves :
    (∀ (m : Message) (cut : List UInt8), (messageBytes m).length < 2 ^ 64 →
      cut <+: pack m → cut ≠ pack m → Misframed cut) ∧
    (∀ (m : Message) (more : List UInt8), more ≠ [] → Misframed (pack m ++ more)) ∧
    (∀ m n : Message, Misframed (pack m ++ pack n)) ∧
    Function.Injective pack ∧
    (∀ d : List UInt8, Misframed d ↔ d.length < lengthSize ∨
      ofBigEndian (d.take lengthSize) ≠ (d.drop lengthSize).length) ∧
    (∀ d : List UInt8, ¬ Misframed d →
      unpack d = (Reading.decode (d.drop lengthSize)).mapError .codec) ∧
    (∀ front : List UInt8, front.length = lengthSize →
      ofBigEndian front < 2 ^ 64 ∧ bigEndian lengthSize (ofBigEndian front) = front) := by
  refine ⟨fun m cut hm hcut hne => misframed_of_cut hm hcut hne,
    fun m more hmore => misframed_of_more m hmore, fun m n => misframed_of_more m ?_,
    pack_injective, misframed_iff, fun d hd => ?_, fun front hfront => ?_⟩
  · refine List.ne_nil_of_length_pos ?_
    rw [length_pack_eq]
    exact Nat.lt_of_lt_of_le (by decide) (Nat.le_add_right lengthSize _)
  · rw [misframed_iff, not_or, Nat.not_lt, not_not] at hd
    exact unpack_of_framed hd.1 hd.2
  · have hlt := ofBigEndian_lt front
    have hback := bigEndian_ofBigEndian front
    rw [hfront] at hlt hback
    exact ⟨hlt, hback⟩

/-- A question without its last byte, with one byte behind it, and twice. -/
theorem cut_question_misframed :
    let m : Message := ⟨protocolVersion, 7, .askOwner 0xffffffffffffffff⟩
    (messageBytes m).length < 2 ^ 64 ∧ Misframed (pack m).dropLast ∧ Misframed (pack m ++ [10]) ∧
      Misframed (pack m ++ pack m) := by
  intro m
  have hm : (messageBytes m).length < 2 ^ 64 := by decide +kernel
  have hne : (pack m).dropLast ≠ pack m := by decide +kernel
  exact ⟨hm, frames_delimit_themselves.1 m _ hm (List.dropLast_prefix _) hne,
    frames_delimit_themselves.2.1 m [10] (List.cons_ne_nil _ _),
    frames_delimit_themselves.2.2.1 m m⟩

end RingOverlay.Wire
