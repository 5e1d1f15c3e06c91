import Mathlib.Tactic.SplitIfs
import RingOverlay.Proofs.Json.Grammar

/-!
# Any Spelling of a String Is Read

A string has many spellings. A character may stand for itself, a few have a
short escape, and every character has a numbered one, or a pair of these if its
number needs more than four digits; the letters among the digits may be small
or capital. Which of the spellings is used makes no difference to what is read.

Escapes are resolved into bytes and the bytes are decoded in the end, so the
argument goes through UTF-8: the bytes collected from a spelling are those of
the text it spells, and the bytes of a text decode to that text.

## Main definitions

* `HexNumber`: Four hexadecimal digits.
* `Spells`: What may stand between the quotes of a text.

## Theorems

* `Utf8.decode_encode`: Every text is decoded from its bytes.
* `stringTail_spells`: A string is read whatever its spelling.
* `spells_plain`: A plain text spells itself.
-/

namespace RingOverlay

namespace Utf8

theorem trail?_ofNat {k : Nat} (h : k < 64) : trail? (UInt8.ofNat (0x80 + k)) = some k := by
  have hk : (UInt8.ofNat (0x80 + k)).toNat = 0x80 + k := by
    rw [UInt8.toNat_ofNat']
    omega
  have hrange : (0x80 ≤ UInt8.ofNat (0x80 + k) && UInt8.ofNat (0x80 + k) < 0xc0) = true := by
    simp only [Bool.and_eq_true, decide_eq_true_eq, UInt8.le_iff_toNat_le, UInt8.lt_iff_toNat_lt,
      hk]
    exact ⟨Nat.le_add_right _ _, Nat.add_lt_add_left h _⟩
  rw [trail?, if_pos hrange, hk, Nat.add_sub_cancel_left]

theorem charAbove?_toNat {c : Char} {bound n : Nat} (hn : n = c.toNat) (h : bound ≤ n) :
    charAbove? bound n = some c := by
  subst hn
  have hvalid : c.toNat.isValidChar := c.valid
  rw [charAbove?, if_pos (by simp only [h, hvalid, decide_true, Bool.and_self]), Char.ofNat_toNat]

theorem decode_two {x y : Nat} (hx : x < 32) (hy : y < 64) (s : List UInt8) :
    decode (UInt8.ofNat (0xc0 + x) :: UInt8.ofNat (0x80 + y) :: s) =
      (charAbove? 0x80 (x * 64 + y)).bind fun c => (decode s).map (c :: ·) := by
  have ha : (UInt8.ofNat (0xc0 + x)).toNat = 0xc0 + x :=
    UInt8.toNat_ofNat_of_lt' (show 0xc0 + x < 256 by omega)
  have hhigh : ¬ UInt8.ofNat (0xc0 + x) < 0x80 := by
    rw [UInt8.lt_iff_toNat_lt, ha]
    show ¬ 0xc0 + x < 0x80
    omega
  have htwo : (0xc0 ≤ UInt8.ofNat (0xc0 + x) && UInt8.ofNat (0xc0 + x) < 0xe0) = true := by
    simp only [Bool.and_eq_true, decide_eq_true_eq, UInt8.le_iff_toNat_le, UInt8.lt_iff_toNat_lt,
      ha]
    exact ⟨Nat.le_add_right _ _, Nat.add_lt_add_left hx _⟩
  have hsub : (UInt8.ofNat (0xc0 + x)).toNat - 0xc0 = x := by omega
  rw [decode.eq_def]
  simp only [if_neg hhigh, if_pos htwo]
  -- By equations only: to unfold the test of the bound would be to count up to it.
  simp -implicitDefEqProofs only [trail?_ofNat hy, hsub, Option.bind_eq_bind, Option.bind_some]

theorem decode_three {x y z : Nat} (hx : x < 16) (hy : y < 64) (hz : z < 64) (s : List UInt8) :
    decode (UInt8.ofNat (0xe0 + x) :: UInt8.ofNat (0x80 + y) :: UInt8.ofNat (0x80 + z) :: s) =
      (charAbove? 0x800 (x * 4096 + y * 64 + z)).bind fun c => (decode s).map (c :: ·) := by
  have ha : (UInt8.ofNat (0xe0 + x)).toNat = 0xe0 + x :=
    UInt8.toNat_ofNat_of_lt' (show 0xe0 + x < 256 by omega)
  have hhigh : ¬ UInt8.ofNat (0xe0 + x) < 0x80 := by
    rw [UInt8.lt_iff_toNat_lt, ha]
    show ¬ 0xe0 + x < 0x80
    omega
  have hnottwo : ¬ (0xc0 ≤ UInt8.ofNat (0xe0 + x) && UInt8.ofNat (0xe0 + x) < 0xe0) = true := by
    simp only [Bool.and_eq_true, decide_eq_true_eq, UInt8.lt_iff_toNat_lt, ha, not_and]
    exact fun _ => Nat.not_lt_of_le (Nat.le_add_right 0xe0 x)
  have hthree : (0xe0 ≤ UInt8.ofNat (0xe0 + x) && UInt8.ofNat (0xe0 + x) < 0xf0) = true := by
    simp only [Bool.and_eq_true, decide_eq_true_eq, UInt8.le_iff_toNat_le, UInt8.lt_iff_toNat_lt,
      ha]
    exact ⟨Nat.le_add_right _ _, Nat.add_lt_add_left hx _⟩
  have hsub : (UInt8.ofNat (0xe0 + x)).toNat - 0xe0 = x := by omega
  rw [decode.eq_def]
  simp only [if_neg hhigh, if_neg hnottwo, if_pos hthree]
  simp -implicitDefEqProofs only [trail?_ofNat hy, trail?_ofNat hz, hsub, Option.bind_eq_bind,
    Option.bind_some]

theorem decode_four {x y z w : Nat} (hx : x < 16) (hy : y < 64) (hz : z < 64) (hw : w < 64)
    (s : List UInt8) :
    decode (UInt8.ofNat (0xf0 + x) :: UInt8.ofNat (0x80 + y) :: UInt8.ofNat (0x80 + z) ::
        UInt8.ofNat (0x80 + w) :: s) =
      (charAbove? 0x10000 (x * 262144 + y * 4096 + z * 64 + w)).bind fun c =>
        (decode s).map (c :: ·) := by
  have ha : (UInt8.ofNat (0xf0 + x)).toNat = 0xf0 + x :=
    UInt8.toNat_ofNat_of_lt' (show 0xf0 + x < 256 by omega)
  have hhigh : ¬ UInt8.ofNat (0xf0 + x) < 0x80 := by
    rw [UInt8.lt_iff_toNat_lt, ha]
    show ¬ 0xf0 + x < 0x80
    omega
  have hnottwo : ¬ (0xc0 ≤ UInt8.ofNat (0xf0 + x) && UInt8.ofNat (0xf0 + x) < 0xe0) = true := by
    simp only [Bool.and_eq_true, decide_eq_true_eq, UInt8.lt_iff_toNat_lt, ha, not_and]
    exact fun _ => Nat.not_lt_of_le (Nat.le_add_right_of_le (show 0xe0 ≤ 0xf0 by decide))
  have hnotthree : ¬ (0xe0 ≤ UInt8.ofNat (0xf0 + x) && UInt8.ofNat (0xf0 + x) < 0xf0) = true := by
    simp only [Bool.and_eq_true, decide_eq_true_eq, UInt8.lt_iff_toNat_lt, ha, not_and]
    exact fun _ => Nat.not_lt_of_le (Nat.le_add_right 0xf0 x)
  have hfour : 0xf0 ≤ UInt8.ofNat (0xf0 + x) := by
    rw [UInt8.le_iff_toNat_le, ha]
    exact Nat.le_add_right 0xf0 x
  have hsub : (UInt8.ofNat (0xf0 + x)).toNat - 0xf0 = x := by omega
  rw [decode.eq_def]
  simp only [if_neg hhigh, if_neg hnottwo, if_neg hnotthree, if_pos hfour]
  simp -implicitDefEqProofs only [trail?_ofNat hy, trail?_ofNat hz, trail?_ofNat hw, hsub,
    Option.bind_eq_bind, Option.bind_some]

theorem toNat_lt_limit (c : Char) : c.toNat < 0x110000 := by
  have hvalid : c.toNat.isValidChar := c.valid
  simp only [Nat.isValidChar] at hvalid
  omega

/-- A character is decoded from its bytes, whatever follows. -/
theorem decode_encodeChar (c : Char) (s : List UInt8) :
    decode (encodeChar c ++ s) = (decode s).map (c :: ·) := by
  have hlimit := toNat_lt_limit c
  have htrail (n : Nat) : n % 64 < 64 := Nat.mod_lt n (by decide)
  simp only [encodeChar]
  -- The last six bits of what is left go into the last byte that is left.
  split_ifs with h1 h2 h3
  · have hlow : UInt8.ofNat c.toNat < 0x80 := by
      rw [UInt8.lt_iff_toNat_lt, toNat_byte h1]
      exact h1
    rw [List.singleton_append, decode.eq_def]
    simp only [if_pos hlow, toNat_byte h1, Char.ofNat_toNat]
  · rw [List.cons_append, List.singleton_append, decode_two (by omega) (htrail _),
      charAbove?_toNat (c := c) (by omega) (by omega), Option.bind_some]
  · rw [List.cons_append, List.cons_append, List.singleton_append,
      decode_three (by omega) (htrail _) (htrail _),
      charAbove?_toNat (c := c) (by omega) (by omega), Option.bind_some]
  · rw [List.cons_append, List.cons_append, List.cons_append, List.singleton_append,
      decode_four (by omega) (htrail _) (htrail _) (htrail _),
      charAbove?_toNat (c := c) (by omega) (by omega), Option.bind_some]

/-- Every text is decoded from its bytes. -/
theorem decode_encode (text : List Char) : decode (encode text) = some text := by
  induction text with
  | nil => rfl
  | cons c more ih =>
      rw [encode, List.flatMap_cons, decode_encodeChar]
      rw [encode] at ih
      rw [ih, Option.map_some]

end Utf8

namespace Json

open Utf8

/-- Four hexadecimal digits and the number that they stand for. -/
def HexNumber (a b c d : UInt8) (n : Nat) : Prop :=
  ∃ x y z w, hexValue? a = some x ∧ hexValue? b = some y ∧ hexValue? c = some z ∧
    hexValue? d = some w ∧ n = ((x * 16 + y) * 16 + z) * 16 + w

/-- What may stand between the quotes of a string, by the text of the string:
    characters that stand for themselves, short escapes, numbered escapes, and
    pairs of these for what is beyond four digits. -/
inductive Spells : List UInt8 → List Char → Prop where
  | nil : Spells [] []
  | plain {c : Char} {s : List UInt8} {text : List Char} (hcontrol : 0x20 ≤ c.toNat)
      (hquote : c ≠ '"') (hslash : c ≠ '\\') (h : Spells s text) :
      Spells (encodeChar c ++ s) (c :: text)
  | short {b : UInt8} {c : Char} {s : List UInt8} {text : List Char}
      (hb : shortEscape? b = some (UInt8.ofNat c.toNat)) (hc : c.toNat < 0x80)
      (h : Spells s text) : Spells (backslash :: b :: s) (c :: text)
  | numbered {x y z w : UInt8} {c : Char} {s : List UInt8} {text : List Char}
      (hc : HexNumber x y z w c.toNat) (h : Spells s text) :
      Spells (backslash :: numberedMark :: x :: y :: z :: w :: s) (c :: text)
  | pair {x y z w x' y' z' w' : UInt8} {n m : Nat} {c : Char} {s : List UInt8}
      {text : List Char} (hn : HexNumber x y z w n) (hm : HexNumber x' y' z' w' m)
      (hlead : isLead n = true) (htrail : isTrail m = true)
      (hc : c.toNat = 0x10000 + (n - 0xd800) * 0x400 + (m - 0xdc00)) (h : Spells s text) :
      Spells (backslash :: numberedMark :: x :: y :: z :: w ::
        backslash :: numberedMark :: x' :: y' :: z' :: w' :: s) (c :: text)

variable {text : List Char} {s : List UInt8}

theorem fourHex_hexNumber {a b c d : UInt8} {n : Nat} (h : HexNumber a b c d n)
    (rest : List UInt8) : fourHex (a :: b :: c :: d :: rest) = .ok (n, rest) := by
  obtain ⟨x, y, z, w, hx, hy, hz, hw, rfl⟩ := h
  simp only [fourHex, hx, hy, hz, hw]

theorem expect_cons (b : UInt8) (rest : List UInt8) : expect b (b :: rest) = .ok ((), rest) := by
  rw [expect, word, if_pos rfl, word]

/-- The number of a character is not half of a pair. -/
theorem not_half (c : Char) : isTrail c.toNat = false ∧ isLead c.toNat = false := by
  have hvalid : c.toNat.isValidChar := c.valid
  simp only [Nat.isValidChar] at hvalid
  simp only [isTrail, isLead, Bool.and_eq_false_iff, decide_eq_false_iff_not]
  omega

theorem numberedEscape_hexNumber {x y z w : UInt8} {c : Char} (h : HexNumber x y z w c.toNat)
    (rest : List UInt8) : numberedEscape (x :: y :: z :: w :: rest) = .ok (c, rest) := by
  rw [numberedEscape, fourHex_hexNumber h]
  simp only [bind, Except.bind, (not_half c).1, (not_half c).2, Bool.false_eq_true, if_false,
    Char.ofNat_toNat]

theorem numberedEscape_pair {x y z w x' y' z' w' : UInt8} {n m : Nat} {c : Char}
    (hn : HexNumber x y z w n) (hm : HexNumber x' y' z' w' m) (hlead : isLead n = true)
    (htrail : isTrail m = true) (hc : c.toNat = 0x10000 + (n - 0xd800) * 0x400 + (m - 0xdc00))
    (rest : List UInt8) :
    numberedEscape (x :: y :: z :: w :: backslash :: numberedMark :: x' :: y' :: z' :: w' :: rest) =
      .ok (c, rest) := by
  have hfirst : isTrail n = false := by
    simp only [isLead, isTrail, Bool.and_eq_true, decide_eq_true_eq, Bool.and_eq_false_iff,
      decide_eq_false_iff_not] at hlead ⊢
    omega
  rw [numberedEscape, fourHex_hexNumber hn]
  simp only [bind, Except.bind, hfirst, hlead, htrail, expect_cons, fourHex_hexNumber hm,
    Bool.false_eq_true, if_false, if_true, ← hc, Char.ofNat_toNat]

/-- Every byte of a character that stands for itself stands for itself. -/
theorem byte_of_plain {c : Char} (hcontrol : 0x20 ≤ c.toNat) (hquote : c ≠ '"')
    (hslash : c ≠ '\\') : ∀ b ∈ encodeChar c, ¬ b < 0x20 ∧ b ≠ quote ∧ b ≠ backslash := by
  have hlimit := toNat_lt_limit c
  -- A byte of a character of several bytes is too large to be a mark.
  have hlarge {k : Nat} (hlow : 0x80 ≤ k) (hhigh : k < 256) :
      ¬ UInt8.ofNat k < 0x20 ∧ UInt8.ofNat k ≠ quote ∧ UInt8.ofNat k ≠ backslash := by
    have hk : (UInt8.ofNat k).toNat = k := UInt8.toNat_ofNat_of_lt' hhigh
    refine ⟨?_, ?_, ?_⟩
    · rw [UInt8.lt_iff_toNat_lt, hk]
      show ¬ k < 0x20
      omega
    · intro heq
      have : k = 0x22 := hk.symm.trans (congrArg UInt8.toNat heq)
      omega
    · intro heq
      have : k = 0x5c := hk.symm.trans (congrArg UInt8.toNat heq)
      omega
  intro b hb
  simp only [encodeChar] at hb
  split_ifs at hb with h1 h2 h3 <;>
    simp only [List.mem_cons, List.not_mem_nil, or_false] at hb
  · subst hb
    refine ⟨?_, byte_ne h1 (by decide) hquote, byte_ne h1 (by decide) hslash⟩
    rw [UInt8.lt_iff_toNat_lt, toNat_byte h1]
    exact Nat.not_lt_of_le hcontrol
  · rcases hb with rfl | rfl <;> exact hlarge (by omega) (by omega)
  · rcases hb with rfl | rfl | rfl <;> exact hlarge (by omega) (by omega)
  · rcases hb with rfl | rfl | rfl | rfl <;> exact hlarge (by omega) (by omega)

/-- Bytes that stand for themselves are collected one by one. -/
theorem stringBytes_append {bs : List UInt8}
    (h : ∀ b ∈ bs, ¬ b < 0x20 ∧ b ≠ quote ∧ b ≠ backslash) {n : Nat} {s more rest : List UInt8}
    (hs : stringBytes n s = .ok (more, rest)) :
    stringBytes (n + bs.length) (bs ++ s) = .ok (bs ++ more, rest) := by
  induction bs with
  | nil => exact hs
  | cons b bs ih =>
      obtain ⟨hcontrol, hquote, hslash⟩ := h b List.mem_cons_self
      have hmore := ih fun c hc => h c (List.mem_cons_of_mem b hc)
      rw [List.length_cons, ← Nat.add_assoc, List.cons_append, stringBytes, if_neg hquote,
        if_neg hslash, if_neg hcontrol, hmore]
      rfl

/-- An escape is resolved into the bytes of its character. -/
theorem stringBytes_escape {spelled : List UInt8} {c : Char} {n : Nat} {s more rest : List UInt8}
    (hescape : escape (spelled ++ s) = .ok (encodeChar c, s))
    (hs : stringBytes n s = .ok (more, rest)) :
    stringBytes (n + 1) (backslash :: (spelled ++ s)) = .ok (encodeChar c ++ more, rest) := by
  rw [stringBytes, if_neg (by decide), if_pos rfl, hescape]
  simp only [bind, Except.bind, hs]

/-- The bytes collected from a spelling are those of the text. -/
theorem stringBytes_spells (h : Spells s text) (rest : List UInt8) {n : Nat} (hn : s.length < n) :
    stringBytes n (s ++ quote :: rest) = .ok (encode text, rest) := by
  induction h generalizing n with
  | nil =>
      cases n with
      | zero => exact absurd hn (Nat.not_lt_zero _)
      | succ n => rfl
  | @plain c s text hcontrol hquote hslash _ ih =>
      rw [List.length_append] at hn
      have hs := ih (n := n - (encodeChar c).length) (by omega)
      have hall := stringBytes_append (byte_of_plain hcontrol hquote hslash) hs
      rwa [Nat.sub_add_cancel (by omega), ← List.append_assoc] at hall
  | @short b c s text hb hc _ ih =>
      simp only [List.length_cons] at hn
      have hescape : escape ([b] ++ (s ++ quote :: rest)) =
          .ok (encodeChar c, s ++ quote :: rest) := by
        rw [List.singleton_append, escape,
          if_neg (numberedMark_shortEscape (Option.isSome_iff_exists.mpr ⟨_, hb⟩)), hb]
        simp only [encodeChar, if_pos hc]
      have hall := stringBytes_escape hescape (ih (n := n - 1) (by omega))
      rwa [Nat.sub_add_cancel (by omega)] at hall
  | @numbered x y z w c s text hc _ ih =>
      simp only [List.length_cons] at hn
      have hescape : escape ([numberedMark, x, y, z, w] ++ (s ++ quote :: rest)) =
          .ok (encodeChar c, s ++ quote :: rest) := by
        simp only [List.cons_append, List.nil_append, escape, if_true,
          numberedEscape_hexNumber hc, bind, Except.bind]
      have hall := stringBytes_escape hescape (ih (n := n - 1) (by omega))
      rwa [Nat.sub_add_cancel (by omega)] at hall
  | @pair x y z w x' y' z' w' k m c s text hk hm hlead htrail hc _ ih =>
      simp only [List.length_cons] at hn
      have hescape : escape ([numberedMark, x, y, z, w, backslash, numberedMark, x', y', z', w'] ++
          (s ++ quote :: rest)) = .ok (encodeChar c, s ++ quote :: rest) := by
        simp only [List.cons_append, List.nil_append, escape, if_true,
          numberedEscape_pair hk hm hlead htrail hc, bind, Except.bind]
      have hall := stringBytes_escape hescape (ih (n := n - 1) (by omega))
      rwa [Nat.sub_add_cancel (by omega)] at hall

/-- A string whose opening quote has been taken is read whatever its spelling. -/
theorem stringTail_spells (h : Spells s text) (rest : List UInt8) :
    stringTail (s ++ quote :: rest) = .ok (String.ofList text, rest) := by
  have hfuel : s.length < (s ++ quote :: rest).length := by
    rw [List.length_append, List.length_cons]
    omega
  rw [stringTail, stringBytes_spells h rest hfuel]
  simp only [bind, Except.bind, decode_encode]

/-- A plain text spells itself. -/
theorem spells_plain (h : Plain text) : Spells (ascii text) text := by
  induction text with
  | nil => exact .nil
  | cons c more ih =>
      obtain ⟨hcontrol, hhigh, hquote, hslash⟩ := h c List.mem_cons_self
      have hbytes : ascii (c :: more) = encodeChar c ++ ascii more := by
        simp only [encodeChar, if_pos hhigh, ascii_cons, List.singleton_append]
      rw [hbytes]
      exact .plain hcontrol hquote hslash (ih h.tail)

end Json

end RingOverlay
