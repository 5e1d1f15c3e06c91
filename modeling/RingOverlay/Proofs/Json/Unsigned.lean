import Mathlib.Data.List.Induction
import Mathlib.Data.List.TakeWhile
import RingOverlay.Proofs.Json.Arrangement

/-!
# What Is Read as an Unsigned Integer

An unsigned integer has one spelling: its digits, with no zero in front of another digit.
Where one is wanted, that spelling is all that is read, and only if the number fits. Every
other value is refused, be it of another type, a number with a sign, a point or an exponent,
or a number that there is no room for.

That a value is refused cannot be seen from what is written, as with a value that is read,
because there is no telling what was written. So the argument goes backwards here. If a
number has been read, the literal behind it had digits only (`literal_plain`), and digits
are the decimal of what they stand for (`decimal_digitsValue`). Whatever else may be
refused for, and where, does not matter.

## Main definitions

* `IntegerText`: The texts of an unsigned integer, and of what is none.

## Theorems

* `decimal_digitsValue`: Digits are the decimal of their value.
* `literal_plain`: A literal with digits only is the text it was read from.
* `refuses_unsigned`: What is not the decimal of a number that fits is refused.
* `meets_integerText`: An unsigned integer is read or refused by its text.
-/

namespace RingOverlay.Json

open Utf8

section Decimals

theorem toNat_bounds_of_isDigit {b : UInt8} (hb : isDigit b = true) :
    0x30 ≤ b.toNat ∧ b.toNat ≤ 0x39 := by
  simp only [isDigit, Bool.and_eq_true, decide_eq_true_eq, UInt8.le_iff_toNat_le] at hb
  exact hb

theorem ascii_digit {b : UInt8} (hb : isDigit b = true) :
    ascii (decimal (b.toNat - 0x30)) = [b] := by
  obtain ⟨hlow, hhigh⟩ := toNat_bounds_of_isDigit hb
  have hchar : (b.toNat - 0x30).digitChar.toNat = b.toNat := by
    rw [Nat.toNat_digitChar_of_lt_ten (by omega)]
    omega
  rw [decimal, Nat.toDigits_of_lt_base (by omega), ascii_cons, ascii_nil, hchar,
    UInt8.ofNat_toNat]

theorem digitsValue_concat (ds : List UInt8) (d : UInt8) :
    digitsValue (ds ++ [d]) = 10 * digitsValue ds + (d.toNat - 0x30) := by
  rw [digitsValue, List.foldl_append]
  rfl

/-- The decimal of a number is a value. -/
theorem phrase_decimal (n : Nat) : Phrase .value (ascii (decimal n)) := by
  have hzero : (ascii (decimal n)).head? = some zero → (ascii (decimal n)).length = 1 :=
    fun hhead => Nat.le_antisymm
      (Nat.le_of_not_lt fun hlong => not_zero_ascii_decimal n ⟨hhead, hlong⟩)
      (List.length_pos_of_ne_nil (ascii_decimal_ne_nil n))
  have hnumber : Number ([] ++ (ascii (decimal n) ++ ([] ++ []))) :=
    .mk (.inl rfl) ⟨ascii_decimal_ne_nil n, fun _ hb => isDigit_of_mem_ascii hb⟩ hzero .none .none
  rw [List.nil_append, List.append_nil, List.append_nil] at hnumber
  exact .number hnumber

/-- Digits are the decimal of their value, unless a zero stands in front of
    another digit. -/
theorem decimal_digitsValue {ds : List UInt8} (hds : Digits ds)
    (hzero : ds.head? = some zero → ds.length = 1) : ascii (decimal (digitsValue ds)) = ds := by
  obtain ⟨hne, hall⟩ := hds
  -- The last digit is the one that is divided off.
  induction ds using List.reverseRecOn with
  | nil => exact absurd rfl hne
  | append_singleton front d ih =>
      have hd : isDigit d = true := hall d (List.mem_append_right front List.mem_cons_self)
      rw [digitsValue_concat]
      by_cases hfront : front = []
      · subst hfront
        rw [digitsValue, List.foldl_nil, Nat.mul_zero, Nat.zero_add, ascii_digit hd,
          List.nil_append]
      · have hhead : front.head? ≠ some zero := by
          intro hhead
          have hlength := hzero (by rw [List.head?_append_of_ne_nil _ hfront, hhead])
          have := List.length_pos_of_ne_nil hfront
          rw [List.length_append, List.length_singleton] at hlength
          omega
        have hdecimal := ih (fun hzero => absurd hzero hhead) hfront
          fun b hb => hall b (List.mem_append_left [d] hb)
        have hpos : 0 < digitsValue front := by
          rw [Nat.pos_iff_ne_zero]
          intro hvalue
          rw [hvalue] at hdecimal
          exact hhead (hdecimal ▸ rfl)
        have hlast : d.toNat - 0x30 < 10 := by
          have := (toNat_bounds_of_isDigit hd).2
          omega
        have happend := Nat.toDigits_append_toDigits (by decide : 1 < 10) hpos hlast
        rw [decimal, ← happend, ascii_append]
        exact congrArg₂ (· ++ ·) hdecimal (ascii_digit hd)

end Decimals

section Literals

variable {early : Flaw} {s rest : List UInt8}

/-- Two readings in a row succeed only if both do. -/
theorem bind_eq_ok {α β : Type} {x : Except Flaw α} {f : α → Except Flaw β} {b : β}
    (h : x >>= f = .ok b) : ∃ a, x = .ok a ∧ f a = .ok b := by
  cases x with
  | error flaw => cases h
  | ok a => exact ⟨a, rfl, h⟩

theorem digits_ok {ds : List UInt8} (h : digits early s = .ok (ds, rest)) :
    s = ds ++ rest ∧ Digits ds := by
  have hs : s.takeWhile isDigit ++ s.dropWhile isDigit = s := List.takeWhile_append_dropWhile
  have hall : ∀ b ∈ s.takeWhile isDigit, isDigit b = true := fun b hb => List.mem_takeWhile_imp hb
  rw [digits] at h
  cases htake : s.takeWhile isDigit with
  | nil =>
      cases hdrop : s.dropWhile isDigit <;> rw [htake, hdrop] at h <;> cases h
  | cons d more =>
      rw [htake] at h hs hall
      cases h
      exact ⟨hs.symm, List.cons_ne_nil d more, hall⟩

theorem fractionPart_none (h : fractionPart early s = .ok (none, rest)) : s = rest := by
  cases s with
  | nil =>
      cases h
      rfl
  | cons b more =>
      rw [fractionPart] at h
      split_ifs at h with hpoint
      · obtain ⟨_, _, h⟩ := bind_eq_ok h
        cases h
      · cases h
        rfl

theorem exponentPart_none (h : exponentPart early s = .ok (none, rest)) : s = rest := by
  cases s with
  | nil =>
      cases h
      rfl
  | cons b more =>
      rw [exponentPart] at h
      split_ifs at h with hmark
      · obtain ⟨_, _, h⟩ := bind_eq_ok h
        cases h
      · cases h
        rfl

theorem literalSign_false {t : List UInt8} (h : literalSign s = (false, t)) : s = t := by
  cases s with
  | nil =>
      cases h
      rfl
  | cons b more =>
      rw [literalSign] at h
      split_ifs at h with hminus <;> cases h
      rfl

/-- A literal that is plain and has no sign is the text it was read from. -/
theorem literal_plain {l : Literal} (h : literal early s = .ok (l, rest))
    (hplain : l.isPlain = true) (hsign : l.negative = false) :
    s = l.whole ++ rest ∧ Digits l.whole ∧ (l.whole.head? = some zero → l.whole.length = 1) := by
  rw [literal] at h
  obtain ⟨negative, t, hsigned⟩ : ∃ negative t, literalSign s = (negative, t) := ⟨_, _, rfl⟩
  rw [hsigned] at h
  obtain ⟨⟨whole, u⟩, hwhole, h⟩ := bind_eq_ok h
  simp only at h
  split_ifs at h with hzero
  obtain ⟨⟨fraction, v⟩, hfraction, h⟩ := bind_eq_ok h
  obtain ⟨⟨exponent, w⟩, hexponent, h⟩ := bind_eq_ok h
  cases h
  simp only [Literal.isPlain, Bool.and_eq_true, Option.isNone_iff_eq_none] at hplain
  obtain ⟨rfl, rfl⟩ := hplain
  obtain rfl : negative = false := hsign
  obtain rfl := literalSign_false hsigned
  obtain rfl := exponentPart_none hexponent
  obtain rfl := fractionPart_none hfraction
  obtain ⟨hs, hdigits⟩ := digits_ok hwhole
  refine ⟨hs, hdigits, fun hhead => ?_⟩
  simp only [Bool.and_eq_true, decide_eq_true_eq, not_and] at hzero
  exact Nat.le_antisymm (Nat.le_of_not_lt (hzero hhead)) (List.length_pos_of_ne_nil hdigits.1)

/-- A number that is read as an unsigned integer is its decimal. -/
theorem number_of_numeral {text t : List UInt8} {n : Nat} (htext : Number text) (hrest : Ends rest)
    (h : numeral (text ++ rest) = .ok (some n, t)) : text = ascii (decimal n) := by
  obtain ⟨l, hl⟩ := literal_number .truncated htext hrest
  rw [numeral, hl] at h
  simp only [bind, Except.bind] at h
  cases hnatural : l.natural? with
  | none =>
      rw [hnatural] at h
      simp only at h
      split_ifs at h
      cases h
  | some m =>
      rw [hnatural] at h
      cases h
      simp only [Literal.natural?, Option.ite_none_right_eq_some, Bool.and_eq_true,
        Bool.not_eq_true', Option.some.injEq] at hnatural
      obtain ⟨⟨⟨hplain, hsign⟩, -⟩, rfl⟩ := hnatural
      obtain ⟨hwhole, hdigits, hzero⟩ := literal_plain hl hplain hsign
      rw [List.append_cancel_right hwhole, decimal_digitsValue hdigits hzero]

end Literals

section Values

variable {bits : Nat} {value : List UInt8}

theorem mismatch_error {α : Type} (b : UInt8) (s : List UInt8) :
    ∃ flaw, (mismatch b : Reader α) s = .error flaw := by
  -- What has been read before the complaint may be faulty itself.
  have hafter {β : Type} (x : Except Flaw β) :
      ∃ flaw, (x >>= fun _ => (.error .unfit : Except Flaw (α × List UInt8))) = .error flaw := by
    cases x <;> exact ⟨_, rfl⟩
  rw [mismatch]
  split_ifs
  · exact hafter (word nullTail s)
  · exact hafter (word trueTail s)
  · exact hafter (word falseTail s)
  · exact hafter (numeral (b :: s))
  · exact hafter (stringTail s)
  · exact ⟨.unfit, rfl⟩
  · exact ⟨.syntactic, rfl⟩

/-- Only a number begins with a sign or a digit. -/
theorem number_of_head {b : UInt8} {more : List UInt8} (h : Phrase .value (b :: more))
    (hb : (b = minus || isDigit b) = true) : Number (b :: more) := by
  generalize htext : b :: more = text at h
  cases h with
  | number hnumber => exact hnumber
  | null => cases htext; cases hb
  | true => cases htext; cases hb
  | false => cases htext; cases hb
  | string => cases htext; cases hb
  | array => cases htext; cases hb
  | object => cases htext; cases hb

/-- What is not the decimal of a number that fits is refused. -/
theorem refuses_unsigned (hvalue : Phrase .value value)
    (hother : ∀ n < 2 ^ bits, value ≠ ascii (decimal n)) : Refuses (unsigned bits) value := by
  intro bs rest hbs hrest
  obtain ⟨b, more, rfl, hblank, -⟩ := value_head hvalue
  rw [List.cons_append, unsigned, token_blanks hbs hblank]
  simp only [bind, Except.bind]
  split_ifs with hb
  · cases hread : numeral (b :: (more ++ rest)) with
    | error flaw => exact ⟨flaw, rfl⟩
    | ok p =>
        obtain ⟨_ | n, t⟩ := p
        · exact ⟨.unfit, rfl⟩
        · have hdecimal := number_of_numeral (number_of_head hvalue hb) hrest hread
          have hlarge : ¬ n < Nat.pow 2 bits := fun hn => hother n hn hdecimal
          exact ⟨.unfit, if_neg hlarge⟩
  · exact mismatch_error b _

/-- The texts of an unsigned integer for which there is room, and with a flaw
    all other values. -/
def IntegerText (bits n : Nat) (flawed : Bool) (value : List UInt8) : Prop :=
  if flawed then Phrase .value value ∧ ∀ m < 2 ^ bits, value ≠ ascii (decimal m)
  else n < 2 ^ bits ∧ value = ascii (decimal n)

/-- An unsigned integer is read if it fits, and refused if its text is that of
    no integer that does. -/
theorem meets_integerText {n : Nat} {flawed : Bool} (hbits : bits ≤ 64)
    (h : IntegerText bits n flawed value) :
    Meets (unsigned bits) value (if flawed then none else some n) := by
  cases flawed with
  | true => exact refuses_unsigned h.1 h.2
  | false =>
      obtain ⟨hn, rfl⟩ := h
      exact takes_unsigned hbits hn

end Values

end RingOverlay.Json
