import Mathlib.Data.List.Basic
import Mathlib.Data.Nat.Digits.Defs
import RingOverlay.Endpoint

/-!
# Decimals and Dotted Quads

A number has one shortest decimal form, and reading that form gives the number
back. Two readers depend on it. The octets of a host are read by a reader that
refuses any other form, so the form written must be the shortest one: it may not
begin with a zero unless it is a zero. And a host is cut at its points before its
octets are read, so no octet may contain one.

## Theorems

* `decimalValue_decimal`: A decimal stands for the number it was written for.
* `head_decimal_ne_zero`: It does not begin with a zero.
* `length_decimal_le`: How long it may be.
* `shortDecimal?_decimal`: The strict reader accepts it.
* `pieces_cons`, `pieces_last`: A text is cut where its parts were joined.
* `Host.parse?_spelling`: A dotted quad is read back as its host.
-/

namespace RingOverlay

theorem decimalValue_decimal (n : Nat) : decimalValue (decimal n) = n :=
  Nat.ofDigitChars_toDigits (by decide) (by decide)

theorem isDigit_of_mem_decimal {n : Nat} {c : Char} (h : c ∈ decimal n) : c.isDigit = true :=
  Nat.isDigit_of_mem_toDigits (by decide) (by decide) h

theorem decimal_ne_nil (n : Nat) : decimal n ≠ [] := Nat.toDigits_ne_nil

/-- A number below a power of ten has no more digits than the exponent says. -/
theorem length_decimal_le {n k : Nat} (hk : 0 < k) (h : n < 10 ^ k) : (decimal n).length ≤ k :=
  (Nat.length_toDigits_le_iff (by decide) hk).mpr h

/-- Only zero is written with a zero in front. -/
theorem head_decimal_ne_zero {n : Nat} (h : 0 < n) : (decimal n).head? ≠ some '0' := by
  induction n using Nat.strongRecOn with
  | ind n ih =>
      rw [decimal, Nat.toDigits_eq_if (by decide)]
      split_ifs with hsmall
      · have hdigit : ∀ d < 10, 0 < d → [Nat.digitChar d].head? ≠ some '0' := by decide
        exact hdigit n hsmall h
      · -- The first digit is that of the number without its last one.
        have hhead := ih (n / 10) (by omega) (by omega)
        rwa [List.head?_append_of_ne_nil _ Nat.toDigits_ne_nil]

/-- The strict reader accepts the shortest form, if there is room for it. -/
theorem shortDecimal?_decimal {width limit n : Nat} (hwidth : 0 < width) (hroom : n < 10 ^ width)
    (hlimit : n ≤ limit) : shortDecimal? width limit (decimal n) = some n := by
  have hlength : ¬ width < (decimal n).length := Nat.not_lt_of_le (length_decimal_le hwidth hroom)
  have hdigits : (decimal n).all Char.isDigit = true :=
    List.all_eq_true.mpr fun _ hc => isDigit_of_mem_decimal hc
  have hzero : ¬ ((decimal n).head? = some '0' ∧ 1 < (decimal n).length) := by
    rintro ⟨hhead, hlong⟩
    rcases Nat.eq_zero_or_pos n with rfl | hpos
    · exact absurd hlong (by decide)
    · exact head_decimal_ne_zero hpos hhead
  rw [shortDecimal?, if_neg (by simp [decimal_ne_nil, hlength, hdigits]),
    if_neg (by simpa using hzero)]
  simp only [decimalValue_decimal, if_pos hlimit]

section Pieces

variable {separator : Char}

/-- The first part of a text ends at the first separator. -/
theorem pieces_cons {piece : List Char} (h : separator ∉ piece) (rest : List Char) :
    pieces separator (piece ++ separator :: rest) = piece :: pieces separator rest := by
  induction piece with
  | nil => simp only [List.nil_append, pieces, if_true]
  | cons c more ih =>
      have hc : c ≠ separator := fun heq => h (heq ▸ List.mem_cons_self)
      have hmore : separator ∉ more := fun hm => h (List.mem_cons_of_mem c hm)
      rw [List.cons_append, pieces, if_neg hc, ih hmore]

/-- Without a separator there is one part. -/
theorem pieces_last {piece : List Char} (h : separator ∉ piece) :
    pieces separator piece = [piece] := by
  induction piece with
  | nil => rfl
  | cons c more ih =>
      have hc : c ≠ separator := fun heq => h (heq ▸ List.mem_cons_self)
      have hmore : separator ∉ more := fun hm => h (List.mem_cons_of_mem c hm)
      rw [pieces, if_neg hc, ih hmore]

theorem separator_notMem_decimal {c : Char} (h : c.isDigit = false) (n : Nat) : c ∉ decimal n := by
  intro hmem
  rw [isDigit_of_mem_decimal hmem] at h
  cases h

end Pieces

namespace Host

theorem octet?_decimal (b : UInt8) : octet? (decimal b.toNat) = some b := by
  have hb : b.toNat < 256 := b.toNat_lt
  rw [octet?, shortDecimal?_decimal (by decide) (by omega) (by omega), Option.map_some,
    UInt8.ofNat_toNat]

/-- A dotted quad is read back as its host. -/
theorem parse?_spelling (h : Host) : parse? h.spelling = some h := by
  have hpoint (b : UInt8) : '.' ∉ decimal b.toNat := separator_notMem_decimal (by decide) _
  have hcut : pieces '.' h.spelling =
      [decimal h.first.toNat, decimal h.second.toNat, decimal h.third.toNat,
        decimal h.fourth.toNat] := by
    simp only [spelling, List.append_assoc, List.cons_append]
    rw [pieces_cons (hpoint _), pieces_cons (hpoint _), pieces_cons (hpoint _),
      pieces_last (hpoint _)]
  rw [parse?, hcut]
  simp only [octet?_decimal]
  rfl

end Host

end RingOverlay
