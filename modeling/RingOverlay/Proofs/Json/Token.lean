import RingOverlay.Json.Record
import RingOverlay.Proofs.Wire.Decimal
import RingOverlay.Wire.Written

/-!
# Written Tokens Are Read Back

What is written is ASCII, a byte for each character, and every token of it is read
back wherever it stands. A string ends at its own quote, so nothing depends on what
comes behind it. A number does not say where it ends: it takes all that could still
belong to it, and so what comes behind must not.

`Reads` says of a reader that it takes a written value from the front of a text and
leaves the rest untouched. It asks for a rest that ends a number, whether the value is
a number or not, so that all values can be put together alike.

## Main definitions

* `Json.Ends`: A rest that could not belong to a number.
* `Json.Reads`: A reader takes a written value and no more.
* `Json.Plain`: Characters that stand for themselves between quotes.

## Theorems

* `Utf8.decode_ascii`: ASCII is UTF-8.
* `stringTail_plain`: A plain text between quotes.
* `literal_digits`: A run of digits in front of what cannot belong to it.
* `reads_unsigned`, `reads_boolean`, `reads_stringAs`: The simple values.
-/

namespace RingOverlay

namespace Utf8

@[simp] theorem ascii_nil : ascii [] = [] := rfl

@[simp] theorem ascii_cons (c : Char) (text : List Char) :
    ascii (c :: text) = UInt8.ofNat c.toNat :: ascii text := rfl

@[simp] theorem ascii_append (a b : List Char) : ascii (a ++ b) = ascii a ++ ascii b :=
  List.map_append

@[simp] theorem length_ascii (text : List Char) : (ascii text).length = text.length :=
  List.length_map _

theorem toNat_byte {c : Char} (h : c.toNat < 0x80) : (UInt8.ofNat c.toNat).toNat = c.toNat := by
  rw [UInt8.toNat_ofNat']
  omega

/-- ASCII is UTF-8. -/
theorem decode_ascii {text : List Char} (h : ∀ c ∈ text, c.toNat < 0x80) :
    decode (ascii text) = some text := by
  induction text with
  | nil => rfl
  | cons c more ih =>
      have hc := h c List.mem_cons_self
      have hbyte : UInt8.ofNat c.toNat < 0x80 := by
        rw [UInt8.lt_iff_toNat_lt, toNat_byte hc]
        exact hc
      rw [ascii_cons, decode.eq_def]
      simp only [if_pos hbyte, ih fun d hd => h d (List.mem_cons_of_mem c hd), toNat_byte hc,
        Char.ofNat_toNat, Option.map_some]

end Utf8

namespace Json

open Utf8

/-- Whether a byte could belong to a number that has begun. -/
def continues (b : UInt8) : Bool := isDigit b || b == point || b == 0x65 || b == 0x45

/-- A rest that could not belong to a number. -/
def Ends (rest : List UInt8) : Prop := ∀ b ∈ rest.head?, continues b = false

theorem ends_nil : Ends [] := fun _ hb => by cases hb

theorem ends_cons {b : UInt8} (h : continues b = false) (rest : List UInt8) : Ends (b :: rest) := by
  intro c hc
  cases hc
  exact h

/-- A reader takes a written value from the front of a text, and no more than that. -/
def Reads {α : Type} (r : Reader α) (text : List Char) (a : α) : Prop :=
  ∀ rest, Ends rest → r (ascii text ++ rest) = .ok (a, rest)

section Blanks

variable {b : UInt8} {rest : List UInt8}

theorem skipBlank_cons (h : isBlank b = false) : skipBlank (b :: rest) = b :: rest := by
  rw [skipBlank, List.dropWhile_cons_of_neg (by simp [h])]

theorem token_cons (h : isBlank b = false) : token (b :: rest) = .ok (b, rest) := by
  rw [token, skipBlank_cons h]

theorem expectToken_cons (h : isBlank b = false) : expectToken b (b :: rest) = .ok ((), rest) := by
  rw [expectToken, skipBlank_cons h, expect, word, if_pos rfl]
  rfl

end Blanks

section Strings

/-- Characters that stand for themselves between quotes. -/
def Plain (text : List Char) : Prop :=
  ∀ c ∈ text, 0x20 ≤ c.toNat ∧ c.toNat < 0x80 ∧ c ≠ '"' ∧ c ≠ '\\'

-- Over the characters of the text, and not over all that there are.
instance (text : List Char) : Decidable (Plain text) := List.decidableBAll _ text

theorem Plain.tail {c : Char} {text : List Char} (h : Plain (c :: text)) : Plain text :=
  fun d hd => h d (List.mem_cons_of_mem c hd)

-- Two ASCII characters are the same if their bytes are.
theorem byte_ne {c : Char} (hc : c.toNat < 0x80) {d : Char} (hd : d.toNat < 0x80) (h : c ≠ d) :
    UInt8.ofNat c.toNat ≠ UInt8.ofNat d.toNat := by
  intro heq
  have hnat := congrArg UInt8.toNat heq
  rw [toNat_byte hc, toNat_byte hd] at hnat
  exact h (Char.toNat_inj.mp hnat)

theorem stringBytes_plain {text : List Char} (h : Plain text) (rest : List UInt8) {n : Nat}
    (hn : text.length < n) :
    stringBytes n (ascii text ++ quote :: rest) = .ok (ascii text, rest) := by
  induction text generalizing n with
  | nil =>
      cases n with
      | zero => exact absurd hn (Nat.not_lt_zero _)
      | succ n => rfl
  | cons c more ih =>
      cases n with
      | zero => exact absurd hn (Nat.not_lt_zero _)
      | succ n =>
          rcases h c List.mem_cons_self with ⟨hlow, hhigh, hquote, hslash⟩
          have hq : UInt8.ofNat c.toNat ≠ quote := byte_ne hhigh (by decide) hquote
          have hs : UInt8.ofNat c.toNat ≠ backslash := byte_ne hhigh (by decide) hslash
          have hcontrol : ¬ UInt8.ofNat c.toNat < 0x20 := by
            rw [UInt8.lt_iff_toNat_lt, toNat_byte hhigh]
            exact Nat.not_lt_of_le hlow
          rw [ascii_cons, List.cons_append, stringBytes, if_neg hq, if_neg hs, if_neg hcontrol,
            ih h.tail (Nat.lt_of_succ_lt_succ hn)]
          rfl

/-- A plain text whose opening quote has been taken is read up to the closing one. -/
theorem stringTail_plain {text : List Char} (h : Plain text) (rest : List UInt8) :
    stringTail (ascii text ++ quote :: rest) = .ok (String.ofList text, rest) := by
  have hfuel : text.length < (ascii text ++ quote :: rest).length := by
    simp only [List.length_append, length_ascii, List.length_cons]
    omega
  have htext : decode (ascii text) = some text := decode_ascii fun c hc => (h c hc).2.1
  rw [stringTail, stringBytes_plain h rest hfuel]
  simp only [bind, Except.bind, htext]

theorem stringAs_plain {α : Type} {parse? : String → Option α} {text : List Char} {a : α}
    (h : Plain text) (hparse : parse? (String.ofList text) = some a) (rest : List UInt8) :
    stringAs parse? (ascii ('"' :: text ++ ['"']) ++ rest) = .ok (a, rest) := by
  have hstring :
      string (ascii ('"' :: text ++ ['"']) ++ rest) = .ok (String.ofList text, rest) := by
    simp only [List.cons_append, ascii_cons, ascii_append, ascii_nil, List.append_assoc,
      List.nil_append]
    exact stringTail_plain h rest
  rw [stringAs, hstring]
  simp only [bind, Except.bind, hparse]

theorem reads_stringAs {α : Type} {parse? : String → Option α} {text : List Char} {a : α}
    (h : Plain text) (hparse : parse? (String.ofList text) = some a) :
    Reads (stringAs parse?) ('"' :: text ++ ['"']) a :=
  fun rest _ => stringAs_plain h hparse rest

end Strings

section Numbers

variable {ds rest : List UInt8} {early : Flaw}

theorem digits_append (hds : ∀ b ∈ ds, isDigit b = true) (hne : ds ≠ [])
    (hstop : ∀ b ∈ rest.head?, isDigit b = false) : digits early (ds ++ rest) = .ok (ds, rest) := by
  have htake : rest.takeWhile isDigit = [] := by
    cases rest with
    | nil => rfl
    | cons b more => rw [List.takeWhile_cons_of_neg (by simp [hstop b rfl])]
  have hdrop : rest.dropWhile isDigit = rest := by
    cases rest with
    | nil => rfl
    | cons b more => rw [List.dropWhile_cons_of_neg (by simp [hstop b rfl])]
  rw [digits, List.takeWhile_append_of_pos hds, List.dropWhile_append_of_pos hds, htake, hdrop,
    List.append_nil]
  cases ds with
  | nil => exact absurd rfl hne
  | cons d more => rfl

theorem Ends.not_isDigit (h : Ends rest) : ∀ b ∈ rest.head?, isDigit b = false := by
  intro b hb
  have hb := h b hb
  simp only [continues, Bool.or_eq_false_iff] at hb
  exact hb.1.1.1

theorem fractionPart_ends (hrest : Ends rest) : fractionPart early rest = .ok (none, rest) := by
  cases rest with
  | nil => rfl
  | cons b more =>
      have h := hrest b rfl
      simp only [continues, Bool.or_eq_false_iff, beq_eq_false_iff_ne] at h
      rw [fractionPart, if_neg h.1.1.2]

theorem exponentPart_ends (hrest : Ends rest) : exponentPart early rest = .ok (none, rest) := by
  cases rest with
  | nil => rfl
  | cons b more =>
      have h := hrest b rfl
      simp only [continues, Bool.or_eq_false_iff, beq_eq_false_iff_ne] at h
      rw [exponentPart, if_neg (by simp [h.1.2, h.2])]

/-- A run of digits is the whole number if what follows cannot belong to it. -/
theorem literal_digits (hds : ∀ b ∈ ds, isDigit b = true) (hne : ds ≠ [])
    (hzero : ¬ (ds.head? = some zero ∧ 1 < ds.length)) (hrest : Ends rest) :
    literal early (ds ++ rest) = .ok (⟨false, ds, none, none⟩, rest) := by
  have hsign : literalSign (ds ++ rest) = (false, ds ++ rest) := by
    cases ds with
    | nil => exact absurd rfl hne
    | cons d more =>
        have hd : d ≠ minus := by
          rintro rfl
          exact absurd (hds minus List.mem_cons_self) (by decide)
        rw [List.cons_append, literalSign, if_neg hd]
  rw [literal, hsign]
  simp only [digits_append hds hne hrest.not_isDigit, bind, Except.bind]
  rw [if_neg (by simpa using hzero), fractionPart_ends hrest]
  simp only [exponentPart_ends hrest]

theorem toNat_lt_of_isDigit {c : Char} (h : c.isDigit = true) : c.toNat < 0x80 :=
  Nat.lt_of_le_of_lt (Char.isDigit_iff_toNat.mp h).2 (by decide)

/-- The bytes of a decimal stand for its number. -/
theorem digitsValue_decimal (n : Nat) : digitsValue (ascii (decimal n)) = n := by
  have hfold {text : List Char} (h : ∀ c ∈ text, c.toNat < 0x80) (k : Nat) :
      (ascii text).foldl (fun n d => 10 * n + (d.toNat - 0x30)) k =
        text.foldl (fun n c => 10 * n + (c.toNat - '0'.toNat)) k := by
    induction text generalizing k with
    | nil => rfl
    | cons c more ih =>
        rw [ascii_cons, List.foldl_cons, List.foldl_cons, toNat_byte (h c List.mem_cons_self)]
        exact ih (fun d hd => h d (List.mem_cons_of_mem c hd)) _
  have hascii : ∀ c ∈ decimal n, c.toNat < 0x80 :=
    fun c hc => toNat_lt_of_isDigit (isDigit_of_mem_decimal hc)
  exact (hfold hascii 0).trans (decimalValue_decimal n)

theorem isDigit_byte {c : Char} (h : c.isDigit = true) : isDigit (UInt8.ofNat c.toNat) = true := by
  rcases Char.isDigit_iff_toNat.mp h with ⟨hlow, hhigh⟩
  simp only [isDigit, Bool.and_eq_true, decide_eq_true_eq, UInt8.le_iff_toNat_le,
    toNat_byte (toNat_lt_of_isDigit h)]
  exact ⟨hlow, hhigh⟩

theorem not_isBlank_of_isDigit {b : UInt8} (h : isDigit b = true) : isBlank b = false := by
  simp only [isDigit, Bool.and_eq_true, decide_eq_true_eq] at h
  simp only [isBlank, Bool.or_eq_false_iff, beq_eq_false_iff_ne]
  refine ⟨⟨⟨?_, ?_⟩, ?_⟩, ?_⟩ <;> rintro rfl <;> exact absurd h.1 (by decide)

theorem isDigit_of_mem_ascii {n : Nat} {b : UInt8} (h : b ∈ ascii (decimal n)) :
    isDigit b = true := by
  rcases List.mem_map.mp h with ⟨c, hc, rfl⟩
  exact isDigit_byte (isDigit_of_mem_decimal hc)

theorem ascii_decimal_ne_nil (n : Nat) : ascii (decimal n) ≠ [] :=
  fun heq => decimal_ne_nil n (List.map_eq_nil_iff.mp heq)

-- A zero in front is the whole decimal.
theorem not_zero_ascii_decimal (n : Nat) :
    ¬ ((ascii (decimal n)).head? = some zero ∧ 1 < (ascii (decimal n)).length) := by
  rintro ⟨hhead, hlong⟩
  rcases Nat.eq_zero_or_pos n with rfl | hpos
  · exact absurd hlong (by decide)
  · cases hdecimal : decimal n with
    | nil => exact decimal_ne_nil n hdecimal
    | cons c more =>
        have hc : c.toNat < 0x80 :=
          toNat_lt_of_isDigit (isDigit_of_mem_decimal (hdecimal ▸ List.mem_cons_self))
        have hne : c ≠ '0' := by
          rintro rfl
          exact head_decimal_ne_zero hpos (by rw [hdecimal]; rfl)
        rw [hdecimal, ascii_cons, List.head?_cons, Option.some.injEq] at hhead
        exact byte_ne hc (by decide) hne hhead

theorem numeral_decimal {n : Nat} (h : n < 2 ^ 64) (hrest : Ends rest) :
    numeral (ascii (decimal n) ++ rest) = .ok (some n, rest) := by
  have hnatural : Literal.natural? ⟨false, ascii (decimal n), none, none⟩ = some n := by
    simp only [Literal.natural?, Literal.isPlain, digitsValue_decimal, Option.isNone_none,
      Bool.not_false, Bool.and_self, Bool.true_and, decide_eq_true_eq]
    exact if_pos h
  rw [numeral, literal_digits (fun _ hb => isDigit_of_mem_ascii hb) (ascii_decimal_ne_nil n)
    (not_zero_ascii_decimal n) hrest]
  simp only [bind, Except.bind, hnatural]

/-- An unsigned integer is read back if it fits. -/
theorem reads_unsigned {bits n : Nat} (hbits : bits ≤ 64) (h : n < 2 ^ bits) :
    Reads (unsigned bits) (decimal n) n := by
  intro rest hrest
  have hnumeral : numeral (ascii (decimal n) ++ rest) = .ok (some n, rest) :=
    numeral_decimal (Nat.lt_of_lt_of_le h (Nat.pow_le_pow_right (by decide) hbits)) hrest
  cases htext : ascii (decimal n) with
  | nil => exact absurd htext (ascii_decimal_ne_nil n)
  | cons d more =>
      have hd : isDigit d = true := isDigit_of_mem_ascii (htext ▸ List.mem_cons_self)
      have hblank : isBlank d = false := not_isBlank_of_isDigit hd
      rw [htext, List.cons_append] at hnumeral
      rw [List.cons_append, unsigned, token_cons hblank]
      simp only [bind, Except.bind, hd, Bool.or_true, if_true, hnumeral]
      exact if_pos h

end Numbers

theorem reads_boolean (b : Bool) : Reads boolean (Wire.truth b) b := by
  intro rest _
  cases b <;> rfl

end Json

end RingOverlay
