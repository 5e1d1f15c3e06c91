import RingOverlay.Proofs.Json.Token

/-!
# Any Value Is Passed Over

A value that nobody wants is passed over without being built, and for that it
has to be found where it ends. Here the notation is given by a grammar that
knows nothing of readers, and the walk over a value is shown to end behind
whatever the grammar derives, with nothing taken from what follows.

The grammar allows blanks wherever the notation does, any number with or
without fraction and exponent, and any string whose escapes look right. An
array or an object may be nested to any depth.

The walk keeps the open brackets in a list and does not return when one of them
closes, so no statement about a single call describes it. What is shown instead
is that a phrase takes the walk from one point to another in a number of rounds
that the length of the phrase bounds (`passed_of_phrase`); rounds add up, and
the fuel that the walk starts with is enough for all of them.

## Main definitions

* `Blanks`, `Lead`: What stands between tokens, and in front of an item.
* `Number`, `Quoted`: Numbers, and what stands between quotes.
* `memberThen`: A member in front of what follows it.
* `Phrase`: Values, and what is left of an array or an object.
* `Passed`: A phrase takes the walk over a value from one point to another.

## Theorems

* `literal_number`: A number is read to its end.
* `skipStringTail_quoted`: A string is passed over.
* `passed_of_phrase`: So is every phrase.
* `skipValue_phrase`: A value is passed over, and no more than that.
-/

namespace RingOverlay.Json

/-- Bytes that may stand between two tokens. -/
def Blanks (bs : List UInt8) : Prop := ∀ b ∈ bs, isBlank b = true

/-- What stands in front of an item or a member: a comma, if it is not the
    first one. -/
inductive Lead : Bool → List UInt8 → Prop where
  | first : Lead true []
  | later {bs : List UInt8} (hbs : Blanks bs) : Lead false (bs ++ [comma])

/-- One digit or more. -/
def Digits (ds : List UInt8) : Prop := ds ≠ [] ∧ ∀ b ∈ ds, isDigit b = true

/-- The fraction of a number, if there is one. -/
inductive Fraction : List UInt8 → Prop where
  | none : Fraction []
  | some {ds : List UInt8} (hds : Digits ds) : Fraction (point :: ds)

/-- The exponent of a number, if there is one. -/
inductive Exponent : List UInt8 → Prop where
  | none : Exponent []
  | some {e : UInt8} {sign ds : List UInt8} (he : e = 0x65 ∨ e = 0x45)
      (hsign : sign = [] ∨ sign = [plus] ∨ sign = [minus]) (hds : Digits ds) :
      Exponent (e :: (sign ++ ds))

/-- A number. A zero in front is the whole of its whole part. -/
inductive Number : List UInt8 → Prop where
  | mk {sign whole fraction exponent : List UInt8} (hsign : sign = [] ∨ sign = [minus])
      (hwhole : Digits whole) (hzero : whole.head? = some zero → whole.length = 1)
      (hfraction : Fraction fraction) (hexponent : Exponent exponent) :
      Number (sign ++ (whole ++ (fraction ++ exponent)))

/-- What stands between the quotes of a string: bytes that stand for
    themselves, short escapes, and escapes with four hexadecimal digits. -/
inductive Quoted : List UInt8 → Prop where
  | nil : Quoted []
  | plain {b : UInt8} {more : List UInt8} (hcontrol : ¬ b < 0x20) (hquote : b ≠ quote)
      (hslash : b ≠ backslash) (hmore : Quoted more) : Quoted (b :: more)
  | short {b : UInt8} {more : List UInt8} (hb : (shortEscape? b).isSome = true)
      (hmore : Quoted more) : Quoted (backslash :: b :: more)
  | numbered {a b c d : UInt8} {more : List UInt8} (ha : (hexValue? a).isSome = true)
      (hb : (hexValue? b).isSome = true) (hc : (hexValue? c).isSome = true)
      (hd : (hexValue? d).isSome = true) (hmore : Quoted more) :
      Quoted (backslash :: numberedMark :: a :: b :: c :: d :: more)

/-- A member in front of what follows it: its name between quotes, a colon and
    its value, with what stands in front of each. -/
def memberThen (lead bs name cs ds value more : List UInt8) : List UInt8 :=
  lead ++ (bs ++ (quote :: (name ++ (quote :: (cs ++ (colon :: (ds ++ (value ++ more))))))))

/-- The parts of the notation. Of an array or an object it is the part up to
    and with its closing bracket, and `first` says that no item or member has
    come yet. -/
inductive Part where
  | value
  | items (first : Bool)
  | members (first : Bool)

/-- What may be written for a part of the notation. -/
inductive Phrase : Part → List UInt8 → Prop where
  | null : Phrase .value (0x6e :: nullTail)
  | true : Phrase .value (0x74 :: trueTail)
  | false : Phrase .value (0x66 :: falseTail)
  | number {text : List UInt8} (h : Number text) : Phrase .value text
  | string {text : List UInt8} (h : Quoted text) : Phrase .value (quote :: (text ++ [quote]))
  | array {text : List UInt8} (h : Phrase (.items Bool.true) text) :
      Phrase .value (openBracket :: text)
  | object {text : List UInt8} (h : Phrase (.members Bool.true) text) :
      Phrase .value (openBrace :: text)
  | endItems {first : Bool} {bs : List UInt8} (hbs : Blanks bs) :
      Phrase (.items first) (bs ++ [closeBracket])
  | item {first : Bool} {lead bs value more : List UInt8} (hlead : Lead first lead)
      (hbs : Blanks bs) (hvalue : Phrase .value value) (hmore : Phrase (.items Bool.false) more) :
      Phrase (.items first) (lead ++ (bs ++ (value ++ more)))
  | endMembers {first : Bool} {bs : List UInt8} (hbs : Blanks bs) :
      Phrase (.members first) (bs ++ [closeBrace])
  | member {first : Bool} {lead bs name cs ds value more : List UInt8} (hlead : Lead first lead)
      (hbs : Blanks bs) (hname : Quoted name) (hcs : Blanks cs) (hds : Blanks ds)
      (hvalue : Phrase .value value) (hmore : Phrase (.members Bool.false) more) :
      Phrase (.members first) (memberThen lead bs name cs ds value more)

section Blanks

variable {bs s : List UInt8}

theorem blanks_nil : Blanks [] := fun _ hb => absurd hb List.not_mem_nil

theorem skipBlank_append (h : Blanks bs) (s : List UInt8) : skipBlank (bs ++ s) = skipBlank s :=
  List.dropWhile_append_of_pos h

theorem token_append (h : Blanks bs) (s : List UInt8) : token (bs ++ s) = token s := by
  rw [token, skipBlank_append h, token]

theorem expectToken_append (h : Blanks bs) (b : UInt8) (s : List UInt8) :
    expectToken b (bs ++ s) = expectToken b s := by
  rw [expectToken, skipBlank_append h, expectToken]

/-- The next token, from behind blanks. -/
theorem token_blanks (h : Blanks bs) {b : UInt8} (hb : isBlank b = false) (s : List UInt8) :
    token (bs ++ b :: s) = .ok (b, s) := by
  rw [token_append h, token_cons hb]

theorem expectToken_blanks (h : Blanks bs) {b : UInt8} (hb : isBlank b = false) (s : List UInt8) :
    expectToken b (bs ++ b :: s) = .ok ((), s) := by
  rw [expectToken_append h, expectToken_cons hb]

theorem not_continues_of_isBlank {b : UInt8} (h : isBlank b = true) : continues b = false := by
  simp only [isBlank, Bool.or_eq_true, beq_iff_eq] at h
  rcases h with ((rfl | rfl) | rfl) | rfl <;> rfl

/-- Blanks end a number, as does what may come behind them. -/
theorem ends_append (h : Blanks bs) (hs : Ends s) : Ends (bs ++ s) := by
  cases bs with
  | nil => exact hs
  | cons b more => exact ends_cons (not_continues_of_isBlank (h b List.mem_cons_self)) _

end Blanks

section Numbers

variable {text rest : List UInt8}

theorem exponentPart_exponent (early : Flaw) (h : Exponent text) (hrest : Ends rest) :
    ∃ x, exponentPart early (text ++ rest) = .ok (x, rest) := by
  cases h with
  | none => exact ⟨none, exponentPart_ends hrest⟩
  | @some e sign ds he hsign hds =>
      have hmark : (e = 0x65 || e = 0x45) = true := by
        rcases he with rfl | rfl <;> rfl
      have hdigits : digits early (ds ++ rest) = .ok (ds, rest) :=
        digits_append hds.2 hds.1 hrest.not_isDigit
      have hsigned : ∃ negative, exponentSign (sign ++ (ds ++ rest)) = (negative, ds ++ rest) := by
        rcases hsign with rfl | rfl | rfl
        · rcases hds with ⟨hne, hall⟩
          cases ds with
          | nil => exact absurd rfl hne
          | cons d more =>
              have hd := hall d List.mem_cons_self
              have hplus : d ≠ plus := by
                rintro rfl
                exact absurd hd (by decide)
              have hminus : d ≠ minus := by
                rintro rfl
                exact absurd hd (by decide)
              exact ⟨false, by
                rw [List.nil_append, List.cons_append, exponentSign, if_neg hplus, if_neg hminus]⟩
        · exact ⟨false, rfl⟩
        · exact ⟨true, rfl⟩
      obtain ⟨negative, hsigned⟩ := hsigned
      refine ⟨some (negative, ds), ?_⟩
      rw [List.cons_append, List.append_assoc, exponentPart, if_pos hmark, hsigned]
      simp only [hdigits, bind, Except.bind]

-- Neither an exponent nor the end of a number goes on with a digit or a point.
theorem exponent_head (h : Exponent text) (hrest : Ends rest) :
    ∀ b ∈ (text ++ rest).head?, isDigit b = false ∧ b ≠ point := by
  intro b hb
  cases h with
  | none =>
      have hb := hrest b hb
      simp only [continues, Bool.or_eq_false_iff, beq_eq_false_iff_ne] at hb
      exact ⟨hb.1.1.1, hb.1.1.2⟩
  | some he =>
      cases hb
      rcases he with rfl | rfl <;> exact ⟨by decide, by decide⟩

theorem fractionPart_fraction (early : Flaw) (h : Fraction text)
    (hrest : ∀ b ∈ rest.head?, isDigit b = false ∧ b ≠ point) :
    ∃ x, fractionPart early (text ++ rest) = .ok (x, rest) := by
  cases h with
  | none =>
      refine ⟨none, ?_⟩
      cases rest with
      | nil => rfl
      | cons b more => rw [List.nil_append, fractionPart, if_neg (hrest b rfl).2]
  | @some ds hds =>
      refine ⟨some ds, ?_⟩
      rw [List.cons_append, fractionPart, if_pos rfl,
        digits_append hds.2 hds.1 fun b hb => (hrest b hb).1]
      rfl

theorem fraction_head (h : Fraction text)
    (hrest : ∀ b ∈ rest.head?, isDigit b = false ∧ b ≠ point) :
    ∀ b ∈ (text ++ rest).head?, isDigit b = false := by
  intro b hb
  cases h with
  | none => exact (hrest b hb).1
  | some => cases hb; decide

/-- A number is read to its end. -/
theorem literal_number (early : Flaw) (h : Number text) (hrest : Ends rest) :
    ∃ l, literal early (text ++ rest) = .ok (l, rest) := by
  cases h with
  | @mk sign whole fraction exponent hsign hwhole hzero hfraction hexponent =>
      have hafter := exponent_head hexponent hrest
      obtain ⟨e, he⟩ := exponentPart_exponent early hexponent hrest
      obtain ⟨f, hf⟩ := fractionPart_fraction early hfraction hafter
      have hw : digits early (whole ++ (fraction ++ (exponent ++ rest))) =
          .ok (whole, fraction ++ (exponent ++ rest)) :=
        digits_append hwhole.2 hwhole.1 (fraction_head hfraction hafter)
      have hsigned : ∃ negative, ∀ s,
          literalSign (sign ++ (whole ++ s)) = (negative, whole ++ s) := by
        rcases hsign with rfl | rfl
        · refine ⟨false, fun s => ?_⟩
          rcases hwhole with ⟨hne, hall⟩
          cases whole with
          | nil => exact absurd rfl hne
          | cons d more =>
              have hd : d ≠ minus := by
                rintro rfl
                exact absurd (hall minus List.mem_cons_self) (by decide)
              rw [List.nil_append, List.cons_append, literalSign, if_neg hd]
        · exact ⟨true, fun _ => rfl⟩
      obtain ⟨negative, hsigned⟩ := hsigned
      have hlead : ¬ (whole.head? = some zero && whole.length > 1) = true := by
        simp only [Bool.and_eq_true, decide_eq_true_eq, not_and]
        intro hz
        have := hzero hz
        omega
      refine ⟨⟨negative, whole, f, e⟩, ?_⟩
      rw [List.append_assoc, List.append_assoc, List.append_assoc, literal, hsigned]
      simp only [hw, bind, Except.bind]
      rw [if_neg hlead, hf]
      simp only [he]

theorem not_isBlank_of_number {b : UInt8} (h : (b = minus || isDigit b) = true) :
    isBlank b = false := by
  rw [Bool.eq_false_iff]
  intro hblank
  simp only [isBlank, Bool.or_eq_true, beq_iff_eq] at hblank
  rcases hblank with ((rfl | rfl) | rfl) | rfl <;> cases h

/-- A number begins with its sign or with a digit. -/
theorem number_head (h : Number text) :
    ∃ b more, text = b :: more ∧ (b = minus || isDigit b) = true := by
  cases h with
  | mk hsign hwhole hzero hfraction hexponent =>
      rcases hsign with rfl | rfl
      · rcases hwhole with ⟨hne, hall⟩
        rename_i whole _ _
        cases whole with
        | nil => exact absurd rfl hne
        | cons d more =>
            exact ⟨d, _, rfl, by rw [hall d List.mem_cons_self, Bool.or_true]⟩
      · exact ⟨minus, _, rfl, rfl⟩

end Numbers

section Strings

variable {text : List UInt8}

theorem fourHex_isSome {a b c d : UInt8} (ha : (hexValue? a).isSome = true)
    (hb : (hexValue? b).isSome = true) (hc : (hexValue? c).isSome = true)
    (hd : (hexValue? d).isSome = true) (rest : List UInt8) :
    ∃ n, fourHex (a :: b :: c :: d :: rest) = .ok (n, rest) := by
  obtain ⟨x, hx⟩ := Option.isSome_iff_exists.mp ha
  obtain ⟨y, hy⟩ := Option.isSome_iff_exists.mp hb
  obtain ⟨z, hz⟩ := Option.isSome_iff_exists.mp hc
  obtain ⟨w, hw⟩ := Option.isSome_iff_exists.mp hd
  exact ⟨((x * 16 + y) * 16 + z) * 16 + w, by simp only [fourHex, hx, hy, hz, hw]⟩

theorem numberedMark_shortEscape {b : UInt8} (h : (shortEscape? b).isSome = true) :
    b ≠ numberedMark := by
  rintro rfl
  exact absurd h (by decide)

theorem skipStringBytes_quoted (h : Quoted text) (rest : List UInt8) {n : Nat}
    (hn : text.length < n) : skipStringBytes n (text ++ quote :: rest) = .ok ((), rest) := by
  induction h generalizing n with
  | nil =>
      cases n with
      | zero => exact absurd hn (Nat.not_lt_zero _)
      | succ n => rfl
  | plain hcontrol hquote hslash hmore ih =>
      cases n with
      | zero => exact absurd hn (Nat.not_lt_zero _)
      | succ n =>
          rw [List.cons_append, skipStringBytes, if_neg hquote, if_neg hslash, if_neg hcontrol]
          exact ih (Nat.lt_of_succ_lt_succ hn)
  | short hb hmore ih =>
      cases n with
      | zero => exact absurd hn (Nat.not_lt_zero _)
      | succ n =>
          rw [List.cons_append, List.cons_append, skipStringBytes, if_neg (by decide), if_pos rfl,
            skipEscape, if_neg (numberedMark_shortEscape hb), if_pos hb]
          simp only [List.length_cons] at hn
          exact ih (by omega)
  | @numbered a b c d more ha hb hc hd hmore ih =>
      cases n with
      | zero => exact absurd hn (Nat.not_lt_zero _)
      | succ n =>
          obtain ⟨x, hx⟩ := fourHex_isSome ha hb hc hd (more ++ quote :: rest)
          simp only [List.cons_append, skipStringBytes, if_neg (show backslash ≠ quote by decide),
            if_true, skipEscape, hx, bind, Except.bind]
          simp only [List.length_cons] at hn
          exact ih (by omega)

/-- A string whose opening quote has been taken is passed over. -/
theorem skipStringTail_quoted (h : Quoted text) (rest : List UInt8) :
    skipStringTail (text ++ quote :: rest) = .ok ((), rest) := by
  refine skipStringBytes_quoted h rest ?_
  rw [List.length_append, List.length_cons]
  omega

/-- The name of a member is passed over, with the colon behind it. -/
theorem skipName_quoted {bs cs : List UInt8} (hbs : Blanks bs) (h : Quoted text) (hcs : Blanks cs)
    (rest : List UInt8) :
    skipName (bs ++ (quote :: (text ++ (quote :: (cs ++ (colon :: rest)))))) = .ok ((), rest) := by
  rw [skipName, expectToken_blanks hbs (by decide)]
  simp only [bind, Except.bind, skipStringTail_quoted h]
  exact expectToken_blanks hcs (by decide) rest

end Strings

section Walk

/-- The byte that opens a bracket. -/
def Bracket.opening : Bracket → UInt8
  | array => openBracket
  | object => openBrace

/-- The part of the notation that is left once a bracket has been opened. -/
def Bracket.part : Bracket → Bool → Part
  | array, first => .items first
  | object, first => .members first

/-- A phrase takes the walk over a value from one point to another, in no more
    rounds than it has bytes. In front of the first item the walk has not yet
    taken the opening bracket, because it looks behind that bracket in the same
    round. -/
def Passed : Part → List UInt8 → Prop
  | .value, text => ∃ k ≤ text.length, ∀ n outer rest, Ends rest →
      skipWalk (n + k) true outer (text ++ rest) = skipWalk n false outer rest
  | .items first, text => PassedIn .array first text
  | .members first, text => PassedIn .object first text
where
  PassedIn (b : Bracket) (first : Bool) (text : List UInt8) : Prop :=
    ∃ k ≤ text.length, ∀ n outer rest,
      (if first then skipWalk (n + k + 1) true outer (b.opening :: (text ++ rest))
        else skipWalk (n + k) false (b :: outer) (text ++ rest)) = skipWalk n false outer rest

variable {text bs rest : List UInt8}

theorem skipWalk_append (h : Blanks bs) (n : Nat) (outer : List Bracket) (s : List UInt8) :
    skipWalk n true outer (bs ++ s) = skipWalk n true outer s := by
  cases n with
  | zero => rfl
  | succ n => rw [skipWalk, token_append h, skipWalk]

theorem skipWalk_opening (b : Bracket) (n : Nat) (outer : List Bracket) (s : List UInt8) :
    skipWalk (n + 1) true outer (b.opening :: s) = (do
      let (closed, s) ← skipOpening b s
      if closed then skipWalk n false outer s else skipWalk n true (b :: outer) s) := by
  have hblank : isBlank b.opening = false := by cases b <;> rfl
  rw [skipWalk, token_cons hblank]
  cases b <;> rfl

/-- A value that is neither an array nor an object takes one round. -/
theorem passed_scalar {b : UInt8} {more : List UInt8} (hblank : isBlank b = false)
    (hopen : (b = openBracket || b = openBrace) = false)
    (h : ∀ rest, Ends rest → skipScalar b (more ++ rest) = .ok ((), rest)) :
    Passed .value (b :: more) := by
  refine ⟨1, Nat.le_add_left 1 _, fun n outer rest hrest => ?_⟩
  rw [List.cons_append, skipWalk, token_cons hblank]
  simp only [bind, Except.bind, hopen, Bool.false_eq_true, if_false, h rest hrest]

theorem word_append (bs rest : List UInt8) : word bs (bs ++ rest) = .ok ((), rest) := by
  induction bs with
  | nil => rfl
  | cons b more ih => rw [List.cons_append, word, if_pos rfl, ih]

theorem passed_number (h : Number text) : Passed .value text := by
  obtain ⟨b, more, rfl, hb⟩ := number_head h
  have hbyte : ∀ c : UInt8, (c = minus || isDigit c) = false → b ≠ c := by
    rintro c hc rfl
    rw [hc] at hb
    cases hb
  have hopen : (b = openBracket || b = openBrace) = false := by
    simp only [Bool.or_eq_false_iff, decide_eq_false_iff_not]
    exact ⟨hbyte openBracket rfl, hbyte openBrace rfl⟩
  refine passed_scalar (not_isBlank_of_number hb) hopen fun rest hrest => ?_
  obtain ⟨l, hl⟩ := literal_number .syntactic h hrest
  rw [List.cons_append] at hl
  rw [skipScalar, if_neg (hbyte quote rfl), if_neg (hbyte 0x6e rfl), if_neg (hbyte 0x74 rfl),
    if_neg (hbyte 0x66 rfl), if_pos hb, hl]
  rfl

/-- A value begins with a byte that is neither blank nor a closing bracket. -/
theorem value_head (h : Phrase .value text) :
    ∃ b more, text = b :: more ∧ isBlank b = false ∧ b ≠ closeBracket := by
  cases h with
  | null => exact ⟨_, _, rfl, rfl, by decide⟩
  | true => exact ⟨_, _, rfl, rfl, by decide⟩
  | false => exact ⟨_, _, rfl, rfl, by decide⟩
  | string => exact ⟨_, _, rfl, rfl, by decide⟩
  | array => exact ⟨_, _, rfl, rfl, by decide⟩
  | object => exact ⟨_, _, rfl, rfl, by decide⟩
  | number h =>
      obtain ⟨b, more, rfl, hb⟩ := number_head h
      refine ⟨b, more, rfl, not_isBlank_of_number hb, ?_⟩
      rintro rfl
      cases hb

theorem ends_lead {lead : List UInt8} (h : Lead false lead) (s : List UInt8) :
    Ends (lead ++ s) := by
  cases h with
  | later hbs =>
      rw [List.append_assoc]
      exact ends_append hbs (ends_cons (by decide) _)

theorem ends_memberThen {lead : List UInt8} (h : Lead false lead)
    (bs name cs ds value more rest : List UInt8) :
    Ends (memberThen lead bs name cs ds value more ++ rest) := by
  rw [memberThen, List.append_assoc]
  exact ends_lead h _

/-- Behind a value comes what ends a number: a blank, a comma or a bracket. -/
theorem ends_of_items (h : Phrase (.items false) text) (rest : List UInt8) :
    Ends (text ++ rest) := by
  cases h with
  | endItems hbs =>
      rw [List.append_assoc]
      exact ends_append hbs (ends_cons (by decide) _)
  | item hlead =>
      rw [List.append_assoc]
      exact ends_lead hlead _

theorem ends_of_members (h : Phrase (.members false) text) (rest : List UInt8) :
    Ends (text ++ rest) := by
  cases h with
  | endMembers hbs =>
      rw [List.append_assoc]
      exact ends_append hbs (ends_cons (by decide) _)
  | member hlead => exact ends_memberThen hlead _ _ _ _ _ _ rest

/-- A bracket that closes takes the round that finds it closed. -/
theorem passedIn_end (b : Bracket) (first : Bool) (hbs : Blanks bs) :
    Passed.PassedIn b first (bs ++ [b.close]) := by
  have hblank : isBlank b.close = false := by cases b <;> rfl
  have htoken (s : List UInt8) : token ((bs ++ [b.close]) ++ s) = .ok (b.close, s) := by
    rw [List.append_assoc]
    exact token_blanks hbs hblank s
  cases first with
  | true =>
      refine ⟨0, Nat.zero_le _, fun n outer rest => ?_⟩
      rw [if_pos rfl, skipWalk_opening, skipOpening.eq_def, htoken]
      simp only [bind, Except.bind, if_true]
  | false =>
      refine ⟨1, by simp only [List.length_append, List.length_singleton]; omega,
        fun n outer rest => ?_⟩
      rw [if_neg Bool.false_ne_true, skipWalk, skipBetween, htoken]
      simp only [bind, Except.bind, if_true]

/-- An item takes the round that leads to its value, the rounds of the value,
    and those of what follows. -/
theorem passedIn_more {b : Bracket} {first : Bool} {front value more : List UInt8}
    (hfront : first = false → 0 < front.length)
    (hlead : ∀ s, ∃ s', (if first then skipOpening b (front ++ (value ++ s))
        else skipBetween b (front ++ (value ++ s))) = .ok (false, s') ∧
      ∀ n outer, skipWalk n true outer s' = skipWalk n true outer (value ++ s))
    (hvalue : Passed .value value) (hends : ∀ rest, Ends (more ++ rest))
    (hmore : Passed.PassedIn b false more) :
    Passed.PassedIn b first (front ++ (value ++ more)) := by
  obtain ⟨k, hk, hvalue⟩ := hvalue
  obtain ⟨j, hj, hmore⟩ := hmore
  simp only [Bool.false_eq_true, if_false] at hmore
  have hwalk (n : Nat) (outer : List Bracket) (rest : List UInt8) :
      skipWalk (n + (k + j)) true (b :: outer) (value ++ (more ++ rest)) =
        skipWalk n false outer rest := by
    rw [show n + (k + j) = n + j + k by omega, hvalue _ _ _ (hends rest), hmore]
  cases first with
  | true =>
      refine ⟨k + j, by simp only [List.length_append]; omega, fun n outer rest => ?_⟩
      obtain ⟨s, hs, hsame⟩ := hlead (more ++ rest)
      rw [if_pos rfl] at hs
      rw [if_pos rfl, List.append_assoc, List.append_assoc, skipWalk_opening, hs]
      simp only [bind, Except.bind, Bool.false_eq_true, if_false, hsame, hwalk]
  | false =>
      have := hfront rfl
      refine ⟨k + j + 1, by simp only [List.length_append]; omega, fun n outer rest => ?_⟩
      obtain ⟨s, hs, hsame⟩ := hlead (more ++ rest)
      rw [if_neg Bool.false_ne_true] at hs
      rw [if_neg Bool.false_ne_true, List.append_assoc, List.append_assoc, ← Nat.add_assoc,
        skipWalk, hs]
      simp only [bind, Except.bind, Bool.false_eq_true, if_false, hsame, hwalk]

/-- An array or an object takes one round more than what is left of it once it
    has been opened. -/
theorem passed_opening (b : Bracket) (h : Passed.PassedIn b true text) :
    Passed .value (b.opening :: text) := by
  obtain ⟨k, hk, h⟩ := h
  exact ⟨k + 1, Nat.succ_le_succ hk, fun n outer rest _ => h n outer rest⟩

-- The round in front of an item ends at its value.
theorem leads_to_item {first : Bool} {lead value : List UInt8} (hlead : Lead first lead)
    (hbs : Blanks bs) (hvalue : Phrase .value value) (s : List UInt8) :
    ∃ s', (if first then skipOpening .array ((lead ++ bs) ++ (value ++ s))
        else skipBetween .array ((lead ++ bs) ++ (value ++ s))) = .ok (false, s') ∧
      ∀ n outer, skipWalk n true outer s' = skipWalk n true outer (value ++ s) := by
  cases hlead with
  | first =>
      obtain ⟨b, more, rfl, hblank, hclose⟩ := value_head hvalue
      refine ⟨b :: more ++ s, ?_, fun _ _ => rfl⟩
      rw [if_pos rfl, List.nil_append, skipOpening, List.cons_append, token_blanks hbs hblank,
        skipBlank_append hbs, skipBlank_cons hblank]
      simp only [bind, Except.bind]
      exact if_neg hclose
  | later hcs =>
      refine ⟨bs ++ (value ++ s), ?_, fun n outer => skipWalk_append hbs n outer _⟩
      rw [if_neg Bool.false_ne_true, List.append_assoc, List.append_assoc, skipBetween,
        List.singleton_append, token_blanks hcs (by decide)]
      rfl

-- The round in front of a member ends at its value, behind name and colon.
theorem leads_to_member {first : Bool} {lead name cs ds : List UInt8}
    (hlead : Lead first lead) (hbs : Blanks bs) (hname : Quoted name) (hcs : Blanks cs)
    (hds : Blanks ds) (value s : List UInt8) :
    ∃ s', (if first then skipOpening .object
          ((lead ++ (bs ++ (quote :: (name ++ (quote :: (cs ++ (colon :: ds))))))) ++ (value ++ s))
        else skipBetween .object
          ((lead ++ (bs ++ (quote :: (name ++ (quote :: (cs ++ (colon :: ds))))))) ++
            (value ++ s))) = .ok (false, s') ∧
      ∀ n outer, skipWalk n true outer s' = skipWalk n true outer (value ++ s) := by
  have hskip := skipName_quoted hbs hname hcs (ds ++ (value ++ s))
  refine ⟨ds ++ (value ++ s), ?_, fun n outer => skipWalk_append hds n outer _⟩
  cases hlead with
  | first =>
      simp only [List.nil_append, List.append_assoc, List.cons_append, if_true, skipOpening]
      rw [token_blanks hbs (by decide)]
      simp only [bind, Except.bind, hskip]
      rfl
  | later hes =>
      simp only [List.append_assoc, List.cons_append, List.nil_append, Bool.false_eq_true,
        if_false, skipBetween]
      rw [token_blanks hes (by decide)]
      simp only [bind, Except.bind, hskip]
      rfl

/-- Every phrase takes the walk over it, by induction on how the grammar
    derives it. -/
theorem passed_of_phrase {part : Part} (h : Phrase part text) : Passed part text := by
  induction h with
  | null => exact passed_scalar rfl rfl fun rest _ => word_append nullTail rest
  | true => exact passed_scalar rfl rfl fun rest _ => word_append trueTail rest
  | false => exact passed_scalar rfl rfl fun rest _ => word_append falseTail rest
  | number h => exact passed_number h
  | string h =>
      refine passed_scalar rfl rfl fun rest _ => ?_
      rw [List.append_assoc]
      exact skipStringTail_quoted h rest
  | array _ ih => exact passed_opening .array ih
  | object _ ih => exact passed_opening .object ih
  | endItems hbs => exact passedIn_end .array _ hbs
  | endMembers hbs => exact passedIn_end .object _ hbs
  | item hlead hbs hvalue hmore ihvalue ihmore =>
      rw [← List.append_assoc]
      refine passedIn_more ?_ (leads_to_item hlead hbs hvalue) ihvalue (ends_of_items hmore) ihmore
      rintro rfl
      cases hlead
      simp only [List.length_append, List.length_singleton]
      omega
  | @member first lead bs name cs ds value more hlead hbs hname hcs hds hvalue hmore ihvalue
      ihmore =>
      have hfront := leads_to_member hlead hbs hname hcs hds value
      have hpassed := passedIn_more ?_ hfront ihvalue (ends_of_members hmore) ihmore
      · change Passed.PassedIn .object first _
        simpa only [memberThen, List.append_assoc, List.cons_append] using hpassed
      · rintro rfl
        simp only [List.length_append, List.length_cons]
        omega

/-- A value is passed over, and no more than that. -/
theorem skipValue_phrase (h : Phrase .value text) (hbs : Blanks bs) (hrest : Ends rest) :
    skipValue (bs ++ (text ++ rest)) = .ok ((), rest) := by
  obtain ⟨k, hk, hwalk⟩ := passed_of_phrase h
  have hfuel : (bs ++ (text ++ rest)).length + 1 =
      bs.length + (text.length - k) + rest.length + 1 + k := by
    simp only [List.length_append]
    omega
  rw [skipValue, skipWalk_append hbs, hfuel, hwalk _ _ _ hrest, skipWalk]

end Walk

end RingOverlay.Json
