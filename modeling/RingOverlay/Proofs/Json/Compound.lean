import RingOverlay.Proofs.Json.Token

/-!
# Written Arrays and Records Are Read Back

An array or an object is read in a loop that takes one item at a time, with the comma
in front of every item but the first. The two lemmas about these loops have the same
shape: whatever is written for the items, followed by the closing bracket, is read
item by item, provided the loop has more fuel than there are items. The readers give
their loop as much fuel as there are bytes left, and even the commas alone take one
byte for each item.

For an object it also matters what becomes of the draft. `Fills` describes it: every
member has the name of a known field that the draft lacks, and its value is read into
the draft that the next member finds.

## Main definitions

* `Json.joined`: Written items with their commas.
* `Json.Solid`: A text whose first character is neither blank nor a closing bracket.
* `Json.Fills`: Written members that fill a draft.

## Theorems

* `elements_joined`: The loop over the elements of an array.
* `members_joined`: The loop over the members of an object.
* `reads_listOf`, `reads_record`: Arrays and records.
* `reads_of`: A field is read if its value is.
-/

namespace RingOverlay.Json

open Utf8

/-- The comma in front of an item that is not the first. -/
def lead (first : Bool) : List Char := if first then [] else [',']

/-- Written items with their commas, the first of them with or without. -/
def joined : Bool → List (List Char) → List Char
  | _, [] => []
  | first, item :: more => lead first ++ (item ++ joined false more)

theorem separated_eq_joined (items : List (List Char)) :
    Wire.separated items = joined true items := by
  induction items with
  | nil => rfl
  | cons item more ih =>
      cases more with
      | nil => simp only [Wire.separated, joined, lead, if_true, List.nil_append, List.append_nil]
      | cons next others =>
          rw [Wire.separated, ih]
          · rfl
          · exact List.cons_ne_nil next others

-- All but one of the items have a comma in front.
theorem length_le_joined (items : List (List Char)) :
    items.length ≤ (joined true items).length + 1 := by
  have hcommas (l : List (List Char)) : l.length ≤ (joined false l).length := by
    induction l with
    | nil => exact Nat.le_refl _
    | cons item more ih =>
        simp only [joined, lead, Bool.false_eq_true, if_false, List.length_append,
          List.length_cons, List.length_nil]
        omega
  cases items with
  | nil => exact Nat.zero_le _
  | cons item more =>
      have := hcommas more
      simp only [joined, List.length_append, List.length_cons]
      omega

/-- A text whose first character is neither blank nor a closing bracket. -/
def Solid (text : List Char) : Prop :=
  ∃ c more, text = c :: more ∧ isBlank (UInt8.ofNat c.toNat) = false ∧
    UInt8.ofNat c.toNat ≠ closeBracket

section Arrays

variable {α : Type} {r : Reader α}

theorem nextElement_item (first : Bool) {item : List Char} (h : Solid item) (rest : List UInt8) :
    nextElement first (ascii (lead first ++ item) ++ rest) = .ok (true, ascii item ++ rest) := by
  rcases h with ⟨c, more, rfl, hblank, hclose⟩
  cases first with
  | true =>
      simp only [lead, if_true, List.nil_append, ascii_cons, List.cons_append]
      rw [nextElement, token_cons hblank]
      simp only [bind, Except.bind, if_neg hclose, if_true, skipBlank_cons hblank]
  | false =>
      have hcomma : token (comma :: ascii (c :: more) ++ rest) =
          .ok (comma, ascii (c :: more) ++ rest) := token_cons (by decide)
      have hitem : token (ascii (c :: more) ++ rest) =
          .ok (UInt8.ofNat c.toNat, ascii more ++ rest) := token_cons hblank
      have hskip : skipBlank (ascii (c :: more) ++ rest) = ascii (c :: more) ++ rest :=
        skipBlank_cons hblank
      show nextElement false (comma :: ascii (c :: more) ++ rest) = _
      rw [nextElement, hcomma]
      simp only [bind, Except.bind, hitem, hskip, if_neg hclose, Bool.false_eq_true, if_false,
        if_true, show comma ≠ closeBracket by decide]

/-- The loop over the elements of an array. -/
theorem elements_joined {w : α → List Char} {xs : List α} (hr : ∀ x ∈ xs, Reads r (w x) x)
    (hsolid : ∀ x ∈ xs, Solid (w x)) (first : Bool) (rest : List UInt8) {n : Nat}
    (hn : xs.length < n) :
    elements r n first (ascii (joined first (xs.map w)) ++ closeBracket :: rest) =
      .ok (xs, rest) := by
  induction xs generalizing first n with
  | nil =>
      cases n with
      | zero => exact absurd hn (Nat.not_lt_zero _)
      | succ n =>
          have hclose : token (closeBracket :: rest) = .ok (closeBracket, rest) :=
            token_cons (by decide)
          simp only [List.map_nil, joined, ascii_nil, List.nil_append, elements, nextElement,
            hclose, bind, Except.bind, if_true, Bool.false_eq_true, if_false]
  | cons x more ih =>
      cases n with
      | zero => exact absurd hn (Nat.not_lt_zero _)
      | succ n =>
          -- Behind the item there is a comma or the closing bracket.
          have hends : Ends (ascii (joined false (more.map w)) ++ closeBracket :: rest) := by
            cases more with
            | nil => exact ends_cons (by decide) _
            | cons y others => exact ends_cons (by decide) _
          have hnext := nextElement_item first (hsolid x List.mem_cons_self)
            (ascii (joined false (more.map w)) ++ closeBracket :: rest)
          have hmore := ih (fun y hy => hr y (List.mem_cons_of_mem x hy))
            (fun y hy => hsolid y (List.mem_cons_of_mem x hy)) false (Nat.lt_of_succ_lt_succ hn)
          rw [List.map_cons, joined, ← List.append_assoc, ascii_append, List.append_assoc, elements,
            hnext]
          simp only [bind, Except.bind, if_true, hr x List.mem_cons_self _ hends, hmore]

/-- An array is read back if its elements are. -/
theorem reads_listOf {w : α → List Char} {xs : List α} (hr : ∀ x ∈ xs, Reads r (w x) x)
    (hsolid : ∀ x ∈ xs, Solid (w x)) : Reads (listOf r) (Wire.array (xs.map w)) xs := by
  intro rest _
  have hopen (s : List UInt8) : token (openBracket :: s) = .ok (openBracket, s) :=
    token_cons (by decide)
  have hfuel : xs.length < (ascii (joined true (xs.map w)) ++ closeBracket :: rest).length + 1 := by
    have := length_le_joined (xs.map w)
    simp only [List.length_map, List.length_append, length_ascii, List.length_cons] at this ⊢
    omega
  have htext : ascii (Wire.array (xs.map w)) ++ rest =
      openBracket :: (ascii (joined true (xs.map w)) ++ closeBracket :: rest) := by
    rw [Wire.array, separated_eq_joined, List.cons_append, ascii_cons, ascii_append,
      List.cons_append, List.append_assoc]
    rfl
  rw [htext, listOf, hopen]
  simp only [bind, Except.bind, if_true]
  exact elements_joined hr hsolid true rest hfuel

end Arrays

section Records

variable {δ α : Type} {fields : List (RecordField δ)}

theorem nextName_member (first : Bool) {name : String} (h : Plain name.toList)
    (rest : List UInt8) :
    nextName first (ascii (lead first ++ Wire.quotedName name) ++ rest) =
      .ok (some name, rest) := by
  have htail : stringTail (ascii name.toList ++ quote :: rest) = .ok (name, rest) := by
    rw [stringTail_plain h, String.ofList_toList]
  have hquote (s : List UInt8) : token (quote :: s) = .ok (quote, s) := token_cons (by decide)
  have htext :
      ascii (Wire.quotedName name) ++ rest = quote :: (ascii name.toList ++ quote :: rest) := by
    rw [Wire.quotedName, List.cons_append, ascii_cons, ascii_append, List.cons_append,
      List.append_assoc]
    rfl
  cases first with
  | true =>
      rw [lead, if_pos rfl, List.nil_append, htext, nextName, hquote]
      simp only [bind, Except.bind, if_true, htail, show quote ≠ closeBrace by decide, if_false]
  | false =>
      have hcomma (s : List UInt8) : token (comma :: s) = .ok (comma, s) := token_cons (by decide)
      rw [lead, if_neg Bool.false_ne_true, List.singleton_append, ascii_cons, List.cons_append,
        htext]
      show nextName false (comma :: _) = _
      rw [nextName, hcomma]
      simp only [bind, Except.bind, if_true, htail, hquote, show comma ≠ closeBrace by decide,
        Bool.false_eq_true, if_false]

/-- Written members that take a draft to another: each has the name of a field that
    the draft lacks, and its value is read into the draft. -/
inductive Fills (fields : List (RecordField δ)) : δ → List (List Char) → δ → Prop where
  | done (d : δ) : Fills fields d [] d
  | more {d next last : δ} {name : String} {value : List Char} {items : List (List Char)}
      (f : RecordField δ) (hplain : Plain name.toList)
      (hfind : fields.find? (fun f => f.name = name) = some f) (hlacks : f.taken d = false)
      (hvalue : Reads (f.read d) value next) (hmore : Fills fields next items last) :
      Fills fields d (Wire.member name value :: items) last

/-- The loop over the members of an object. -/
theorem members_joined {d last : δ} {items : List (List Char)} (h : Fills fields d items last)
    (first : Bool) (rest : List UInt8) {n : Nat} (hn : items.length < n) :
    members fields n first d (ascii (joined first items) ++ closeBrace :: rest) =
      .ok (last, rest) := by
  induction h generalizing first n with
  | done d =>
      cases n with
      | zero => exact absurd hn (Nat.not_lt_zero _)
      | succ n =>
          have hclose : token (closeBrace :: rest) = .ok (closeBrace, rest) :=
            token_cons (by decide)
          simp only [joined, ascii_nil, List.nil_append, members, nextName, hclose, bind,
            Except.bind, if_true]
  | @more d next last name value items f hplain hfind hlacks hvalue hmore ih =>
      cases n with
      | zero => exact absurd hn (Nat.not_lt_zero _)
      | succ n =>
          -- Behind the value there is a comma or the closing brace.
          have hends : Ends (ascii (joined false items) ++ closeBrace :: rest) := by
            cases items with
            | nil => exact ends_cons (by decide) _
            | cons item others => exact ends_cons (by decide) _
          have hname := nextName_member first hplain
            (colon :: (ascii value ++ (ascii (joined false items) ++ closeBrace :: rest)))
          have htext :
              ascii (joined first (Wire.member name value :: items)) ++ closeBrace :: rest =
              ascii (lead first ++ Wire.quotedName name) ++
                colon :: (ascii value ++ (ascii (joined false items) ++ closeBrace :: rest)) := by
            simp only [joined, Wire.member, ascii_append, ascii_cons, List.append_assoc,
              List.cons_append]
            rfl
          have hcolon (s : List UInt8) : expectToken colon (colon :: s) = .ok ((), s) :=
            expectToken_cons (by decide)
          rw [htext, members, hname]
          simp only [bind, Except.bind, member, hfind, hlacks, Bool.false_eq_true, if_false, hcolon,
            hvalue _ hends]
          exact ih false (Nat.lt_of_succ_lt_succ hn)

/-- A record written as an object is read back if its members fill a draft that is
    complete. -/
theorem reads_record {blank last : δ} {items : List (List Char)} {finish : δ → Option α} {a : α}
    (h : Fills fields blank items last) (hfinish : finish last = some a) :
    Reads (record fields blank finish) (Wire.object items) a := by
  intro rest _
  have hopen (s : List UInt8) : token (openBrace :: s) = .ok (openBrace, s) :=
    token_cons (by decide)
  have hfuel : items.length < (ascii (joined true items) ++ closeBrace :: rest).length + 1 := by
    have := length_le_joined items
    simp only [List.length_append, length_ascii, List.length_cons]
    omega
  have htext : ascii (Wire.object items) ++ rest =
      openBrace :: (ascii (joined true items) ++ closeBrace :: rest) := by
    rw [Wire.object, separated_eq_joined, List.cons_append, ascii_cons, ascii_append,
      List.cons_append, List.append_assoc]
    rfl
  rw [htext, record, hopen]
  simp only [bind, Except.bind, if_true, members_joined h true rest hfuel, settle, hfinish]

/-- A field is read into a draft if its value is read. -/
theorem reads_of {β : Type} {r : Reader β} {text : List Char} {b : β} (name : String)
    (get : δ → Option β) (put : δ → β → δ) (d : δ) (h : Reads r text b) :
    Reads ((RecordField.of name get put r).read d) text (put d b) := by
  intro rest hrest
  simp only [RecordField.of, h rest hrest, bind, Except.bind]

end Records

end RingOverlay.Json
