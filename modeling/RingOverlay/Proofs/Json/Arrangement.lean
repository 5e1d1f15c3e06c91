import RingOverlay.Proofs.Json.Compound
import RingOverlay.Proofs.Json.Spelling

/-!
# Records in Any Arrangement

A record is written as an object whose members may come in any order, with
members that nobody knows among them. `Arranged` describes such objects by what
they hold: every field of the record at its first coming has a text that fits
it, and whatever else there is has any value at all.

Two things can be wrong with such an object. A field may come a second time,
and a field may have a text that its reader refuses; `Arranged` keeps account of
both in a single truth value while it goes over the members. A field that does
not come at all is not seen until the end, and whether this is wrong is for the
record to say, so `Arranged` keeps a list of the fields that have come.

The draft of a record is filled as the members come. What it holds depends on
which fields have come and not on their order, and `Drafts` is the list of
facts about a record that say so. From these, an object is read as what is
finished from the fields that came, or it is refused (`meets_record`).

`Meets` states both outcomes at once, because for an object within an object it
is the inner outcome that decides about the outer one.

## Main definitions

* `Takes`, `Refuses`, `Meets`: What becomes of a value at the hands of a reader.
* `Shape`: The fields of a record and the texts that fit them.
* `Arranged`: The members of an object, behind its opening brace.
* `DraftsField`, `Drafts`: A record is read field by field.

## Theorems

* `takes_of_reads`: What is read as it was written is read from behind blanks.
* `document_of_meets`: A whole text is decoded or refused by the value in it.
* `draftsField_of`: A field is read if its value is, and refused if its value is.
* `members_arranged`: The loop over the members of an object.
* `meets_record`: A record is read in any arrangement of its members.
-/

namespace RingOverlay.Json

open Utf8

section Readers

variable {α β : Type}

/-- A reader takes a value from behind any blanks, and no more than that. -/
def Takes (r : Reader α) (value : List UInt8) (a : α) : Prop :=
  ∀ bs rest, Blanks bs → Ends rest → r (bs ++ (value ++ rest)) = .ok (a, rest)

/-- A reader finds fault with a value, whatever is around it. -/
def Refuses (r : Reader α) (value : List UInt8) : Prop :=
  ∀ bs rest, Blanks bs → Ends rest → ∃ flaw, r (bs ++ (value ++ rest)) = .error flaw

/-- A value is read as what is expected of it, or refused if nothing is. -/
def Meets (r : Reader α) (value : List UInt8) : Option α → Prop
  | some a => Takes r value a
  | none => Refuses r value

/-- What is read as it was written is read from behind blanks, by a reader that
    passes over blanks. -/
theorem takes_of_reads {r : Reader α} {text : List Char} {a : α}
    (hblanks : ∀ bs s, Blanks bs → r (bs ++ s) = r s) (h : Reads r text a) :
    Takes r (ascii text) a := by
  intro bs rest hbs hrest
  rw [hblanks bs _ hbs, h rest hrest]

theorem takes_unsigned {bits n : Nat} (hbits : bits ≤ 64) (h : n < 2 ^ bits) :
    Takes (unsigned bits) (ascii (decimal n)) n :=
  takes_of_reads (fun bs s hbs => by rw [unsigned, token_append hbs, unsigned])
    (reads_unsigned hbits h)

theorem takes_boolean (b : Bool) : Takes boolean (ascii (Wire.truth b)) b :=
  takes_of_reads (fun bs s hbs => by rw [boolean, token_append hbs, boolean]) (reads_boolean b)

/-- A string is read in any spelling if its content is what is wanted. -/
theorem takes_stringAs {parse? : String → Option α} {spelled : List UInt8} {text : List Char}
    {a : α} (h : Spells spelled text) (hparse : parse? (String.ofList text) = some a) :
    Takes (stringAs parse?) (quote :: (spelled ++ [quote])) a := by
  intro bs rest hbs _
  have htail : stringTail ((spelled ++ [quote]) ++ rest) = .ok (String.ofList text, rest) := by
    rw [List.append_assoc]
    exact stringTail_spells h rest
  rw [List.cons_append, stringAs, string, token_blanks hbs (by decide)]
  simp only [bind, Except.bind, if_true, htail, hparse]

/-- A whole text is decoded if it holds a value that is read, and refused if the
    value is. -/
theorem document_of_meets {r : Reader α} {bs value cs : List UInt8} {expected : Option α}
    (hbs : Blanks bs) (hcs : Blanks cs) (h : Meets r value expected) :
    match expected with
    | some a => document r (bs ++ (value ++ cs)) = .ok a
    | none => ∃ flaw, document r (bs ++ (value ++ cs)) = .error flaw := by
  have hends : Ends cs := by
    have := ends_append hcs ends_nil
    rwa [List.append_nil] at this
  cases expected with
  | none =>
      obtain ⟨flaw, hflaw⟩ := h bs cs hbs hends
      exact ⟨flaw, by rw [document, hflaw]; rfl⟩
  | some a =>
      have hread : r (bs ++ (value ++ cs)) = .ok (a, cs) := h bs cs hbs hends
      have hnothing : skipBlank cs = [] := by
        have := skipBlank_append hcs []
        rwa [List.append_nil] at this
      simp only [document, hread, bind, Except.bind, hnothing, List.isEmpty_nil, if_true]

end Readers

section Records

/-- The fields of a record by their names, and which texts fit them. A text
    that fits is one that is read as it should be, or one that is flawed. -/
abbrev Shape := List (String × (Bool → List UInt8 → Prop))

/-- The names of the fields. -/
def Shape.names (shape : Shape) : List String := shape.map Prod.fst

/-- The members of an object, up to and with its closing brace. `first` says
    that no member has come yet, `seen` which fields have come before and `last`
    which have come in the end. The truth value says that one of them came twice
    or has a flawed text. -/
inductive Arranged (shape : Shape) :
    Bool → List String → List String → Bool → List UInt8 → Prop where
  | done {first : Bool} {seen : List String} {bs : List UInt8} (hbs : Blanks bs) :
      Arranged shape first seen seen false (bs ++ [closeBrace])
  | field {first flawed others : Bool} {seen last : List String} {name : String}
      {fits : Bool → List UInt8 → Prop} {lead bs spelled cs ds value more : List UInt8}
      (hlead : Lead first lead) (hbs : Blanks bs) (hname : Spells spelled name.toList)
      (hcs : Blanks cs) (hds : Blanks ds) (hfield : (name, fits) ∈ shape) (hnew : name ∉ seen)
      (hvalue : fits flawed value) (hmore : Arranged shape false (name :: seen) last others more) :
      Arranged shape first seen last (flawed || others)
        (memberThen lead bs spelled cs ds value more)
  | repeated {first others : Bool} {seen last : List String} {name : String}
      {lead bs spelled cs ds value more : List UInt8}
      (hlead : Lead first lead) (hbs : Blanks bs) (hname : Spells spelled name.toList)
      (hcs : Blanks cs) (hds : Blanks ds) (hfield : name ∈ shape.names) (hseen : name ∈ seen)
      (hvalue : Phrase .value value) (hmore : Arranged shape false seen last others more) :
      Arranged shape first seen last true (memberThen lead bs spelled cs ds value more)
  | foreign {first others : Bool} {seen last : List String} {name : String}
      {lead bs spelled cs ds value more : List UInt8}
      (hlead : Lead first lead) (hbs : Blanks bs) (hname : Spells spelled name.toList)
      (hcs : Blanks cs) (hds : Blanks ds) (hforeign : name ∉ shape.names)
      (hvalue : Phrase .value value) (hmore : Arranged shape false seen last others more) :
      Arranged shape first seen last others (memberThen lead bs spelled cs ds value more)

variable {δ α : Type} {fields : List (RecordField δ)} {shape : Shape}

/-- A field is one of the record; the draft has it once it has come, and its
    value is read into the draft unless it is flawed. -/
def DraftsField (fields : List (RecordField δ)) (draft : List String → δ) (name : String)
    (fits : Bool → List UInt8 → Prop) : Prop :=
  ∃ f, fields.find? (fun f => f.name = name) = some f ∧
    (∀ seen, f.taken (draft seen) = decide (name ∈ seen)) ∧
    ∀ seen flawed value, fits flawed value →
      Meets (f.read (draft seen)) value (if flawed then none else some (draft (name :: seen)))

/-- A record is read field by field into a draft that depends only on which
    fields have come. -/
structure Drafts (fields : List (RecordField δ)) (shape : Shape) (draft : List String → δ) :
    Prop where
  field : ∀ name fits, (name, fits) ∈ shape → DraftsField fields draft name fits
  /-- The record has no other fields. -/
  names : fields.map RecordField.name = shape.names

/-- A name that is not in the shape is that of no field. -/
theorem Drafts.foreign {draft : List String → δ} (hd : Drafts fields shape draft) {name : String}
    (h : name ∉ shape.names) : fields.find? (fun f => f.name = name) = none := by
  rw [List.find?_eq_none]
  intro f hf
  rw [decide_eq_true_eq]
  rintro rfl
  exact h (hd.names ▸ List.mem_map_of_mem hf)

theorem nextName_end {first : Bool} {bs : List UInt8} (hbs : Blanks bs) (rest : List UInt8) :
    nextName first ((bs ++ [closeBrace]) ++ rest) = .ok (none, rest) := by
  rw [List.append_assoc, nextName, List.singleton_append, token_blanks hbs (by decide)]
  rfl

theorem nextName_memberThen {first : Bool} {name : String}
    {lead bs spelled : List UInt8} (hlead : Lead first lead) (hbs : Blanks bs)
    (hname : Spells spelled name.toList) (cs ds value more rest : List UInt8) :
    nextName first (memberThen lead bs spelled cs ds value more ++ rest) =
      .ok (some name, cs ++ (colon :: (ds ++ (value ++ (more ++ rest))))) := by
  have htail := stringTail_spells hname (cs ++ (colon :: (ds ++ (value ++ (more ++ rest)))))
  rw [String.ofList_toList] at htail
  simp only [memberThen, List.append_assoc, List.cons_append]
  cases hlead with
  | first =>
      rw [List.nil_append, nextName, token_blanks hbs (by decide)]
      simp only [bind, Except.bind, if_neg (show quote ≠ closeBrace by decide), if_true, htail]
  | later hes =>
      rw [List.append_assoc, List.singleton_append, nextName, token_blanks hes (by decide)]
      simp only [bind, Except.bind, if_neg (show comma ≠ closeBrace by decide), if_true,
        Bool.false_eq_true, if_false, token_blanks hbs (show isBlank quote = false by decide),
        htail]

variable {draft : List String → δ} {first spoilt : Bool} {seen last : List String}
  {text : List UInt8}

/-- Behind a value comes what ends a number. -/
theorem ends_of_arranged (h : Arranged shape first seen last spoilt text) (hf : first = false)
    (rest : List UInt8) : Ends (text ++ rest) := by
  cases h with
  | done hbs =>
      rw [List.append_assoc]
      exact ends_append hbs (ends_cons (by decide) _)
  | field hlead => exact ends_memberThen (hf ▸ hlead) _ _ _ _ _ _ rest
  | repeated hlead => exact ends_memberThen (hf ▸ hlead) _ _ _ _ _ _ rest
  | foreign hlead => exact ends_memberThen (hf ▸ hlead) _ _ _ _ _ _ rest

theorem length_lt_memberThen (lead bs spelled cs ds value more : List UInt8) :
    more.length < (memberThen lead bs spelled cs ds value more).length := by
  simp only [memberThen, List.length_append, List.length_cons]
  omega

/-- The loop over the members of an object ends with the draft of the fields
    that have come, or with a fault if one of them came twice or is refused. -/
theorem members_arranged (hd : Drafts fields shape draft)
    (h : Arranged shape first seen last spoilt text) (rest : List UInt8) {n : Nat}
    (hn : text.length ≤ n) :
    if spoilt then ∃ flaw, members fields n first (draft seen) (text ++ rest) = .error flaw
    else members fields n first (draft seen) (text ++ rest) = .ok (draft last, rest) := by
  induction h generalizing n with
  | done hbs =>
      rw [List.length_append, List.length_singleton] at hn
      obtain ⟨n, rfl⟩ : ∃ m, n = m + 1 := ⟨n - 1, by omega⟩
      rw [if_neg Bool.false_ne_true, members, nextName_end hbs]
      rfl
  | @field first flawed others seen last name fits lead bs spelled cs ds value more hlead hbs hname
      hcs hds hfield hnew hvalue hmore ih =>
      have hlength := length_lt_memberThen lead bs spelled cs ds value more
      obtain ⟨n, rfl⟩ : ∃ m, n = m + 1 := ⟨n - 1, by omega⟩
      obtain ⟨f, hfind, htaken, hread⟩ := hd.field name fits hfield
      have hfresh : f.taken (draft seen) = false := by
        rw [htaken, decide_eq_false hnew]
      have hmember : member fields name (draft seen)
          (cs ++ (colon :: (ds ++ (value ++ (more ++ rest))))) =
            f.read (draft seen) (ds ++ (value ++ (more ++ rest))) := by
        simp only [member, hfind, hfresh, Bool.false_eq_true, if_false,
          expectToken_blanks hcs (show isBlank colon = false by decide), bind, Except.bind]
      have hmeets := hread seen flawed value hvalue
      rw [members, nextName_memberThen hlead hbs hname]
      simp only [bind, Except.bind, hmember]
      cases flawed with
      | true =>
          obtain ⟨flaw, hflaw⟩ := hmeets ds (more ++ rest) hds (ends_of_arranged hmore rfl rest)
          rw [Bool.true_or, if_pos rfl]
          exact ⟨flaw, by rw [hflaw]⟩
      | false =>
          rw [Bool.false_or, hmeets ds (more ++ rest) hds (ends_of_arranged hmore rfl rest)]
          exact ih (by omega)
  | @repeated first others seen last name lead bs spelled cs ds value more hlead hbs hname hcs hds
      hfield hseen hvalue hmore ih =>
      have hlength := length_lt_memberThen lead bs spelled cs ds value more
      obtain ⟨n, rfl⟩ : ∃ m, n = m + 1 := ⟨n - 1, by omega⟩
      obtain ⟨⟨_, fits⟩, hfits, rfl⟩ := List.mem_map.mp hfield
      obtain ⟨f, hfind, htaken, -⟩ := hd.field _ fits hfits
      have hagain : f.taken (draft seen) = true := by
        rw [htaken, decide_eq_true hseen]
      refine ⟨.unfit, ?_⟩
      rw [members, nextName_memberThen hlead hbs hname]
      simp only [bind, Except.bind, member, hfind, hagain, if_true]
  | @foreign first others seen last name lead bs spelled cs ds value more hlead hbs hname hcs hds
      hforeign hvalue hmore ih =>
      have hlength := length_lt_memberThen lead bs spelled cs ds value more
      obtain ⟨n, rfl⟩ : ∃ m, n = m + 1 := ⟨n - 1, by omega⟩
      have hskip := skipValue_phrase hvalue hds (ends_of_arranged hmore rfl rest)
      rw [members, nextName_memberThen hlead hbs hname]
      simp only [bind, Except.bind, member, hd.foreign hforeign,
        expectToken_blanks hcs (show isBlank colon = false by decide), hskip]
      exact ih (by omega)

/-- A record is read in any arrangement of its members: it is what is finished
    from the fields that have come, or it is refused. -/
theorem meets_record {finish : δ → Option α} (hd : Drafts fields shape draft)
    (h : Arranged shape true [] last spoilt text) :
    Meets (record fields (draft []) finish) (openBrace :: text)
      (if spoilt then none else finish (draft last)) := by
  have hrecord (bs rest : List UInt8) (hbs : Blanks bs) :
      record fields (draft []) finish (bs ++ (openBrace :: text ++ rest)) =
        (members fields ((text ++ rest).length + 1) true (draft []) (text ++ rest)).bind
          fun p => (settle finish p.1).bind fun a => .ok (a, p.2) := by
    rw [List.cons_append, record, token_blanks hbs (by decide)]
    rfl
  have hloop (rest : List UInt8) := members_arranged hd h rest (n := (text ++ rest).length + 1)
    (by rw [List.length_append]; omega)
  cases spoilt with
  | true =>
      intro bs rest hbs _
      obtain ⟨flaw, hflaw⟩ := hloop rest
      exact ⟨flaw, by rw [hrecord bs rest hbs, hflaw]; rfl⟩
  | false =>
      simp only [Bool.false_eq_true, if_false] at hloop ⊢
      cases hfinish : finish (draft last) with
      | some a =>
          intro bs rest hbs _
          rw [hrecord bs rest hbs, hloop rest]
          simp only [Except.bind, settle, hfinish]
      | none =>
          intro bs rest hbs _
          refine ⟨.unfit, ?_⟩
          rw [hrecord bs rest hbs, hloop rest]
          simp only [Except.bind, settle, hfinish]

/-- A record whose fields are all needed. It is flawed if one of them does not
    come, comes twice or has a flawed text. -/
def RecordText (shape : Shape) (flawed : Bool) (text : List UInt8) : Prop :=
  ∃ last spoilt inner, text = openBrace :: inner ∧ Arranged shape true [] last spoilt inner ∧
    flawed = (spoilt || !decide (∀ name ∈ shape.names, name ∈ last))

/-- A record whose fields are all needed is read if it is not flawed, and
    refused if it is. -/
theorem meets_recordText {finish : δ → Option α} {a : α} {flawed : Bool}
    (hd : Drafts fields shape draft)
    (hfinish : ∀ last, finish (draft last) =
      if ∀ name ∈ shape.names, name ∈ last then some a else none)
    (h : RecordText shape flawed text) :
    Meets (record fields (draft []) finish) text (if flawed then none else some a) := by
  obtain ⟨last, spoilt, inner, rfl, harranged, rfl⟩ := h
  have hmeets : Meets (record fields (draft []) finish) (openBrace :: inner)
      (if spoilt then none else finish (draft last)) := meets_record hd harranged
  rw [hfinish last] at hmeets
  by_cases hall : ∀ name ∈ shape.names, name ∈ last
  · rw [if_pos hall] at hmeets
    rwa [decide_eq_true hall, Bool.not_true, Bool.or_false]
  · rw [if_neg hall, ite_self] at hmeets
    rwa [decide_eq_false hall, Bool.not_false, Bool.or_true, if_pos rfl]

end Records

section Given

variable {α : Type} {seen : List String} {name : String}

/-- What a draft holds of a field: its value, once the field has come. -/
def given (seen : List String) (name : String) (a : α) : Option α :=
  if name ∈ seen then some a else none

theorem given_cons_self (seen : List String) (name : String) (a : α) :
    given (name :: seen) name a = some a := if_pos List.mem_cons_self

theorem given_cons_ne {other : String} (h : name ≠ other) (seen : List String) (a : α) :
    given (other :: seen) name a = given seen name a := by
  simp only [given, List.mem_cons, h, false_or]

theorem isSome_given (seen : List String) (name : String) (a : α) :
    (given seen name a).isSome = decide (name ∈ seen) := by
  by_cases h : name ∈ seen
  · rw [given, if_pos h, decide_eq_true h, Option.isSome_some]
  · rw [given, if_neg h, decide_eq_false h, Option.isSome_none]

theorem given_bind {β : Type} (f : α → Option β) (seen : List String) (name : String) (a : α) :
    (given seen name a).bind f = if name ∈ seen then f a else none := by
  by_cases h : name ∈ seen
  · rw [given, if_pos h, if_pos h, Option.bind_some]
  · rw [given, if_neg h, if_neg h, Option.bind_none]

theorem given_getD (seen : List String) (name : String) (a b : α) :
    (given seen name a).getD b = if name ∈ seen then a else b := by
  by_cases h : name ∈ seen
  · rw [given, if_pos h, if_pos h, Option.getD_some]
  · rw [given, if_neg h, if_neg h, Option.getD_none]

/-- What a record needs of a field whose value is kept under its name, and whose texts are
    read, or refused, as its value. -/
theorem draftsField_of {δ : Type} {fields : List (RecordField δ)} {draft : List String → δ}
    {get : δ → Option α} {put : δ → α → δ} {r : Reader α} {fits : Bool → List UInt8 → Prop} {a : α}
    (hfind : fields.find? (fun f => f.name = name) = some (.of name get put r))
    (hget : ∀ seen, get (draft seen) = given seen name a)
    (hput : ∀ seen, put (draft seen) a = draft (name :: seen))
    (hfits : ∀ flawed value, fits flawed value → Meets r value (if flawed then none else some a)) :
    DraftsField fields draft name fits := by
  refine ⟨_, hfind, fun seen => ?_, fun seen flawed value hvalue => ?_⟩
  · simp only [RecordField.of, hget, isSome_given]
  · have hmeets := hfits flawed value hvalue
    cases flawed with
    | false =>
        intro bs rest hbs hrest
        have hread : r (bs ++ (value ++ rest)) = .ok (a, rest) := hmeets bs rest hbs hrest
        simp only [RecordField.of, hread, bind, Except.bind, hput]
    | true =>
        intro bs rest hbs hrest
        obtain ⟨flaw, hflaw⟩ := hmeets bs rest hbs hrest
        exact ⟨flaw, by simp only [RecordField.of, hflaw, bind, Except.bind]⟩

/-- The one text that fits, and that is not flawed. -/
def Only (text : List UInt8) (flawed : Bool) (value : List UInt8) : Prop :=
  flawed = false ∧ value = text

theorem meets_only {r : Reader α} {text value : List UInt8} {flawed : Bool} {a : α}
    (h : Takes r text a) (hvalue : Only text flawed value) :
    Meets r value (if flawed then none else some a) := by
  obtain ⟨rfl, rfl⟩ := hvalue
  exact h

end Given

section Arrays

variable {α : Type} {r : Reader α} {fits : α → Bool → List UInt8 → Prop}

/-- The items of an array, up to and with its closing bracket. The truth value
    says that one of them has a flawed text. -/
inductive Listed (fits : α → Bool → List UInt8 → Prop) :
    Bool → List α → Bool → List UInt8 → Prop where
  | done {first : Bool} {bs : List UInt8} (hbs : Blanks bs) :
      Listed fits first [] false (bs ++ [closeBracket])
  | item {first flawed others : Bool} {a : α} {as : List α} {lead bs value more : List UInt8}
      (hlead : Lead first lead) (hbs : Blanks bs) (hvalue : fits a flawed value)
      (hmore : Listed fits false as others more) :
      Listed fits first (a :: as) (flawed || others) (lead ++ (bs ++ (value ++ more)))

theorem ends_of_listed {as : List α} {spoilt : Bool} {text : List UInt8}
    (h : Listed fits false as spoilt text) (rest : List UInt8) : Ends (text ++ rest) := by
  cases h with
  | done hbs =>
      rw [List.append_assoc]
      exact ends_append hbs (ends_cons (by decide) _)
  | item hlead =>
      rw [List.append_assoc]
      exact ends_lead hlead _

theorem nextElement_end {first : Bool} {bs : List UInt8} (hbs : Blanks bs) (rest : List UInt8) :
    nextElement first ((bs ++ [closeBracket]) ++ rest) = .ok (false, rest) := by
  rw [List.append_assoc, nextElement, List.singleton_append, token_blanks hbs (by decide)]
  rfl

theorem nextElement_lead {first : Bool} {lead bs : List UInt8} {b : UInt8} (hlead : Lead first lead)
    (hbs : Blanks bs) (hblank : isBlank b = false) (hclose : b ≠ closeBracket) (s : List UInt8) :
    nextElement first (lead ++ (bs ++ b :: s)) = .ok (true, b :: s) := by
  have hskip : skipBlank (bs ++ b :: s) = b :: s := by
    rw [skipBlank_append hbs, skipBlank_cons hblank]
  cases hlead with
  | first =>
      rw [List.nil_append, nextElement, token_blanks hbs hblank]
      simp only [bind, Except.bind, if_neg hclose, if_true, hskip]
  | later hcs =>
      rw [List.append_assoc, List.singleton_append, nextElement, token_blanks hcs (by decide)]
      simp only [bind, Except.bind, if_neg (show comma ≠ closeBracket by decide),
        Bool.false_eq_true, if_false, if_true, token_blanks hbs hblank, if_neg hclose, hskip]

/-- The loop over the elements of an array. -/
theorem elements_listed
    (hfits : ∀ a flawed value, fits a flawed value →
      Meets r value (if flawed then none else some a))
    (hhead : ∀ a flawed value, fits a flawed value →
      ∃ b more, value = b :: more ∧ isBlank b = false ∧ b ≠ closeBracket)
    {first spoilt : Bool} {as : List α} {text : List UInt8} (h : Listed fits first as spoilt text)
    (rest : List UInt8) {n : Nat} (hn : text.length ≤ n) :
    if spoilt then ∃ flaw, elements r n first (text ++ rest) = .error flaw
    else elements r n first (text ++ rest) = .ok (as, rest) := by
  induction h generalizing n with
  | done hbs =>
      rw [List.length_append, List.length_singleton] at hn
      obtain ⟨n, rfl⟩ : ∃ m, n = m + 1 := ⟨n - 1, by omega⟩
      rw [if_neg Bool.false_ne_true, elements, nextElement_end hbs]
      rfl
  | @item first flawed others a as lead bs value more hlead hbs hvalue hmore ih =>
      obtain ⟨b, tail, rfl, hblank, hclose⟩ := hhead a flawed value hvalue
      simp only [List.length_append, List.length_cons] at hn
      obtain ⟨n, rfl⟩ : ∃ m, n = m + 1 := ⟨n - 1, by omega⟩
      have hnext : nextElement first ((lead ++ (bs ++ (b :: tail ++ more))) ++ rest) =
          .ok (true, b :: tail ++ (more ++ rest)) := by
        simp only [List.append_assoc, List.cons_append]
        exact nextElement_lead hlead hbs hblank hclose _
      have hmeets := hfits a flawed _ hvalue
      rw [elements, hnext]
      simp only [bind, Except.bind, if_true]
      cases flawed with
      | true =>
          obtain ⟨flaw, hflaw⟩ := hmeets [] (more ++ rest) blanks_nil (ends_of_listed hmore rest)
          rw [List.nil_append] at hflaw
          rw [Bool.true_or, if_pos rfl]
          exact ⟨flaw, by rw [hflaw]⟩
      | false =>
          have hread := hmeets [] (more ++ rest) blanks_nil (ends_of_listed hmore rest)
          rw [List.nil_append] at hread
          have hrest := ih (n := n) (by omega)
          simp only [Bool.false_or, hread]
          cases others with
          | true =>
              obtain ⟨flaw, hflaw⟩ := hrest
              exact ⟨flaw, by rw [hflaw]⟩
          | false =>
              simp only [Bool.false_eq_true, if_false] at hrest ⊢
              rw [hrest]

/-- An array is read if its elements are, and refused if one of them is. -/
theorem meets_listOf
    (hfits : ∀ a flawed value, fits a flawed value →
      Meets r value (if flawed then none else some a))
    (hhead : ∀ a flawed value, fits a flawed value →
      ∃ b more, value = b :: more ∧ isBlank b = false ∧ b ≠ closeBracket)
    {spoilt : Bool} {as : List α} {text : List UInt8} (h : Listed fits true as spoilt text) :
    Meets (listOf r) (openBracket :: text) (if spoilt then none else some as) := by
  have hloop (rest : List UInt8) := elements_listed hfits hhead h rest
    (n := (text ++ rest).length + 1) (by rw [List.length_append]; omega)
  have hlist (bs rest : List UInt8) (hbs : Blanks bs) :
      listOf r (bs ++ (openBracket :: text ++ rest)) =
        elements r ((text ++ rest).length + 1) true (text ++ rest) := by
    rw [List.cons_append, listOf, token_blanks hbs (by decide)]
    rfl
  cases spoilt with
  | true =>
      intro bs rest hbs _
      rw [hlist bs rest hbs]
      exact hloop rest
  | false =>
      intro bs rest hbs _
      rw [hlist bs rest hbs]
      exact hloop rest

end Arrays

end RingOverlay.Json
