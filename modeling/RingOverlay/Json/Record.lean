import RingOverlay.Json.Skip

/-!
# Reading Typed Values

Values of a wanted type. A value of the wrong type is an unfit one, but only if
it is JSON as far as it has to be read to know its type, so `mismatch` reads
that far before it complains.

A record can be written as an object or as an array. In an object its members
may stand in any order and unknown members are passed over, but a known member
may not come twice. In an array the fields stand in the order of the
declaration and there may be no further element. Either way the fields are
collected in a draft, and what the draft lacks in the end is the business of
whoever asked for the record: it may be a fault or have a default.

## Main definitions

* `unsigned`, `boolean`, `string`, `null`: Simple values.
* `listOf`: An array of values of one type.
* `RecordField`: One field of a record.
* `record`: A record in either form.
-/

namespace RingOverlay.Json

/-- The fault of finding some other value than the one wanted. The first byte
    of that value has been taken. -/
def mismatch {α : Type} (b : UInt8) : Reader α := fun s =>
  if b = 0x6e then do let _ ← word nullTail s; .error .unfit
  else if b = 0x74 then do let _ ← word trueTail s; .error .unfit
  else if b = 0x66 then do let _ ← word falseTail s; .error .unfit
  else if b = minus || isDigit b then do let _ ← numeral (b :: s); .error .unfit
  else if b = quote then do let _ ← stringTail s; .error .unfit
  else if b = openBracket || b = openBrace then .error .unfit
  else .error .syntactic

/-- Read an unsigned integer below `2 ^ bits`. -/
def unsigned (bits : Nat) : Reader Nat := fun s => do
  let (b, rest) ← token s
  if b = minus || isDigit b then
    let (n?, rest) ← numeral (b :: rest)
    match n? with
    | some n => if n < Nat.pow 2 bits then .ok (n, rest) else .error .unfit
    | none => .error .unfit
  else mismatch b rest

/-- Read a truth value. -/
def boolean : Reader Bool := fun s => do
  let (b, rest) ← token s
  if b = 0x74 then do
    let (_, rest) ← word trueTail rest
    .ok (true, rest)
  else if b = 0x66 then do
    let (_, rest) ← word falseTail rest
    .ok (false, rest)
  else mismatch b rest

/-- Read a string. -/
def string : Reader String := fun s => do
  let (b, rest) ← token s
  if b = quote then stringTail rest else mismatch b rest

/-- Read the word `null`. -/
def null : Reader Unit := fun s => do
  let (b, rest) ← token s
  if b = 0x6e then word nullTail rest else mismatch b rest

/-- Read a string and hand its content to a further test. -/
def stringAs {α : Type} (parse? : String → Option α) : Reader α := fun s => do
  let (text, rest) ← string s
  match parse? text with
  | some a => .ok (a, rest)
  | none => .error .unfit

/-- Go to the next element of an array: `false` if the array closes instead.
    `first` says that no element has been read yet. -/
def nextElement (first : Bool) : Reader Bool := fun s => do
  let (b, rest) ← token s
  if b = closeBracket then .ok (false, rest)
  else if first then .ok (true, skipBlank s)
  else if b = comma then
    let (c, _) ← token rest
    if c = closeBracket then .error .syntactic else .ok (true, skipBlank rest)
  else .error .syntactic

/-- The elements of an array, up to and with the closing bracket. Every element
    takes a byte, so the length of the text bounds their number. -/
def elements {α : Type} (r : Reader α) : Nat → Bool → Reader (List α)
  | 0, _, _ => .error .truncated
  | n + 1, first, s => do
    let (more, s) ← nextElement first s
    if more then
      let (a, s) ← r s
      let (rest, s) ← elements r n false s
      .ok (a :: rest, s)
    else .ok ([], s)

/-- Read an array of values of one type. -/
def listOf {α : Type} (r : Reader α) : Reader (List α) := fun s => do
  let (b, rest) ← token s
  if b = openBracket then elements r (rest.length + 1) true rest else mismatch b rest

/-- One field of a record: its name, whether a draft has it already, and how
    its value is read into a draft. -/
structure RecordField (δ : Type) where
  name : String
  taken : δ → Bool
  read : δ → Reader δ

/-- A field whose value is read by `r` and kept in the draft by `put`. -/
def RecordField.of {δ α : Type} (name : String) (get : δ → Option α) (put : δ → α → δ)
    (r : Reader α) : RecordField δ where
  name := name
  taken d := (get d).isSome
  read d := fun s => do
    let (a, rest) ← r s
    .ok (put d a, rest)

/-- Go to the next member of an object: its name, or `none` if the object closes
    instead. -/
def nextName (first : Bool) : Reader (Option String) := fun s => do
  let (b, rest) ← token s
  if b = closeBrace then .ok (none, rest)
  else if first then
    if b = quote then do
      let (name, rest) ← stringTail rest
      .ok (some name, rest)
    else .error .syntactic
  else if b = comma then
    let (c, rest) ← token rest
    if c = quote then do
      let (name, rest) ← stringTail rest
      .ok (some name, rest)
    else .error .syntactic
  else .error .syntactic

/-- Read the rest of a member whose name is known into the draft. A second
    member of the same name is refused before its value is looked at. -/
def member {δ : Type} (fields : List (RecordField δ)) (name : String) (draft : δ) :
    Reader δ := fun s =>
  match fields.find? fun f => f.name = name with
  | some f =>
    if f.taken draft then .error .unfit
    else do
      let (_, s) ← expectToken colon s
      f.read draft s
  | none => do
    let (_, s) ← expectToken colon s
    let (_, s) ← skipValue s
    .ok (draft, s)

/-- The members of an object, up to and with the closing brace. -/
def members {δ : Type} (fields : List (RecordField δ)) : Nat → Bool → δ → Reader δ
  | 0, _, _, _ => .error .truncated
  | n + 1, first, draft, s => do
    let (name?, s) ← nextName first s
    match name? with
    | none => .ok (draft, s)
    | some name =>
      let (draft, s) ← member fields name draft s
      members fields n false draft s

/-- The fields of a record written as an array, as many as there are. The
    second component says whether the bracket has been closed already. -/
def places {δ : Type} : List (RecordField δ) → Bool → δ → Reader (δ × Bool)
  | [], _, draft, s => .ok ((draft, false), s)
  | f :: fields, first, draft, s => do
    let (more, s) ← nextElement first s
    if more then
      let (draft, s) ← f.read draft s
      places fields false draft s
    else .ok ((draft, true), s)

/-- Judge a draft. -/
def settle {δ α : Type} (finish : δ → Option α) (draft : δ) : Except Flaw α :=
  match finish draft with
  | some a => .ok a
  | none => .error .unfit

/-- Read a record in either form. -/
def record {δ α : Type} (fields : List (RecordField δ)) (blank : δ) (finish : δ → Option α) :
    Reader α := fun s => do
  let (b, rest) ← token s
  if b = openBrace then
    let (draft, rest) ← members fields (rest.length + 1) true blank rest
    let a ← settle finish draft
    .ok (a, rest)
  else if b = openBracket then
    let ((draft, closed), rest) ← places fields true blank rest
    let a ← settle finish draft
    if closed then .ok (a, rest)
    else
      let (_, rest) ← expectToken closeBracket rest
      .ok (a, rest)
  else mismatch b rest

end RingOverlay.Json
