import RingOverlay.Proofs.Json.Arrangement
import RingOverlay.Proofs.Wire.Delimiting

/-!
# Messages in Any Arrangement

Three kinds of object make up a message: the message itself, the content of its body and
the contacts in it. In each of them the members may come in any order, strangers may stand
among them, names may be spelled with escapes and blanks may be put wherever the notation
has room for them. The texts of a message are all texts that differ from what is written for
it in no more than that, together with those in which a field is lacking or comes twice. The
former are decoded as the message and the latter are refused, and a single relation
describes both, since a contact that is flawed makes everything around it flawed.

The object around a body is no record: it has one member, whose name says what follows, and
nothing may stand beside it. So there is nothing to rearrange in it.

## Main definitions

* `contactShape`, `contentShape`, `messageShape`: The fields of the three kinds of object.
* `ContactText`, `ContactsText`, `BodyText`, `MessageText`: The texts of what a message
  is made of, and of a message.

## Theorems

* `meets_contact`, `meets_contacts`, `meets_content`, `meets_body`: Each part is read in any
  arrangement, and refused if it is flawed.
* `decode_messageText`: So is a message.
* `recordText_object`: What is written for a record is one of its arrangements.
* `messageText_messageBytes`: What is written for a message is one of its own.
* `unpack_messageText`: A datagram is unpacked in any arrangement of its text.
-/

namespace RingOverlay.Wire

open Json Utf8

/-- The fields of a contact and their texts. -/
def contactShape (c : Contact) : Shape :=
  [ ("key", Only (ascii (decimal c.key.toNat))),
    ("address", fun flawed value => ∃ spelled, Spells spelled c.endpoint.host.spelling ∧
      Only (quote :: (spelled ++ [quote])) flawed value),
    ("port", Only (ascii (decimal c.endpoint.port.toNat))) ]

/-- A contact, some of whose fields have come. -/
def contactDraft (c : Contact) (seen : List String) : Reading.ContactDraft :=
  ⟨given seen "key" c.key.toNat, given seen "address" c.endpoint.host,
    given seen "port" c.endpoint.port.toNat⟩

theorem drafts_contact (c : Contact) :
    Drafts Reading.contactFields (contactShape c) (contactDraft c) where
  field name fits h := by
    simp only [contactShape, List.mem_cons, Prod.mk.injEq, List.not_mem_nil, or_false] at h
    rcases h with ⟨rfl, rfl⟩ | ⟨rfl, rfl⟩ | ⟨rfl, rfl⟩
    · exact draftsField_of rfl (fun _ => rfl)
        (fun seen => by simp [contactDraft, given_cons_self, given_cons_ne])
        fun _ _ => meets_only (takes_unsigned (by decide) c.key.toNat_lt)
    · refine draftsField_of rfl (fun _ => rfl)
        (fun seen => by simp [contactDraft, given_cons_self, given_cons_ne])
        fun flawed value hvalue => ?_
      obtain ⟨spelled, hspelled, honly⟩ := hvalue
      have hparse : Host.parse? (String.ofList c.endpoint.host.spelling).toList =
          some c.endpoint.host := by
        rw [String.toList_ofList, Host.parse?_spelling]
      exact meets_only (takes_stringAs hspelled hparse) honly
    · exact draftsField_of rfl (fun _ => rfl)
        (fun seen => by simp [contactDraft, given_cons_self, given_cons_ne])
        fun _ _ => meets_only (takes_unsigned (by decide) c.endpoint.port.toNat_lt)
  names := rfl

theorem contactDraft_finish (c : Contact) (last : List String) :
    (contactDraft c last).finish =
      if ∀ name ∈ (contactShape c).names, name ∈ last then some c else none := by
  simp only [contactShape, Shape.names, List.map_cons, List.map_nil, List.forall_mem_cons,
    List.not_mem_nil, false_implies, implies_true, and_true, ite_and, contactDraft,
    Reading.ContactDraft.finish, Option.bind_eq_bind, given_bind, Option.pure_def,
    UInt64.ofNat_toNat, UInt16.ofNat_toNat]

/-- The texts of a contact. -/
def ContactText (c : Contact) : Bool → List UInt8 → Prop := RecordText (contactShape c)

theorem meets_contact (c : Contact) (flawed : Bool) (value : List UInt8)
    (h : ContactText c flawed value) :
    Meets Reading.contact value (if flawed then none else some c) :=
  meets_recordText (drafts_contact c) (contactDraft_finish c) h

/-- The texts of a list of contacts: an array of contacts, in order. -/
def ContactsText (cs : List Contact) (flawed : Bool) (text : List UInt8) : Prop :=
  ∃ items, text = openBracket :: items ∧ Listed ContactText true cs flawed items

theorem meets_contacts (cs : List Contact) (flawed : Bool) (value : List UInt8)
    (h : ContactsText cs flawed value) :
    Meets (listOf Reading.contact) value (if flawed then none else some cs) := by
  obtain ⟨items, rfl, hitems⟩ := h
  refine meets_listOf meets_contact (fun c flawed value hvalue => ?_) hitems
  obtain ⟨_, _, inner, rfl, -, -⟩ := hvalue
  exact ⟨openBrace, inner, rfl, by decide, by decide⟩

/-- The fields of the content of a body and their texts. -/
def contentShape : Body → Shape
  | .predecessor c | .claim c => [("node", ContactText c)]
  | .askOwner id => [("key", Only (ascii (decimal id.toNat)))]
  | .owner c resolved =>
    [("node", ContactText c), ("resolved", Only (ascii (truth resolved)))]
  | .successors cs => [("successors", ContactsText cs)]
  | .askPredecessor | .askSuccessors | .askAlive | .alive => []

section Contents

variable {α β : Type} {r : Reader α} {value : List UInt8} {flawed : Bool} {a : α}

theorem meets_mapped (f : α → β) (h : Meets r value (if flawed then none else some a)) :
    Meets (Reading.mapped f r) value (if flawed then none else some (f a)) := by
  cases flawed with
  | false =>
      intro bs rest hbs hrest
      have hread : r (bs ++ (value ++ rest)) = .ok (a, rest) := h bs rest hbs hrest
      simp only [Reading.mapped, hread, bind, Except.bind]
  | true =>
      intro bs rest hbs hrest
      obtain ⟨flaw, hflaw⟩ := h bs rest hbs hrest
      exact ⟨flaw, by simp only [Reading.mapped, hflaw, bind, Except.bind]⟩

/-- A record with a single field is read as the value of that field. -/
theorem meets_single {name : String} {fits : Bool → List UInt8 → Prop}
    (hfits : ∀ flawed value, fits flawed value → Meets r value (if flawed then none else some a))
    (h : RecordText [(name, fits)] flawed value) :
    Meets (Reading.single name r) value (if flawed then none else some a) := by
  have hd : Drafts [RecordField.of name id (fun _ a => some a) r] [(name, fits)]
      (fun seen => given seen name a) := {
    field := fun other fits' hmem => by
      simp only [List.mem_singleton, Prod.mk.injEq] at hmem
      obtain ⟨rfl, rfl⟩ := hmem
      exact draftsField_of (List.find?_cons_of_pos (by simp [RecordField.of])) (fun _ => rfl)
        (fun seen => (given_cons_self seen other a).symm) hfits
    names := rfl }
  refine meets_recordText hd (fun last => ?_) h
  simp only [id_eq, given, Shape.names, List.map_cons, List.map_nil, List.forall_mem_cons,
    List.not_mem_nil, false_implies, implies_true, and_true]

/-- The answer to a lookup, some of whose fields have come. -/
def ownerDraft (c : Contact) (resolved : Bool) (seen : List String) : Reading.OwnerDraft :=
  ⟨given seen "node" c, given seen "resolved" resolved⟩

theorem drafts_owner (c : Contact) (resolved : Bool) :
    Drafts Reading.ownerFields (contentShape (.owner c resolved)) (ownerDraft c resolved) where
  field name fits h := by
    simp only [contentShape, List.mem_cons, Prod.mk.injEq, List.not_mem_nil, or_false] at h
    rcases h with ⟨rfl, rfl⟩ | ⟨rfl, rfl⟩
    · exact draftsField_of rfl (fun _ => rfl)
        (fun seen => by simp [ownerDraft, given_cons_self, given_cons_ne]) (meets_contact c)
    · exact draftsField_of rfl (fun _ => rfl)
        (fun seen => by simp [ownerDraft, given_cons_self, given_cons_ne])
        fun _ _ => meets_only (takes_boolean resolved)
  names := rfl

theorem ownerDraft_finish (c : Contact) (resolved : Bool) (last : List String) :
    (ownerDraft c resolved last).finish =
      if ∀ name ∈ (contentShape (.owner c resolved)).names, name ∈ last
        then some (.owner c resolved) else none := by
  simp only [contentShape, Shape.names, List.map_cons, List.map_nil, List.forall_mem_cons,
    List.not_mem_nil, false_implies, implies_true, and_true, ite_and, ownerDraft,
    Reading.OwnerDraft.finish, Option.bind_eq_bind, given_bind, Option.pure_def]

/-- The content of a body is read in any arrangement as the body. -/
theorem meets_content {b : Body} (hb : content b ≠ none)
    (h : RecordText (contentShape b) flawed value) :
    Meets (Reading.content b.kind) value (if flawed then none else some b) := by
  cases b with
  | predecessor c => exact meets_mapped _ (meets_single (meets_contact c) h)
  | claim c => exact meets_mapped _ (meets_single (meets_contact c) h)
  | askOwner id =>
      have hkey := meets_mapped (fun n => Body.askOwner (UInt64.ofNat n))
        (meets_single (fun flawed value hvalue =>
          meets_only (takes_unsigned (by decide) id.toNat_lt) hvalue) h)
      rwa [UInt64.ofNat_toNat] at hkey
  | owner c resolved =>
      exact meets_recordText (drafts_owner c resolved) (ownerDraft_finish c resolved) h
  | successors cs => exact meets_mapped _ (meets_single (meets_contacts cs) h)
  | askPredecessor => exact absurd rfl hb
  | askSuccessors => exact absurd rfl hb
  | askAlive => exact absurd rfl hb
  | alive => exact absurd rfl hb

end Contents

/-- The texts of a body: the name of its kind, with its content behind it if it
    has any. There is nothing to rearrange about the name. -/
inductive BodyText (b : Body) : Bool → List UInt8 → Prop where
  | bare {spelled : List UInt8} (hb : content b = none)
      (hname : Spells spelled b.kind.name.toList) :
      BodyText b false (quote :: (spelled ++ [quote]))
  | full {flawed : Bool} {bs spelled cs ds inner es : List UInt8} (hb : content b ≠ none)
      (hbs : Blanks bs) (hname : Spells spelled b.kind.name.toList) (hcs : Blanks cs)
      (hds : Blanks ds) (hinner : RecordText (contentShape b) flawed inner) (hes : Blanks es) :
      BodyText b flawed
        (openBrace :: memberThen [] bs spelled cs ds inner (es ++ [closeBrace]))

theorem meets_body (b : Body) (flawed : Bool) (value : List UInt8) (h : BodyText b flawed value) :
    Meets Reading.body value (if flawed then none else some b) := by
  cases h with
  | @bare spelled hb hname =>
      intro bs rest hbs _
      have htail := stringTail_spells hname rest
      rw [String.ofList_toList] at htail
      rw [List.cons_append, Reading.body, token_blanks hbs (by decide)]
      simp only [List.append_assoc, List.singleton_append, bind, Except.bind,
        if_neg (show quote ≠ openBrace by decide), if_true, htail,
        Kind.ofName?_name b.kind_ne_absent, Option.bind_some, bare?_of_content hb]
  | @full _ bs spelled cs ds inner es hb hbs hname hcs hds hinner hes =>
      have hmeets := meets_content hb hinner
      have hname (rest : List UInt8) : stringAs Kind.ofName?
          (bs ++ (quote :: (spelled ++ [quote]) ++ (cs ++ colon :: rest))) =
            .ok (b.kind, cs ++ colon :: rest) :=
        takes_stringAs hname (by rw [String.ofList_toList, Kind.ofName?_name b.kind_ne_absent])
          bs _ hbs (ends_append hcs (ends_cons (by decide) _))
      have hbody (as rest : List UInt8) (has : Blanks as) :
          Reading.body (as ++ ((openBrace ::
              memberThen [] bs spelled cs ds inner (es ++ [closeBrace])) ++ rest)) =
            (Reading.content b.kind (ds ++ (inner ++ (es ++ closeBrace :: rest)))).bind
              fun p => (expectToken closeBrace p.2).bind fun q => .ok (p.1, q.2) := by
        have hname := hname (ds ++ (inner ++ (es ++ closeBrace :: rest)))
        simp only [List.cons_append, List.append_assoc, List.nil_append] at hname
        rw [List.cons_append, Reading.body, token_blanks has (by decide)]
        simp only [memberThen, List.nil_append, List.append_assoc, List.cons_append,
          bind, Except.bind, if_true, hname,
          expectToken_blanks hcs (show isBlank colon = false by decide)]
      have hends (rest : List UInt8) : Ends (es ++ closeBrace :: rest) :=
        ends_append hes (ends_cons (by decide) rest)
      cases flawed with
      | false =>
          intro as rest has _
          have hread : Reading.content b.kind (ds ++ (inner ++ (es ++ closeBrace :: rest))) =
              .ok (b, es ++ closeBrace :: rest) := hmeets ds _ hds (hends rest)
          rw [hbody as rest has, hread]
          simp only [Except.bind,
            expectToken_blanks hes (show isBlank closeBrace = false by decide)]
      | true =>
          intro as rest has _
          obtain ⟨flaw, hflaw⟩ := hmeets ds _ hds (hends rest)
          exact ⟨flaw, by rw [hbody as rest has, hflaw]; rfl⟩

/-- The fields of a message and their texts. -/
def messageShape (m : Message) : Shape :=
  [ ("version", Only (ascii (decimal m.version.toNat))),
    ("seq", Only (ascii (decimal m.seq.toNat))),
    ("msg", BodyText m.body) ]

/-- A message, some of whose fields have come. -/
def messageDraft (m : Message) (seen : List String) : Reading.MessageDraft :=
  ⟨given seen "version" m.version.toNat, given seen "seq" m.seq.toNat, given seen "msg" m.body⟩

theorem drafts_message (m : Message) :
    Drafts Reading.messageFields (messageShape m) (messageDraft m) where
  field name fits h := by
    simp only [messageShape, List.mem_cons, Prod.mk.injEq, List.not_mem_nil, or_false] at h
    rcases h with ⟨rfl, rfl⟩ | ⟨rfl, rfl⟩ | ⟨rfl, rfl⟩
    · exact draftsField_of rfl (fun _ => rfl)
        (fun seen => by simp [messageDraft, given_cons_self, given_cons_ne])
        fun _ _ => meets_only (takes_unsigned (by decide) m.version.toNat_lt)
    · exact draftsField_of rfl (fun _ => rfl)
        (fun seen => by simp [messageDraft, given_cons_self, given_cons_ne])
        fun _ _ => meets_only (takes_unsigned (by decide) m.seq.toNat_lt)
    · exact draftsField_of rfl (fun _ => rfl)
        (fun seen => by simp [messageDraft, given_cons_self, given_cons_ne]) (meets_body m.body)
  names := rfl

theorem messageDraft_finish (m : Message) (last : List String) :
    (messageDraft m last).finish =
      if ∀ name ∈ (messageShape m).names, name ∈ last then some m else none := by
  simp only [messageShape, Shape.names, List.map_cons, List.map_nil, List.forall_mem_cons,
    List.not_mem_nil, false_implies, implies_true, and_true, ite_and, messageDraft,
    Reading.MessageDraft.finish, Option.bind_eq_bind, given_bind, Option.pure_def,
    UInt32.ofNat_toNat, UInt64.ofNat_toNat]

/-- The texts of a message, with blanks around it. -/
def MessageText (m : Message) (flawed : Bool) (text : List UInt8) : Prop :=
  ∃ bs inner cs, Blanks bs ∧ Blanks cs ∧ RecordText (messageShape m) flawed inner ∧
    text = bs ++ (inner ++ cs)

/-- A message is decoded from any arrangement of its text, and from none that is
    flawed. -/
theorem decode_messageText {m : Message} {flawed : Bool} {text : List UInt8}
    (h : MessageText m flawed text) :
    if flawed then ∃ flaw, Reading.decode text = .error flaw
    else Reading.decode text = .ok m := by
  obtain ⟨bs, inner, cs, hbs, hcs, hinner, rfl⟩ := h
  have hmeets := meets_recordText (drafts_message m) (messageDraft_finish m) hinner
  cases flawed with
  | true => exact document_of_meets hbs hcs hmeets
  | false => exact document_of_meets hbs hcs hmeets

section Written

/-- Written members, none of them twice, are an arrangement. -/
theorem arranged_joined {shape : Shape} {items : List (String × List Char)}
    (hplain : ∀ p ∈ items, Plain p.1.toList)
    (hfits : ∀ p ∈ items, ∃ fits, (p.1, fits) ∈ shape ∧ fits false (ascii p.2))
    (first : Bool) (seen : List String) (hnew : ∀ p ∈ items, p.1 ∉ seen)
    (hnodup : (items.map Prod.fst).Nodup) :
    ∃ last, (∀ name, name ∈ last ↔ name ∈ seen ∨ name ∈ items.map Prod.fst) ∧
      Arranged shape first seen last false
        (ascii (joined first (items.map fun p => member p.1 p.2)) ++ [closeBrace]) := by
  induction items generalizing first seen with
  | nil =>
      refine ⟨seen, fun name => ?_, .done blanks_nil⟩
      simp only [List.map_nil, List.not_mem_nil, or_false]
  | cons p more ih =>
      obtain ⟨fits, hmem, hvalue⟩ := hfits p List.mem_cons_self
      rw [List.map_cons, List.nodup_cons] at hnodup
      obtain ⟨last, hlast, harranged⟩ := ih (fun q hq => hplain q (List.mem_cons_of_mem p hq))
        (fun q hq => hfits q (List.mem_cons_of_mem p hq)) false (p.1 :: seen)
        (fun q hq => by
          rw [List.mem_cons, not_or]
          refine ⟨?_, hnew q (List.mem_cons_of_mem p hq)⟩
          intro heq
          exact hnodup.1 (heq ▸ List.mem_map_of_mem hq)) hnodup.2
      refine ⟨last, fun name => ?_, ?_⟩
      · rw [hlast, List.mem_cons, List.map_cons, List.mem_cons, or_assoc, or_left_comm]
      · have hlead : Lead first (ascii (lead first)) := by
          cases first with
          | true => exact .first
          | false => exact .later blanks_nil
        have hall := Arranged.field hlead blanks_nil
          (spells_plain (hplain p List.mem_cons_self)) blanks_nil blanks_nil hmem
          (hnew p List.mem_cons_self) hvalue harranged
        have htext :
            ascii (joined first ((p :: more).map fun p => member p.1 p.2)) ++ [closeBrace] =
            memberThen (ascii (lead first)) [] (ascii p.1.toList) [] [] (ascii p.2)
              (ascii (joined false (more.map fun p => member p.1 p.2)) ++ [closeBrace]) := by
          simp only [List.map_cons, joined, member, quotedName, memberThen, ascii_append,
            ascii_cons, List.append_assoc, List.cons_append, List.nil_append]
          rfl
        rw [htext]
        exact hall

/-- A written record is one of its own arrangements. -/
theorem recordText_object (shape : Shape) (items : List (String × List Char))
    (hplain : ∀ p ∈ items, Plain p.1.toList)
    (hfits : ∀ p ∈ items, ∃ fits, (p.1, fits) ∈ shape ∧ fits false (ascii p.2))
    (hnodup : (items.map Prod.fst).Nodup) (hall : shape.names = items.map Prod.fst) :
    RecordText shape false (ascii (object (items.map fun p => member p.1 p.2))) := by
  obtain ⟨last, hlast, harranged⟩ := arranged_joined hplain hfits true []
    (fun _ _ => List.not_mem_nil) hnodup
  refine ⟨last, false, _, ?_, harranged, ?_⟩
  · rw [object, separated_eq_joined, List.cons_append, ascii_cons, ascii_append]
    rfl
  · have hcome : ∀ name ∈ shape.names, name ∈ last := fun name hname =>
      (hlast name).mpr (Or.inr (hall ▸ hname))
    rw [decide_eq_true hcome]
    rfl

theorem contactText_contact (c : Contact) : ContactText c false (ascii (contact c)) := by
  have haddress : ascii ('"' :: c.endpoint.host.spelling ++ ['"']) =
      quote :: (ascii c.endpoint.host.spelling ++ [quote]) := by
    rw [List.cons_append, ascii_cons, ascii_append]
    rfl
  refine recordText_object (contactShape c)
    [("key", decimal c.key.toNat), ("address", '"' :: c.endpoint.host.spelling ++ ['"']),
      ("port", decimal c.endpoint.port.toNat)] ?_ ?_
    (show ["key", "address", "port"].Nodup by decide) rfl
  · simp only [List.forall_mem_cons, List.not_mem_nil, false_implies, implies_true, and_true]
    decide
  · simp only [List.forall_mem_cons, List.not_mem_nil, false_implies, implies_true, and_true]
    refine ⟨⟨_, List.mem_cons_self, rfl, rfl⟩, ⟨_, List.mem_cons_of_mem _ List.mem_cons_self, ?_⟩,
      ⟨_, List.mem_cons_of_mem _ (List.mem_cons_of_mem _ List.mem_cons_self), rfl, rfl⟩⟩
    exact ⟨_, spells_plain c.endpoint.host.plain_spelling, rfl, haddress⟩

theorem listed_joined (cs : List Contact) (first : Bool) :
    Listed ContactText first cs false
      (ascii (joined first (cs.map contact)) ++ [closeBracket]) := by
  induction cs generalizing first with
  | nil => exact .done blanks_nil
  | cons c more ih =>
      have hlead : Lead first (ascii (lead first)) := by
        cases first with
        | true => exact .first
        | false => exact .later blanks_nil
      have hall := Listed.item hlead blanks_nil (contactText_contact c) (ih false)
      simpa only [List.map_cons, joined, ascii_append, List.append_assoc, List.nil_append,
        Bool.or_self] using hall

theorem contactsText_array (cs : List Contact) :
    ContactsText cs false (ascii (array (cs.map contact))) := by
  refine ⟨_, ?_, listed_joined cs true⟩
  rw [array, separated_eq_joined, List.cons_append, ascii_cons, ascii_append]
  rfl

/-- A record with a single field. -/
theorem recordText_single {name : String} {fits : Bool → List UInt8 → Prop} {value : List Char}
    (hplain : Plain name.toList) (hfits : fits false (ascii value)) :
    RecordText [(name, fits)] false (ascii (object [member name value])) := by
  refine recordText_object _ [(name, value)] ?_ ?_ (List.pairwise_singleton _ name) rfl
  · simpa only [List.mem_singleton, forall_eq] using hplain
  · simp only [List.mem_singleton, forall_eq]
    exact ⟨fits, rfl, hfits⟩

theorem contentText_content {b : Body} {members : List (List Char)}
    (h : content b = some members) :
    RecordText (contentShape b) false (ascii (object members)) := by
  cases b with
  | predecessor c =>
      cases h
      exact recordText_single (by decide) (contactText_contact c)
  | claim c =>
      cases h
      exact recordText_single (by decide) (contactText_contact c)
  | askOwner id =>
      cases h
      exact recordText_single (by decide) ⟨rfl, rfl⟩
  | owner c resolved =>
      cases h
      refine recordText_object _ [("node", contact c), ("resolved", truth resolved)] ?_ ?_
        (show ["node", "resolved"].Nodup by decide) rfl
      · simp only [List.forall_mem_cons, List.not_mem_nil, false_implies, implies_true, and_true]
        decide
      · simp only [List.forall_mem_cons, List.not_mem_nil, false_implies, implies_true, and_true]
        exact ⟨⟨_, List.mem_cons_self, contactText_contact c⟩,
          ⟨_, List.mem_cons_of_mem _ List.mem_cons_self, rfl, rfl⟩⟩
  | successors cs =>
      cases h
      exact recordText_single (by decide) (contactsText_array cs)
  | askPredecessor => cases h
  | askSuccessors => cases h
  | askAlive => cases h
  | alive => cases h

theorem bodyText_body (b : Body) : BodyText b false (ascii (body b)) := by
  have hname := spells_plain b.kind.plain_name
  cases hcontent : content b with
  | none =>
      have htext : ascii (body b) = quote :: (ascii b.kind.name.toList ++ [quote]) := by
        rw [body, hcontent]
        simp only [quotedName, List.cons_append, ascii_cons, ascii_append]
        rfl
      rw [htext]
      exact .bare hcontent hname
  | some members =>
      have htext : ascii (body b) = openBrace :: memberThen [] [] (ascii b.kind.name.toList) [] []
          (ascii (object members)) ([] ++ [closeBrace]) := by
        have hbody : body b =
            '\x7b' :: (quotedName b.kind.name ++ ':' :: object members) ++ ['\x7d'] := by
          rw [body, hcontent]
          rfl
        rw [hbody]
        generalize object members = inner
        simp only [quotedName, memberThen, List.cons_append, ascii_cons, ascii_append,
          List.append_assoc, List.nil_append]
        rfl
      have hsome : content b ≠ none := by
        rw [hcontent]
        exact Option.some_ne_none members
      rw [htext]
      exact .full hsome blanks_nil hname blanks_nil blanks_nil (contentText_content hcontent)
        blanks_nil

/-- What is written for a message is one of its own arrangements. -/
theorem messageText_messageBytes (m : Message) : MessageText m false (messageBytes m) := by
  refine ⟨[], _, [], blanks_nil, blanks_nil, ?_, by rw [List.append_nil, List.nil_append]⟩
  refine recordText_object (messageShape m)
    [("version", decimal m.version.toNat), ("seq", decimal m.seq.toNat), ("msg", body m.body)]
    ?_ ?_ (show ["version", "seq", "msg"].Nodup by decide) rfl
  · simp only [List.forall_mem_cons, List.not_mem_nil, false_implies, implies_true, and_true]
    decide
  · simp only [List.forall_mem_cons, List.not_mem_nil, false_implies, implies_true, and_true]
    exact ⟨⟨_, List.mem_cons_self, rfl, rfl⟩,
      ⟨_, List.mem_cons_of_mem _ List.mem_cons_self, rfl, rfl⟩,
      ⟨_, List.mem_cons_of_mem _ (List.mem_cons_of_mem _ List.mem_cons_self),
        bodyText_body m.body⟩⟩

end Written

/-- How a message is arranged makes no difference. What is written for it is one
    of its arrangements; a datagram that counts an arrangement correctly is
    unpacked as the message if every field has come once, in the message, in the
    content of its body and in every contact there, and is refused as a text
    otherwise. -/
theorem unpack_messageText (m : Message) :
    MessageText m false (messageBytes m) ∧
    ∀ front text : List UInt8, front.length = lengthSize → ofBigEndian front = text.length →
      (MessageText m false text → unpack (front ++ text) = .ok m) ∧
      (MessageText m true text → ∃ flaw, unpack (front ++ text) = .error (.codec flaw)) := by
  refine ⟨messageText_messageBytes m, fun front text hfront hcount => ?_⟩
  have htake : (front ++ text).take lengthSize = front := List.take_left' hfront
  have hdrop : (front ++ text).drop lengthSize = text := List.drop_left' hfront
  have hunpack : unpack (front ++ text) = (Reading.decode text).mapError .codec := by
    rw [unpack_of_framed, hdrop]
    · rw [List.length_append, hfront]
      exact Nat.le_add_right _ _
    · rw [htake, hdrop, hcount]
  refine ⟨fun htext => ?_, fun htext => ?_⟩
  · have hdecode : Reading.decode text = .ok m := decode_messageText htext
    rw [hunpack, hdecode]
    rfl
  · obtain ⟨flaw, hflaw⟩ := decode_messageText htext
    exact ⟨flaw, by rw [hunpack, hflaw]; rfl⟩

/-- A question with its members in another order and a stranger among them. The
    same question with a number too many and no version. -/
theorem shuffled_question_unpacks :
    let m : Message := ⟨protocolVersion, 7, .askAlive⟩
    let text := ascii
      "\x7b\"msg\":\"CheckPredecessorRequest\",\"x\":[null],\"seq\":7,\"version\":417\x7d".toList
    let wrong := ascii
      "\x7b\"seq\":7,\"seq\":null,\"msg\":\"CheckPredecessorRequest\"\x7d".toList
    unpack (bigEndian lengthSize text.length ++ text) = .ok m ∧
      ∃ flaw, unpack (bigEndian lengthSize wrong.length ++ wrong) = .error (.codec flaw) := by
  intro m text wrong
  have hversion : ("version", Only (ascii (decimal 417))) ∈ messageShape m := List.mem_cons_self
  have hseq : ("seq", Only (ascii (decimal 7))) ∈ messageShape m :=
    List.mem_cons_of_mem _ List.mem_cons_self
  have hmsg : ("msg", BodyText m.body) ∈ messageShape m :=
    List.mem_cons_of_mem _ (List.mem_cons_of_mem _ List.mem_cons_self)
  have hbody : BodyText m.body false
      (quote :: (ascii "CheckPredecessorRequest".toList ++ [quote])) :=
    .bare rfl (spells_plain (by decide))
  have hmsgName : Spells (ascii "msg".toList) "msg".toList := spells_plain (by decide)
  have hseqName : Spells (ascii "seq".toList) "seq".toList := spells_plain (by decide)
  have hversionName : Spells (ascii "version".toList) "version".toList := spells_plain (by decide)
  have hstranger : Spells (ascii "x".toList) "x".toList := spells_plain (by decide)
  have hlater : Lead false [comma] := .later blanks_nil
  have hnull : Phrase .value (openBracket :: (0x6e :: nullTail ++ [closeBracket])) :=
    .array (.item .first blanks_nil .null (.endItems blanks_nil))
  have htext : MessageText m false text := by
    refine ⟨[], text, [], blanks_nil, blanks_nil, ⟨["version", "seq", "msg"], false, _, ?_,
      .field .first blanks_nil hmsgName blanks_nil blanks_nil hmsg (by decide) hbody <|
      .foreign hlater blanks_nil hstranger blanks_nil blanks_nil (by decide) hnull <|
      .field hlater blanks_nil hseqName blanks_nil blanks_nil hseq (by decide) ⟨rfl, rfl⟩ <|
      .field hlater blanks_nil hversionName blanks_nil blanks_nil hversion (by decide) ⟨rfl, rfl⟩ <|
      .done blanks_nil, ?_⟩, ?_⟩
    · decide +kernel
    · decide +kernel
    · decide +kernel
  have hwrong : MessageText m true wrong := by
    refine ⟨[], wrong, [], blanks_nil, blanks_nil, ⟨["msg", "seq"], true, _, ?_,
      .field .first blanks_nil hseqName blanks_nil blanks_nil hseq (by decide) ⟨rfl, rfl⟩ <|
      .repeated hlater blanks_nil hseqName blanks_nil blanks_nil (by decide) (by decide) .null <|
      .field hlater blanks_nil hmsgName blanks_nil blanks_nil hmsg (by decide) hbody <|
      .done blanks_nil, rfl⟩, ?_⟩
    · decide +kernel
    · decide +kernel
  have hcount (s : List UInt8) (hs : s.length < 2 ^ 64) :
      ofBigEndian (bigEndian lengthSize s.length) = s.length :=
    (ofBigEndian_bigEndian _ _).trans (Nat.mod_eq_of_lt hs)
  exact ⟨((unpack_messageText m).2 _ text (length_bigEndian _ _)
      (hcount text (by decide +kernel))).1 htext,
    ((unpack_messageText m).2 _ wrong (length_bigEndian _ _)
      (hcount wrong (by decide +kernel))).2 hwrong⟩

end RingOverlay.Wire
