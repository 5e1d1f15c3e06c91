import RingOverlay.Proofs.Json.Compound
import RingOverlay.Wire.Frame

/-!
# Messages Survive the Wire

A message that is packed and unpacked again is the message it was. Reading is wider
than writing, so this is not a matter of two tables that mirror each other: what is
written has to be among what is read, and it has to be read as nothing else.

The argument goes up the layers. A contact is a record of three simple values, the
content of a body is a record of contacts and simple values, a body is the name of its
kind around its content, and a message is a record around a body. At each layer the
members are written in the order in which the fields are declared, so every member
finds its field still empty. In the end the length in front says how long the text is,
as long as eight bytes can say it.

## Theorems

* `reads_contact`, `reads_content`, `reads_body`, `reads_message`: One for each layer.
* `decode_messageBytes`: A message is read back from its text.
* `ofBigEndian_bigEndian`: A length is read back from its bytes.
* `unframe_frame_iff`: A text is taken out of its frame unless it is too long to have one.
* `unpack_pack`: A message is read back from its datagram.
-/

namespace RingOverlay

open Json Utf8

theorem Host.plain_spelling (h : Host) : Plain h.spelling := by
  have hdigit {b : UInt8} {c : Char} (hc : c ∈ decimal b.toNat) :
      0x20 ≤ c.toNat ∧ c.toNat < 0x80 ∧ c ≠ '"' ∧ c ≠ '\\' := by
    have hdig := isDigit_of_mem_decimal hc
    refine ⟨?_, toNat_lt_of_isDigit hdig, ?_, ?_⟩
    · exact Nat.le_trans (by decide) (Char.isDigit_iff_toNat.mp hdig).1
    · rintro rfl
      cases hdig
    · rintro rfl
      cases hdig
  have hpoint : 0x20 ≤ '.'.toNat ∧ '.'.toNat < 0x80 ∧ '.' ≠ '"' ∧ '.' ≠ '\\' := by decide
  intro c hc
  simp only [Host.spelling, List.append_assoc, List.cons_append, List.mem_append,
    List.mem_cons] at hc
  rcases hc with hc | rfl | hc | rfl | hc | rfl | hc
  · exact hdigit hc
  · exact hpoint
  · exact hdigit hc
  · exact hpoint
  · exact hdigit hc
  · exact hpoint
  · exact hdigit hc

theorem Kind.plain_name (k : Kind) : Plain k.name.toList := by
  cases k <;> decide

theorem Kind.ofName?_name {k : Kind} (h : k ≠ .absent) : Kind.ofName? k.name = some k := by
  cases k with
  | absent => exact absurd rfl h
  | _ => rfl

theorem Body.kind_ne_absent (b : Body) : b.kind ≠ .absent := by
  cases b <;> exact Kind.noConfusion

namespace Wire

theorem reads_contact (c : Contact) : Reads Reading.contact (contact c) c := by
  have hhost : Reads (stringAs fun s => Host.parse? s.toList)
      ('"' :: c.endpoint.host.spelling ++ ['"']) c.endpoint.host :=
    reads_stringAs c.endpoint.host.plain_spelling
      (by rw [String.toList_ofList, Host.parse?_spelling])
  have hfills : Fills Reading.contactFields {}
      [member "key" (decimal c.key.toNat),
        member "address" ('"' :: c.endpoint.host.spelling ++ ['"']),
        member "port" (decimal c.endpoint.port.toNat)]
      ⟨some c.key.toNat, some c.endpoint.host, some c.endpoint.port.toNat⟩ :=
    .more _ (by decide) rfl rfl
        (reads_of _ _ _ _ (reads_unsigned (by decide) c.key.toNat_lt)) <|
      .more _ (by decide) rfl rfl (reads_of _ _ _ _ hhost) <|
        .more _ (by decide) rfl rfl
          (reads_of _ _ _ _ (reads_unsigned (by decide) c.endpoint.port.toNat_lt)) (.done _)
  refine reads_record hfills ?_
  simp only [Reading.ContactDraft.finish, Option.bind_eq_bind, Option.bind_some, Option.pure_def,
    UInt64.ofNat_toNat, UInt16.ofNat_toNat]

theorem solid_contact (c : Contact) : Solid (contact c) :=
  ⟨'\x7b', _, rfl, by decide, by decide⟩

section Bodies

variable {α β : Type} {r : Reader α} {text : List Char} {a : α}

theorem reads_mapped (f : α → β) (h : Reads r text a) : Reads (Reading.mapped f r) text (f a) := by
  intro rest hrest
  simp only [Reading.mapped, h rest hrest, bind, Except.bind]

theorem reads_single {name : String} (hname : Plain name.toList) (h : Reads r text a) :
    Reads (Reading.single name r) (object [member name text]) a := by
  have hfind : List.find? (fun f => f.name = name)
      [RecordField.of name id (fun _ a => some a) r] =
        some (RecordField.of name id (fun _ a => some a) r) :=
    List.find?_cons_of_pos (by simp [RecordField.of])
  exact reads_record (.more _ hname hfind rfl (reads_of _ _ _ _ h) (.done _)) rfl

theorem reads_owner (c : Contact) (resolved : Bool) :
    Reads (record Reading.ownerFields {} Reading.OwnerDraft.finish)
      (object [member "node" (contact c), member "resolved" (truth resolved)])
      (.owner c resolved) := by
  have hfills : Fills Reading.ownerFields {}
      [member "node" (contact c), member "resolved" (truth resolved)]
      ⟨some c, some resolved⟩ :=
    .more _ (by decide) rfl rfl (reads_of _ _ _ _ (reads_contact c)) <|
      .more _ (by decide) rfl rfl (reads_of _ _ _ _ (reads_boolean resolved)) (.done _)
  exact reads_record hfills rfl

/-- The content of a body is read back as that body. -/
theorem reads_content {b : Body} {members : List (List Char)} (h : content b = some members) :
    Reads (Reading.content b.kind) (object members) b := by
  cases b with
  | predecessor c =>
      cases h
      exact reads_mapped _ (reads_single (by decide) (reads_contact c))
  | claim c =>
      cases h
      exact reads_mapped _ (reads_single (by decide) (reads_contact c))
  | askOwner id =>
      cases h
      have hkey : Plain "key".toList := by decide
      have hread := reads_mapped (fun n => Body.askOwner (UInt64.ofNat n))
        (reads_single hkey (reads_unsigned (by decide) id.toNat_lt))
      rwa [UInt64.ofNat_toNat] at hread
  | owner c resolved =>
      cases h
      exact reads_owner c resolved
  | successors cs =>
      cases h
      exact reads_mapped _ (reads_single (by decide)
        (reads_listOf (fun c _ => reads_contact c) fun c _ => solid_contact c))
  | askPredecessor => cases h
  | askSuccessors => cases h
  | askAlive => cases h
  | alive => cases h

end Bodies

/-- A body without content is its name. -/
theorem bare?_of_content {b : Body} (h : content b = none) : Reading.bare? b.kind = some b := by
  cases b with
  | askPredecessor => rfl
  | askSuccessors => rfl
  | askAlive => rfl
  | alive => rfl
  | predecessor c => cases h
  | claim c => cases h
  | askOwner id => cases h
  | owner c resolved => cases h
  | successors cs => cases h

theorem reads_body (b : Body) : Reads Reading.body (body b) b := by
  intro rest hrest
  cases hcontent : content b with
  | none =>
      have hname : stringTail (ascii b.kind.name.toList ++ quote :: rest) =
          .ok (b.kind.name, rest) := by
        rw [stringTail_plain b.kind.plain_name, String.ofList_toList]
      have hquote (s : List UInt8) : token (quote :: s) = .ok (quote, s) := token_cons (by decide)
      have htext : ascii (body b) ++ rest =
          quote :: (ascii b.kind.name.toList ++ quote :: rest) := by
        rw [body, hcontent]
        simp only [quotedName, List.cons_append, ascii_cons, ascii_append, List.append_assoc]
        rfl
      rw [htext, Reading.body, hquote]
      simp only [bind, Except.bind, show quote ≠ openBrace by decide, if_false, if_true, hname,
        Kind.ofName?_name b.kind_ne_absent, Option.bind_some, bare?_of_content hcontent]
  | some members =>
      have hopen (s : List UInt8) : token (openBrace :: s) = .ok (openBrace, s) :=
        token_cons (by decide)
      have hcolon (s : List UInt8) : expectToken colon (colon :: s) = .ok ((), s) :=
        expectToken_cons (by decide)
      have hclose (s : List UInt8) : expectToken closeBrace (closeBrace :: s) = .ok ((), s) :=
        expectToken_cons (by decide)
      have hname (s : List UInt8) :
          stringAs Kind.ofName? (ascii ('"' :: b.kind.name.toList ++ ['"']) ++ s) =
            .ok (b.kind, s) :=
        stringAs_plain b.kind.plain_name
          (by rw [String.ofList_toList, Kind.ofName?_name b.kind_ne_absent]) s
      have htext : ascii (body b) ++ rest =
          openBrace :: (ascii ('"' :: b.kind.name.toList ++ ['"']) ++
            colon :: (ascii (object members) ++ closeBrace :: rest)) := by
        have hbody : body b =
            '\x7b' :: (quotedName b.kind.name ++ ':' :: object members) ++ ['\x7d'] := by
          rw [body, hcontent]
          rfl
        rw [hbody]
        generalize object members = inner
        simp only [quotedName, List.cons_append, ascii_cons, ascii_append, List.append_assoc]
        rfl
      have hends : Ends (closeBrace :: rest) := ends_cons (by decide) rest
      rw [htext, Reading.body, hopen]
      simp only [bind, Except.bind, if_true, hname, hcolon, reads_content hcontent _ hends, hclose]

theorem reads_message (m : Message) : Reads Reading.message (message m) m := by
  have hfills : Fills Reading.messageFields {}
      [member "version" (decimal m.version.toNat), member "seq" (decimal m.seq.toNat),
        member "msg" (body m.body)]
      ⟨some m.version.toNat, some m.seq.toNat, some m.body⟩ :=
    .more _ (by decide) rfl rfl
        (reads_of _ _ _ _ (reads_unsigned (by decide) m.version.toNat_lt)) <|
      .more _ (by decide) rfl rfl
          (reads_of _ _ _ _ (reads_unsigned (by decide) m.seq.toNat_lt)) <|
        .more _ (by decide) rfl rfl (reads_of _ _ _ _ (reads_body m.body)) (.done _)
  refine reads_record hfills ?_
  simp only [Reading.MessageDraft.finish, Option.bind_eq_bind, Option.bind_some, Option.pure_def,
    UInt32.ofNat_toNat, UInt64.ofNat_toNat]

/-- A message is read back from its text. -/
theorem decode_messageBytes (m : Message) : Reading.decode (messageBytes m) = .ok m := by
  have hread := reads_message m [] ends_nil
  rw [List.append_nil] at hread
  rw [Reading.decode, document, messageBytes, hread]
  rfl

theorem length_bigEndian (n x : Nat) : (bigEndian n x).length = n := by
  induction n generalizing x with
  | zero => rfl
  | succ n ih => rw [bigEndian, List.length_append, ih, List.length_singleton]

/-- What bytes say of a number they are given: all of it that there is room for. -/
theorem ofBigEndian_bigEndian (n x : Nat) : ofBigEndian (bigEndian n x) = x % 256 ^ n := by
  induction n generalizing x with
  | zero => rw [Nat.pow_zero, Nat.mod_one]; rfl
  | succ n ih =>
      have hlast : (UInt8.ofNat x).toNat = x % 256 := UInt8.toNat_ofNat'
      have hrest := ih (x / 256)
      rw [ofBigEndian] at hrest
      rw [ofBigEndian, bigEndian, List.foldl_append, hrest, List.foldl_cons, List.foldl_nil, hlast,
        Nat.pow_succ', Nat.mod_mul]
      omega

/-- A text is taken out of its frame, unless it is too long to have one. -/
theorem unframe_frame_iff (text : List UInt8) :
    unframe (frame text) = .ok text ↔ text.length < 2 ^ 64 := by
  have hprefix : (bigEndian lengthSize text.length).length = lengthSize := length_bigEndian _ _
  have htake : (frame text).take lengthSize = bigEndian lengthSize text.length :=
    List.take_left' hprefix
  have hdrop : (frame text).drop lengthSize = text := List.drop_left' hprefix
  have hlong : ¬ (frame text).length < lengthSize := by
    rw [frame, List.length_append, hprefix]
    omega
  have hclaimed : ofBigEndian ((frame text).take lengthSize) = text.length % 2 ^ 64 := by
    rw [htake, ofBigEndian_bigEndian]
    rfl
  rw [unframe, if_neg hlong]
  simp only [hdrop, hclaimed]
  constructor
  · intro h
    split_ifs at h with hsame
    rw [← hsame]
    exact Nat.mod_lt _ (by decide)
  · intro h
    rw [if_pos (Nat.mod_eq_of_lt h)]

/-- A text that is framed is unpacked as what it reads as. -/
theorem unpack_frame {text : List UInt8} {m : Message} (h : text.length < 2 ^ 64)
    (hread : Reading.decode text = .ok m) : unpack (frame text) = .ok m := by
  rw [unpack, (unframe_frame_iff text).mpr h]
  simp only [hread]

/-- A message is read back from its datagram: the first eight bytes say how long the rest
    is, and the rest reads as the message, with the same version, number, kind and content.
    A text of more bytes than eight bytes can count is not one that a machine could
    hold. -/
theorem unpack_pack (m : Message) (h : (messageBytes m).length < 2 ^ 64) :
    unpack (pack m) = .ok m ∧
      ofBigEndian ((pack m).take lengthSize) = ((pack m).drop lengthSize).length ∧
        Reading.decode ((pack m).drop lengthSize) = .ok m := by
  have hprefix : (bigEndian lengthSize (messageBytes m).length).length = lengthSize :=
    length_bigEndian _ _
  have htake : (pack m).take lengthSize = bigEndian lengthSize (messageBytes m).length :=
    List.take_left' hprefix
  have hdrop : (pack m).drop lengthSize = messageBytes m := List.drop_left' hprefix
  refine ⟨unpack_frame h (decode_messageBytes m), ?_, ?_⟩
  · rw [htake, hdrop, ofBigEndian_bigEndian]
    exact Nat.mod_eq_of_lt h
  · rw [hdrop]
    exact decode_messageBytes m

/-- The largest numbers there are, and a list with nobody in it. -/
theorem largest_message_unpacks :
    let m : Message := ⟨0xffffffff, 0xffffffffffffffff,
      .successors [⟨0xffffffffffffffff, ⟨Host.broadcast, 65535⟩⟩, Contact.unset]⟩
    (messageBytes m).length < 2 ^ 64 ∧ unpack (pack m) = .ok m ∧
      ofBigEndian ((pack m).take lengthSize) = ((pack m).drop lengthSize).length ∧
        Reading.decode ((pack m).drop lengthSize) = .ok m := by
  intro m
  have hlength : (messageBytes m).length < 2 ^ 64 := by decide +kernel
  exact ⟨hlength, unpack_pack m hlength⟩

end Wire

end RingOverlay
