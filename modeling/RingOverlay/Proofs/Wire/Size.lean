import Mathlib.Algebra.Order.BigOperators.Group.List
import RingOverlay.Proofs.Wire.RoundTrip

/-!
# How Long a Datagram Gets

Every field of a message but one has a longest form: a number has as many digits as its
type allows, a host at most fifteen characters, and the names are fixed. Only a list of
contacts has no bound of its own, so the length of a datagram depends on the number of
contacts in it and on nothing else that could get out of hand.

## Theorems

* `length_separated`: Items with commas between them.
* `length_contact_le`: A contact.
* `length_pack`: A datagram, by the length of its body.
* `length_pack_le`, `length_pack_successors_le`: Every datagram but a list, and a list.
-/

namespace RingOverlay

theorem Host.length_spelling_le (h : Host) : h.spelling.length ≤ 15 := by
  have hoctet (b : UInt8) : (decimal b.toNat).length ≤ 3 :=
    length_decimal_le (by decide) (b.toNat_lt.trans_le (by decide))
  have := hoctet h.first
  have := hoctet h.second
  have := hoctet h.third
  have := hoctet h.fourth
  simp only [Host.spelling, List.length_append, List.length_cons]
  omega

namespace Wire

-- The commas make up for one less than the number of items.
theorem length_separated (items : List (List Char)) :
    (separated items).length = (items.map fun i => i.length + 1).sum - 1 := by
  induction items with
  | nil => rfl
  | cons item more ih =>
      cases more with
      | nil => rw [separated, List.map_singleton, List.sum_singleton, Nat.add_sub_cancel]
      | cons next others =>
          have hunfold : separated (item :: next :: others) =
              item ++ ',' :: separated (next :: others) := rfl
          rw [hunfold, List.length_append, List.length_cons, ih]
          simp only [List.map_cons, List.sum_cons]
          omega

theorem length_quotedName (name : String) : (quotedName name).length = name.length + 2 := by
  rw [quotedName, List.length_append, List.length_cons, String.length_toList]
  rfl

theorem length_member (name : String) (value : List Char) :
    (member name value).length = name.length + 3 + value.length := by
  rw [member, List.length_append, length_quotedName, List.length_cons]
  omega

theorem length_object (members : List (List Char)) :
    (object members).length = (separated members).length + 2 := by
  rw [object, List.length_append, List.length_cons]
  rfl

theorem length_array (items : List (List Char)) :
    (array items).length = (separated items).length + 2 := by
  rw [array, List.length_append, List.length_cons]
  rfl

theorem length_contact_le (c : Contact) : (contact c).length ≤ 69 := by
  have hkey : (decimal c.key.toNat).length ≤ 20 :=
    length_decimal_le (by decide) (c.key.toNat_lt.trans_le (by decide))
  have hport : (decimal c.endpoint.port.toNat).length ≤ 5 :=
    length_decimal_le (by decide) (c.endpoint.port.toNat_lt.trans_le (by decide))
  have hhost := c.endpoint.host.length_spelling_le
  have hnames : "key".length = 3 ∧ "address".length = 7 ∧ "port".length = 4 := by decide
  simp only [contact, length_object, length_separated, length_member, hnames, List.map_cons,
    List.map_nil, List.sum_cons, List.sum_nil, List.length_append, List.length_cons,
    List.length_nil]
  omega

theorem length_name_le (k : Kind) : k.name.length ≤ 26 := by
  cases k <;> decide

/-- The content of every body but a list. -/
theorem length_content_le {b : Body} (hb : b.kind ≠ .successors) {members : List (List Char)}
    (h : content b = some members) : (object members).length ≤ 95 := by
  have hnames : "node".length = 4 ∧ "resolved".length = 8 ∧ "key".length = 3 := by decide
  have htruth (t : Bool) : (truth t).length ≤ 5 := by cases t <;> decide
  have hid (id : Id) : (decimal id.toNat).length ≤ 20 :=
    length_decimal_le (by decide) (id.toNat_lt.trans_le (by decide))
  cases b with
  | predecessor c | claim c =>
      cases h
      have := length_contact_le c
      simp only [length_object, separated, length_member, hnames]
      omega
  | askOwner id =>
      cases h
      have := hid id
      simp only [length_object, separated, length_member, hnames]
      omega
  | owner c resolved =>
      cases h
      have := length_contact_le c
      have := htruth resolved
      simp only [length_object, separated, length_member, hnames, List.length_append,
        List.length_cons]
      omega
  | successors cs => exact absurd rfl hb
  | askPredecessor | askSuccessors | askAlive | alive => cases h

theorem length_body_le {b : Body} (hb : b.kind ≠ .successors) : (body b).length ≤ 126 := by
  have hname := length_name_le b.kind
  unfold body
  cases h : content b with
  | none =>
      simp only [length_quotedName]
      omega
  | some members =>
      have := length_content_le hb h
      show (object [member b.kind.name (object members)]).length ≤ 126
      rw [length_object, separated, length_member]
      omega

/-- A list is as long as its entries, and a frame around them. -/
theorem length_body_successors (cs : List Contact) :
    (body (.successors cs)).length = 46 + ((cs.map fun c => (contact c).length + 1).sum - 1) := by
  have hbody : body (.successors cs) = object [member "GetSuccessorListResponse"
      (object [member "successors" (array (cs.map contact))])] := rfl
  have hnames : "GetSuccessorListResponse".length = 24 ∧ "successors".length = 10 := by decide
  rw [hbody, length_object, separated, length_member, length_object, separated, length_member,
    length_array, length_separated, List.map_map, hnames.1, hnames.2]
  simp only [Function.comp_def]
  omega

/-- A datagram, by the length of its body. -/
theorem length_pack (m : Message) :
    (pack m).length =
      34 + (decimal m.version.toNat).length + (decimal m.seq.toNat).length +
        (body m.body).length := by
  have hnames : "version".length = 7 ∧ "seq".length = 3 ∧ "msg".length = 3 := by decide
  have htext : (message m).length = 26 + (decimal m.version.toNat).length +
      (decimal m.seq.toNat).length + (body m.body).length := by
    simp only [message, length_object, separated, length_member, hnames, List.length_append,
      List.length_cons]
    omega
  rw [pack, frame, List.length_append, length_bigEndian, messageBytes, Utf8.length_ascii, htext,
    lengthSize]
  omega

theorem length_version_le (m : Message) : (decimal m.version.toNat).length ≤ 10 :=
  length_decimal_le (by decide) (m.version.toNat_lt.trans_le (by decide))

theorem length_seq_le (m : Message) : (decimal m.seq.toNat).length ≤ 20 :=
  length_decimal_le (by decide) (m.seq.toNat_lt.trans_le (by decide))

/-- Every message but a list has a datagram of a few hundred bytes at most. -/
theorem length_pack_le {m : Message} (h : m.body.kind ≠ .successors) : (pack m).length ≤ 190 := by
  have := length_version_le m
  have := length_seq_le m
  have := length_body_le h
  rw [length_pack]
  omega

/-- A list takes seventy bytes for each of its entries at most. -/
theorem length_pack_successors_le {m : Message} {cs : List Contact} (h : m.body = .successors cs) :
    (pack m).length ≤ 110 + 70 * cs.length := by
  have hentry (k : Nat) (hk : k ∈ cs.map fun c => (contact c).length + 1) : k ≤ 70 := by
    rcases List.mem_map.mp hk with ⟨c, _, rfl⟩
    exact Nat.succ_le_succ (length_contact_le c)
  have hentries := List.sum_le_card_nsmul _ 70 hentry
  rw [List.length_map, Nat.nsmul_eq_mul] at hentries
  have := length_version_le m
  have := length_seq_le m
  rw [length_pack, h, length_body_successors]
  omega

end Wire

end RingOverlay
