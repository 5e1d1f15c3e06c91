import RingOverlay.Proofs.Json.Arrangement

/-!
# Objects by Their Members

An object is a list of members, each a name and a value, and everything else about its text
is a matter of spelling: blanks between the tokens and escapes in the names. `Members` ties
the list to the text without asking what any of it is good for; a value is given by its own
text and may be any at all.

A record reads the same object member by member, and for it some of the names are known.
`Arranged` follows that reading and keeps account of what has come and of what is wrong.
Here the account is drawn up from the list alone (`exists_arranged`): what has come in the
end are the known names in the list, and nothing is wrong just if none of them is there
twice and each has a good text. What a good text is depends on the record, so it is left
open.

## Main definitions

* `Members`: The members of an object, behind its opening brace.
* `ObjectText`: The texts of an object, by its members.
* `Sound`: No known name comes twice, and each has a good text.

## Theorems

* `sound_cons`, `sound_cons_foreign`: What one member more asks for.
* `exists_arranged`: What a record makes of an object, by its members.
-/

namespace RingOverlay.Json

/-- The members of an object, each by its name and the text of its value, and
    what is written for them, up to and with the closing brace. -/
inductive Members : Bool → List (String × List UInt8) → List UInt8 → Prop where
  | done {first : Bool} {bs : List UInt8} (hbs : Blanks bs) :
      Members first [] (bs ++ [closeBrace])
  | member {first : Bool} {name : String} {ms : List (String × List UInt8)}
      {lead bs spelled cs ds value more : List UInt8}
      (hlead : Lead first lead) (hbs : Blanks bs) (hname : Spells spelled name.toList)
      (hcs : Blanks cs) (hds : Blanks ds) (hvalue : Phrase .value value)
      (hmore : Members false ms more) :
      Members first ((name, value) :: ms) (memberThen lead bs spelled cs ds value more)

/-- The texts of an object, with blanks around it. -/
def ObjectText (ms : List (String × List UInt8)) (text : List UInt8) : Prop :=
  ∃ bs inner cs, Blanks bs ∧ Blanks cs ∧ Members true ms inner ∧
    text = bs ++ (openBrace :: inner ++ cs)

/-- The names of some members. -/
def memberNames (ms : List (String × List UInt8)) : List String := ms.map Prod.fst

/-- The value of a member is a value. -/
theorem phrase_of_mem {first : Bool} {ms : List (String × List UInt8)} {text : List UInt8}
    (h : Members first ms text) {name : String} {value : List UInt8} (hmem : (name, value) ∈ ms) :
    Phrase .value value := by
  induction h with
  | done => exact absurd hmem List.not_mem_nil
  | member _ _ _ _ _ hvalue _ ih =>
      rcases List.mem_cons.mp hmem with heq | hmem
      · cases heq
        exact hvalue
      · exact ih hmem

section Accounts

variable {names seen : List String} {good : String → List UInt8 → Prop}
  {ms : List (String × List UInt8)} {name : String} {value : List UInt8}

theorem memberNames_cons : memberNames ((name, value) :: ms) = name :: memberNames ms := rfl

theorem mem_memberNames_iff : name ∈ memberNames ms ↔ ∃ value, (name, value) ∈ ms := by
  simp only [memberNames, List.mem_map, Prod.exists, exists_and_right, exists_eq_right]

theorem mem_of_lookup (h : ms.lookup name = some value) : (name, value) ∈ ms := by
  obtain ⟨front, rest, rfl, -⟩ := List.lookup_eq_some_iff.mp h
  exact List.mem_append_right front List.mem_cons_self

/-- A name that comes once is looked up where it comes. -/
theorem lookup_of_mem (h : (name, value) ∈ ms) (hcount : (memberNames ms).count name = 1) :
    ms.lookup name = some value := by
  obtain ⟨front, rest, rfl⟩ := List.append_of_mem h
  refine List.lookup_eq_some_iff.mpr ⟨front, rest, rfl, fun p hp => ?_⟩
  rw [bne_iff_ne]
  rintro rfl
  have hfront := List.count_pos_iff.mpr (List.mem_map_of_mem (f := Prod.fst) hp)
  rw [memberNames, List.map_append, List.map_cons, List.count_append, List.count_cons_self]
    at hcount
  omega

/-- None of the known names comes twice, or has come before, and each has a good
    text. -/
def Sound (names seen : List String) (good : String → List UInt8 → Prop)
    (ms : List (String × List UInt8)) : Prop :=
  ∀ name ∈ names, ∀ value, (name, value) ∈ ms →
    name ∉ seen ∧ (memberNames ms).count name = 1 ∧ good name value

/-- With a known name in front, the name may not come again. -/
theorem sound_cons (hname : name ∈ names) (hnew : name ∉ seen) :
    Sound names seen good ((name, value) :: ms) ↔
      good name value ∧ Sound names (name :: seen) good ms := by
  constructor
  · intro h
    obtain ⟨-, hcount, hgood⟩ := h name hname value List.mem_cons_self
    rw [memberNames_cons, List.count_cons_self] at hcount
    refine ⟨hgood, fun other hother v hv => ?_⟩
    obtain ⟨hseen, hcount', hgood'⟩ := h other hother v (List.mem_cons_of_mem _ hv)
    have hne : name ≠ other := by
      rintro rfl
      have := List.count_pos_iff.mpr (mem_memberNames_iff.mpr ⟨v, hv⟩)
      omega
    rw [memberNames_cons, List.count_cons_of_ne hne] at hcount'
    exact ⟨List.not_mem_cons_of_ne_of_not_mem hne.symm hseen, hcount', hgood'⟩
  · rintro ⟨hgood, h⟩ other hother v hv
    have hfresh : name ∉ memberNames ms := by
      intro hmem
      obtain ⟨w, hw⟩ := mem_memberNames_iff.mp hmem
      exact (h name hname w hw).1 List.mem_cons_self
    rw [memberNames_cons]
    rcases List.mem_cons.mp hv with heq | hv
    · cases heq
      exact ⟨hnew, by rw [List.count_cons_self, List.count_eq_zero.mpr hfresh], hgood⟩
    · obtain ⟨hseen, hcount, hgood'⟩ := h other hother v hv
      have hne : name ≠ other := (List.ne_of_not_mem_cons hseen).symm
      exact ⟨List.not_mem_of_not_mem_cons hseen, by rw [List.count_cons_of_ne hne, hcount],
        hgood'⟩

/-- A name that is not known makes no difference. -/
theorem sound_cons_foreign (hname : name ∉ names) :
    Sound names seen good ((name, value) :: ms) ↔ Sound names seen good ms := by
  have hsame : ∀ other ∈ names, ∀ v, ((other, v) ∈ (name, value) :: ms ↔ (other, v) ∈ ms) ∧
      (memberNames ((name, value) :: ms)).count other = (memberNames ms).count other := by
    intro other hother v
    have hne : name ≠ other := fun heq => hname (heq ▸ hother)
    rw [memberNames_cons, List.count_cons_of_ne hne, List.mem_cons, Prod.mk.injEq]
    exact ⟨or_iff_right fun h => hne h.1.symm, rfl⟩
  refine forall₂_congr fun other hother => forall_congr' fun v => ?_
  rw [(hsame other hother v).1, (hsame other hother v).2]

theorem Shape.mem_names_iff {shape : Shape} :
    name ∈ shape.names ↔ ∃ fits, (name, fits) ∈ shape := by
  simp only [Shape.names, List.mem_map, Prod.exists, exists_and_right, exists_eq_right]

/-- What a record makes of an object, by its members. Of a name that comes
    again only the first text matters. -/
theorem exists_arranged {shape : Shape} {first : Bool} {text : List UInt8}
    (h : Members first ms text) (seen : List String)
    (hfits : ∀ name fits, (name, fits) ∈ shape → name ∉ seen → ∀ value,
      ms.lookup name = some value →
        ∃ flawed, fits flawed value ∧ (flawed = false ↔ good name value)) :
    ∃ last spoilt, Arranged shape first seen last spoilt text ∧
      (∀ name ∈ shape.names, name ∈ last ↔ name ∈ seen ∨ name ∈ memberNames ms) ∧
      (spoilt = false ↔ Sound shape.names seen good ms) := by
  induction h generalizing seen with
  | done hbs =>
      refine ⟨seen, false, .done hbs, fun name _ => ?_, ?_⟩
      · simp only [memberNames, List.map_nil, List.not_mem_nil, or_false]
      · simp only [Sound, List.not_mem_nil, false_implies, implies_true]
  | @member first name ms lead bs spelled cs ds value more hlead hbs hname hcs hds hvalue hmore
      ih =>
      have hlookup {other : String} {v : List UInt8} (hne : other ≠ name)
          (hv : ms.lookup other = some v) : List.lookup other ((name, value) :: ms) = some v := by
        rw [List.lookup_cons, beq_false_of_ne hne, hv]
      by_cases hknown : name ∈ shape.names
      · by_cases hseen : name ∈ seen
        -- Once a name has come again, there is no need to judge what follows.
        · obtain ⟨last, others, harranged, hlast, -⟩ := ih seen fun other fits hmem hnew v hv =>
            hfits other fits hmem hnew v (hlookup (ne_of_mem_of_not_mem hseen hnew).symm hv)
          refine ⟨last, true, .repeated hlead hbs hname hcs hds hknown hseen hvalue harranged,
            fun other hother => ?_, ?_⟩
          · rw [hlast other hother, memberNames_cons, List.mem_cons, ← or_assoc]
            exact or_congr_left (or_iff_left_of_imp fun heq => heq ▸ hseen).symm
          · refine iff_of_false Bool.false_ne_true.symm fun hsound => ?_
            exact (hsound name hknown value List.mem_cons_self).1 hseen
        -- What follows is judged as if the name had come before.
        · obtain ⟨fits, hfield⟩ := Shape.mem_names_iff.mp hknown
          obtain ⟨flawed, hfit, hflawed⟩ :=
            hfits name fits hfield hseen value List.lookup_cons_self
          obtain ⟨last, others, harranged, hlast, hothers⟩ := ih (name :: seen)
            fun other fits hmem hnew v hv =>
              hfits other fits hmem (List.not_mem_of_not_mem_cons hnew) v
                (hlookup (List.ne_of_not_mem_cons hnew) hv)
          refine ⟨last, _, .field hlead hbs hname hcs hds hfield hseen hfit harranged,
            fun other hother => ?_, ?_⟩
          · rw [hlast other hother, memberNames_cons, List.mem_cons, List.mem_cons, or_assoc,
              or_left_comm]
          · rw [Bool.or_eq_false_iff, hflawed, hothers, sound_cons hknown hseen]
      · obtain ⟨last, others, harranged, hlast, hothers⟩ := ih seen fun other fits hmem hnew v hv =>
          hfits other fits hmem hnew v (hlookup
            (ne_of_mem_of_not_mem (Shape.mem_names_iff.mpr ⟨fits, hmem⟩) hknown) hv)
        refine ⟨last, others, .foreign hlead hbs hname hcs hds hknown hvalue harranged,
          fun other hother => ?_, ?_⟩
        · rw [hlast other hother, memberNames_cons, List.mem_cons,
            or_iff_right (ne_of_mem_of_not_mem hother hknown)]
        · rw [hothers, sound_cons_foreign hknown]

end Accounts

end RingOverlay.Json
