import Mathlib.Data.List.Nodup
import RingOverlay.Proofs.Json.Members
import RingOverlay.Proofs.Json.Unsigned
import RingOverlay.Settings

/-!
# Settings from a File

A settings file is an object, and what it says is a list of members. The theorem here goes
from that list to the settings without regard to how the object is written: a setting that
is named has the number that is given for it, all others have their defaults, and whatever
else the object holds does not count. If a setting is named twice, or given something that
is not a number it has room for, the file is refused. One of the two is the case with every
object, so the outcome is never open.

The settings differ in their names, in the room they have and in where they are kept, and
in nothing else. So they are listed once (`Settings.table`), and what is true of one is
stated for the list.

A record is read by a shape in which every field has one value, and here a file may give
any. So the shape is made for the object: the value of a field is what the first member of
its name says (`told`). A second one is refused before its value is looked at.

## Main definitions

* `Setting`, `table`: The settings as they are called in a file.
* `Setting.Holds`: A value that a setting may have.
* `Fitting`: An object that can be read as settings.
* `Replaced`: The settings that an object stands for.

## Theorems

* `Replaced.unique`: An object stands for no more than one choice of settings.
* `drafts_settings`: Settings are read field by field.
* `decode_objectText`: Settings are decoded from an object, or the object is refused.
* `ofFile_objectText`: So they are from a file, and the order in it makes no difference.
-/

namespace RingOverlay.Settings

open Json Utf8

/-- A setting: what it is called in a file, how many bits there are for its
    value, and where it is kept. -/
structure Setting where
  name : String
  bits : Nat
  get : Settings → Nat

/-- The settings that a file may name. -/
def table : List Setting :=
  [ ⟨"stabilize_interval_ms", 64, (·.stabilizeInterval)⟩,
    ⟨"fix_fingers_interval_ms", 64, (·.fixFingersInterval)⟩,
    ⟨"fix_successor_list_interval_ms", 64, (·.fixSuccessorsInterval)⟩,
    ⟨"check_predecessor_interval_ms", 64, (·.checkPredecessorInterval)⟩,
    ⟨"response_timeout_ms", 64, (·.responseTimeout)⟩,
    ⟨"max_successors", 64, (·.maxSuccessors)⟩,
    ⟨"successor_failure_threshold", 32, (·.failureThreshold)⟩ ]

/-- A value that a setting may have: a number that there is room for, in
    digits. -/
def Setting.Holds (i : Setting) (value : List UInt8) : Prop :=
  ∃ n < 2 ^ i.bits, value = ascii (decimal n)

/-- No setting is named twice, and what is given for one is a value that it may
    have. -/
def Fitting (ms : List (String × List UInt8)) : Prop :=
  ∀ i ∈ table, ∀ value, (i.name, value) ∈ ms →
    (memberNames ms).count i.name = 1 ∧ i.Holds value

/-- The default settings, with those replaced that are named. -/
def Replaced (ms : List (String × List UInt8)) (s : Settings) : Prop :=
  ∀ i ∈ table, (∀ n, (i.name, ascii (decimal n)) ∈ ms → i.get s = n) ∧
    (i.name ∉ memberNames ms → i.get s = i.get {})

section Table

variable {s t : Settings} {ms : List (String × List UInt8)}

/-- There are no other settings than those in the table. -/
theorem eq_of_table (h : ∀ i ∈ table, i.get s = i.get t) : s = t := by
  simp only [table, List.forall_mem_cons] at h
  obtain ⟨h1, h2, h3, h4, h5, h6, h7, -⟩ := h
  cases s
  cases t
  congr

/-- Settings may have any values. -/
theorem exists_valued (f : String → Nat) : ∃ s : Settings, ∀ i ∈ table, i.get s = f i.name := by
  refine ⟨⟨f "stabilize_interval_ms", f "fix_fingers_interval_ms",
    f "fix_successor_list_interval_ms", f "check_predecessor_interval_ms",
    f "response_timeout_ms", f "max_successors", f "successor_failure_threshold"⟩, ?_⟩
  simp only [table, List.forall_mem_cons, List.not_mem_nil, false_implies, implies_true, and_true]

/-- Settings are told apart by their names. -/
theorem eq_of_name_eq {i j : Setting} (hi : i ∈ table) (hj : j ∈ table) (h : i.name = j.name) :
    i = j :=
  List.inj_on_of_nodup_map (by decide : (table.map Setting.name).Nodup) hi hj h

/-- An object stands for no more than one choice of settings. -/
theorem Replaced.unique (hms : Fitting ms) (hs : Replaced ms s) (ht : Replaced ms t) : s = t := by
  refine eq_of_table fun i hi => ?_
  by_cases hname : i.name ∈ memberNames ms
  · obtain ⟨value, hvalue⟩ := mem_memberNames_iff.mp hname
    obtain ⟨-, n, -, rfl⟩ := hms i hi value hvalue
    rw [(hs i hi).1 n hvalue, (ht i hi).1 n hvalue]
  · rw [(hs i hi).2 hname, (ht i hi).2 hname]

/-- What an object stands for does not depend on its order. -/
theorem Replaced.perm {order : List (String × List UInt8)} (hperm : order.Perm ms)
    (h : Replaced order s) : Replaced ms s := by
  intro i hi
  refine ⟨fun n hn => (h i hi).1 n (hperm.mem_iff.mpr hn), fun hname => (h i hi).2 ?_⟩
  rwa [memberNames, (hperm.map Prod.fst).mem_iff]

theorem Fitting.perm {order : List (String × List UInt8)} (hperm : order.Perm ms)
    (h : Fitting ms) : Fitting order := by
  intro i hi value hvalue
  rw [memberNames, (hperm.map Prod.fst).count_eq]
  exact h i hi value (hperm.mem_iff.mp hvalue)

/-- An object can be read as settings if a record whose names are theirs finds
    nothing wrong with it. -/
theorem fitting_iff : Fitting ms ↔ Sound (table.map Setting.name) []
    (fun name value => ∀ i ∈ table, i.name = name → i.Holds value) ms := by
  constructor
  · intro h name hname value hvalue
    obtain ⟨i, hi, rfl⟩ := List.mem_map.mp hname
    refine ⟨List.not_mem_nil, (h i hi value hvalue).1, fun j hj hsame => ?_⟩
    exact (h j hj value (hsame ▸ hvalue)).2
  · intro h i hi value hvalue
    obtain ⟨-, hcount, hholds⟩ := h i.name (List.mem_map_of_mem hi) value hvalue
    exact ⟨hcount, hholds i hi rfl⟩

end Table

section Reading

/-- The fields of settings and their texts. -/
def shape (s : Settings) : Shape :=
  table.map fun i => (i.name, IntegerText i.bits (i.get s))

/-- Settings, some of whose fields have come. -/
def draft (s : Settings) (seen : List String) : Draft :=
  ⟨given seen "stabilize_interval_ms" s.stabilizeInterval,
    given seen "fix_fingers_interval_ms" s.fixFingersInterval,
    given seen "fix_successor_list_interval_ms" s.fixSuccessorsInterval,
    given seen "check_predecessor_interval_ms" s.checkPredecessorInterval,
    given seen "response_timeout_ms" s.responseTimeout,
    given seen "max_successors" s.maxSuccessors,
    given seen "successor_failure_threshold" s.failureThreshold⟩

variable {s : Settings} {ms : List (String × List UInt8)}

theorem names_shape (s : Settings) : (shape s).names = table.map Setting.name := by
  rw [Shape.names, shape, List.map_map]
  rfl

/-- Settings are read field by field. -/
theorem drafts_settings (s : Settings) : Drafts fields (shape s) (draft s) where
  field name fits h := by
    simp only [shape, table, List.map_cons, List.map_nil, List.mem_cons, Prod.mk.injEq,
      List.not_mem_nil, or_false] at h
    rcases h with ⟨rfl, rfl⟩ | ⟨rfl, rfl⟩ | ⟨rfl, rfl⟩ | ⟨rfl, rfl⟩ | ⟨rfl, rfl⟩ | ⟨rfl, rfl⟩ |
        ⟨rfl, rfl⟩ <;>
      exact draftsField_of rfl (fun _ => rfl)
        (fun seen => by simp [draft, given_cons_self, given_cons_ne])
        fun _ _ => meets_integerText (by decide)
  names := rfl

/-- What has come replaces the default. -/
theorem get_finish (s : Settings) (seen : List String) :
    ∀ i ∈ table, i.get (draft s seen).finish = if i.name ∈ seen then i.get s else i.get {} := by
  simp only [table, List.forall_mem_cons, List.not_mem_nil, false_implies, implies_true, and_true,
    Draft.finish, draft, given_getD]

/-- The number that the first member of a name gives, if it gives one. -/
def told (ms : List (String × List UInt8)) (name : String) : Nat :=
  digitsValue ((ms.lookup name).getD [])

theorem told_of_lookup {name : String} {n : Nat}
    (h : ms.lookup name = some (ascii (decimal n))) : told ms name = n := by
  rw [told, h, Option.getD_some, digitsValue_decimal]

/-- With the values of an object, what has come from it is what it stands for. -/
theorem replaced_finish (hms : Fitting ms) (hs : ∀ i ∈ table, i.get s = told ms i.name)
    {seen : List String} (hseen : ∀ i ∈ table, i.name ∈ seen ↔ i.name ∈ memberNames ms) :
    Replaced ms (draft s seen).finish := by
  intro i hi
  rw [get_finish s seen i hi]
  refine ⟨fun n hn => ?_, fun hname => if_neg fun h => hname ((hseen i hi).mp h)⟩
  rw [if_pos ((hseen i hi).mpr (mem_memberNames_iff.mpr ⟨_, hn⟩)), hs i hi]
  exact told_of_lookup (lookup_of_mem hn (hms i hi _ hn).1)

/-- Every object that can be read as settings stands for some. -/
theorem exists_replaced (hms : Fitting ms) : ∃ s, Replaced ms s := by
  obtain ⟨s, hs⟩ := exists_valued (told ms)
  exact ⟨_, replaced_finish hms hs fun _ _ => Iff.rfl⟩

/-- The first text of a setting is that of its number, or it is flawed. -/
theorem exists_integerText {inner : List UInt8} (h : Members true ms inner)
    (hs : ∀ i ∈ table, i.get s = told ms i.name) {name : String} {fits : Bool → List UInt8 → Prop}
    (hfield : (name, fits) ∈ shape s) {value : List UInt8} (hvalue : ms.lookup name = some value) :
    ∃ flawed, fits flawed value ∧
      (flawed = false ↔ ∀ i ∈ table, i.name = name → i.Holds value) := by
  obtain ⟨i, hi, heq⟩ := List.mem_map.mp hfield
  cases heq
  -- No other setting has the name, so what may be said of it is decided here.
  have hgood : (∀ j ∈ table, j.name = i.name → j.Holds value) ↔ i.Holds value :=
    ⟨fun h => h i hi rfl, fun h j hj hname => eq_of_name_eq hj hi hname ▸ h⟩
  by_cases hholds : i.Holds value
  · refine ⟨false, ?_, iff_of_true rfl (hgood.mpr hholds)⟩
    obtain ⟨n, hn, rfl⟩ := hholds
    have hget : i.get s = n := (hs i hi).trans (told_of_lookup hvalue)
    exact ⟨hget ▸ hn, by rw [hget]⟩
  · refine ⟨true, ⟨phrase_of_mem h (mem_of_lookup hvalue), fun m hm heq => ?_⟩,
      iff_of_false Bool.false_ne_true.symm (mt hgood.mp hholds)⟩
    exact hholds ⟨m, hm, heq⟩

/-- Settings are decoded from an object that can be read as settings, and any
    other object is refused. -/
theorem decode_objectText {text : List UInt8} (h : ObjectText ms text) :
    (Fitting ms → ∃ s, Replaced ms s ∧ decode text = .ok s) ∧
      (¬ Fitting ms → ∃ flaw, decode text = .error flaw) := by
  obtain ⟨bs, inner, cs, hbs, hcs, hmembers, rfl⟩ := h
  obtain ⟨s, hs⟩ := exists_valued (told ms)
  obtain ⟨last, spoilt, harranged, hlast, hspoilt⟩ := exists_arranged hmembers []
    fun _ _ hfield _ _ hvalue => exists_integerText hmembers hs hfield hvalue
  rw [names_shape] at hlast hspoilt
  rw [← fitting_iff] at hspoilt
  have hmeets : Meets (record fields {} fun d => some d.finish) (openBrace :: inner)
      (if spoilt then none else some (draft s last).finish) :=
    meets_record (drafts_settings s) harranged
  cases spoilt with
  | true =>
      exact ⟨fun hms => absurd (hspoilt.mpr hms) Bool.false_ne_true.symm,
        fun _ => document_of_meets hbs hcs hmeets⟩
  | false =>
      refine ⟨fun hms => ⟨_, replaced_finish hms hs fun i hi => ?_,
        document_of_meets hbs hcs hmeets⟩, fun hms => absurd (hspoilt.mp rfl) hms⟩
      rw [hlast i.name (List.mem_map_of_mem hi), or_iff_right List.not_mem_nil]

end Reading

/-- A file holds an object whose members are `ms`. If no setting is named twice
    and each that is named has a value that it may have, the settings are the
    defaults with just the named ones replaced, in whatever order the members
    stand. Otherwise the file is refused as a text. -/
theorem ofFile_objectText (ms : List (String × List UInt8)) :
    (Fitting ms → ∃ s, Replaced ms s ∧ ∀ order text path, order.Perm ms →
      ObjectText order (encode text) → ofFile path (.content (encode text)) = .ok s) ∧
    (¬ Fitting ms → ∀ text path, ObjectText ms (encode text) →
      ∃ flaw, ofFile path (.content (encode text)) = .error (.codec flaw)) := by
  have hfile (path : String) (text : List Char) : ofFile path (.content (encode text)) =
      (decode (encode text)).mapError .codec := by
    rw [ofFile, decode_encode]
    cases decode (encode text) <;> rfl
  constructor
  · intro hms
    obtain ⟨s, hs⟩ := exists_replaced hms
    refine ⟨s, hs, fun order text path hperm htext => ?_⟩
    -- What is decoded is what the object stands for in its own order.
    obtain ⟨t, ht, hdecode⟩ := (decode_objectText htext).1 (hms.perm hperm)
    rw [hfile, hdecode, (ht.perm hperm).unique hms hs]
    rfl
  · intro hms text path htext
    obtain ⟨flaw, hflaw⟩ := (decode_objectText htext).2 hms
    exact ⟨flaw, by rw [hfile, hflaw]; rfl⟩

/-- A file that names two settings, with a stranger between them, and one that
    gives the threshold a number of 33 bits. -/
theorem early_file_replaces_two :
    let ms := [("response_timeout_ms", ascii "250".toList), ("max_successors", ascii "4".toList),
      ("x", openBracket :: (0x6e :: nullTail ++ [closeBracket]))]
    let text := "\x7b\"max_successors\":4,\"x\":[null],\"response_timeout_ms\": 250\x7d".toList
    let large := [("successor_failure_threshold", ascii "4294967296".toList)]
    let wrong := "\x7b\"successor_failure_threshold\":4294967296\x7d".toList
    Fitting ms ∧
      ofFile "early.json" (.content (encode text)) =
        .ok { responseTimeout := 250, maxSuccessors := 4 } ∧
      ¬ Fitting large ∧
      ∃ flaw, ofFile "early.json" (.content (encode wrong)) = .error (.codec flaw) := by
  intro ms text large wrong
  have htimeout : ⟨"response_timeout_ms", 64, (·.responseTimeout)⟩ ∈ table := by
    simp only [table, List.mem_cons, true_or, or_true]
  have hsuccessors : ⟨"max_successors", 64, (·.maxSuccessors)⟩ ∈ table := by
    simp only [table, List.mem_cons, true_or, or_true]
  have hthreshold : ⟨"successor_failure_threshold", 32, (·.failureThreshold)⟩ ∈ table := by
    simp only [table, List.mem_cons, true_or, or_true]
  have hms : Fitting ms := by
    intro i hi value hvalue
    simp only [ms, List.mem_cons, Prod.mk.injEq, List.not_mem_nil, or_false] at hvalue
    rcases hvalue with ⟨hname, rfl⟩ | ⟨hname, rfl⟩ | ⟨hname, rfl⟩
    · obtain rfl := eq_of_name_eq hi htimeout hname
      exact ⟨by decide, 250, by decide, by decide⟩
    · obtain rfl := eq_of_name_eq hi hsuccessors hname
      exact ⟨by decide, 4, by decide, by decide⟩
    · exact absurd (hname ▸ List.mem_map_of_mem (f := Setting.name) hi) (by decide)
  have hlarge : ¬ Fitting large := by
    intro h
    obtain ⟨-, n, hn, heq⟩ := h _ hthreshold _ List.mem_cons_self
    have hvalue := congrArg digitsValue heq
    rw [digitsValue_decimal] at hvalue
    have hsmall : n < 2 ^ 32 := hn
    have : digitsValue (ascii "4294967296".toList) = 4294967296 := by decide
    omega
  have hlater : Lead false [comma] := .later blanks_nil
  have hnull : Phrase .value (openBracket :: (0x6e :: nullTail ++ [closeBracket])) :=
    .array (.item .first blanks_nil .null (.endItems blanks_nil))
  have hblank : Blanks [0x20] := fun b hb => by
    rw [List.mem_singleton.mp hb]
    rfl
  have htext : ObjectText [ms[1], ms[2], ms[0]] (encode text) := by
    refine ⟨[], _, [], blanks_nil, blanks_nil,
      .member .first blanks_nil (spells_plain (by decide)) blanks_nil blanks_nil
        (phrase_decimal 4) <|
      .member hlater blanks_nil (spells_plain (by decide)) blanks_nil blanks_nil hnull <|
      .member hlater blanks_nil (spells_plain (by decide)) blanks_nil hblank
        (phrase_decimal 250) <|
      .done blanks_nil, ?_⟩
    decide +kernel
  have hwrong : ObjectText large (encode wrong) := by
    refine ⟨[], _, [], blanks_nil, blanks_nil,
      .member .first blanks_nil (spells_plain (by decide)) blanks_nil blanks_nil
        (phrase_decimal 4294967296) <|
      .done blanks_nil, ?_⟩
    decide +kernel
  obtain ⟨s, hs, hfile⟩ := (ofFile_objectText ms).1 hms
  refine ⟨hms, ?_, hlarge, (ofFile_objectText large).2 hlarge wrong "early.json" hwrong⟩
  have hsettings : s = { responseTimeout := 250, maxSuccessors := 4 } := by
    simp only [Replaced, table, List.forall_mem_cons] at hs
    obtain ⟨h1, h2, h3, h4, h5, h6, h7, -⟩ := hs
    refine eq_of_table ?_
    simp only [table, List.forall_mem_cons, List.not_mem_nil, false_implies, implies_true,
      and_true]
    exact ⟨h1.2 (by decide), h2.2 (by decide), h3.2 (by decide), h4.2 (by decide),
      h5.1 250 (by decide), h6.1 4 (by decide), h7.2 (by decide)⟩
  rw [← hsettings]
  exact hfile _ text "early.json" (by decide) htext

end RingOverlay.Settings
