import HttpHead.Field
import HttpHead.Proofs.Case
import HttpHead.Proofs.Registry
import Mathlib.Data.List.DropRight

/-! Looking fields up by their names. The table of the well-known names, their usual spellings and
the folded unknown names tell one and the same thing of a text, which is what it is up to the case
of ASCII letters (`FieldName.ofText_eq_iff`), so every way to look up a field finds the same
ones. -/
namespace HttpHead

open Text

namespace KnownName

variable {s : String} {name : KnownName}

theorem keyed_table : Keyed (foldCase ·.text) table where
  fst_eq := by decide +kernel
  complete := by
    intro name
    cases name <;> decide
  nodup := by decide +kernel

theorem ofText?_eq_some_iff : ofText? s = some name ↔ foldCase s = foldCase name.text := by
  have hsame (name : KnownName) :
      sameUpToCase (foldCase name.text) s ↔ foldCase name.text = foldCase s := by
    rw [sameUpToCase, beq_iff_eq, foldCase_foldCase]
  rw [eq_comm (b := foldCase name.text)]
  exact keyed_table.find?_eq_some_iff (p := (sameUpToCase · s)) hsame

end KnownName

namespace FieldName

variable {s t : String}

theorem foldCase_text_ofText (s : String) : foldCase (ofText s).text = foldCase s := by
  rw [ofText]
  cases h : KnownName.ofText? s with
  | some name => exact (KnownName.ofText?_eq_some_iff.1 h).symm
  | none => exact foldCase_foldCase s

/-- A field name says what a text is up to case, and nothing more. -/
theorem ofText_eq_iff : ofText s = ofText t ↔ SameLetters s t := by
  rw [← foldCase_eq_iff]
  constructor
  · intro h
    rw [← foldCase_text_ofText s, h, foldCase_text_ofText]
  · intro h
    have hknown : KnownName.ofText? s = KnownName.ofText? t := by
      apply Option.ext
      intro name
      rw [KnownName.ofText?_eq_some_iff, KnownName.ofText?_eq_some_iff, h]
    rw [ofText, ofText, hknown, h]

theorem denotes_ofText_iff : (ofText s).denotes t ↔ SameLetters s t := by
  rw [denotes, sameUpToCase, beq_iff_eq, foldCase_text_ofText, foldCase_eq_iff]

theorem ofOwned_eq (s : String) : ofOwned s = ofText s := by
  rw [ofOwned, ofText, foldOctets_eq]

end FieldName

namespace Fields

inductive Change where
  | append (field : Field)
  | reserve (additional : Nat)
  | clear
  deriving DecidableEq

namespace Change

def field? : Change → Option Field
  | append field => some field
  | reserve _ | clear => none

end Change

/-- Carries out a change and tells whether it could be. A reservation for which there is no room
fails; either way it touches none of the fields that are there. -/
def change (fields : Fields) : Change → Bool × Fields
  | .append field => (true, fields.append field)
  | .reserve additional => (fields.canReserve additional, fields)
  | .clear => (true, fields.clear)

def after (fields : Fields) (changes : List Change) : Fields :=
  changes.foldl (fun fields change => (fields.change change).2) fields

variable {fields : Fields} {s : String}

theorem toList_after (changes : List Change) :
    (empty.after changes).toList =
      (changes.rtakeWhile (· ≠ .clear)).filterMap Change.field? := by
  induction changes using List.reverseRecOn with
  | nil => rfl
  | append_singleton changes change ih =>
    rw [after, List.foldl_concat, ← after, List.rtakeWhile_concat]
    cases change with
    | append field =>
      rw [if_pos (by simp), List.filterMap_append, ← ih]
      exact Array.toList_push
    | reserve additional =>
      rw [if_pos (by simp), List.filterMap_append, ← ih]
      exact (List.append_nil _).symm
    | clear => rfl

theorem getAll_eq (fields : Fields) (s : String) :
    fields.getAll s = (fields.toList.filter (SameLetters ·.name s)).map (·.value) := by
  have hnamed (field : Field) : field.isNamed s = decide (SameLetters field.name s) := by
    rw [Bool.eq_iff_iff, decide_eq_true_eq]
    exact sameUpToCase_iff_sameLetters
  simp only [getAll, hnamed]

theorem getAll_congr (fields : Fields) {s t : String} (h : foldCase s = foldCase t) :
    fields.getAll s = fields.getAll t := by
  simp only [getAll, Field.isNamed, sameUpToCase, h]

theorem getAll_eq_of_fieldName (fields : Fields) (s : String) :
    fields.getAll s =
      (fields.toList.filter (·.fieldName = FieldName.ofText s)).map (·.value) := by
  simp only [getAll_eq, Field.fieldName, FieldName.ofText_eq_iff]

theorem contains_iff : fields.contains s ↔ fields.getAll s ≠ [] := by
  rw [contains, get?, List.isSome_head?]

/-- The fields are those appended since they were cleared the last time. A field is found by a text
or by the name that a text denotes, and the names of the fields themselves tell the same ones: those
whose name is the text up to the case of ASCII letters. -/
theorem lookups_agree (changes : List Change) (s t : String) :
    let fields := empty.after changes
    fields.toList = (changes.rtakeWhile (· ≠ .clear)).filterMap Change.field? ∧
      fields.getAll s = (fields.toList.filter (SameLetters ·.name s)).map (·.value) ∧
      fields.getAll (FieldName.ofText s).text = fields.getAll s ∧
      (fields.toList.filter (·.fieldName = FieldName.ofText s)).map (·.value) = fields.getAll s ∧
      fields.get? s = (fields.getAll s).head? ∧
      (fields.contains s ↔ fields.getAll s ≠ []) ∧
      (FieldName.ofText s = FieldName.ofText t ↔ SameLetters s t) ∧
      ((FieldName.ofText s).denotes t ↔ SameLetters s t) ∧
      FieldName.ofOwned s = FieldName.ofText s := by
  intro fields
  exact ⟨toList_after changes, getAll_eq fields s,
    getAll_congr fields (FieldName.foldCase_text_ofText s), (getAll_eq_of_fieldName fields s).symm,
    rfl, contains_iff, FieldName.ofText_eq_iff, FieldName.denotes_ofText_iff,
    FieldName.ofOwned_eq s⟩

end Fields

end HttpHead
