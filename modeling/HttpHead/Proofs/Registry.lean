import HttpHead.Method
import Mathlib.Data.List.Nodup

/-! Registries: tables in which values are found by their texts. Where every value has one entry
under its own text, a look-up is the inverse of the text (`Keyed.find?_eq_some_iff`). So a method
is its text, and nothing else of it is lost or added (`Method.text_ofText`). -/
namespace HttpHead

/-- Every value has an entry in the table under its key, and no key has two. -/
structure Keyed {α : Type} (key : α → String) (table : List (String × α)) : Prop where
  fst_eq : ∀ entry ∈ table, entry.1 = key entry.2
  complete : ∀ value, value ∈ table.map (·.2)
  nodup : (table.map (·.1)).Nodup

namespace Keyed

variable {α : Type} {key : α → String} {table : List (String × α)} {value : α}

theorem mem_table (h : Keyed key table) (value : α) : (key value, value) ∈ table := by
  obtain ⟨⟨text, _⟩, hmem, rfl⟩ := List.mem_map.1 (h.complete value)
  rwa [← h.fst_eq _ hmem]

theorem key_inj (h : Keyed key table) {other : α} (hkey : key value = key other) :
    value = other :=
  congrArg Prod.snd (List.inj_on_of_nodup_map h.nodup (h.mem_table value) (h.mem_table other) hkey)

theorem find?_eq_some_iff (h : Keyed key table) {p : String → Bool} {text : String}
    (hp : ∀ value, p (key value) ↔ key value = text) :
    (table.find? (p ·.1)).map (·.2) = some value ↔ key value = text := by
  have hfound {value : α} (hvalue : (table.find? (p ·.1)).map (·.2) = some value) :
      key value = text := by
    obtain ⟨⟨k, _⟩, hfind, rfl⟩ := Option.map_eq_some_iff.1 hvalue
    have hk := h.fst_eq _ (List.mem_of_find?_eq_some hfind)
    have hpk := List.find?_some hfind
    rw [hk] at hpk
    exact (hp _).1 hpk
  refine ⟨hfound, ?_⟩
  intro hkey
  have hsome : (table.find? (p ·.1)).isSome :=
    List.find?_isSome.2 ⟨_, h.mem_table value, (hp value).2 hkey⟩
  obtain ⟨⟨k, other⟩, hfind⟩ := Option.isSome_iff_exists.1 hsome
  have hother : (table.find? (p ·.1)).map (·.2) = some other := by rw [hfind, Option.map_some]
  rw [hother, h.key_inj ((hfound hother).trans hkey.symm)]

end Keyed

theorem Verb.keyed_table : Keyed text table where
  fst_eq := by decide +kernel
  complete := by
    intro verb
    cases verb <;> decide
  nodup := by decide +kernel

theorem Verb.ofText?_eq_some_iff {s : String} {verb : Verb} :
    ofText? s = some verb ↔ verb.text = s := by
  have hsame (verb : Verb) : (verb.text == s) ↔ verb.text = s := beq_iff_eq
  exact keyed_table.find?_eq_some_iff (p := (· == s)) hsame

namespace Method

variable {s t : String} {method : Method}

theorem registered?_eq_some_iff :
    registered? s = some method ↔ method.isExtension = false ∧ method.text = s := by
  rw [registered?, Option.map_eq_some_iff]
  simp only [Verb.ofText?_eq_some_iff]
  cases method with
  | extension text => simp [isExtension]
  | registered verb => simp [isExtension, text]

theorem text_ofText (s : String) : (ofText s).text = s := by
  rw [ofText]
  cases h : registered? s with
  | none => rfl
  | some method => exact (registered?_eq_some_iff.1 h).2

theorem ofText_text_verb (verb : Verb) : ofText verb.text = registered verb := by
  have hfound : registered? verb.text = some (registered verb) :=
    registered?_eq_some_iff.2 ⟨rfl, rfl⟩
  rw [ofText, hfound]

theorem ofText_text_eq_iff :
    ofText method.text = method ↔ ∀ verb : Verb, method ≠ extension verb.text := by
  constructor
  · intro h verb heq
    rw [heq, text, ofText_text_verb] at h
    cases h
  · intro h
    cases method with
    | registered verb => exact ofText_text_verb verb
    | extension s =>
      rw [text]
      have htext := text_ofText s
      cases hs : ofText s with
      | extension t => rw [hs, text] at htext; rw [htext]
      | registered verb => rw [hs, text] at htext; exact absurd (by rw [htext]) (h verb)

theorem ofOwned_eq (s : String) : ofOwned s = ofText s := by
  rw [ofOwned, ofText]
  cases registered? s <;> rfl

theorem isExtension_ofText_iff : (ofText s).isExtension ↔ registered? s = none := by
  rw [ofText]
  cases h : registered? s with
  | none => exact iff_of_true rfl rfl
  | some method => simp [(registered?_eq_some_iff.1 h).1]

theorem ofText_eq_iff : ofText s = ofText t ↔ s = t := by
  constructor
  · intro h
    rw [← text_ofText s, h, text_ofText]
  · rintro rfl
    rfl

/-- Every text is that of its method, whether the text is given away or not. A method is registered
exactly under its own text, every other text is an extension, and no two texts are one method. -/
theorem text_exact (s t : String) :
    (ofText s).text = s ∧ (ofOwned s).text = s ∧ ofOwned s = ofText s ∧
      (∀ method, registered? s = some method ↔ method.isExtension = false ∧ method.text = s) ∧
      ((ofText s).isExtension ↔ registered? s = none) ∧
      (ofText s = ofText t ↔ s = t) := by
  refine ⟨text_ofText s, ?_, ofOwned_eq s, fun _ => registered?_eq_some_iff,
    isExtension_ofText_iff, ofText_eq_iff⟩
  rw [ofOwned_eq, text_ofText]

example : ofText "GET" = registered .get ∧ ofText "Get" = extension "Get" := by decide +kernel

end Method

end HttpHead
