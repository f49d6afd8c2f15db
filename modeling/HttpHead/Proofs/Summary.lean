import HttpHead.Field.Summary
import HttpHead.Proofs.Decimal

/-! What the fields of a head have to say together, told of the whole list: every
Content-Length is the same number, and a strict summary has at most one of them and
at most one Host. Noting the fields one by one succeeds exactly then (`noteAll_eq_ok_iff`). -/
namespace HttpHead

namespace Field

def isLength (field : Field) : Bool := field.isNamed KnownName.contentLength.text

def isHost (field : Field) : Bool := field.isNamed KnownName.host.text

theorem isHost_eq_false_of_isLength {field : Field} (h : field.isLength) :
    field.isHost = false := by
  have hfold : Text.foldCase field.name = Text.foldCase KnownName.contentLength.text := by
    simpa [isLength, isNamed, Text.sameUpToCase] using h
  rw [isHost, isNamed, Text.sameUpToCase, hfold]
  decide

end Field

namespace Summary

def noteAll (strict : Bool) (summary : Summary) (fields : List Field) : Except Violation Summary :=
  fields.foldlM (fun s f => s.note strict f) summary

theorem noteAll_cons {strict : Bool} {s s' : Summary} {f : Field} {fields : List Field} :
    s.noteAll strict (f :: fields) = .ok s' ↔
      ∃ t, s.note strict f = .ok t ∧ t.noteAll strict fields = .ok s' := by
  rw [noteAll, List.foldlM_cons]
  cases s.note strict f with
  | error v => simp [bind, Except.bind]
  | ok t => simp [bind, Except.bind, noteAll]

theorem noteAll_concat {strict : Bool} {s s' : Summary} {f : Field} {fields : List Field} :
    s.noteAll strict (fields ++ [f]) = .ok s' ↔
      ∃ t, s.noteAll strict fields = .ok t ∧ t.note strict f = .ok s' := by
  induction fields generalizing s with
  | nil =>
    rw [List.nil_append, noteAll_cons]
    simp [noteAll, pure, Except.pure]
  | cons g fields ih =>
    simp only [List.cons_append, noteAll_cons, ih]
    constructor
    · intro h
      obtain ⟨t, ht, u, hu, hs⟩ := h
      exact ⟨u, ⟨t, ht, hu⟩, hs⟩
    · intro h
      obtain ⟨u, ⟨t, ht, hu⟩, hs⟩ := h
      exact ⟨t, ht, u, hu, hs⟩

/-- The fields can stand in one head. -/
structure Agree (strict : Bool) (fields : List Field) : Prop where
  same_length : ∃ n, ∀ f ∈ fields, f.isLength → Decimal.read? f.value = some n
  length_once : strict → fields.countP Field.isLength ≤ 1
  host_once : strict → fields.countP Field.isHost ≤ 1

theorem agree_nil (strict : Bool) : Agree strict [] := ⟨⟨0, by simp⟩, by simp, by simp⟩

/-- One more field agrees with the others if it is the same length, or a strict
summary has no field of its kind yet. -/
theorem agree_concat_iff {strict : Bool} {fields : List Field} {f : Field} :
    Agree strict (fields ++ [f]) ↔ Agree strict fields ∧
      (f.isLength → (∃ n, Decimal.read? f.value = some n ∧
          ∀ g ∈ fields, g.isLength → Decimal.read? g.value = some n) ∧
        (strict → ∀ g ∈ fields, ¬g.isLength)) ∧
      (f.isHost → strict → ∀ g ∈ fields, ¬g.isHost) := by
  constructor
  · intro h
    obtain ⟨⟨n, hn⟩, hlength, hhost⟩ := h
    simp only [List.countP_append, List.countP_singleton] at hlength hhost
    refine ⟨⟨⟨n, fun g hg => hn g (by simp [hg])⟩, fun hs => ?_, fun hs => ?_⟩,
      fun hf => ⟨?_, ?_⟩, ?_⟩
    · exact le_trans (Nat.le_add_right ..) (hlength hs)
    · exact le_trans (Nat.le_add_right ..) (hhost hs)
    · exact ⟨n, hn f (by simp) hf, fun g hg => hn g (by simp [hg])⟩
    · intro hs
      exact List.countP_eq_zero.1 (by simpa [hf] using hlength hs)
    · intro hf hs
      exact List.countP_eq_zero.1 (by simpa [hf] using hhost hs)
  · intro h
    obtain ⟨⟨⟨m, hm⟩, hlength, hhost⟩, hl, hh⟩ := h
    refine ⟨?_, fun hs => ?_, fun hs => ?_⟩
    · by_cases hf : f.isLength
      · obtain ⟨⟨n, hread, hn⟩, -⟩ := hl hf
        exact ⟨n, by simpa [or_imp, forall_and, hf, hread] using hn⟩
      · exact ⟨m, by simpa [or_imp, forall_and, hf] using hm⟩
    · by_cases hf : f.isLength
      · simp [List.countP_append, List.countP_eq_zero.2 ((hl hf).2 hs), hf]
      · simpa [List.countP_append, hf] using hlength hs
    · by_cases hf : f.isHost
      · simp [List.countP_append, List.countP_eq_zero.2 (hh hf hs), hf]
      · simpa [List.countP_append, hf] using hhost hs

def ofFields (fields : List Field) : Summary where
  contentLength? := (fields.find? Field.isLength).bind (Decimal.read? ·.value)
  hosts := fields.countP Field.isHost

theorem hosts_eq_zero_iff {fields : List Field} :
    (ofFields fields).hosts = 0 ↔ ∀ f ∈ fields, ¬f.isHost :=
  List.countP_eq_zero

theorem contentLength?_ofFields {strict : Bool} {fields : List Field} {f : Field}
    (ha : Agree strict fields) (hf : f ∈ fields) (hl : f.isLength) :
    (ofFields fields).contentLength? = Decimal.read? f.value := by
  obtain ⟨n, hn⟩ := ha.same_length
  cases hfind : fields.find? Field.isLength with
  | none => exact absurd hl (List.find?_eq_none.1 hfind f hf)
  | some g =>
    have hg := hn g (List.mem_of_find?_eq_some hfind) (List.find?_some hfind)
    simp [ofFields, hfind, hg, hn f hf hl]

theorem note_length_eq_ok_iff {strict : Bool} {fields : List Field} {f : Field} {s : Summary}
    (hl : f.isLength) (ha : Agree strict fields) :
    (ofFields fields).note strict f = .ok s ↔
      Agree strict (fields ++ [f]) ∧ ofFields (fields ++ [f]) = s := by
  have hh := Field.isHost_eq_false_of_isLength hl
  have hnote : (ofFields fields).note strict f = (ofFields fields).noteLength strict f.value := by
    rw [Field.isLength] at hl
    simp [note, hl]
  rw [hnote, noteLength, agree_concat_iff]
  cases hread : Decimal.read? f.value with
  | none => simp [hl]
  | some n =>
    by_cases hfirst : ∀ g ∈ fields, ¬g.isLength
    · have hfind : fields.find? Field.isLength = none :=
        List.find?_eq_none.2 (by simpa using hfirst)
      have hsame : ∀ g ∈ fields, g.isLength → Decimal.read? g.value = some n :=
        fun g hg hgl => absurd hgl (hfirst g hg)
      have hearlier : (ofFields fields).contentLength? = none := by simp [ofFields, hfind]
      have hnext : ofFields (fields ++ [f]) =
          { ofFields fields with contentLength? := some n } := by
        simp [ofFields, List.find?_append, hfind, List.countP_append, hl, hh, hread]
      rw [hearlier, hnext, Except.ok.injEq]
      constructor
      · intro hs
        exact ⟨⟨ha, fun _ => ⟨⟨n, rfl, hsame⟩, fun _ => hfirst⟩, by simp [hh]⟩, hs⟩
      · exact And.right
    · obtain ⟨g, hg, hgl⟩ : ∃ g ∈ fields, g.isLength := by simpa using hfirst
      obtain ⟨m, hm⟩ := ha.same_length
      have hearlier : (ofFields fields).contentLength? = some m := by
        rw [contentLength?_ofFields ha hg hgl, hm g hg hgl]
      have hnext : ofFields (fields ++ [f]) = ofFields fields := by
        obtain ⟨g', hg'⟩ : ∃ g', fields.find? Field.isLength = some g' :=
          Option.isSome_iff_exists.1 (List.find?_isSome.2 ⟨g, hg, hgl⟩)
        simp [ofFields, List.find?_append, hg', List.countP_append, hh]
      have hsame : (∀ g ∈ fields, g.isLength → Decimal.read? g.value = some n) ↔ m = n := by
        constructor
        · intro h
          simpa [hm g hg hgl] using h g hg hgl
        · rintro rfl
          exact hm
      simp only [hearlier, hnext, hl, hh, ha, hfirst, hsame, true_and, forall_const, imp_false,
        Bool.false_eq_true, false_imp_iff, and_true, Option.some.injEq, exists_eq_left']
      by_cases hmn : m = n
      · cases strict <;> simp [hmn]
      · simp [hmn]

theorem note_host_eq_ok_iff {strict : Bool} {fields : List Field} {f : Field} {s : Summary}
    (hl : f.isLength = false) (hh : f.isHost) (ha : Agree strict fields) :
    (ofFields fields).note strict f = .ok s ↔
      Agree strict (fields ++ [f]) ∧ ofFields (fields ++ [f]) = s := by
  have hnote : (ofFields fields).note strict f = (ofFields fields).noteHost strict := by
    rw [Field.isLength] at hl
    rw [Field.isHost] at hh
    simp [note, hl, hh]
  have hnext : ofFields (fields ++ [f]) =
      { ofFields fields with hosts := (ofFields fields).hosts + 1 } := by
    simp [ofFields, List.find?_append, List.countP_append, hl, hh]
  have hagree : Agree strict (fields ++ [f]) ↔ (strict → (ofFields fields).hosts = 0) := by
    rw [agree_concat_iff, hosts_eq_zero_iff]
    simp [ha, hl, hh]
  rw [hnote, noteHost, hagree, hnext]
  cases strict with
  | false => simp
  | true =>
    by_cases hzero : (ofFields fields).hosts = 0
    · simp [hzero]
    · simp [hzero, Nat.pos_of_ne_zero hzero]

theorem note_other_eq_ok_iff {strict : Bool} {fields : List Field} {f : Field} {s : Summary}
    (hl : f.isLength = false) (hh : f.isHost = false) (ha : Agree strict fields) :
    (ofFields fields).note strict f = .ok s ↔
      Agree strict (fields ++ [f]) ∧ ofFields (fields ++ [f]) = s := by
  have hnote : (ofFields fields).note strict f = .ok (ofFields fields) := by
    rw [Field.isLength] at hl
    rw [Field.isHost] at hh
    simp [note, hl, hh]
  have hnext : ofFields (fields ++ [f]) = ofFields fields := by
    simp [ofFields, List.find?_append, List.countP_append, hl, hh]
  rw [hnote, agree_concat_iff, hnext]
  simp [ha, hl, hh]

theorem note_eq_ok_iff {strict : Bool} {fields : List Field} {f : Field} {s : Summary}
    (ha : Agree strict fields) :
    (ofFields fields).note strict f = .ok s ↔
      Agree strict (fields ++ [f]) ∧ ofFields (fields ++ [f]) = s := by
  by_cases hl : f.isLength
  · exact note_length_eq_ok_iff hl ha
  · rw [Bool.not_eq_true] at hl
    by_cases hh : f.isHost
    · exact note_host_eq_ok_iff hl hh ha
    · exact note_other_eq_ok_iff hl (by simpa using hh) ha

theorem noteAll_eq_ok_iff {strict : Bool} {fields : List Field} {s : Summary} :
    noteAll strict {} fields = .ok s ↔ Agree strict fields ∧ ofFields fields = s := by
  induction fields using List.reverseRecOn generalizing s with
  | nil => simp [noteAll, agree_nil, ofFields, pure, Except.pure]
  | append_singleton fields f ih =>
    rw [noteAll_concat]
    simp only [ih]
    constructor
    · intro h
      obtain ⟨t, ⟨ha, rfl⟩, hnote⟩ := h
      exact (note_eq_ok_iff ha).1 hnote
    · intro h
      have ha := (agree_concat_iff.1 h.1).1
      exact ⟨ofFields fields, ⟨ha, rfl⟩, (note_eq_ok_iff ha).2 h⟩

end Summary

end HttpHead
