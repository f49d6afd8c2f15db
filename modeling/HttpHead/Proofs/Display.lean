import HttpHead.Proofs.Utf8
import HttpHead.Request

/-! The display of a request is its canonical form, decoded. Lossy decoding is told by its rule:
one replacement for each maximal part that begins a character and goes on to none (`Lossy`). An
octet of US-ASCII ends any such part, so a value can be decoded without what stands behind it. -/
namespace HttpHead

namespace Utf8

variable {part text rest : Octets} {s t : String} {b : UInt8}

/-- The octets are a character's form, or the front of one. -/
def Begins (part : Octets) : Prop := ∃ c, part <+: String.utf8EncodeChar c

/-- The part of a text that one replacement stands for. No character is read at the front of the
text, and of what could have begun one the part is all, or it is a single octet. -/
structure Subpart (part text : Octets) : Prop where
  front : part <+: text
  nonempty : part ≠ []
  unreadable : ∀ c, ¬String.utf8EncodeChar c <+: text
  begins : part.length = 1 ∨ Begins part
  longest : ∀ longer, longer <+: text → longer.length = 1 ∨ Begins longer →
    longer.length ≤ part.length

/-- The text is decoded as characters, and replacements where there are none. -/
inductive Lossy : Octets → String → Prop where
  | nil : Lossy [] ""
  | char (c : Char) {text : Octets} {s : String} (h : Lossy text s) :
      Lossy (String.utf8EncodeChar c ++ text) (String.singleton c ++ s)
  | subpart {part text : Octets} {s : String} (ill : Subpart part (part ++ text))
      (h : Lossy text s) : Lossy (part ++ text) (String.singleton replacement ++ s)

theorem countWithin_le (ranges : List (UInt8 × UInt8)) (text : Octets) :
    countWithin ranges text ≤ text.length := by
  fun_induction countWithin ranges text with
  | case1 low high ranges b text hb ih => exact Nat.succ_le_succ ih
  | case2 => exact Nat.zero_le _
  | case3 => exact Nat.zero_le _

theorem countWithin_take (ranges : List (UInt8 × UInt8)) (text : Octets) :
    countWithin ranges (text.take (countWithin ranges text)) = countWithin ranges text := by
  fun_induction countWithin ranges text with
  | case1 low high ranges b text hb ih => simp [countWithin, hb, ih]
  | case2 => simp [countWithin]
  | case3 => simp [countWithin]

theorem countWithin_le_append (ranges : List (UInt8 × UInt8)) (text more : Octets) :
    countWithin ranges text ≤ countWithin ranges (text ++ more) := by
  fun_induction countWithin ranges text with
  | case1 low high ranges b text hb ih => simpa [countWithin, hb] using ih
  | case2 => exact Nat.zero_le _
  | case3 => exact Nat.zero_le _

theorem countWithin_eq_length_iff {ranges : List (UInt8 × UInt8)}
    (hranges : ∀ range ∈ ranges, 0x80 ≤ range.1 ∧ range.1 ≤ range.2) :
    countWithin ranges text = text.length ↔ ∃ more, List.Forall₂ Within ranges (text ++ more) := by
  induction text generalizing ranges with
  | nil =>
    have hlow : List.Forall₂ Within ranges (ranges.map Prod.fst) := by
      rw [List.forall₂_map_right_iff, List.forall₂_same]
      intro range hrange
      exact ⟨UInt8.le_refl _, (hranges range hrange).2⟩
    simpa [countWithin] using ⟨_, hlow⟩
  | cons b text ih =>
    cases ranges with
    | nil => simp [countWithin]
    | cons range ranges =>
      have hcons := ih (List.forall_mem_cons.1 hranges).2
      by_cases hb : Within range b
      · simp only [List.cons_append, List.forall₂_cons, hb, true_and, ← hcons]
        simp [countWithin, hb.1, hb.2]
      · simp only [List.cons_append, List.forall₂_cons, hb, false_and, exists_false, iff_false]
        have hnot : ¬(range.1 ≤ b ∧ b ≤ range.2) := hb
        simp [countWithin, hnot]

theorem begins_cons_iff {lead : UInt8} (hne : text ≠ []) :
    Begins (lead :: text) ↔ countWithin (continuations lead) text = text.length := by
  rw [countWithin_eq_length_iff (continuations_spec lead).1]
  constructor
  · intro h
    obtain ⟨c, more, hc⟩ := h
    obtain ⟨-, hnil⟩ | ⟨-, hwithin⟩ := exists_encode_iff.1 ⟨c, hc.symm⟩
    · exact absurd (List.append_eq_nil_iff.1 hnil).1 hne
    · exact ⟨more, hwithin⟩
  · intro h
    obtain ⟨more, hwithin⟩ := h
    have hranges : continuations lead ≠ [] := by
      intro hnil
      rw [hnil, List.forall₂_nil_left_iff] at hwithin
      exact hne (List.append_eq_nil_iff.1 hwithin).1
    obtain ⟨c, hc⟩ := exists_encode_iff.2 (.inr ⟨hranges, hwithin⟩)
    exact ⟨c, more, hc.symm⟩

theorem unreadable_of_first?_eq_none (h : first? text = none) (c : Char) :
    ¬String.utf8EncodeChar c <+: text := by
  intro hc
  cases h.symm.trans (first?_eq_some_iff.2 hc)

theorem subpart_of_first?_eq_none {lead : UInt8} (h : first? (lead :: text) = none) :
    Subpart (lead :: text.take (countWithin (continuations lead) text)) (lead :: text) where
  front := List.cons_prefix_cons.2 ⟨rfl, List.take_prefix _ _⟩
  nonempty := nofun
  unreadable := unreadable_of_first?_eq_none h
  begins := by
    by_cases hnil : text.take (countWithin (continuations lead) text) = []
    · rw [hnil]
      exact .inl rfl
    · right
      rw [begins_cons_iff hnil, countWithin_take, List.length_take_of_le (countWithin_le _ _)]
  longest := by
    intro longer hfront hlonger
    rw [List.length_cons, List.length_take_of_le (countWithin_le _ _)]
    cases longer with
    | nil => exact Nat.zero_le _
    | cons b more =>
      obtain ⟨rfl, rest, rfl⟩ := List.cons_prefix_cons.1 hfront
      rw [List.length_cons]
      apply Nat.succ_le_succ
      by_cases hnil : more = []
      · rw [hnil]
        exact Nat.zero_le _
      · have hbegins : Begins (b :: more) := by
          refine hlonger.resolve_left ?_
          rw [List.length_cons, Nat.add_eq_right, List.length_eq_zero_iff]
          exact hnil
        rw [← (begins_cons_iff hnil).1 hbegins]
        exact countWithin_le_append _ _ _

theorem Subpart.unique {part' : Octets} (h : Subpart part text) (h' : Subpart part' text) :
    part = part' := by
  have hle := h'.longest part h.front h.begins
  have hge := h.longest part' h'.front h'.begins
  exact (List.prefix_of_prefix_length_le h.front h'.front hle).eq_of_length (by omega)

theorem decodeLossyOnto_eq (done : String) (text : Octets) :
    decodeLossyOnto done text = done ++ decodeLossy text := by
  induction hn : text.length using Nat.strongRecOn generalizing text done with
  | ind n ih =>
    cases text with
    | nil => simp [decodeLossy, decodeLossyOnto]
    | cons lead text =>
      have hshort (k : Nat) (done : String) : decodeLossyOnto done (text.drop k) =
          done ++ decodeLossy (text.drop k) := by
        apply ih (text.drop k).length _ _ _ rfl
        rw [← hn, List.length_drop, List.length_cons]
        omega
      rw [decodeLossy, decodeLossyOnto, decodeLossyOnto]
      cases first? (lead :: text)
      all_goals
        dsimp only
        rw [hshort, hshort, String.push_eq_append, String.push_eq_append, String.empty_append,
          String.append_assoc]

theorem decodeLossy_cons_of_some {lead : UInt8} {c : Char} (h : first? (lead :: text) = some c) :
    decodeLossy (lead :: text) =
      String.singleton c ++ decodeLossy (text.drop (c.utf8Size - 1)) := by
  rw [decodeLossy, decodeLossyOnto, h]
  dsimp only
  rw [decodeLossyOnto_eq, String.push_eq_append, String.empty_append]

theorem decodeLossy_cons_of_none {lead : UInt8} (h : first? (lead :: text) = none) :
    decodeLossy (lead :: text) = String.singleton replacement ++
      decodeLossy (text.drop (countWithin (continuations lead) text)) := by
  rw [decodeLossy, decodeLossyOnto, h]
  dsimp only
  rw [decodeLossyOnto_eq, String.push_eq_append, String.empty_append]

theorem decodeLossy_char (c : Char) (text : Octets) :
    decodeLossy (String.utf8EncodeChar c ++ text) = String.singleton c ++ decodeLossy text := by
  have hfirst : first? (String.utf8EncodeChar c ++ text) = some c :=
    first?_eq_some_iff.2 (List.prefix_append _ _)
  have hlength := String.length_utf8EncodeChar c
  obtain ⟨lead, tail, hform, -⟩ := exists_isForm c
  rw [hform] at hlength
  rw [hform, List.cons_append] at hfirst ⊢
  rw [decodeLossy_cons_of_some hfirst, ← hlength, List.length_cons, Nat.add_sub_cancel,
    List.drop_left]

theorem decodeLossy_subpart (h : Subpart part (part ++ text)) :
    decodeLossy (part ++ text) = String.singleton replacement ++ decodeLossy text := by
  obtain ⟨lead, tail, rfl⟩ := List.exists_cons_of_ne_nil h.nonempty
  rw [List.cons_append] at h ⊢
  have hfirst : first? (lead :: (tail ++ text)) = none := by
    rw [Option.eq_none_iff_forall_ne_some]
    intro c hc
    exact h.unreadable c (first?_eq_some_iff.1 hc)
  have htail := (List.cons.inj (h.unique (subpart_of_first?_eq_none hfirst))).2
  have hcount := congrArg List.length htail
  rw [List.length_take_of_le (countWithin_le _ _)] at hcount
  rw [decodeLossy_cons_of_none hfirst, ← hcount, List.drop_left]

theorem lossy_decodeLossy (text : Octets) : Lossy text (decodeLossy text) := by
  induction hn : text.length using Nat.strongRecOn generalizing text with
  | ind n ih =>
    cases text with
    | nil =>
      rw [decodeLossy, decodeLossyOnto]
      exact .nil
    | cons lead tail =>
      cases hfirst : first? (lead :: tail) with
      | some c =>
        obtain ⟨rest, hrest⟩ := first?_eq_some_iff.1 hfirst
        have hpos := List.length_pos_of_ne_nil (encode_ne_nil c)
        have hlength := congrArg List.length hrest
        rw [List.length_append] at hlength
        rw [← hrest, decodeLossy_char]
        exact .char c (ih rest.length (by omega) rest rfl)
      | none =>
        have hpart := subpart_of_first?_eq_none hfirst
        obtain ⟨rest, hrest⟩ := hpart.front
        have hlength := congrArg List.length hrest
        rw [List.length_append, List.length_cons] at hlength
        rw [← hrest] at hpart ⊢
        rw [decodeLossy_subpart hpart]
        exact .subpart hpart (ih rest.length (by omega) rest rfl)

/-- The rule decodes every text, and in one way only. -/
theorem lossy_iff : Lossy text s ↔ s = decodeLossy text := by
  constructor
  · intro h
    induction h with
    | nil =>
      rw [decodeLossy, decodeLossyOnto]
    | char c _ ih => rw [decodeLossy_char, ih]
    | subpart ill _ ih => rw [decodeLossy_subpart ill, ih]
  · rintro rfl
    exact lossy_decodeLossy text

theorem prefix_of_begins (hb : b < 0x80) (hne : text ≠ []) (h : part <+: text ++ b :: rest)
    (hbegins : Begins part) : part <+: text := by
  have htext : text <+: text ++ b :: rest := List.prefix_append _ _
  by_cases hle : part.length ≤ text.length
  · exact List.prefix_of_prefix_length_le h htext hle
  · -- Then `b` would stand in the encoding of a character behind its first octet.
    have hmore : text ++ [b] <+: part := by
      apply List.prefix_of_prefix_length_le _ h
      · rw [List.length_append, List.length_singleton]
        omega
      · exact ⟨rest, by simp⟩
    obtain ⟨c, hc⟩ := hbegins
    obtain ⟨behind, hform⟩ := hmore.trans hc
    obtain ⟨lead, tail, rfl⟩ := List.exists_cons_of_ne_nil hne
    have hcons : String.utf8EncodeChar c = lead :: (tail ++ b :: behind) := by
      simpa using hform.symm
    exact absurd hb (UInt8.not_lt.2 (le_of_mem_tail hcons b (by simp)))

theorem prefix_of_encode {c : Char} (hb : b < 0x80) (hne : text ≠ [])
    (h : String.utf8EncodeChar c <+: text ++ b :: rest) : String.utf8EncodeChar c <+: text :=
  prefix_of_begins hb hne h ⟨c, List.prefix_rfl⟩

theorem Subpart.append (h : Subpart part text) (hb : b < 0x80) (rest : Octets) :
    Subpart part (text ++ b :: rest) := by
  have hne : text ≠ [] := by
    intro hnil
    rw [hnil] at h
    exact h.nonempty (List.prefix_nil.1 h.front)
  refine ⟨h.front.trans (List.prefix_append _ _), h.nonempty, ?_, h.begins, ?_⟩
  · intro c hc
    exact h.unreadable c (prefix_of_encode hb hne hc)
  · intro longer hfront hlonger
    obtain hone | hbegins := hlonger
    · rw [hone]
      exact List.length_pos_of_ne_nil h.nonempty
    · exact h.longest longer (prefix_of_begins hb hne hfront hbegins) (.inr hbegins)

theorem Lossy.append (h : Lossy text s) (hb : b < 0x80) (hrest : Lossy (b :: rest) t) :
    Lossy (text ++ b :: rest) (s ++ t) := by
  induction h with
  | nil => simpa using hrest
  | char c _ ih =>
    rw [List.append_assoc, String.append_assoc]
    exact .char c ih
  | subpart ill _ ih =>
    have hill := ill.append hb rest
    rw [List.append_assoc] at hill ⊢
    rw [String.append_assoc]
    exact .subpart hill ih

theorem encode_ofList_cons (c : Char) (cs : List Char) :
    encode (.ofList (c :: cs)) = String.utf8EncodeChar c ++ encode (.ofList cs) := by
  simp [encode]

theorem exists_eq_ofList (s : String) : ∃ cs, s = .ofList cs := ⟨s.toList, by simp⟩

theorem lossy_encode_append (s : String) (h : Lossy text t) :
    Lossy (encode s ++ text) (s ++ t) := by
  obtain ⟨cs, rfl⟩ := exists_eq_ofList s
  induction cs with
  | nil => simpa [encode] using h
  | cons c cs ih =>
    rw [encode_ofList_cons, String.ofList_cons, List.append_assoc, String.append_assoc]
    exact .char c ih

theorem decodeLossy_encode (s : String) : decodeLossy (encode s) = s := by
  have h := lossy_iff.1 (lossy_encode_append s .nil)
  simpa using h.symm

theorem exists_encode_cut (hb : b < 0x80) (h : encode s = text ++ b :: rest) :
    (∃ t, encode t = text) ∧ ∃ t, encode t = b :: rest := by
  obtain ⟨cs, rfl⟩ := exists_eq_ofList s
  induction cs generalizing text with
  | nil => simp [encode] at h
  | cons c cs ih =>
    by_cases hne : text = []
    · subst hne
      exact ⟨⟨"", rfl⟩, _, h⟩
    · rw [encode_ofList_cons] at h
      obtain ⟨more, rfl⟩ := prefix_of_encode hb hne ⟨_, h⟩
      rw [List.append_assoc] at h
      obtain ⟨⟨t, ht⟩, hrest⟩ := ih (List.append_cancel_left h)
      exact ⟨⟨String.singleton c ++ t, by simp [encode, ← ht]⟩, hrest⟩

theorem exists_encode_behind (h : encode t = encode s ++ text) : ∃ u, encode u = text := by
  obtain ⟨cs, rfl⟩ := exists_eq_ofList s
  induction cs generalizing t with
  | nil => exact ⟨t, by simpa [encode] using h⟩
  | cons c cs ih =>
    rw [encode_ofList_cons, List.append_assoc] at h
    obtain ⟨ds, rfl⟩ := exists_eq_ofList t
    cases ds with
    | nil =>
      have hnil := (List.append_eq_nil_iff.1 h.symm).1
      exact absurd hnil (encode_ne_nil c)
    | cons d ds =>
      rw [encode_ofList_cons] at h
      obtain rfl : d = c := encode_inj_of_prefix ⟨_, h⟩ (List.prefix_append _ _)
      exact ih (List.append_cancel_left h)

end Utf8

open Utf8

variable {text : Octets} {s : String}

namespace Field

theorem line_eq (field : Field) :
    field.line = encode (field.name ++ ": ") ++ (field.value ++ encode "\r\n") := by
  have hcolon : encode ": " = [Octet.colon, Octet.sp] := by decide
  have hcrlf : encode "\r\n" = Octets.crlf := by decide
  simp [line, hcolon, hcrlf]

theorem lossy_line (field : Field) (h : Lossy text s) :
    Lossy (field.line ++ text) (field.display ++ s) := by
  have hvalue : Lossy (field.value ++ (encode "\r\n" ++ text))
      (decodeLossy field.value ++ ("\r\n" ++ s)) :=
    (lossy_decodeLossy field.value).append (by decide) (lossy_encode_append "\r\n" h)
  have hline := lossy_encode_append (field.name ++ ": ") hvalue
  simpa [line_eq, display, String.append_assoc] using hline

theorem lossy_lines (fields : List Field) (h : Lossy text s) :
    Lossy (fields.flatMap line ++ text) (String.join (fields.map display) ++ s) := by
  induction fields with
  | nil => simpa using h
  | cons field fields ih =>
    rw [List.flatMap_cons, List.map_cons, String.join_cons, List.append_assoc,
      String.append_assoc]
    exact field.lossy_line ih

theorem encode_display {field : Field} (h : ∃ value, encode value = field.value) :
    encode field.display = field.line := by
  obtain ⟨value, hvalue⟩ := h
  have hdecode : encode (decodeLossy field.value) = field.value := by
    rw [← hvalue, decodeLossy_encode]
  rw [line_eq, display, encode_append, encode_append, hdecode, List.append_assoc]

theorem encode_join_display {fields : List Field}
    (h : ∀ field ∈ fields, ∃ value, encode value = field.value) :
    encode (String.join (fields.map display)) = fields.flatMap line := by
  induction fields with
  | nil => rfl
  | cons field fields ih =>
    obtain ⟨hfield, hfields⟩ := List.forall_mem_cons.1 h
    rw [List.map_cons, String.join_cons, encode_append, encode_display hfield, ih hfields,
      List.flatMap_cons]

theorem exists_encode_value {fields : List Field} (h : encode s = fields.flatMap line ++ text) :
    ∀ field ∈ fields, ∃ value, encode value = field.value := by
  induction fields generalizing s with
  | nil => simp
  | cons field fields ih =>
    rw [List.flatMap_cons, line_eq, List.append_assoc, List.append_assoc, List.append_assoc] at h
    obtain ⟨u, hu⟩ := exists_encode_behind h
    obtain ⟨hvalue, v, hv⟩ := exists_encode_cut (b := Octet.cr) (by decide) hu
    obtain ⟨w, hw⟩ := exists_encode_behind (s := "\r\n") hv
    exact List.forall_mem_cons.2 ⟨hvalue, ih hw⟩

end Field

namespace Request

theorem canonical_eq (request : Request) :
    request.canonical = encode (request.requestLine ++ "\r\n") ++
      (request.fields.toList.flatMap Field.line ++ encode "\r\n") := by
  have hcrlf : encode "\r\n" = Octets.crlf := by decide
  simp [canonical, hcrlf]

theorem lossy_canonical (request : Request) : Lossy request.canonical request.display := by
  have hend : Lossy (encode "\r\n" ++ []) ("\r\n" ++ "") := lossy_encode_append "\r\n" .nil
  have hlines := Field.lossy_lines request.fields.toList hend
  have hall := lossy_encode_append (request.requestLine ++ "\r\n") hlines
  simpa [canonical_eq, display, String.append_assoc] using hall

/-- The display of a request is the lossy decoding of its canonical form as a whole, though it
decodes value by value. It says all of the canonical form exactly if every value is a text. -/
theorem display_eq_decodeLossy (request : Request) :
    request.display = decodeLossy request.canonical ∧
      (∀ s, Lossy request.canonical s ↔ s = request.display) ∧
      (encode request.display = request.canonical ↔
        ∀ field ∈ request.fields.toList, (decode? field.value).isSome) := by
  have hdisplay : request.display = decodeLossy request.canonical :=
    lossy_iff.1 request.lossy_canonical
  have htext (field : Field) :
      (decode? field.value).isSome ↔ ∃ value, encode value = field.value := by
    simp only [Option.isSome_iff_exists, decode?_eq_some_iff]
  simp only [htext]
  refine ⟨hdisplay, fun s => by rw [lossy_iff, hdisplay], ?_, ?_⟩
  · intro h
    rw [canonical_eq] at h
    obtain ⟨lines, hlines⟩ := exists_encode_behind h
    exact Field.exists_encode_value hlines
  · intro h
    rw [display, canonical_eq, encode_append, encode_append, Field.encode_join_display h]
    simp

end Request

end HttpHead
