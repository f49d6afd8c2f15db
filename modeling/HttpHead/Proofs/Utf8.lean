import HttpHead.Proofs.Octet
import Mathlib.Data.List.Forall2

/-! The UTF-8 forms of characters, octet by octet. The first octet of a form tells the ranges of the
octets that continue it (`exists_encode_iff`); only a form of one octet is of US-ASCII. No form is
the beginning of another one (`encode_inj_of_prefix`). -/
namespace HttpHead.Utf8

variable {text : Octets} {c c' : Char}

def Within (range : UInt8 × UInt8) (b : UInt8) : Prop := range.1 ≤ b ∧ b ≤ range.2

theorem within_ofNat {range : UInt8 × UInt8} {n : Nat} (h : n < 256) :
    Within range (.ofNat n) ↔ range.1.toNat ≤ n ∧ n ≤ range.2.toNat := by
  rw [Within, UInt8.le_iff_toNat_le, UInt8.le_iff_toNat_le, UInt8.toNat_ofNat_of_lt' h]

theorem continuations_ofNat {n : Nat} (h : n < 256) :
    continuations (.ofNat n) =
      if n < 0xC2 then []
      else if n < 0xE0 then [(0x80, 0xBF)]
      else if n = 0xE0 then [(0xA0, 0xBF), (0x80, 0xBF)]
      else if n = 0xED then [(0x80, 0x9F), (0x80, 0xBF)]
      else if n < 0xF0 then [(0x80, 0xBF), (0x80, 0xBF)]
      else if n = 0xF0 then [(0x90, 0xBF), (0x80, 0xBF), (0x80, 0xBF)]
      else if n < 0xF4 then [(0x80, 0xBF), (0x80, 0xBF), (0x80, 0xBF)]
      else if n = 0xF4 then [(0x80, 0x8F), (0x80, 0xBF), (0x80, 0xBF)]
      else [] := by
  revert n
  decide +kernel

/-- The octets are the UTF-8 form of a character, of one octet or more. -/
def IsForm (lead : UInt8) (tail : Octets) : Prop :=
  lead < 0x80 ∧ tail = [] ∨
    continuations lead ≠ [] ∧ List.Forall₂ Within (continuations lead) tail

theorem forall₂_within {ranges : List (UInt8 × UInt8)} (ns : List Nat)
    (hlt : ∀ n ∈ ns, n < 256)
    (h : List.Forall₂ (fun r n => r.1.toNat ≤ n ∧ n ≤ r.2.toNat) ranges ns) :
    List.Forall₂ Within ranges (ns.map UInt8.ofNat) := by
  induction h with
  | nil => exact .nil
  | cons hn _ ih =>
    obtain ⟨hlt, hmore⟩ := List.forall_mem_cons.1 hlt
    exact .cons ((within_ofNat hlt).2 hn) (ih hmore)

theorem exists_isForm (c : Char) :
    ∃ lead tail, String.utf8EncodeChar c = lead :: tail ∧ IsForm lead tail := by
  have hvalid : c.val.toNat < 55296 ∨ 57343 < c.val.toNat ∧ c.val.toNat < 1114112 := c.valid
  rw [String.utf8EncodeChar]
  generalize c.val.toNat = v at hvalid
  split
  · refine ⟨_, _, rfl, .inl ⟨?_, rfl⟩⟩
    rw [UInt8.lt_iff_toNat_lt, UInt8.toNat_ofNat_of_lt' (by change v < 256; omega)]
    change v < 128
    omega
  split
  · refine ⟨_, _, rfl, .inr ?_⟩
    rw [continuations_ofNat (by omega), if_neg (by omega), if_pos (by omega)]
    exact ⟨by simp, forall₂_within [_] (by simp; omega) (by simp; omega)⟩
  split
  · refine ⟨_, _, rfl, .inr ?_⟩
    rw [continuations_ofNat (by omega), if_neg (by omega), if_neg (by omega)]
    split
    · exact ⟨by simp, forall₂_within [_, _] (by simp; omega) (by simp; omega)⟩
    split
    · exact ⟨by simp, forall₂_within [_, _] (by simp; omega) (by simp; omega)⟩
    rw [if_pos (by omega)]
    exact ⟨by simp, forall₂_within [_, _] (by simp; omega) (by simp; omega)⟩
  · refine ⟨_, _, rfl, .inr ?_⟩
    rw [continuations_ofNat (by omega), if_neg (by omega), if_neg (by omega), if_neg (by omega),
      if_neg (by omega), if_neg (by omega)]
    split
    · exact ⟨by simp, forall₂_within [_, _, _] (by simp; omega) (by simp; omega)⟩
    split
    · exact ⟨by simp, forall₂_within [_, _, _] (by simp; omega) (by simp; omega)⟩
    rw [if_pos (by omega)]
    exact ⟨by simp, forall₂_within [_, _, _] (by simp; omega) (by simp; omega)⟩

theorem toNat_ofNat {v : Nat} (hv : v.isValidChar) : (Char.ofNat v).val.toNat = v := by
  rw [Char.ofNat, dif_pos hv]
  rfl

theorem ofNat_eq {n : Nat} {b : UInt8} (h : n = b.toNat) : UInt8.ofNat n = b := by
  rw [h, UInt8.ofNat_toNat]

theorem exists_encode_two {a b : UInt8} (ha : 0xC2 ≤ a.toNat ∧ a.toNat < 0xE0)
    (hb : 0x80 ≤ b.toNat ∧ b.toNat ≤ 0xBF) : ∃ c, String.utf8EncodeChar c = [a, b] := by
  have hv : Nat.isValidChar ((a.toNat - 192) * 64 + (b.toNat - 128)) := by
    left
    omega
  refine ⟨.ofNat ((a.toNat - 192) * 64 + (b.toNat - 128)), ?_⟩
  rw [String.utf8EncodeChar, toNat_ofNat hv]
  rw [if_neg (by omega), if_pos (by omega),
    ofNat_eq (b := a) (by omega), ofNat_eq (b := b) (by omega)]

theorem exists_encode_three {a b c : UInt8} (ha : 0xE0 ≤ a.toNat ∧ a.toNat < 0xF0)
    (hb : 0x80 ≤ b.toNat ∧ b.toNat ≤ 0xBF) (hc : 0x80 ≤ c.toNat ∧ c.toNat ≤ 0xBF)
    (hlow : a.toNat = 0xE0 → 0xA0 ≤ b.toNat) (hhigh : a.toNat = 0xED → b.toNat ≤ 0x9F) :
    ∃ ch, String.utf8EncodeChar ch = [a, b, c] := by
  have hv : Nat.isValidChar
      ((a.toNat - 224) * 4096 + (b.toNat - 128) * 64 + (c.toNat - 128)) := by
    change _ < 55296 ∨ 57343 < _ ∧ _ < 1114112
    omega
  refine ⟨.ofNat ((a.toNat - 224) * 4096 + (b.toNat - 128) * 64 + (c.toNat - 128)), ?_⟩
  rw [String.utf8EncodeChar, toNat_ofNat hv]
  rw [if_neg (by omega), if_neg (by omega), if_pos (by omega), ofNat_eq (b := a) (by omega),
    ofNat_eq (b := b) (by omega), ofNat_eq (b := c) (by omega)]

theorem exists_encode_four {a b c d : UInt8} (ha : 0xF0 ≤ a.toNat ∧ a.toNat < 0xF5)
    (hb : 0x80 ≤ b.toNat ∧ b.toNat ≤ 0xBF) (hc : 0x80 ≤ c.toNat ∧ c.toNat ≤ 0xBF)
    (hd : 0x80 ≤ d.toNat ∧ d.toNat ≤ 0xBF)
    (hlow : a.toNat = 0xF0 → 0x90 ≤ b.toNat) (hhigh : a.toNat = 0xF4 → b.toNat ≤ 0x8F) :
    ∃ ch, String.utf8EncodeChar ch = [a, b, c, d] := by
  have hv : Nat.isValidChar ((a.toNat - 240) * 262144 + (b.toNat - 128) * 4096 +
      (c.toNat - 128) * 64 + (d.toNat - 128)) := by
    change _ < 55296 ∨ 57343 < _ ∧ _ < 1114112
    omega
  refine ⟨.ofNat ((a.toNat - 240) * 262144 + (b.toNat - 128) * 4096 + (c.toNat - 128) * 64 +
    (d.toNat - 128)), ?_⟩
  rw [String.utf8EncodeChar, toNat_ofNat hv]
  rw [if_neg (by omega), if_neg (by omega), if_neg (by omega), ofNat_eq (b := a) (by omega),
    ofNat_eq (b := b) (by omega), ofNat_eq (b := c) (by omega), ofNat_eq (b := d) (by omega)]

theorem exists_encode_of_isForm {lead : UInt8} {tail : Octets} (h : IsForm lead tail) :
    ∃ c, String.utf8EncodeChar c = lead :: tail := by
  obtain ⟨hlead, rfl⟩ | ⟨hne, htail⟩ := h
  · have hlead : lead.toNat < 128 := hlead
    refine ⟨.ofNat lead.toNat, ?_⟩
    rw [String.utf8EncodeChar, toNat_ofNat (.inl (by omega))]
    rw [if_pos (by omega), UInt8.ofNat_toNat]
  · have hc := continuations_ofNat lead.toNat_lt
    rw [UInt8.ofNat_toNat] at hc
    rw [hc] at hne htail
    clear hc
    split_ifs at hne htail
    · exact absurd rfl hne
    · match tail, htail with
      | [b], .cons hb .nil => exact exists_encode_two (by omega) hb
    · match tail, htail with
      | [b, c], .cons hb (.cons hc .nil) =>
        have hb : 160 ≤ b.toNat ∧ b.toNat ≤ 191 := hb
        exact exists_encode_three (by omega) (by omega) hc (by omega) (by omega)
    · match tail, htail with
      | [b, c], .cons hb (.cons hc .nil) =>
        have hb : 128 ≤ b.toNat ∧ b.toNat ≤ 159 := hb
        exact exists_encode_three (by omega) (by omega) hc (by omega) (by omega)
    · match tail, htail with
      | [b, c], .cons hb (.cons hc .nil) =>
        exact exists_encode_three (by omega) hb hc (by omega) (by omega)
    · match tail, htail with
      | [b, c, d], .cons hb (.cons hc (.cons hd .nil)) =>
        have hb : 144 ≤ b.toNat ∧ b.toNat ≤ 191 := hb
        exact exists_encode_four (by omega) (by omega) hc hd (by omega) (by omega)
    · match tail, htail with
      | [b, c, d], .cons hb (.cons hc (.cons hd .nil)) =>
        exact exists_encode_four (by omega) hb hc hd (by omega) (by omega)
    · match tail, htail with
      | [b, c, d], .cons hb (.cons hc (.cons hd .nil)) =>
        have hb : 128 ≤ b.toNat ∧ b.toNat ≤ 143 := hb
        exact exists_encode_four (by omega) (by omega) hc hd (by omega) (by omega)
    · exact absurd rfl hne

theorem exists_encode_iff {lead : UInt8} {tail : Octets} :
    (∃ c, String.utf8EncodeChar c = lead :: tail) ↔ IsForm lead tail := by
  constructor
  · intro h
    obtain ⟨c, hc⟩ := h
    obtain ⟨lead', tail', hc', hform⟩ := exists_isForm c
    obtain ⟨rfl, rfl⟩ := List.cons.inj (hc.symm.trans hc')
    exact hform
  · exact exists_encode_of_isForm

theorem continuations_spec (lead : UInt8) :
    (∀ range ∈ continuations lead, 0x80 ≤ range.1 ∧ range.1 ≤ range.2) ∧
      (continuations lead ≠ [] → 0x80 ≤ lead) := by
  have hc := continuations_ofNat lead.toNat_lt
  rw [UInt8.ofNat_toNat] at hc
  rw [hc]
  refine ⟨?_, ?_⟩
  · split_ifs
    all_goals simp
  · intro hne
    by_cases hlead : lead.toNat < 0xC2
    · rw [if_pos hlead] at hne
      exact absurd rfl hne
    · have hle : 128 ≤ lead.toNat := by omega
      exact UInt8.le_iff_toNat_le.2 hle

theorem le_of_forall₂_within {ranges : List (UInt8 × UInt8)} {tail : Octets}
    (hranges : ∀ range ∈ ranges, 0x80 ≤ range.1 ∧ range.1 ≤ range.2)
    (h : List.Forall₂ Within ranges tail) : ∀ b ∈ tail, 0x80 ≤ b := by
  induction h with
  | nil => simp
  | cons hb _ ih =>
    obtain ⟨hrange, hranges⟩ := List.forall_mem_cons.1 hranges
    exact List.forall_mem_cons.2 ⟨UInt8.le_trans hrange.1 hb.1, ih hranges⟩

theorem le_of_mem_tail {lead : UInt8} {tail : Octets}
    (h : String.utf8EncodeChar c = lead :: tail) : ∀ b ∈ tail, 0x80 ≤ b := by
  obtain ⟨-, rfl⟩ | ⟨-, htail⟩ := exists_encode_iff.1 ⟨c, h⟩
  · simp
  · exact le_of_forall₂_within (continuations_spec lead).1 htail

theorem tail_eq_nil {lead : UInt8} {tail : Octets} (h : String.utf8EncodeChar c = lead :: tail)
    (hlead : lead < 0x80) : tail = [] := by
  obtain ⟨-, rfl⟩ | ⟨hne, -⟩ := exists_encode_iff.1 ⟨c, h⟩
  · rfl
  · exact absurd hlead (UInt8.not_lt.2 ((continuations_spec lead).2 hne))

theorem encode_ne_nil (c : Char) : String.utf8EncodeChar c ≠ [] := by
  obtain ⟨lead, tail, hc, -⟩ := exists_isForm c
  simp [hc]

/-- What begins with a form is read as beginning with its character, and nothing else is. -/
theorem first?_eq_some_iff : first? text = some c ↔ String.utf8EncodeChar c <+: text := by
  constructor
  · intro h
    obtain ⟨rest, hrest⟩ := ByteArray.exists_of_utf8DecodeChar?_eq_some h
    have htake : text.take 4 = String.utf8EncodeChar c ++ rest.data.toList := by
      rw [← List.toByteArray_inj, hrest, List.toByteArray_append, ByteArray.append_right_inj]
      exact ByteArray.ext (by simp)
    exact (List.prefix_append _ _).trans (htake ▸ List.take_prefix 4 text)
  · intro h
    obtain ⟨rest, rfl⟩ := h
    have hlength : (String.utf8EncodeChar c).length ≤ 4 := by
      rw [String.length_utf8EncodeChar]
      exact c.utf8Size_le_four
    rw [first?, List.take_append, List.take_of_length_le hlength, List.toByteArray_append]
    exact ByteArray.utf8DecodeChar?_utf8EncodeChar_append

theorem encode_inj_of_prefix (h : String.utf8EncodeChar c <+: text)
    (h' : String.utf8EncodeChar c' <+: text) : c = c' :=
  Option.some.inj ((first?_eq_some_iff.2 h).symm.trans (first?_eq_some_iff.2 h'))

end HttpHead.Utf8
