import HttpHead.Proofs.Utf8
import HttpHead.Text.Case

/-! Folding the case of ASCII letters. Two texts fold to one exactly if they are the same character
by character, but for the case of ASCII letters (`foldCase_eq_iff`). A text can be folded
octet by octet as well (`foldOctets_eq`). -/
namespace HttpHead

theorem Octet.lower_of_le {b : UInt8} (h : 0x80 ≤ b) : lower b = b := by
  have hlower : ∀ n < 256, 0x80 ≤ UInt8.ofNat n → lower (.ofNat n) = .ofNat n := by
    decide +kernel
  simpa [h] using hlower b.toNat b.toNat_lt

namespace Text

open Octets

variable {s t : String}

theorem utf8EncodeChar_toLower (c : Char) :
    String.utf8EncodeChar c.toLower = lower (String.utf8EncodeChar c) := by
  by_cases hc : c.toNat < 128
  · have h : ∀ n < 128, String.utf8EncodeChar (Char.ofNat n).toLower =
        lower (String.utf8EncodeChar (.ofNat n)) := by decide +kernel
    simpa using h c.toNat hc
  · have hsame : c.toLower = c := by
      refine dif_neg ?_
      intro h
      have hle : c.toNat ≤ 90 := h.2
      omega
    obtain ⟨lead, tail, hform, -⟩ := Utf8.exists_isForm c
    have hlead : 0x80 ≤ lead := by
      by_contra hlt
      have hsize := String.length_utf8EncodeChar c
      rw [hform, Utf8.tail_eq_nil hform (UInt8.not_le.1 hlt), List.length_singleton] at hsize
      have hle : c.toNat ≤ 127 := Char.utf8Size_eq_one_iff.1 hsize.symm
      omega
    rw [hsame, hform, lower, List.map_cons, Octet.lower_of_le hlead,
      List.map_congr_left fun b hb => Octet.lower_of_le (Utf8.le_of_mem_tail hform b hb),
      List.map_id']

theorem encode_foldCase (s : String) : Utf8.encode (foldCase s) = lower (Utf8.encode s) := by
  simp [Utf8.encode, foldCase, List.flatMap_map, lower, List.map_flatMap, utf8EncodeChar_toLower]

theorem sameUpToCase_iff :
    sameUpToCase s t ↔ lower (Utf8.encode s) = lower (Utf8.encode t) := by
  rw [sameUpToCase, beq_iff_eq, ← Utf8.encode_inj, encode_foldCase, encode_foldCase]

/-- What is folded in place is a text, and the one that is expected. -/
theorem foldOctets_eq (s : String) : foldOctets s = foldCase s := by
  rw [foldOctets, ← encode_foldCase, Utf8.decode?_encode, Option.getD_some]

inductive SameLetter : Char → Char → Prop where
  | refl (c : Char) : SameLetter c c
  | small {c d : Char} (i : Nat) (letter : i < 26) (from_eq : c.toNat = 'A'.toNat + i)
      (to_eq : d.toNat = 'a'.toNat + i) : SameLetter c d
  | capital {c d : Char} (i : Nat) (letter : i < 26) (from_eq : c.toNat = 'a'.toNat + i)
      (to_eq : d.toNat = 'A'.toNat + i) : SameLetter c d

theorem toNat_toLower (c : Char) :
    c.toLower.toNat = if 65 ≤ c.toNat ∧ c.toNat ≤ 90 then c.toNat + 32 else c.toNat := by
  by_cases h : 65 ≤ c.toNat ∧ c.toNat ≤ 90
  · have hlower : c.toLower = ⟨c.val + 32, _⟩ := dif_pos h
    have hval : (c.val + 32).toNat = c.toNat + 32 := by
      rw [UInt32.toNat_add]
      exact Nat.mod_eq_of_lt (by change c.toNat + 32 < _; omega)
    rw [if_pos h, hlower, ← hval]
    rfl
  · have hlower : c.toLower = c := dif_neg h
    rw [if_neg h, hlower]

theorem toLower_eq_iff {c d : Char} : c.toLower = d.toLower ↔ SameLetter c d := by
  rw [← Char.toNat_inj, toNat_toLower, toNat_toLower]
  constructor
  · intro h
    by_cases hsame : c.toNat = d.toNat
    · rw [Char.toNat_inj.1 hsame]
      exact .refl d
    · split_ifs at h
      · omega
      · rename_i hc hd
        exact .small (c.toNat - 65) (by omega) (by simp; omega) (by simp; omega)
      · exact .capital (d.toNat - 65) (by omega) (by simp; omega) (by simp; omega)
      · omega
  · intro h
    cases h with
    | refl => rfl
    | small i hi hc hd =>
      have hcapital : c.toNat = 65 + i := hc
      have hsmall : d.toNat = 97 + i := hd
      rw [if_pos (by omega), if_neg (by omega)]
      omega
    | capital i hi hc hd =>
      have hsmall : c.toNat = 97 + i := hc
      have hcapital : d.toNat = 65 + i := hd
      rw [if_neg (by omega), if_pos (by omega)]
      omega

/-- Character by character the same, but for the case of ASCII letters. -/
def SameLetters (s t : String) : Prop := List.Forall₂ SameLetter s.toList t.toList

theorem foldCase_eq_iff : foldCase s = foldCase t ↔ SameLetters s t := by
  rw [SameLetters, foldCase, foldCase, String.ofList_inj, ← List.forall₂_eq_eq_eq,
    List.forall₂_map_left_iff, List.forall₂_map_right_iff]
  simp only [toLower_eq_iff]

instance (s t : String) : Decidable (SameLetters s t) := decidable_of_iff _ foldCase_eq_iff

theorem sameUpToCase_iff_sameLetters : sameUpToCase s t ↔ SameLetters s t := by
  rw [sameUpToCase, beq_iff_eq, foldCase_eq_iff]

theorem foldCase_foldCase (s : String) : foldCase (foldCase s) = foldCase s := by
  have hlower (c : Char) : c.toLower.toLower = c.toLower := by
    rw [← Char.toNat_inj, toNat_toLower, toNat_toLower]
    split_ifs
    all_goals omega
  simp only [foldCase, String.toList_ofList, List.map_map]
  exact congrArg _ (List.map_congr_left fun c _ => hlower c)

end Text

end HttpHead
