import HttpHead.Decimal
import HttpHead.Text.Utf8
import Mathlib.Data.Nat.Digits.Defs
import Mathlib.Data.UInt

/-! The reader of decimal numbers is exact: it takes the nonempty runs of digits
whose value fits in 64 bits, and no others (`read?_eq_some_iff`). The number so far is
at each digit that of the digits before it (`toNat_of_foldlM_pushDigit?`). -/
namespace HttpHead.Decimal

/-- The number that the octets denote behind a number that was read before. -/
def valueFrom (n : Nat) (text : Octets) : Nat :=
  text.foldl (fun n b => 10 * n + (b.toNat - 0x30)) n

def value (text : Octets) : Nat := valueFrom 0 text

/-- The text is the number's decimal form, perhaps with zeros in front. -/
def Denotes (text : Octets) (n : Nat) : Prop :=
  text ≠ [] ∧ (∀ b ∈ text, Octet.isDigit b) ∧ value text = n

/-- The text is not the decimal form of a number of 64 bits. -/
def Fails (text : Octets) : Prop :=
  text = [] ∨ (∃ b ∈ text, Octet.isDigit b = false) ∨ 2 ^ 64 ≤ value text

theorem Denotes.not_fails {text : Octets} {n : Nat} (h : Denotes text n) (hn : n < 2 ^ 64) :
    ¬Fails text := by
  obtain ⟨hne, hdigits, rfl⟩ := h
  rintro (hnil | ⟨b, hb, hdigit⟩ | hlarge)
  · exact hne hnil
  · simp [hdigits b hb] at hdigit
  · exact absurd hn (Nat.not_lt.2 hlarge)

theorem Denotes.unique {text : Octets} {m n : Nat} (h : Denotes text m) (h' : Denotes text n) :
    m = n :=
  h.2.2.symm.trans h'.2.2

theorem valueFrom_cons (n : Nat) (b : UInt8) (text : Octets) :
    valueFrom n (b :: text) = valueFrom (10 * n + (b.toNat - 0x30)) text := by
  simp only [valueFrom, List.foldl_cons]

theorem le_valueFrom (n : Nat) (text : Octets) : n ≤ valueFrom n text := by
  induction text generalizing n with
  | nil => exact Nat.le_refl n
  | cons b text ih =>
    rw [valueFrom_cons]
    have h := ih (10 * n + (b.toNat - 0x30))
    omega

theorem toNat_digit {b : UInt8} (hb : Octet.isDigit b) :
    (b - 0x30).toUInt64.toNat = b.toNat - 0x30 ∧ b.toNat - 0x30 ≤ 9 := by
  simp only [Octet.isDigit, Bool.and_eq_true, decide_eq_true_eq, UInt8.le_iff_toNat_le] at hb
  obtain ⟨hlow, hhigh⟩ := hb
  have hlow' : 48 ≤ b.toNat := hlow
  have hhigh' : b.toNat ≤ 57 := hhigh
  refine ⟨?_, by omega⟩
  rw [UInt8.toNat_toUInt64, UInt8.toNat_sub_of_le _ _ (UInt8.le_iff_toNat_le.2 hlow)]
  rfl

theorem pushDigit?_eq_some_iff {n m : UInt64} {b : UInt8} :
    pushDigit? n b = some m ↔ Octet.isDigit b ∧ 10 * n.toNat + (b.toNat - 0x30) = m.toNat := by
  unfold pushDigit?
  by_cases hb : Octet.isDigit b
  · obtain ⟨hd, hle⟩ := toNat_digit hb
    generalize (b - 0x30).toUInt64 = d at hd
    generalize b.toNat - 0x30 = k at hd hle ⊢
    have hlimit : limit.toNat = 18446744073709551615 := rfl
    have hm : m.toNat < 18446744073709551616 := m.toNat_lt
    have hsub : (limit - d).toNat = 18446744073709551615 - k := by
      rw [UInt64.toNat_sub_of_le _ _ (by rw [UInt64.le_iff_toNat_le, hlimit]; omega), hlimit, hd]
    have hmul : (n * 10).toNat = n.toNat * 10 % 18446744073709551616 := UInt64.toNat_mul n 10
    have hadd : (n * 10 + d).toNat = ((n * 10).toNat + k) % 18446744073709551616 := by
      rw [← hd]
      exact UInt64.toNat_add (n * 10) d
    have hfits : n ≤ limit / 10 ∧ n * 10 ≤ limit - d ↔
        10 * n.toNat + k ≤ 18446744073709551615 := by
      rw [UInt64.le_iff_toNat_le, UInt64.le_iff_toNat_le, hsub, hmul]
      change n.toNat ≤ 1844674407370955161 ∧ _ ↔ _
      omega
    simp only [hb, Bool.true_and, Bool.and_eq_true, decide_eq_true_eq, hfits, true_and]
    split
    · rw [Option.some.injEq, ← UInt64.toNat_inj, hadd, hmul]
      omega
    · simp only [reduceCtorEq, false_iff]
      omega
  · simp [hb]

theorem foldlM_pushDigit?_eq_some_iff {text : Octets} {n m : UInt64} :
    text.foldlM pushDigit? n = some m ↔
      (∀ b ∈ text, Octet.isDigit b) ∧ valueFrom n.toNat text = m.toNat := by
  induction text generalizing n with
  | nil => simp [valueFrom, UInt64.toNat_inj]
  | cons b text ih =>
    rw [List.foldlM_cons, valueFrom_cons]
    simp only [Option.bind_eq_bind, Option.bind_eq_some_iff, pushDigit?_eq_some_iff, ih,
      List.forall_mem_cons]
    constructor
    · intro h
      obtain ⟨k, ⟨hb, hk⟩, htext, hm⟩ := h
      exact ⟨⟨hb, htext⟩, by rw [hk, hm]⟩
    · intro h
      obtain ⟨⟨hb, htext⟩, hm⟩ := h
      have hfit : 10 * n.toNat + (b.toNat - 0x30) < 2 ^ 64 := by
        have hle := le_valueFrom (10 * n.toNat + (b.toNat - 0x30)) text
        have := m.toNat_lt
        omega
      have hk := UInt64.toNat_ofNat_of_lt' (n := 10 * n.toNat + (b.toNat - 0x30)) hfit
      exact ⟨.ofNat (10 * n.toNat + (b.toNat - 0x30)), ⟨hb, hk.symm⟩, htext, by rw [hk, hm]⟩

theorem read?_eq_some_iff {text : Octets} {n : UInt64} :
    read? text = some n ↔ Denotes text n.toNat := by
  unfold read? Denotes
  cases text with
  | nil => simp
  | cons b text =>
    rw [List.isEmpty_cons, if_neg Bool.false_ne_true, foldlM_pushDigit?_eq_some_iff]
    simp [value]

theorem read?_eq_none_iff {text : Octets} : read? text = none ↔ Fails text := by
  constructor
  · intro hnone
    by_contra hfails
    simp only [Fails, not_or, not_exists, not_and, Bool.not_eq_false, Nat.not_le] at hfails
    obtain ⟨hne, hdigits, hfit⟩ := hfails
    have hread : read? text = some (.ofNat (value text)) :=
      read?_eq_some_iff.2 ⟨hne, hdigits, (UInt64.toNat_ofNat_of_lt' hfit).symm⟩
    rw [hnone] at hread
    cases hread
  · intro hfails
    rw [Option.eq_none_iff_forall_ne_some]
    intro n hread
    exact (read?_eq_some_iff.1 hread).not_fails n.toNat_lt hfails

theorem value_concat (text : Octets) (b : UInt8) :
    value (text ++ [b]) = 10 * value text + (b.toNat - 0x30) := by
  rw [value, valueFrom, List.foldl_append, List.foldl_cons, List.foldl_nil]
  rfl

theorem value_eq_ofDigits (text : Octets) :
    value text = Nat.ofDigits 10 (text.reverse.map fun b => b.toNat - 0x30) := by
  induction text using List.reverseRecOn with
  | nil => rfl
  | append_singleton text b ih =>
    rw [value_concat, ih, List.reverse_concat, List.map_cons, Nat.ofDigits_cons]
    omega

theorem value_zeros_append (zeros : Nat) (text : Octets) :
    value (List.replicate zeros 0x30 ++ text) = value text := by
  induction zeros with
  | zero => rfl
  | succ zeros ih =>
    rw [List.replicate_succ, List.cons_append, value, valueFrom_cons]
    exact ih

theorem denotes_zeros_append_iff {zeros n : Nat} {text : Octets} (h : text ≠ []) :
    Denotes (List.replicate zeros 0x30 ++ text) n ↔ Denotes text n := by
  have hzeros : ∀ b ∈ List.replicate zeros (0x30 : UInt8), Octet.isDigit b := by
    intro b hb
    rw [List.eq_of_mem_replicate hb]
    rfl
  have hne : List.replicate zeros 0x30 ++ text ≠ [] := List.append_ne_nil_of_right_ne_nil _ h
  rw [Denotes, Denotes, value_zeros_append, List.forall_mem_append]
  constructor
  · rintro ⟨-, ⟨-, hdigits⟩, hvalue⟩
    exact ⟨h, hdigits, hvalue⟩
  · rintro ⟨-, hdigits, hvalue⟩
    exact ⟨hne, ⟨hzeros, hdigits⟩, hvalue⟩

theorem toNat_of_foldlM_pushDigit? {done : Octets} {n : UInt64}
    (h : done.foldlM pushDigit? 0 = some n) : n.toNat = value done :=
  (foldlM_pushDigit?_eq_some_iff.1 h).2.symm

theorem pushDigit?_eq_none_iff {n : UInt64} {b : UInt8} :
    pushDigit? n b = none ↔
      Octet.isDigit b = false ∨ 2 ^ 64 ≤ 10 * n.toNat + (b.toNat - 0x30) := by
  rw [Option.eq_none_iff_forall_ne_some]
  simp only [Ne, pushDigit?_eq_some_iff, not_and]
  constructor
  · intro h
    by_contra hfits
    simp only [not_or, Bool.not_eq_false, Nat.not_le] at hfits
    exact h _ hfits.1 (UInt64.toNat_ofNat_of_lt' hfits.2).symm
  · rintro (hdigit | hlarge) m hb hm
    · simp [hdigit] at hb
    · have := m.toNat_lt
      omega

/-- A digit is put behind a number in 64 bits, and neither operation wraps. -/
theorem eq_of_pushDigit? {n m : UInt64} {b : UInt8} (h : pushDigit? n b = some m) :
    (n * 10).toNat = 10 * n.toNat ∧ m = n * 10 + (b - 0x30).toUInt64 ∧
      m.toNat = 10 * n.toNat + (b.toNat - 0x30) := by
  have hm := (pushDigit?_eq_some_iff.1 h).2.symm
  have hlt := m.toNat_lt
  refine ⟨?_, ?_, hm⟩
  · rw [UInt64.toNat_mul]
    change n.toNat * 10 % 18446744073709551616 = _
    omega
  · simp only [pushDigit?, Option.ite_none_right_eq_some, Option.some.injEq] at h
    exact h.2.symm

/-- A number is read exactly if the text is a nonempty run of digits whose value fits in 64 bits,
however many zeros it begins with. The loop gets to every digit with the value of those before it,
and ends there only at another octet or if the value does not fit. -/
theorem read?_exact (text : Octets) :
    (∀ n, read? text = some n ↔
      text ≠ [] ∧ (∀ b ∈ text, Octet.isDigit b) ∧ value text = n.toNat) ∧
    (read? text = none ↔
      text = [] ∨ (∃ b ∈ text, Octet.isDigit b = false) ∨ 2 ^ 64 ≤ value text) ∧
    value text = Nat.ofDigits 10 (text.reverse.map fun b => b.toNat - 0x30) ∧
    (∀ zeros, text ≠ [] → read? (List.replicate zeros 0x30 ++ text) = read? text) ∧
    ∀ done b rest n, text = done ++ b :: rest → done.foldlM pushDigit? 0 = some n →
      n.toNat = value done ∧
      (pushDigit? n b = none ↔
        Octet.isDigit b = false ∨ 2 ^ 64 ≤ value (done ++ [b])) ∧
      ∀ m, pushDigit? n b = some m →
        (n * 10).toNat = 10 * value done ∧ m = n * 10 + (b - 0x30).toUInt64 ∧
          m.toNat = value (done ++ [b]) := by
  refine ⟨fun n => read?_eq_some_iff, read?_eq_none_iff, value_eq_ofDigits text, ?_, ?_⟩
  · intro zeros h
    apply Option.ext
    intro n
    rw [read?_eq_some_iff, read?_eq_some_iff, denotes_zeros_append_iff h]
  · intro done b rest n _ hdone
    rw [value_concat, ← toNat_of_foldlM_pushDigit? hdone]
    exact ⟨rfl, pushDigit?_eq_none_iff, fun m => eq_of_pushDigit?⟩

/-- The largest number, with a zero in front, and the number behind it. -/
theorem read?_exact_largest :
    read? (Utf8.encode "018446744073709551615") = some 0xFFFFFFFFFFFFFFFF ∧
      read? (Utf8.encode "18446744073709551616") = none := by
  obtain ⟨-, -, -, hzeros, -⟩ := read?_exact (Utf8.encode "18446744073709551615")
  obtain ⟨-, hnone, -⟩ := read?_exact (Utf8.encode "18446744073709551616")
  exact ⟨(hzeros 1 (by decide)).trans (by decide), hnone.2 (.inr (.inr (by decide)))⟩

end HttpHead.Decimal
