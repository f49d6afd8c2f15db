import HttpHead.Text.Utf8
import Mathlib.Data.List.TakeWhile

/-! Runs of octets of one class, and the blanks around a text. A run that is
followed by an octet outside its class is found again, whatever comes behind:
`takeWhile_append_stop`. A text is its trimmed part between blanks: `trim_eq_iff`. -/
namespace HttpHead

namespace Octet

theorem isVisible_of_isToken {b : UInt8} (h : isToken b) : isVisible b := by
  simp only [isToken, Bool.and_eq_true] at h
  exact h.1

theorem isVisible_of_isDigit {b : UInt8} (h : isDigit b) : isVisible b := by
  simp only [isDigit, isVisible, Bool.and_eq_true, decide_eq_true_eq] at h ⊢
  exact ⟨UInt8.le_trans (by decide) h.1, UInt8.le_trans h.2 (by decide)⟩

theorem lt_of_isVisible {b : UInt8} (h : isVisible b) : b < 0x80 := by
  simp only [isVisible, Bool.and_eq_true, decide_eq_true_eq] at h
  exact UInt8.lt_of_le_of_lt h.2 (by decide)

theorem lt_of_isToken {b : UInt8} (h : isToken b) : b < 0x80 :=
  lt_of_isVisible (isVisible_of_isToken h)

theorem isFieldText_of_isBlank {b : UInt8} (h : isBlank b) : isFieldText b := by
  simp [isFieldText, h]

theorem ne_of_class {p : UInt8 → Bool} {a b : UInt8} (ha : p a = false) (hb : p b) : b ≠ a := by
  intro h
  subst h
  simp [ha] at hb

end Octet

/-- No run of the class goes on with this text. -/
def Stops (p : UInt8 → Bool) (rest : Octets) : Prop := ∀ b ∈ rest.head?, p b = false

theorem stops_cons {p : UInt8 → Bool} {b : UInt8} {rest : Octets} :
    Stops p (b :: rest) ↔ p b = false := by
  simp [Stops]

theorem takeWhile_append_stop {p : UInt8 → Bool} {text rest : Octets}
    (ht : ∀ b ∈ text, p b) (hr : Stops p rest) : (text ++ rest).takeWhile p = text := by
  rw [List.takeWhile_append_of_pos ht]
  cases rest with
  | nil => simp
  | cons b rest => simp [stops_cons.1 hr]

theorem stops_dropWhile (p : UInt8 → Bool) (text : Octets) : Stops p (text.dropWhile p) := by
  intro b hb
  have h := List.head?_dropWhile_not p text
  rw [Option.mem_def.1 hb] at h
  simpa using h

theorem takeWhile_append_of_mem {p : UInt8 → Bool} {text more : Octets} {stop : UInt8}
    (hmem : stop ∈ text) (hstop : p stop = false) :
    (text ++ more).takeWhile p = text.takeWhile p := by
  induction text with
  | nil => simp at hmem
  | cons b text ih =>
    by_cases hb : p b
    · have hne : b ≠ stop := Octet.ne_of_class hstop hb
      have hm : stop ∈ text := by simpa [hne.symm] using hmem
      simp [hb, ih hm]
    · simp [hb]

namespace Octets

def Bare (text : Octets) : Prop :=
  (∀ b ∈ text.head?, Octet.isBlank b = false) ∧ ∀ b ∈ text.getLast?, Octet.isBlank b = false

theorem trimStart_append {blanks text : Octets} (hb : ∀ b ∈ blanks, Octet.isBlank b)
    (ht : Stops Octet.isBlank text) : trimStart (blanks ++ text) = text := by
  rw [trimStart, List.dropWhile_append_of_pos hb]
  cases text with
  | nil => rfl
  | cons b text => simp [stops_cons.1 ht]

theorem trimEnd_append {blanks text : Octets} (hb : ∀ b ∈ blanks, Octet.isBlank b)
    (ht : ∀ b ∈ text.getLast?, Octet.isBlank b = false) : trimEnd (text ++ blanks) = text := by
  rw [trimEnd, List.reverse_append,
    trimStart_append (by simpa using hb) (by simpa [Stops] using ht),
    List.reverse_reverse]

theorem exists_eq_trimEnd_append (text : Octets) :
    ∃ blanks : Octets, (∀ b ∈ blanks, Octet.isBlank b) ∧ text = trimEnd text ++ blanks := by
  refine ⟨(text.reverse.takeWhile Octet.isBlank).reverse, ?_, ?_⟩
  · intro b hb
    exact List.mem_takeWhile_imp (List.mem_reverse.1 hb)
  · rw [trimEnd, trimStart, ← List.reverse_append, List.takeWhile_append_dropWhile,
      List.reverse_reverse]

theorem getLast?_trimEnd (text : Octets) :
    ∀ b ∈ (trimEnd text).getLast?, Octet.isBlank b = false := by
  simpa [trimEnd, trimStart, Stops] using stops_dropWhile Octet.isBlank text.reverse

theorem head?_trimEnd {text : Octets} (h : Stops Octet.isBlank text) :
    Stops Octet.isBlank (trimEnd text) := by
  obtain ⟨blanks, -, heq⟩ := exists_eq_trimEnd_append text
  intro b hb
  apply h b
  rw [heq, List.head?_append, Option.mem_def.1 hb]
  rfl

/-- Trimming finds the bare text between blanks, and nothing else. -/
theorem trim_eq_iff {text value : Octets} :
    trim text = value ↔ value.Bare ∧ ∃ before after : Octets, (∀ b ∈ before, Octet.isBlank b) ∧
      (∀ b ∈ after, Octet.isBlank b) ∧ text = before ++ value ++ after := by
  constructor
  · intro h
    subst h
    obtain ⟨after, hafter, heq⟩ := exists_eq_trimEnd_append (trimStart text)
    refine ⟨⟨head?_trimEnd (stops_dropWhile _ text), getLast?_trimEnd _⟩,
      text.takeWhile Octet.isBlank, after, fun b => List.mem_takeWhile_imp, hafter, ?_⟩
    rw [List.append_assoc, trim, ← heq, trimStart, List.takeWhile_append_dropWhile]
  · intro h
    obtain ⟨⟨hhead, hlast⟩, before, after, hbefore, hafter, rfl⟩ := h
    rw [trim]
    by_cases hv : value = []
    · subst hv
      have hall : ∀ b ∈ before ++ [] ++ after, Octet.isBlank b := by
        simpa [or_imp, forall_and] using And.intro hbefore hafter
      have hstops : Stops Octet.isBlank [] := by simp [Stops]
      have hnil := trimStart_append hall hstops
      rw [List.append_nil] at hnil
      rw [hnil]
      rfl
    · obtain ⟨b, rest, rfl⟩ := List.exists_cons_of_ne_nil hv
      rw [List.append_assoc, trimStart_append hbefore (by simpa [Stops] using hhead),
        trimEnd_append hafter hlast]

end Octets

namespace Utf8

theorem exists_encode_eq {text : Octets} (h : ∀ b ∈ text, b < 0x80) : ∃ s, encode s = text := by
  refine ⟨.ofList (text.map fun b => Char.ofNat b.toNat), ?_⟩
  rw [encode, String.toList_ofList, List.flatMap_map]
  induction text with
  | nil => rfl
  | cons b text ih =>
    have hb : ∀ n < 128, String.utf8EncodeChar (Char.ofNat n) = [UInt8.ofNat n] := by
      decide +kernel
    have hlt : b.toNat < 128 := h b (by simp)
    rw [List.flatMap_cons, ih fun b hm => h b (List.mem_cons_of_mem _ hm), hb _ hlt]
    simp

@[simp]
theorem decode?_encode (s : String) : decode? (encode s) = some s := decode?_eq_some_iff.2 rfl

end Utf8

end HttpHead
