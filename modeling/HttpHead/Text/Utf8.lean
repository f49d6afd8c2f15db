import HttpHead.Octet

/-! The UTF-8 form of a text. `encode` writes it, `decode?` reads exactly what
`encode` writes, and `decodeLossy` reads any octets: each ill-formed part, taken
as long as it could still have begun a character, becomes one U+FFFD. -/
namespace HttpHead.Utf8

def encode (s : String) : Octets := s.toList.flatMap String.utf8EncodeChar

def decode? (text : Octets) : Option String := String.fromUTF8? text.toByteArray

theorem toByteArray_encode (s : String) : (encode s).toByteArray = s.toByteArray :=
  String.utf8Encode_toList

@[simp]
theorem encode_append (s t : String) : encode (s ++ t) = encode s ++ encode t := by
  simp [encode]

theorem encode_inj {s t : String} : encode s = encode t ↔ s = t := by
  rw [← List.toByteArray_inj, toByteArray_encode, toByteArray_encode, String.toByteArray_inj]

/-- Exactly the UTF-8 forms are read, each as the text that it is the form of. -/
theorem decode?_eq_some_iff {text : Octets} {s : String} :
    decode? text = some s ↔ encode s = text := by
  rw [← List.toByteArray_inj, toByteArray_encode]
  constructor
  · intro h
    simp only [decode?, String.fromUTF8?] at h
    split at h
    · cases h; rfl
    · cases h
  · intro h
    have hv : text.toByteArray.IsValidUTF8 := h ▸ s.isValidUTF8
    simp only [decode?, String.fromUTF8?, dif_pos hv, Option.some.injEq]
    exact String.toByteArray_inj.1 h.symm

def replacement : Char := '\uFFFD'

def first? (text : Octets) : Option Char := (text.take 4).toByteArray.utf8DecodeChar? 0

/-- The inclusive ranges of the octets that continue a character begun by `lead`. -/
def continuations (lead : UInt8) : List (UInt8 × UInt8) :=
  let any : UInt8 × UInt8 := (0x80, 0xBF)
  if lead < 0xC2 then []
  else if lead < 0xE0 then [any]
  else if lead == 0xE0 then [(0xA0, 0xBF), any]
  else if lead == 0xED then [(0x80, 0x9F), any]
  else if lead < 0xF0 then [any, any]
  else if lead == 0xF0 then [(0x90, 0xBF), any, any]
  else if lead < 0xF4 then [any, any, any]
  else if lead == 0xF4 then [(0x80, 0x8F), any, any]
  else []

/-- How many octets at the front fall into the ranges, one range each. -/
def countWithin : List (UInt8 × UInt8) → Octets → Nat
  | (low, high) :: ranges, b :: text =>
    if low ≤ b && b ≤ high then countWithin ranges text + 1 else 0
  | _, _ => 0

def decodeLossyOnto (done : String) : Octets → String
  | [] => done
  | lead :: text =>
    match first? (lead :: text) with
    | some c => decodeLossyOnto (done.push c) (text.drop (c.utf8Size - 1))
    | none =>
      decodeLossyOnto (done.push replacement) (text.drop (countWithin (continuations lead) text))
termination_by text => text.length
decreasing_by all_goals simp only [List.length_drop, List.length_cons]; omega

def decodeLossy (text : Octets) : String := decodeLossyOnto "" text

end HttpHead.Utf8
