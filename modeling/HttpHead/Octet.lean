import HttpHead.Violation

/-! Octets and the character classes of a request head. A token character is a
visible character that is no delimiter; `tokenViolation?` says what is wrong
with any other octet. -/
namespace HttpHead

abbrev Octets := List UInt8

namespace Octet

@[match_pattern] abbrev htab : UInt8 := 0x09
@[match_pattern] abbrev lf : UInt8 := 0x0A
@[match_pattern] abbrev cr : UInt8 := 0x0D
@[match_pattern] abbrev sp : UInt8 := 0x20
@[match_pattern] abbrev colon : UInt8 := 0x3A

/-- A printing character of US-ASCII other than the space. -/
def isVisible (b : UInt8) : Bool := 0x21 ≤ b && b ≤ 0x7E

def isDigit (b : UInt8) : Bool := 0x30 ≤ b && b ≤ 0x39

def isBlank (b : UInt8) : Bool := b == sp || b == htab

/-- A character of a field value between its blanks: visible, or outside US-ASCII. -/
def isFieldVisible (b : UInt8) : Bool := isVisible b || 0x80 ≤ b

def isFieldText (b : UInt8) : Bool := isFieldVisible b || isBlank b

/-- The target is kept opaque, so every visible character may stand in it. -/
def isTarget (b : UInt8) : Bool := isVisible b

/-- The seventeen visible characters that separate tokens: the quote, the
parentheses, the comma, the slash, the colon, the semicolon, the angle brackets,
the equals sign, the question mark, the at sign, the square brackets, the
backslash and the braces. -/
def delimiters : Octets :=
  [0x22, 0x28, 0x29, 0x2C, 0x2F, 0x3A, 0x3B, 0x3C, 0x3D, 0x3E, 0x3F, 0x40, 0x5B, 0x5C, 0x5D,
    0x7B, 0x7D]

def isDelimiter (b : UInt8) : Bool := delimiters.contains b

def isToken (b : UInt8) : Bool := isVisible b && !isDelimiter b

def tokenViolation? (b : UInt8) : Option Violation :=
  if isToken b then none
  else if isBlank b then some .blankInToken
  else if isDelimiter b then some .delimiterInToken
  else some .nonVisibleInToken

def lower (b : UInt8) : UInt8 := if 0x41 ≤ b && b ≤ 0x5A then b + 0x20 else b

end Octet

namespace Octets

def crlf : Octets := [Octet.cr, Octet.lf]

/-- Accepts a nonempty run of token characters, and otherwise names the first fault. -/
def checkToken (text : Octets) : Except Violation Unit :=
  if text.isEmpty then .error .emptyToken
  else match text.findSome? Octet.tokenViolation? with
    | some violation => .error violation
    | none => .ok ()

def trimStart (text : Octets) : Octets := text.dropWhile Octet.isBlank

def trimEnd (text : Octets) : Octets := (trimStart text.reverse).reverse

def trim (text : Octets) : Octets := trimEnd (trimStart text)

def lower (text : Octets) : Octets := text.map Octet.lower

end Octets

end HttpHead
