import HttpHead.Octet

/-! Decimal numbers that fit in 64 bits. -/
namespace HttpHead.Decimal

def limit : UInt64 := 0xFFFFFFFFFFFFFFFF

/-- Puts one more digit behind a number, unless the result does not fit. -/
def pushDigit? (n : UInt64) (b : UInt8) : Option UInt64 :=
  let digit := (b - 0x30).toUInt64
  if Octet.isDigit b && n ≤ limit / 10 && n * 10 ≤ limit - digit then some (n * 10 + digit)
  else none

def read? (text : Octets) : Option UInt64 :=
  if text.isEmpty then none else text.foldlM pushDigit? 0

end HttpHead.Decimal
