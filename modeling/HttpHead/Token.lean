import HttpHead.Octet

/-! The smallest units of a request head. The text of a token is what it covers:
the space behind a method or a target, the colon behind a field name and the
blanks around a field value belong to no token. -/
namespace HttpHead

inductive TokenKind where
  | method
  | target
  | version
  | fieldName
  | fieldValue
  | lineEnd
  | endOfInput
  /-- No token can be formed, because a rule is broken at the token's offset. -/
  | invalid (violation : Violation)
  deriving DecidableEq

/-- A token, the offset where it starts, and its text. -/
structure Token where
  kind : TokenKind
  offset : Nat
  text : Octets
  deriving DecidableEq

end HttpHead
