import HttpHead.Field

/-! What the fields of a head say together about its message: one length, and the
hosts it is meant for. A strict summary allows each of them to be told only once. -/
namespace HttpHead

structure Summary where
  contentLength? : Option UInt64 := none
  hosts : Nat := 0
  deriving DecidableEq

namespace Summary

/-- Takes in the value of a Content-Length. Every one of them has to be the same
number. -/
def noteLength (summary : Summary) (strict : Bool) (value : Octets) : Except Violation Summary :=
  match Decimal.read? value, summary.contentLength? with
  | none, _ => .error .invalidContentLength
  | some n, none => .ok { summary with contentLength? := some n }
  | some n, some earlier =>
    if earlier != n then .error .conflictingContentLength
    else if strict then .error .duplicateContentLength
    else .ok summary

def noteHost (summary : Summary) (strict : Bool) : Except Violation Summary :=
  if strict && 0 < summary.hosts then .error .duplicateHost
  else .ok { summary with hosts := summary.hosts + 1 }

def note (summary : Summary) (strict : Bool) (field : Field) : Except Violation Summary :=
  if field.isNamed KnownName.contentLength.text then summary.noteLength strict field.value
  else if field.isNamed KnownName.host.text then summary.noteHost strict
  else .ok summary

end Summary

end HttpHead
