/-! The rules of a request head that an input can break. -/
namespace HttpHead

/-- A broken rule. Violations are ordered as they are listed. -/
inductive Violation where
  | missingColon
  | headerTooLarge
  | tooManyHeaders
  | invalidContentLength
  | conflictingContentLength
  | duplicateContentLength
  | invalidLineEnd
  | invalidVersion
  | emptyTarget
  | invalidTarget
  | methodTooLarge
  | targetTooLarge
  | delimiterInToken
  | nonVisibleInToken
  | blankInToken
  | emptyToken
  | invalidFieldValue
  | invalidOctetInMethod
  | invalidOctetInTarget
  | obsoleteFolding
  | blankBeforeColon
  | unknownMethod
  | missingHost
  | duplicateHost
  | unexpectedEnd
  | unexpectedToken
  deriving DecidableEq, Ord

namespace Violation

def text : Violation → String
  | missingColon => "header line does not contain a colon"
  | headerTooLarge => "header line is too large"
  | tooManyHeaders => "too many header lines"
  | invalidContentLength => "malformed Content-Length"
  | conflictingContentLength => "conflicting Content-Length values"
  | duplicateContentLength => "duplicate Content-Length"
  | invalidLineEnd => "line is not terminated by CRLF"
  | invalidVersion => "unsupported or malformed HTTP version"
  | emptyTarget => "empty request-target"
  | invalidTarget => "malformed request-target"
  | methodTooLarge => "method is too large"
  | targetTooLarge => "request-target is too large"
  | delimiterInToken => "token contains a delimiter"
  | nonVisibleInToken => "token contains a non-visible character"
  | blankInToken => "token contains whitespace"
  | emptyToken => "token is empty"
  | invalidFieldValue => "field value contains invalid characters"
  | invalidOctetInMethod => "invalid octet in method"
  | invalidOctetInTarget => "invalid octet in request-target"
  | obsoleteFolding => "obsolete line folding is not supported"
  | blankBeforeColon => "whitespace between field name and colon"
  | unknownMethod => "unknown method"
  | missingHost => "missing Host"
  | duplicateHost => "duplicate Host"
  | unexpectedEnd => "unexpected end of input"
  | unexpectedToken => "unexpected token"

def all : List Violation :=
  [missingColon, headerTooLarge, tooManyHeaders, invalidContentLength, conflictingContentLength,
    duplicateContentLength, invalidLineEnd, invalidVersion, emptyTarget, invalidTarget,
    methodTooLarge, targetTooLarge, delimiterInToken, nonVisibleInToken, blankInToken, emptyToken,
    invalidFieldValue, invalidOctetInMethod, invalidOctetInTarget, obsoleteFolding,
    blankBeforeColon, unknownMethod, missingHost, duplicateHost, unexpectedEnd, unexpectedToken]

end Violation

end HttpHead
