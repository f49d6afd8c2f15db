import HttpHead.Token

/-! How far a parse has come. Behind the request line, field lines follow until
the empty line:

    start → method → target → version → requestLineEnd
    requestLineEnd, fieldLineEnd → fieldName | fieldsDone
    fieldName → fieldColon → fieldValue → fieldLineEnd
    fieldsDone → accepted

Every stage but the accepted one can also turn into a rejected one. What a parse has to
remember besides is part of the stages that need it: the name of a field until its value
comes, so that no value is without a name, and the reason of a rejection. -/
namespace HttpHead

inductive Stage where
  | start
  | method
  | target
  | version
  | requestLineEnd
  | fieldName (name : Token)
  /-- The colon was passed together with the name, so no token leads here. -/
  | fieldColon (name : Token)
  | fieldValue
  | fieldLineEnd
  | fieldsDone
  | accepted
  | rejected (violation : Violation) (offset : Nat)
  deriving DecidableEq

namespace Stage

def isFinal : Stage → Bool
  | accepted | rejected .. => true
  | _ => false

def name : Stage → String
  | start => "Start"
  | method => "Method"
  | target => "Target"
  | version => "Version"
  | requestLineEnd => "RequestLineEnd"
  | fieldName _ => "HeaderName"
  | fieldColon _ => "HeaderColon"
  | fieldValue => "HeaderValue"
  | fieldLineEnd => "HeaderLineEnd"
  | fieldsDone => "HeadersDone"
  | accepted => "Accept"
  | rejected .. => "Error"

end Stage

end HttpHead
