import HttpHead.Field
import HttpHead.Method
import HttpHead.Target
import HttpHead.Version

/-! The head of a request, and its canonical form: the request line, a line for
each field, and an empty line. -/
namespace HttpHead

/-- The head of a request. The target is kept exactly as it was received. -/
structure Request where
  method : Method := .registered .get
  target : String := ""
  version : Version := .http11
  fields : Fields := .empty
  deriving DecidableEq

namespace Request

def reset (request : Request) : Request where
  method := .registered .get
  target := ""
  version := .http11
  fields := request.fields.clear

theorem reset_eq (request : Request) : request.reset = {} := rfl

/-- The length of the body that the first Content-Length announces. -/
def contentLength? (request : Request) : Option UInt64 :=
  (request.fields.get? KnownName.contentLength.text).bind Decimal.read?

def targetForm? (request : Request) : Option Target := Target.ofText? request.target

def requestLine (request : Request) : String :=
  request.method.text ++ " " ++ request.target ++ " " ++ request.version.text

def canonical (request : Request) : Octets :=
  Utf8.encode request.requestLine ++ Octets.crlf ++ request.fields.toList.flatMap Field.line ++
    Octets.crlf

/-- The canonical form as a text, with lossy values. -/
def display (request : Request) : String :=
  request.requestLine ++ "\r\n" ++ String.join (request.fields.toList.map Field.display) ++ "\r\n"

end Request

end HttpHead
