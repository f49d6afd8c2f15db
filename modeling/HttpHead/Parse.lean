import HttpHead.Error
import HttpHead.Field.Summary
import HttpHead.Parse.Stage
import HttpHead.Request
import HttpHead.Token.Cursor

/-! A parse takes tokens one by one, fills in a request, and ends by accepting or
rejecting the head. Whatever the request held at the start stays in front: the
target and the fields are appended to, the method and the version replaced. -/
namespace HttpHead

/-- A parse under way, with what its fields say so far and the request as far as it
is filled in. -/
structure Parse where
  config : Config
  cursor : Cursor
  stage : Stage := .start
  summary : Summary := {}
  request : Request := {}
  deriving DecidableEq

namespace Parse

def reject (p : Parse) (violation : Violation) (offset : Nat) : Parse :=
  { p with stage := .rejected violation offset }

/-- A method that is not registered is an extension, which a strict parse refuses. -/
def takeMethod (p : Parse) (token : Token) : Parse :=
  match Utf8.decode? token.text with
  | none => p.reject .invalidOctetInMethod token.offset
  | some text =>
    let method := Method.ofText text
    if p.config.isStrict && method.isExtension then p.reject .unknownMethod token.offset
    else { p with stage := .method, request := { p.request with method } }

def takeTarget (p : Parse) (token : Token) : Parse :=
  match Utf8.decode? token.text with
  | none => p.reject .invalidOctetInTarget token.offset
  | some text =>
    { p with stage := .target, request := { p.request with target := p.request.target ++ text } }

def takeVersion (p : Parse) (token : Token) : Parse :=
  match Version.ofOctets? token.text with
  | none => p.reject .invalidVersion token.offset
  | some version => { p with stage := .version, request := { p.request with version } }

def takeFieldName (p : Parse) (token : Token) : Parse :=
  if p.config.limits.fieldCount ≤ p.request.fields.size then
    p.reject .tooManyHeaders token.offset
  else { p with stage := .fieldName token }

/-- Where a violation by a field is placed: that of a host at the name of the field,
that of a length at its value. -/
def fieldOffset (name value : Token) : Violation → Nat
  | .duplicateHost => name.offset
  | _ => value.offset

def takeField (p : Parse) (name value : Token) : Parse :=
  match Utf8.decode? name.text with
  | none => p.reject .nonVisibleInToken name.offset
  | some spelled =>
    let field : Field := ⟨spelled, value.text⟩
    match p.summary.note p.config.isStrict field with
    | .error violation => p.reject violation (fieldOffset name value violation)
    | .ok summary =>
      { p with
        stage := .fieldValue
        summary
        request := { p.request with fields := p.request.fields.append field } }

/-- A strict parse wants Host in every HTTP/1.1 head. -/
def close (p : Parse) (token : Token) : Parse :=
  if p.config.isStrict && p.request.version == .http11 && p.summary.hosts == 0 then
    p.reject .missingHost token.offset
  else { p with stage := .accepted }

def take (p : Parse) (token : Token) : Parse :=
  match p.stage, token.kind with
  | _, .invalid violation => p.reject violation token.offset
  | .start, .method => p.takeMethod token
  | .method, .target => p.takeTarget token
  | .target, .version => p.takeVersion token
  | .version, .lineEnd => { p with stage := .requestLineEnd }
  | .requestLineEnd, .fieldName | .fieldLineEnd, .fieldName => p.takeFieldName token
  | .requestLineEnd, .lineEnd | .fieldLineEnd, .lineEnd => { p with stage := .fieldsDone }
  | .fieldColon name, .fieldValue => p.takeField name token
  | .fieldValue, .lineEnd => { p with stage := .fieldLineEnd }
  | .fieldsDone, .endOfInput => p.close token
  | _, .endOfInput => p.reject .unexpectedEnd token.offset
  | _, _ => p.reject .unexpectedToken token.offset

/-- One step; a parse that has ended stays as it is. -/
def step (p : Parse) : Parse :=
  match p.stage with
  | .accepted | .rejected .. => p
  | .fieldName name => { p with stage := .fieldColon name }
  | _ =>
    let (token, cursor) := p.cursor.next
    { p with cursor }.take token

def advance : Nat → Parse → Parse
  | 0, p => p
  | n + 1, p => if p.stage.isFinal then p else advance n p.step

/-- As many steps as a parse can take, wherever it stands: a whole field line has
four steps and at least four octets, and only a line that is broken off has fewer
octets than steps. -/
def fuel (p : Parse) : Nat := p.cursor.rest.length + 3

def run (p : Parse) : Parse := p.advance p.fuel

def result (p : Parse) : Except Error Request :=
  match p.stage with
  | .rejected violation offset => .error (.malformed violation offset)
  | _ => .ok p.request

/-- The length of an accepted head, which is the offset of the body. -/
def headLength? (p : Parse) : Option Nat :=
  if p.stage = .accepted then some p.cursor.position else none

def ofInput (config : Config) (input : Octets) : Parse :=
  { config, cursor := .start config.limits input }

end Parse

end HttpHead
