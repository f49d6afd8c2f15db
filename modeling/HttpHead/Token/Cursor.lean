import HttpHead.Config
import HttpHead.Token

/-! Cutting an input into tokens. A request line and a field line differ in their
tokens, so a cursor has a mode, which advances with every token. A run that goes
beyond a limit is passed up to one octet past the limit. An invalid token stops the
cursor: it is given again and again until the cursor is set to a new request or a
new input. -/
namespace HttpHead

inductive Mode where
  | method
  | target
  | version
  | requestLineEnd
  | fieldName
  | fieldValue
  | fieldLineEnd
  /-- The empty line behind the fields is passed, and what follows is the body. -/
  | finished
  | failed (violation : Violation) (offset : Nat)
  deriving DecidableEq

/-- A place in an input: how many octets were passed, where the current line
started, and the octets that are left. -/
structure Cursor where
  limits : Limits
  mode : Mode := .method
  position : Nat := 0
  lineStart : Nat := 0
  rest : Octets
  deriving DecidableEq

namespace Cursor

def start (limits : Limits) (input : Octets) : Cursor := { limits, rest := input }

def rebind (cursor : Cursor) (input : Octets) : Cursor := start cursor.limits input

def beginRequest (cursor : Cursor) : Cursor :=
  { cursor with mode := .method, lineStart := cursor.position }

def skip (n : Nat) (cursor : Cursor) : Cursor :=
  { cursor with position := cursor.position + n, rest := cursor.rest.drop n }

def run (cursor : Cursor) (bound : Nat) (p : UInt8 → Bool) : Octets :=
  (cursor.rest.takeWhile p).take bound

def fail (cursor : Cursor) (violation : Violation) (offset : Nat) : Token × Cursor :=
  (⟨.invalid violation, offset, []⟩, { cursor with mode := .failed violation offset })

/-- The input is over, or what is left of it is the body. -/
def atEnd (cursor : Cursor) : Token × Cursor := (⟨.endOfInput, cursor.position, []⟩, cursor)

/-- Passes a token, and behind it `gap` octets that belong to none. -/
def pass (cursor : Cursor) (kind : TokenKind) (text : Octets) (gap : Nat) (mode : Mode) :
    Token × Cursor :=
  (⟨kind, cursor.position, text⟩, { cursor.skip (text.length + gap) with mode })

def emptyLines : Octets → Nat
  | Octet.cr :: Octet.lf :: rest => emptyLines rest + 1
  | _ => 0

def skipEmptyLines (cursor : Cursor) : Cursor :=
  let cursor := cursor.skip (2 * emptyLines cursor.rest)
  { cursor with lineStart := cursor.position }

def nextMethod (cursor : Cursor) : Token × Cursor :=
  let cursor := cursor.skipEmptyLines
  let limit := cursor.limits.method
  let text := cursor.run (limit + 1) Octet.isToken
  let after := cursor.skip text.length
  if cursor.rest.isEmpty then cursor.atEnd
  else if limit < text.length then after.fail .methodTooLarge cursor.position
  else match after.rest with
    | Octet.sp :: _ =>
      if text.isEmpty then after.fail .emptyToken cursor.position
      else cursor.pass .method text 1 .target
    | _ :: _ => after.fail .invalidOctetInMethod after.position
    | [] => after.fail .unexpectedEnd after.position

def nextTarget (cursor : Cursor) : Token × Cursor :=
  let limit := cursor.limits.target
  let text := cursor.run (limit + 1) Octet.isTarget
  let after := cursor.skip text.length
  if limit < text.length then after.fail .targetTooLarge cursor.position
  else match after.rest with
    | Octet.sp :: _ =>
      if text.isEmpty then after.fail .emptyTarget cursor.position
      else cursor.pass .target text 1 .version
    | Octet.cr :: _ | Octet.lf :: _ =>
      if text.isEmpty then after.fail .emptyTarget cursor.position
      else after.fail .invalidTarget after.position
    | _ :: _ => after.fail .invalidOctetInTarget after.position
    | [] => after.fail .unexpectedEnd after.position

def isVersion : Octets → Bool
  | [0x48, 0x54, 0x54, 0x50, 0x2F, major, 0x2E, minor] =>
    Octet.isDigit major && Octet.isDigit minor
  | _ => false

/-- A version is a run of eight visible characters, and a ninth shows that it is none. -/
def nextVersion (cursor : Cursor) : Token × Cursor :=
  let text := cursor.run 9 Octet.isVisible
  if isVersion text then cursor.pass .version text 0 .requestLineEnd
  else (cursor.skip text.length).fail .invalidVersion cursor.position

def nextLineEnd (cursor : Cursor) : Token × Cursor :=
  match cursor.rest with
  | [] => cursor.atEnd
  | Octet.cr :: Octet.lf :: _ => cursor.pass .lineEnd Octets.crlf 0 .fieldName
  | _ => cursor.fail .invalidLineEnd cursor.position

/-- Why a field name that ends before the given octets has no colon behind it. -/
def failName (cursor : Cursor) : Token × Cursor :=
  match cursor.rest with
  | [] => cursor.fail .unexpectedEnd cursor.position
  | Octet.sp :: _ | Octet.htab :: _ =>
    if cursor.rest.trimStart.head? == some Octet.colon then
      cursor.fail .blankBeforeColon cursor.position
    else cursor.fail .missingColon cursor.lineStart
  | Octet.cr :: _ | Octet.lf :: _ => cursor.fail .missingColon cursor.lineStart
  | b :: _ => cursor.fail ((Octet.tokenViolation? b).getD .unexpectedToken) cursor.position

/-- A field name is a run of token characters before a colon. In its place an
empty line ends the head. -/
def nextFieldName (cursor : Cursor) : Token × Cursor :=
  let cursor := { cursor with lineStart := cursor.position }
  match cursor.rest with
  | [] => cursor.atEnd
  | Octet.cr :: Octet.lf :: _ => cursor.pass .lineEnd Octets.crlf 0 .finished
  | Octet.cr :: _ | Octet.lf :: _ => cursor.fail .invalidLineEnd cursor.position
  | Octet.sp :: _ | Octet.htab :: _ => cursor.fail .obsoleteFolding cursor.position
  | _ :: _ =>
    let limit := cursor.limits.fieldLine
    let text := cursor.run (limit + 1) Octet.isToken
    let after := cursor.skip text.length
    if limit < text.length then after.fail .headerTooLarge cursor.lineStart
    else if after.rest.head? == some Octet.colon then
      if text.isEmpty then after.fail .emptyToken cursor.position
      else cursor.pass .fieldName text 1 .fieldValue
    else after.failName

/-- A field value reaches to the end of its line, without the blanks around it.
The limit is one of the whole line, from its name on. -/
def nextFieldValue (cursor : Cursor) : Token × Cursor :=
  let cursor := cursor.skip (cursor.rest.takeWhile Octet.isBlank).length
  let limit := cursor.limits.fieldLine
  let used := cursor.position - cursor.lineStart
  let text := cursor.run (limit + 1 - used) Octet.isFieldText
  let after := cursor.skip text.length
  if limit < used + text.length then after.fail .headerTooLarge cursor.lineStart
  else match after.rest with
    | [] | Octet.cr :: _ | Octet.lf :: _ =>
      let value := text.trimEnd
      cursor.pass .fieldValue value (text.length - value.length) .fieldLineEnd
    | _ :: _ => after.fail .invalidFieldValue after.position

def next (cursor : Cursor) : Token × Cursor :=
  match cursor.mode with
  | .method => cursor.nextMethod
  | .target => cursor.nextTarget
  | .version => cursor.nextVersion
  | .requestLineEnd | .fieldLineEnd => cursor.nextLineEnd
  | .fieldName => cursor.nextFieldName
  | .fieldValue => cursor.nextFieldValue
  | .finished => cursor.atEnd
  | .failed violation offset => cursor.fail violation offset

end Cursor

end HttpHead
