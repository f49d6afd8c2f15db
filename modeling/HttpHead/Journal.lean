import HttpHead.Receiver.Session

/-! What is logged of a parse. The notes are read off the states that a parse goes
through, so logging has no part in its outcome. -/
namespace HttpHead

inductive Level where
  | trace
  | debug
  | warn
  deriving DecidableEq

def Level.text : Level → String
  | trace => "TRACE"
  | debug => "DEBUG"
  | warn => "WARN"

structure Note where
  level : Level
  text : String
  deriving DecidableEq

def Note.line (note : Note) : String := note.level.text ++ " " ++ note.text

namespace Journal

/-- The note of a stage that is entered, and before it what was found out there. -/
def ofStages (p q : Parse) : List Note :=
  let entered : Note := ⟨.trace, p.stage.name ++ " -> " ++ q.stage.name⟩
  match q.stage with
  | .rejected violation offset =>
    [⟨.debug, "rejecting request in state " ++ p.stage.name ++ ": " ++ violation.text ++
      " at offset " ++ toString offset ++ " (" ++ Code.syntaxError.description ++ ")"⟩]
  | .method => [⟨.trace, "parsed method " ++ q.request.method.text⟩, entered]
  | .accepted =>
    [⟨.trace, "parsed request head of " ++ toString q.cursor.position ++ " bytes with " ++
      toString q.request.fields.size ++ " fields"⟩, entered]
  | _ => [entered]

def ofSteps : Nat → Parse → List Note
  | 0, _ => []
  | n + 1, p => if p.stage.isFinal then [] else ofStages p p.step ++ ofSteps n p.step

def ofRun (p : Parse) : List Note := ofSteps p.fuel p

def ofHead (head : Head) : List Note :=
  let length := toString head.octets.length
  let read : Note := ⟨.trace, "read request head of " ++ length ++ " bytes"⟩
  if head.atEnd then
    [⟨.trace, "end of stream after " ++ length ++ " bytes of request head"⟩, read]
  else [read]

def ofParse (receiver : Receiver) (input : Octets) : List Note :=
  match receiver.parse input with
  | (.ok request, _) =>
    ofRun (.ofInput receiver.config input) ++
      [⟨.debug, "accepted " ++ request.method.text ++ " " ++ request.target⟩]
  | (.error .exhausted, _) =>
    [⟨.warn, "failed to reserve " ++ toString receiver.config.fieldCapacity ++ " header slots: " ++
      capacityText⟩]
  | (.error _, _) => ofRun (.ofInput receiver.config input)

def ofRead (receiver : Receiver) (waiting : Waiting) (stream : Stream) : List Note :=
  match (stream.readHead waiting receiver.config.limits.head).1 with
  | .ok head => ofHead head ++ ofParse receiver head.octets
  | .error _ => []

def ofCommand (session : Session) (i : Nat) (command : Command) : List Note :=
  match session.receivers[i]?, command with
  | some receiver, .parse input => ofParse receiver input
  | some receiver, .read waiting => ofRead receiver waiting session.stream
  | _, _ => []

end Journal

end HttpHead
