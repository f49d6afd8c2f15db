import HttpHead.Parse
import HttpHead.Stream.Head

/-! A receiver runs parses, one after the other, and keeps the last one. All of them fill in
the one request that the receiver has, so whatever the last parse has left behind is dropped
before any input is read. -/
namespace HttpHead

/-- A receiver: its settings, the last parse if one was begun, the request that parses fill in,
and the last outcome. Before the first parse the outcome is a failure. -/
structure Receiver where
  config : Config
  parse? : Option Parse := none
  /-- Also a parse that fails leaves something here. -/
  filled : Request := {}
  status : Code := .syntaxError
  deriving DecidableEq

namespace Receiver

def request? (receiver : Receiver) : Option Request :=
  if receiver.status.isSuccess then some receiver.filled else none

def headLength? (receiver : Receiver) : Option Nat := receiver.parse?.bind (·.headLength?)

/-- Drops what the last parse has left behind. -/
def teardown (receiver : Receiver) : Receiver :=
  { receiver with parse? := none, filled := receiver.filled.reset, status := .syntaxError }

/-- Runs a parse of an input, if there is room for the fields. It goes on filling in what the
receiver has. -/
def run (receiver : Receiver) (input : Octets) : Except Error Request × Receiver :=
  if receiver.filled.fields.canReserve receiver.config.fieldCapacity then
    let parse := { Parse.ofInput receiver.config input with request := receiver.filled }.run
    (parse.result, { receiver with parse? := some parse, filled := parse.request })
  else (.error .exhausted, receiver)

def finish (outcome : Except Error Request × Receiver) : Except Error Request × Receiver :=
  (outcome.1, { outcome.2 with status := .ofResult outcome.1 })

/-- Parses the head at the front of an input; what follows it is not looked at. -/
def parse (receiver : Receiver) (input : Octets) : Except Error Request × Receiver :=
  finish (receiver.teardown.run input)

def read (receiver : Receiver) (waiting : Waiting) (stream : Stream) :
    (Except Error Request × Receiver) × Stream :=
  let receiver := receiver.teardown
  match stream.readHead waiting receiver.config.limits.head with
  | (.error error, rest) => (finish (.error error, receiver), rest)
  | (.ok head, rest) => (finish (receiver.run head.octets), rest)

/-- Moves the accepted request out, and drops the parse with it. -/
def takeRequest (receiver : Receiver) : Option Request × Receiver :=
  match receiver.request? with
  | none => (none, receiver)
  | some request =>
    (some request, { receiver with parse? := none, filled := {}, status := .syntaxError })

end Receiver

end HttpHead
