import HttpHead.Receiver
import HttpHead.Tally

/-! Several receivers that share a stream and a tally. -/
namespace HttpHead

structure Session where
  receivers : List Receiver
  stream : Stream
  tally : Tally

inductive Command where
  | parse (input : Octets)
  | read (waiting : Waiting)
  | takeRequest
  /-- Takes octets from the stream, all of them without a count. -/
  | takeOctets (count? : Option Nat)
  deriving DecidableEq

inductive Reply where
  | result (result : Except Error Request)
  | request (request? : Option Request)
  | octets (octets : Octets)
  /-- There is no such receiver. -/
  | nobody

namespace Session

def start (configs : List Config) (stream : Stream) : Session :=
  ⟨configs.map fun config => { config }, stream, .empty⟩

/-- Puts the outcome of a parse by receiver `i` into the tally. -/
def finish (session : Session) (i : Nat) (outcome : Except Error Request × Receiver)
    (stream : Stream) : Reply × Session :=
  (.result outcome.1,
    { receivers := session.receivers.set i outcome.2
      stream
      tally := session.tally.record outcome.1 })

def step (session : Session) (i : Nat) (command : Command) : Reply × Session :=
  match session.receivers[i]? with
  | none => (.nobody, session)
  | some receiver =>
    match command with
    | .parse input => session.finish i (receiver.parse input) session.stream
    | .read waiting =>
      let (outcome, rest) := receiver.read waiting session.stream
      session.finish i outcome rest
    | .takeRequest =>
      let (request?, receiver) := receiver.takeRequest
      (.request request?, { session with receivers := session.receivers.set i receiver })
    | .takeOctets (some count) =>
      let (octets, rest) := session.stream.take count
      (.octets octets, { session with stream := rest })
    | .takeOctets none => (.octets session.stream.octets, { session with stream := [] })

def run (session : Session) : List (Nat × Command) → List Reply × Session
  | [] => ([], session)
  | (i, command) :: commands =>
    let (reply, session) := session.step i command
    let (replies, session) := run session commands
    (reply :: replies, session)

end Session

end HttpHead
