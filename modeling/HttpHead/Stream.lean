import HttpHead.Fault
import HttpHead.Octet

/-! Byte streams as a source delivers them: octets in chunks of any size, and in
between faults, ends, and moments where nothing is ready. Behind its last event a
stream is at its end for ever. -/
namespace HttpHead

inductive Event where
  | data (octets : Octets)
  | fault (fault : Fault)
  | eof
  | pending
  deriving DecidableEq

def Event.octets : Event → Octets
  | .data octets => octets
  | _ => []

/-- Whether the event is a fault that only asks for another attempt. -/
def Event.interrupts : Event → Bool
  | .fault f => f.isInterruption
  | _ => false

abbrev Stream := List Event

namespace Stream

/-- All octets that are left, across faults and ends. -/
def octets (stream : Stream) : Octets := stream.flatMap Event.octets

/-- Takes octets while `count` lasts and puts them in reverse on `taken`. -/
def takeOnto (taken : Octets) (count : Nat) : Stream → Octets × Stream
  | [] => (taken, [])
  | event :: rest =>
    if count = 0 then (taken, event :: rest)
    else if event.octets.length ≤ count then
      takeOnto (event.octets.reverseAux taken) (count - event.octets.length) rest
    else ((event.octets.take count).reverseAux taken, .data (event.octets.drop count) :: rest)

/-- The next octets, at most `count` of them. Other events before the last octet
that is taken are dropped. -/
def take (count : Nat) (stream : Stream) : Octets × Stream :=
  let (taken, rest) := takeOnto [] count stream
  (taken.reverse, rest)

end Stream

end HttpHead
