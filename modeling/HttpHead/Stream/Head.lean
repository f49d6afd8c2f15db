import HttpHead.Error
import HttpHead.Stream

/-! Reading a request head from a stream, so that a parse gets the whole of it and
the body stays in the stream. A head ends with the first empty line behind a line
that is not empty, or where the stream ends. A blocking reader waits where nothing
is ready, and asks again where it is interrupted; an asynchronous one gives up its
turn where nothing is ready, and later goes on with what it has read so far, but an
interruption is to it a fault like any other. -/
namespace HttpHead

structure Head where
  octets : Octets
  /-- Whether the end of the stream, and no empty line, ended it. -/
  atEnd : Bool
  deriving DecidableEq

/-- What is known of the current line: nothing was read of it, only a CR, or more. -/
inductive LineState where
  | fresh
  | afterCr
  | text
  deriving DecidableEq

namespace LineState

def isEmpty : LineState → Bool
  | text => false
  | _ => true

def push (line : LineState) (b : UInt8) : LineState :=
  if line = fresh && b == Octet.cr then afterCr else text

end LineState

/-- A head that is being read: its limit and how many octets still fit, the octets
so far in reverse, the current line, and whether a line before it was not empty. -/
structure Reading where
  limit : Nat
  room : Nat
  octets : Octets := []
  line : LineState := .fresh
  begun : Bool := false
  deriving DecidableEq

inductive Progress where
  | more (reading : Reading)
  | done (result : Except Error Head)

namespace Reading

def start (limit : Nat) : Reading := { limit, room := limit }

/-- How many octets the reader may ask for: one more than fit, so that a head that is
too long is noticed. The sum is one of 64-bit words. For the largest of them it
overflows as long as nothing was read, and what is left of it is zero. (A build that
checks for overflow stops there.) -/
def readLimit (r : Reading) : UInt64 := .ofNat (r.limit - r.octets.length) + 1

def close (r : Reading) : Head := ⟨r.octets.reverse, true⟩

/-- Reads one octet. One for which there is no room shows that the head is too long. -/
def feed (r : Reading) (b : UInt8) : Progress :=
  match r.room with
  | 0 => .done (.error (.malformed .headerTooLarge r.limit))
  | room + 1 =>
    let octets := b :: r.octets
    if b ≠ Octet.lf then .more { r with room, octets, line := r.line.push b }
    else if r.line.isEmpty && r.begun then .done (.ok ⟨octets.reverse, false⟩)
    else .more { r with room, octets, line := .fresh, begun := r.begun || !r.line.isEmpty }

def feedAll (r : Reading) : Octets → Progress × Octets
  | [] => (.more r, [])
  | b :: rest =>
    match r.feed b with
    | .more r => feedAll r rest
    | .done result => (.done result, rest)

/-- Reads an event, and gives back the octets of it that were not read. With a fault
all that was read so far is lost. -/
def meet (r : Reading) : Event → Progress × Octets
  | .data octets => r.feedAll octets
  | .eof => (.done (.ok r.close), [])
  | .fault fault => (.done (.error (.unreadable fault)), [])
  | .pending => (.more r, [])

/-- Reads to the end of the head. Waits where nothing is ready, and does not heed
interruptions. -/
def finish (r : Reading) : Stream → Except Error Head × Stream
  | [] => (.ok r.close, [])
  | event :: rest =>
    if event.interrupts then finish r rest
    else
      match r.meet event with
      | (.more r, _) => finish r rest
      | (.done result, unread) => (result, .data unread :: rest)

/-- Reads until the head is done or nothing is ready. An interruption ends it, as any
fault does. -/
def poll (r : Reading) : Stream → Progress × Stream
  | [] => (.done (.ok r.close), [])
  | .pending :: rest => (.more r, rest)
  | event :: rest =>
    match r.meet event with
    | (.more r, _) => poll r rest
    | (.done result, unread) => (.done result, .data unread :: rest)

theorem length_of_poll_more {r r' : Reading} {stream rest : Stream}
    (h : r.poll stream = (.more r', rest)) : rest.length < stream.length := by
  fun_induction poll r stream with
  | case1 => simp at h
  | case2 => simp_all
  | case3 r event tail _ r1 _ _ ih => exact Nat.lt_succ_of_lt (ih h)
  | case4 => simp at h

def await (r : Reading) (stream : Stream) : Except Error Head × Stream :=
  match _ : r.poll stream with
  | (.done result, rest) => (result, rest)
  | (.more r, rest) => await r rest
termination_by stream.length
decreasing_by exact length_of_poll_more ‹_›

end Reading

inductive Waiting where
  | blocking
  | async
  deriving DecidableEq

/-- Reads a head of at most `limit` octets. A reader that may ask for none leaves the
stream alone, and takes it to be at its end. -/
def Stream.readHead (waiting : Waiting) (limit : Nat) (stream : Stream) :
    Except Error Head × Stream :=
  let r := Reading.start limit
  if r.readLimit = 0 then (.ok r.close, stream)
  else
    match waiting with
    | .blocking => r.finish stream
    | .async => r.await stream

end HttpHead
