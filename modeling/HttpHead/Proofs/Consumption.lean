import HttpHead.Proofs.HeadEnd
import HttpHead.Text.Utf8

/-! What a reader takes from a stream. Of the events in front of the first stop a blocking one sees
nothing but their octets (`Reading.finish_delivered`): a head that fits ends with its empty line,
a longer one is given up one octet beyond the limit, and any other is ended by the stop. However a
reader waits, the head that it comes back with is the front of what the stream holds
(`Stream.octets_prefix_of_readHead`). -/
namespace HttpHead

/-- Whether a reader gets no further than this event. Only an interruption is a fault that it
passes over. -/
def Event.stops : Event → Bool
  | .eof => true
  | .fault f => !f.isInterruption
  | .data _ | .pending => false

theorem Event.octets_of_interrupts {event : Event} (h : event.interrupts) : event.octets = [] := by
  cases event with
  | data octets => cases h
  | _ => rfl

namespace Stream

def delivered (stream : Stream) : Octets := Stream.octets (stream.takeWhile (!·.stops))

def fromStop (stream : Stream) : Stream := stream.dropWhile (!·.stops)

def behindStop (stream : Stream) : Stream := stream.fromStop.tail

/-- A stream as its next reader sees it, whatever the chunks. -/
def parts (stream : Stream) : Octets × Stream := (stream.delivered, stream.fromStop)

/-- What a reader makes of a head that a stop ends, where the end of a stream is no fault. -/
def endAtStop (stream : Stream) (text : Octets) : Except Error Head :=
  match stream.fromStop.head? with
  | some (.fault f) => .error (.unreadable f)
  | _ => .ok ⟨text, true⟩

variable {event : Event}

theorem parts_cons_of_stops (h : event.stops) (stream : Stream) :
    parts (event :: stream) = ([], event :: stream) := by
  simp [parts, delivered, fromStop, octets, h]

theorem parts_cons (h : event.stops = false) (stream : Stream) :
    parts (event :: stream) = (event.octets ++ delivered stream, fromStop stream) := by
  simp [parts, delivered, fromStop, octets, h]

end Stream

namespace Reading

open Octets

variable {r r' : Reading} {limit : Nat} {text : Octets}

theorem finish_cons_of_not_stops {event : Event} (h : event.stops = false) (r : Reading)
    (stream : Stream) :
    r.finish (event :: stream) =
      match r.feedAll event.octets with
      | (.more r, _) => r.finish stream
      | (.done result, unread) => (result, .data unread :: stream) := by
  cases event with
  | data octets => exact finish_cons rfl r stream
  | eof => simp [Event.stops] at h
  | fault fault =>
    have hagain : (Event.fault fault).interrupts := by
      simpa [Event.stops, Event.interrupts] using h
    exact finish_cons_of_interrupts hagain r stream
  | pending => exact finish_cons rfl r stream

/-- In front of the first stop a reader goes by the octets alone. -/
theorem finish_delivered (r : Reading) (stream : Stream) :
    match r.feedAll stream.delivered with
    | (.more r', _) => r.finish stream = r'.finish stream.fromStop
    | (.done result, unread) =>
      ∃ left, r.finish stream = (result, left) ∧ left.parts = (unread, stream.fromStop) := by
  induction stream generalizing r with
  | nil => rfl
  | cons event stream ih =>
    cases hstop : event.stops with
    | true =>
      obtain ⟨hdelivered, hfrom⟩ := Prod.mk.inj (Stream.parts_cons_of_stops hstop stream)
      rw [hdelivered, hfrom]
      rfl
    | false =>
      obtain ⟨hdelivered, hfrom⟩ := Prod.mk.inj (Stream.parts_cons hstop stream)
      rw [hdelivered, hfrom, feedAll_append, finish_cons_of_not_stops hstop]
      cases r.feedAll event.octets with
      | mk progress unread =>
        cases progress with
        | more r => exact ih r
        | done result => exact ⟨.data unread :: stream, rfl, Stream.parts_cons rfl stream⟩

theorem finish_fromStop (r : Reading) (stream : Stream) :
    ∃ left, r.finish stream.fromStop = (stream.endAtStop r.octets.reverse, left) ∧
      left.parts = stream.behindStop.parts := by
  have hhead := List.head?_dropWhile_not (!·.stops) stream
  unfold Stream.endAtStop Stream.behindStop Stream.fromStop
  cases hfrom : stream.dropWhile (!·.stops) with
  | nil => exact ⟨[], rfl, rfl⟩
  | cons event tail =>
    have hstop : event.stops := by simpa [hfrom] using hhead
    refine ⟨.data [] :: tail, ?_, Stream.parts_cons rfl tail⟩
    cases event with
    | data octets => simp [Event.stops] at hstop
    | eof => rfl
    | fault fault =>
      have hends : (Event.fault fault).interrupts = false := by
        simpa [Event.stops, Event.interrupts] using hstop
      exact finish_cons hends r tail
    | pending => simp [Event.stops] at hstop

theorem feedAll_of_lt_headOf (h : limit < (headOf text).length) :
    (start limit).feedAll text =
      (.done (.error (.malformed .headerTooLarge limit)), text.drop (limit + 1)) := by
  obtain ⟨hless, hlt⟩ := headless_take_of_lt h
  have hsplit : text.take limit ++ text[limit] :: text.drop (limit + 1) = text := by simp
  calc
    (start limit).feedAll text
        = (start limit).feedAll (text.take limit ++ text[limit] :: text.drop (limit + 1)) := by
          rw [hsplit]
    _ = (.done (.error (.malformed .headerTooLarge limit)), text.drop (limit + 1)) :=
          feedAll_of_full hless (List.length_take_of_le hlt.le)

def Balanced (r : Reading) : Prop := r.octets.length + r.room = r.limit

theorem balanced_feed {b : UInt8} (h : r.Balanced) (hfeed : r.feed b = .more r') :
    r'.Balanced ∧ r'.limit = r.limit := by
  unfold Balanced feed at *
  split at hfeed
  · cases hfeed
  · split at hfeed
    · cases hfeed
      simp_all
      omega
    · split at hfeed
      · cases hfeed
      · cases hfeed
        simp_all
        omega

theorem balanced_feedAll {unread : Octets} (h : r.Balanced)
    (hfeed : r.feedAll text = (.more r', unread)) : r'.Balanced ∧ r'.limit = r.limit := by
  induction text generalizing r with
  | nil =>
    cases hfeed
    exact ⟨h, rfl⟩
  | cons b text ih =>
    rw [feedAll] at hfeed
    cases hb : r.feed b with
    | more next =>
      rw [hb] at hfeed
      obtain ⟨hnext, hlimit⟩ := balanced_feed h hb
      obtain ⟨hlast, hlimit'⟩ := ih hnext hfeed
      exact ⟨hlast, hlimit'.trans hlimit⟩
    | done result =>
      rw [hb] at hfeed
      cases hfeed

end Reading

namespace Stream

open Octets

variable {limit : Nat} {stream other : Stream} {head unread : Octets} {result : Except Error Head}

theorem readHead_of_done (hlimit : limit < 2 ^ 64 - 1)
    (h : (Reading.start limit).feedAll stream.delivered = (.done result, unread)) :
    let outcome := stream.readHead .blocking limit
    outcome.1 = result ∧ outcome.2.parts = (unread, stream.fromStop) := by
  have hfinish := Reading.finish_delivered (.start limit) stream
  rw [h] at hfinish
  obtain ⟨left, heq, hleft⟩ := hfinish
  rw [readHead_blocking hlimit, heq]
  exact ⟨rfl, hleft⟩

theorem readHead_of_firstHead? (hlimit : limit < 2 ^ 64 - 1)
    (h : firstHead? stream.delivered = some head)
    (hfits : head.length ≤ limit) :
    let outcome := stream.readHead .blocking limit
    outcome.1 = .ok ⟨head, false⟩ ∧
      outcome.2.parts = (stream.delivered.drop head.length, stream.fromStop) := by
  obtain ⟨-, hnone⟩ | ⟨front, b, rest, htext, hless, hends, hsome⟩ :=
    firstHead?_cases stream.delivered
  · rw [hnone] at h
    cases h
  · obtain rfl : front ++ [b] = head := by simpa [hsome] using h
    rw [List.length_append, List.length_singleton] at hfits
    have hdrop : stream.delivered.drop (front ++ [b]).length = rest := by
      simp [htext, List.drop_append]
    rw [hdrop]
    apply readHead_of_done hlimit
    rw [htext, Reading.feedAll_of_endsHead hless hends hfits]

theorem readHead_of_headless (hlimit : limit < 2 ^ 64 - 1) (hless : stream.delivered.Headless)
    (hfits : stream.delivered.length ≤ limit) :
    let outcome := stream.readHead .blocking limit
    outcome.1 = stream.endAtStop stream.delivered ∧ outcome.2.parts = stream.behindStop.parts := by
  have hfinish := Reading.finish_delivered (.start limit) stream
  rw [Reading.feedAll_of_headless hless hfits] at hfinish
  obtain ⟨left, heq, hleft⟩ := Reading.finish_fromStop (.after limit stream.delivered) stream
  rw [readHead_blocking hlimit, hfinish, heq, Reading.after, List.reverse_reverse]
  exact ⟨rfl, hleft⟩

theorem readHead_congr (hlimit : limit < 2 ^ 64 - 1) (h : other.parts = stream.parts) :
    let outcome := stream.readHead .blocking limit
    let outcome' := other.readHead .blocking limit
    outcome'.1 = outcome.1 ∧ outcome'.2.parts = outcome.2.parts := by
  intro outcome outcome'
  obtain ⟨hdelivered, hfrom⟩ := Prod.mk.inj h
  cases hfeed : (Reading.start limit).feedAll stream.delivered with
  | mk progress unread =>
    cases progress with
    | more r =>
      have hfinish := Reading.finish_delivered (.start limit) stream
      have hfinish' := Reading.finish_delivered (.start limit) other
      rw [hdelivered, hfeed, hfrom] at hfinish'
      rw [hfeed] at hfinish
      have heq : outcome' = outcome := by
        unfold outcome outcome'
        rw [readHead_blocking hlimit, readHead_blocking hlimit]
        exact hfinish'.trans hfinish.symm
      rw [heq]
      exact ⟨rfl, rfl⟩
    | done result =>
      obtain ⟨hresult, hleft⟩ := readHead_of_done hlimit hfeed
      rw [← hdelivered] at hfeed
      obtain ⟨hresult', hleft'⟩ := readHead_of_done hlimit hfeed
      rw [hfrom] at hleft'
      exact ⟨hresult'.trans hresult.symm, hleft'.trans hleft.symm⟩

/-- A head that fits is taken off the stream and nothing more. Otherwise a text that does not fit
is given up one octet beyond the limit, and one that fits is taken with the stop behind it. At no
time were more octets read than the limit allows, and the sum that says how many may be asked for
fits into a word. -/
theorem readHead_takes (limit : Nat) (hlimit : limit < 2 ^ 64 - 1) (stream : Stream) :
    let text := stream.delivered
    let outcome := stream.readHead .blocking limit
    let noHeadFits := ∀ head, firstHead? text = some head → limit < head.length
    (∀ head, firstHead? text = some head → head.length ≤ limit →
      outcome.1 = .ok ⟨head, false⟩ ∧
        outcome.2.parts = (text.drop head.length, stream.fromStop)) ∧
    (noHeadFits → limit < text.length →
      outcome.1 = .error (.malformed .headerTooLarge limit) ∧
        outcome.2.parts = (text.drop (limit + 1), stream.fromStop)) ∧
    (noHeadFits → text.length ≤ limit →
      outcome.1 = stream.endAtStop text ∧ outcome.2.parts = stream.behindStop.parts) ∧
    (∀ other : Stream, other.parts = stream.parts →
      (other.readHead .blocking limit).1 = outcome.1 ∧
        (other.readHead .blocking limit).2.parts = outcome.2.parts) ∧
    ∀ seen r unread, (Reading.start limit).feedAll seen = (.more r, unread) →
      r.octets.length ≤ limit ∧ r.room = limit - r.octets.length ∧
        r.readLimit.toNat = r.room + 1 := by
  intro text outcome noHeadFits
  refine ⟨fun head => readHead_of_firstHead? hlimit, ?tooLarge, ?stopped,
    fun other => readHead_congr hlimit, ?balanced⟩
  case tooLarge =>
    intro hlong hlt
    apply readHead_of_done hlimit
    apply Reading.feedAll_of_lt_headOf
    cases hfirst : firstHead? text with
    | none => simpa [headOf, text, hfirst] using hlt
    | some head => simpa [headOf, text, hfirst] using hlong head hfirst
  case stopped =>
    intro hlong hle
    obtain ⟨hless, -⟩ | ⟨front, b, rest, htext, -, -, hsome⟩ := firstHead?_cases text
    · exact readHead_of_headless hlimit hless hle
    · have hlt := hlong _ hsome
      simp [htext] at hlt hle
      omega
  case balanced =>
    intro seen r unread hfeed
    -- What was read and what still fits make up the limit at any time.
    have hstart : (Reading.start limit).Balanced := Nat.zero_add limit
    obtain ⟨hbalanced, hsame⟩ := Reading.balanced_feedAll hstart hfeed
    have hbound : r.limit = limit := hsame
    have hroom : r.octets.length + r.room = limit := hbalanced.trans hsame
    have hsum := Reading.toNat_readLimit (hbound.trans_lt hlimit)
    omega

/-- A limit inside of the CRLF that ends the head, an interruption, and a fault behind it. -/
theorem readHead_takes_nothing_more :
    let stream : Stream :=
      [.data (Utf8.encode "\nGET / HTTP/1.0\r"), .fault ⟨.interrupted, none⟩, .pending,
        .data (Utf8.encode "\n\r\nbody"), .fault ⟨.brokenPipe, none⟩]
    let outcome := stream.readHead .blocking 18
    18 < 2 ^ 64 - 1 ∧ outcome.1 = .error (.malformed .headerTooLarge 18) ∧
      outcome.2.parts = (Utf8.encode "body", [.fault ⟨.brokenPipe, none⟩]) := by
  intro stream outcome
  have hlimit : 18 < 2 ^ 64 - 1 := by decide
  have hnone : ∀ head, firstHead? stream.delivered = some head → 18 < head.length := by
    have hfirst : firstHead? stream.delivered =
        some (Utf8.encode "\nGET / HTTP/1.0\r\n\r\n") := by
      decide +kernel
    rintro head hhead
    rw [← Option.some.inj (hfirst.symm.trans hhead)]
    decide +kernel
  exact ⟨hlimit, (readHead_takes 18 hlimit stream).2.1 hnone (by decide +kernel)⟩

end Stream

/-- What was read so far is the front of a text, of which `rest` is still to come. -/
def Progress.Fronts (text rest : Octets) : Progress → Prop
  | .more r => r.octets.reverse ++ rest = text
  | .done (.ok head) => head.octets <+: text
  | .done (.error _) => True

namespace Reading

variable {r : Reading} {rest : Octets} {stream : Stream} {head : Head}

theorem fronts_feed (r : Reading) (b : UInt8) (rest : Octets) :
    (r.feed b).Fronts (r.octets.reverse ++ b :: rest) rest := by
  have hcons : (b :: r.octets).reverse ++ rest = r.octets.reverse ++ b :: rest := by simp
  unfold feed
  split
  · trivial
  split
  · exact hcons
  split
  · exact ⟨rest, hcons⟩
  · exact hcons

theorem fronts_feedAll (r : Reading) (text rest : Octets) :
    (r.feedAll text).1.Fronts (r.octets.reverse ++ (text ++ rest)) rest := by
  induction text generalizing r with
  | nil => rfl
  | cons b text ih =>
    have hfeed := fronts_feed r b (text ++ rest)
    rw [feedAll, List.cons_append]
    cases hnext : r.feed b with
    | more next =>
      rw [hnext] at hfeed
      rw [← hfeed]
      exact ih next
    | done result =>
      rw [hnext] at hfeed
      cases result with
      | ok head => exact hfeed
      | error error => trivial

theorem fronts_meet (r : Reading) (event : Event) (rest : Octets) :
    (r.meet event).1.Fronts (r.octets.reverse ++ (event.octets ++ rest)) rest := by
  cases event with
  | data octets => exact fronts_feedAll r octets rest
  | eof => exact List.prefix_append ..
  | fault fault => trivial
  | pending => rfl

theorem fronts_poll (r : Reading) (stream : Stream) :
    (r.poll stream).1.Fronts (r.octets.reverse ++ stream.octets) (r.poll stream).2.octets := by
  fun_induction poll r stream with
  | case1 r => exact List.prefix_append ..
  | case2 r rest => rfl
  | case3 r event rest _ r' _ hmeet ih =>
    have hfronts := fronts_meet r event (Stream.octets rest)
    rw [hmeet] at hfronts
    rw [Stream.octets_cons, ← hfronts]
    exact ih
  | case4 r event rest _ result unread hmeet =>
    have hfronts := fronts_meet r event (Stream.octets rest)
    rw [hmeet] at hfronts
    cases result with
    | ok head => exact hfronts
    | error error => trivial

theorem prefix_of_await (h : (r.await stream).1 = .ok head) :
    head.octets <+: r.octets.reverse ++ stream.octets := by
  fun_induction await r stream with
  | case1 r stream result rest hpoll =>
    have hfronts := fronts_poll r stream
    rw [hpoll] at hfronts
    obtain rfl : result = .ok head := h
    exact hfronts
  | case2 r stream r' rest hpoll ih =>
    have hfronts := fronts_poll r stream
    rw [hpoll] at hfronts
    rw [← hfronts]
    exact ih h

theorem prefix_of_finish (h : (r.finish stream).1 = .ok head) :
    head.octets <+: r.octets.reverse ++ stream.octets := by
  fun_induction finish r stream with
  | case1 r =>
    obtain rfl : r.close = head := Except.ok.inj h
    exact List.prefix_append ..
  | case2 r event rest hevent ih =>
    rw [Stream.octets_cons, Event.octets_of_interrupts hevent]
    exact ih h
  | case3 r event rest _ r' _ hmeet ih =>
    have hfronts := fronts_meet r event (Stream.octets rest)
    rw [hmeet] at hfronts
    rw [Stream.octets_cons, ← hfronts]
    exact ih h
  | case4 r event rest _ result unread hmeet =>
    have hfronts := fronts_meet r event (Stream.octets rest)
    rw [hmeet] at hfronts
    obtain rfl : result = .ok head := h
    exact hfronts

end Reading

namespace Stream

/-- A head comes from the front of the stream, also where faults stand in between. -/
theorem octets_prefix_of_readHead {waiting : Waiting} {limit : Nat} {stream : Stream} {head : Head}
    (h : (stream.readHead waiting limit).1 = .ok head) : head.octets <+: stream.octets := by
  by_cases hzero : (Reading.start limit).readLimit = 0
  · rw [readHead_of_readLimit_eq_zero hzero] at h
    rw [← Except.ok.inj h]
    exact List.nil_prefix
  · cases waiting with
    | blocking =>
      rw [readHead, if_neg hzero] at h
      exact Reading.prefix_of_finish h
    | async =>
      rw [readHead, if_neg hzero] at h
      exact Reading.prefix_of_await h

end Stream

end HttpHead
