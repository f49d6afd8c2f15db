import HttpHead.Proofs.HeadEnd
import HttpHead.Receiver.Session
import Mathlib.Data.List.Forall2

/-! How a reader waits is not seen in what it reads, as long as nothing interrupts it. An
asynchronous one keeps what it has read when it gives up its turn, so on a calm stream it ends where
a blocking one ends (`Reading.await_eq_finish`). A blocking one passes over interruptions as if they
were not there (`Reading.finish_settled`); to an asynchronous one they are faults
(`Reading.await_cons_fault`). What any command leaves of a calm stream is calm again, so the two
agree over whole runs. -/
namespace HttpHead

/-- Nothing comes of this event but time. -/
def Event.passes (event : Event) : Bool := event == .pending || event.interrupts

namespace Stream

def uninterrupted (stream : Stream) : Stream := stream.filter (!·.interrupts)

/-- No interruption is to come. -/
def Calm (stream : Stream) : Prop := ∀ event ∈ stream, event.interrupts = false

/-- What a stream brings, no matter how long it takes. -/
def settled (stream : Stream) : Stream := stream.filter (!·.passes)

def readHeads (waiting : Waiting) (limit : Nat) : Nat → Stream → List (Except Error Head × Stream)
  | 0, _ => []
  | calls + 1, stream =>
    let outcome := stream.readHead waiting limit
    outcome :: readHeads waiting limit calls outcome.2

variable {event : Event} {stream : Stream}

@[simp] theorem calm_nil : Calm [] := fun _ h => absurd h List.not_mem_nil

@[simp] theorem calm_cons : Calm (event :: stream) ↔ event.interrupts = false ∧ stream.Calm :=
  List.forall_mem_cons

theorem calm_uninterrupted (stream : Stream) : stream.uninterrupted.Calm := by
  intro event hevent
  simpa using (List.mem_filter.1 hevent).2

theorem settled_cons_of_passes (h : event.passes) (stream : Stream) :
    settled (event :: stream) = settled stream := by
  simp [settled, h]

theorem settled_cons (h : event.passes = false) (stream : Stream) :
    settled (event :: stream) = event :: settled stream := by
  simp [settled, h]

theorem settled_uninterrupted (stream : Stream) :
    stream.uninterrupted.settled = stream.settled := by
  rw [settled, uninterrupted, List.filter_filter]
  apply List.filter_congr
  intro event _
  cases h : event.interrupts <;> simp [Event.passes, h]

theorem calm_takeOnto (h : stream.Calm) (taken : Octets) (count : Nat) :
    (takeOnto taken count stream).2.Calm := by
  induction stream generalizing taken count with
  | nil => exact calm_nil
  | cons event stream ih =>
    rw [takeOnto]
    split
    · exact h
    split
    · exact ih (calm_cons.1 h).2 _ _
    · exact calm_cons.2 ⟨rfl, (calm_cons.1 h).2⟩

end Stream

namespace Reading

variable {stream : Stream}

/-- Any fault ends an asynchronous read, also an interruption. -/
theorem await_cons_fault (r : Reading) (fault : Fault) (stream : Stream) :
    r.await (.fault fault :: stream) = (.error (.unreadable fault), .data [] :: stream) := by
  rw [await]
  rfl

/-- A poll of a calm stream gets as far as it can, and what is left to do is left to the next. -/
theorem finish_of_poll (r : Reading) (h : stream.Calm) :
    r.finish stream =
      match r.poll stream with
      | (.more r', rest) => r'.finish rest
      | (.done result, rest) => (result, rest) := by
  fun_induction poll r stream with
  | case1 r => rfl
  | case2 r rest => rfl
  | case3 r event rest _ r' _ hmeet ih =>
    obtain ⟨hevent, hrest⟩ := Stream.calm_cons.1 h
    rw [finish_cons hevent, hmeet]
    exact ih hrest
  | case4 r event rest _ result unread hmeet =>
    rw [finish_cons (Stream.calm_cons.1 h).1, hmeet]

theorem calm_poll (r : Reading) (h : stream.Calm) : (r.poll stream).2.Calm := by
  fun_induction poll r stream with
  | case1 => exact Stream.calm_nil
  | case2 => exact (Stream.calm_cons.1 h).2
  | case3 r event rest _ r' _ hmeet ih => exact ih (Stream.calm_cons.1 h).2
  | case4 => exact Stream.calm_cons.2 ⟨rfl, (Stream.calm_cons.1 h).2⟩

theorem await_eq_finish (r : Reading) (h : stream.Calm) : r.await stream = r.finish stream := by
  fun_induction await r stream with
  | case1 r stream result rest hpoll => rw [finish_of_poll r h, hpoll]
  | case2 r stream r' rest hpoll ih =>
    have hrest : rest.Calm := by simpa [hpoll] using calm_poll r h
    rw [finish_of_poll r h, hpoll, ih hrest]

theorem calm_finish (r : Reading) (h : stream.Calm) : (r.finish stream).2.Calm := by
  fun_induction finish r stream with
  | case1 => exact Stream.calm_nil
  | case2 r event rest _ ih => exact ih (Stream.calm_cons.1 h).2
  | case3 r event rest _ r' _ hmeet ih => exact ih (Stream.calm_cons.1 h).2
  | case4 => exact Stream.calm_cons.2 ⟨rfl, (Stream.calm_cons.1 h).2⟩

theorem finish_cons_of_passes {event : Event} (h : event.passes) (r : Reading) (stream : Stream) :
    r.finish (event :: stream) = r.finish stream := by
  cases hevent : event.interrupts with
  | true => exact finish_cons_of_interrupts hevent r stream
  | false =>
    obtain rfl : event = .pending := by simpa [Event.passes, hevent] using h
    exact finish_cons hevent r stream

theorem finish_settled (r : Reading) (stream : Stream) :
    r.finish stream.settled = ((r.finish stream).1, (r.finish stream).2.settled) := by
  induction stream generalizing r with
  | nil => rfl
  | cons event stream ih =>
    cases hpasses : event.passes with
    | true =>
      rw [Stream.settled_cons_of_passes hpasses, finish_cons_of_passes hpasses]
      exact ih r
    | false =>
      have hevent : event.interrupts = false := (Bool.or_eq_false_iff.1 hpasses).2
      rw [Stream.settled_cons hpasses, finish_cons hevent, finish_cons hevent]
      cases r.meet event with
      | mk progress unread =>
        cases progress with
        | more r => exact ih r
        | done result => rfl

end Reading

namespace Stream

variable {stream stream' : Stream}

theorem readHead_async (limit : Nat) (h : stream.Calm) :
    stream.readHead .async limit = stream.readHead .blocking limit := by
  rw [readHead, readHead, Reading.await_eq_finish _ h]

/-- Calm is needed: what a blocking reader passes over is all that an asynchronous one gets. -/
example :
    let interruption : Event := .fault ⟨.interrupted, none⟩
    (readHead .async 8 [interruption]).1 = .error (.unreadable ⟨.interrupted, none⟩) ∧
      (readHead .blocking 8 [interruption]).1 = .ok ⟨[], true⟩ :=
  ⟨congrArg Prod.fst (Reading.await_cons_fault (.start 8) _ []), rfl⟩

theorem calm_readHead (waiting : Waiting) (limit : Nat) (h : stream.Calm) :
    (stream.readHead waiting limit).2.Calm := by
  have hblocking : (stream.readHead .blocking limit).2.Calm := by
    rw [readHead]
    split
    · exact h
    · exact Reading.calm_finish _ h
  cases waiting with
  | blocking => exact hblocking
  | async => rwa [readHead_async limit h]

theorem readHead_of_settled_eq (limit : Nat) (h : stream'.settled = stream.settled) :
    let outcome := stream.readHead .blocking limit
    let outcome' := stream'.readHead .blocking limit
    outcome'.1 = outcome.1 ∧ outcome'.2.settled = outcome.2.settled := by
  rw [readHead, readHead]
  split
  · exact ⟨rfl, h⟩
  · have hsettled := Reading.finish_settled (.start limit) stream
    rw [← h, Reading.finish_settled] at hsettled
    exact Prod.mk.inj hsettled

theorem readHeads_of_settled_eq (limit calls : Nat) (hcalm : stream'.Calm)
    (h : stream'.settled = stream.settled) :
    (readHeads .async limit calls stream').map (Prod.map id settled) =
      (readHeads .blocking limit calls stream).map (Prod.map id settled) := by
  induction calls generalizing stream stream' with
  | zero => rfl
  | succ calls ih =>
    obtain ⟨hresult, hleft⟩ := readHead_of_settled_eq limit h
    -- What a call leaves is calm again, so that the next one may wait in either way.
    have hcalm' := calm_readHead .blocking limit hcalm
    rw [readHeads, readHeads, readHead_async limit hcalm, List.map_cons, List.map_cons,
      ih hcalm' hleft, Prod.map, Prod.map, hresult, hleft]

end Stream

theorem Receiver.rest_read (receiver : Receiver) (waiting : Waiting) (stream : Stream) :
    (receiver.read waiting stream).2 =
      (stream.readHead waiting receiver.config.limits.head).2 := by
  have hconfig : receiver.teardown.config = receiver.config := rfl
  rw [read, hconfig]
  cases stream.readHead waiting receiver.config.limits.head with
  | mk head rest => cases head <;> rfl

/-- The same command, or one that gives up its turn where the other waits. -/
inductive Command.Yields : Command → Command → Prop where
  | same (command : Command) : Yields command command
  | read : Yields (.read .blocking) (.read .async)

namespace Session

variable {session : Session}

theorem calm_step (h : session.stream.Calm) (i : Nat) (command : Command) :
    (session.step i command).2.stream.Calm := by
  cases hi : session.receivers[i]? with
  | none => simpa only [step, hi] using h
  | some receiver =>
    simp only [step, hi]
    cases command with
    | parse input => exact h
    | read waiting =>
      have hleft := Stream.calm_readHead waiting receiver.config.limits.head h
      rwa [← Receiver.rest_read] at hleft
    | takeRequest => exact h
    | takeOctets count? =>
      cases count? with
      | none => exact Stream.calm_nil
      | some count => exact Stream.calm_takeOnto h [] count

theorem step_of_yields {command command' : Command} (h : command.Yields command')
    (hcalm : session.stream.Calm) (i : Nat) :
    session.step i command' = session.step i command := by
  cases h with
  | same => rfl
  | read =>
    have hread (receiver : Receiver) :
        receiver.read .async session.stream = receiver.read .blocking session.stream := by
      rw [Receiver.read, Receiver.read, Stream.readHead_async _ hcalm]
    simp only [step, hread]

theorem run_of_yields {commands commands' : List (Nat × Command)}
    (h : commands.Forall₂ (fun c c' => c.1 = c'.1 ∧ c.2.Yields c'.2) commands')
    (hcalm : session.stream.Calm) : session.run commands' = session.run commands := by
  induction h generalizing session with
  | nil => rfl
  | cons hfirst _ ih =>
    obtain ⟨hi, hyields⟩ := hfirst
    simp only [run, ← hi, step_of_yields hyields hcalm, ih (calm_step hcalm _ _)]

/-- An asynchronous reader that is never interrupted reads what a blocking one reads, call for
call, and a session cannot tell them apart. -/
theorem async_agrees_with_blocking (limit calls : Nat) (stream : Stream) :
    (stream.uninterrupted.readHeads .async limit calls).map (Prod.map id Stream.settled) =
      (stream.readHeads .blocking limit calls).map (Prod.map id Stream.settled) ∧
    ∀ (receivers : List Receiver) (tally : Tally) (commands commands' : List (Nat × Command)),
      commands.Forall₂ (fun c c' => c.1 = c'.1 ∧ c.2.Yields c'.2) commands' →
        run ⟨receivers, stream.uninterrupted, tally⟩ commands' =
          run ⟨receivers, stream.uninterrupted, tally⟩ commands := by
  have hcalm := stream.calm_uninterrupted
  refine ⟨Stream.readHeads_of_settled_eq limit calls hcalm stream.settled_uninterrupted, ?_⟩
  intro receivers tally commands commands' h
  exact run_of_yields h hcalm

end Session

end HttpHead
