import HttpHead.Proofs.Agreement
import HttpHead.Receiver.Session

/-! Nothing gets from one parse into another. Whatever has happened in a session, a receiver that
begins a parse does so as a new one would with the same settings and the same stream, and comes
out of it in the same state, so that everything that can be asked of it has the same answer. -/
namespace HttpHead

namespace Receiver

theorem parse_eq_new (receiver : Receiver) (input : Octets) :
    receiver.parse input = ({ config := receiver.config } : Receiver).parse input := by
  rw [parse, parse, teardown_eq, teardown_eq]

theorem read_eq_new (receiver : Receiver) (waiting : Waiting) (stream : Stream) :
    receiver.read waiting stream =
      ({ config := receiver.config } : Receiver).read waiting stream := by
  rw [read, read, teardown_eq, teardown_eq]

theorem config_run (receiver : Receiver) (input : Octets) :
    (receiver.run input).2.config = receiver.config := by
  rw [run]
  split <;> rfl

theorem config_parse (receiver : Receiver) (input : Octets) :
    (receiver.parse input).2.config = receiver.config :=
  config_run receiver.teardown input

theorem config_read (receiver : Receiver) (waiting : Waiting) (stream : Stream) :
    (receiver.read waiting stream).1.2.config = receiver.config := by
  rw [read_eq]
  cases stream.readHead waiting receiver.config.limits.head with
  | mk head rest =>
    cases head with
    | error error => rfl
    | ok head => exact config_parse receiver head.octets

theorem config_takeRequest (receiver : Receiver) :
    receiver.takeRequest.2.config = receiver.config := by
  rw [takeRequest]
  split <;> rfl

end Receiver

def Command.parses : Command → Bool
  | .parse _ | .read _ => true
  | .takeRequest | .takeOctets _ => false

/-- What happens to a session. To look at a receiver is nothing that happens. -/
inductive Happening where
  | command (i : Nat) (command : Command)
  /-- Another stream takes the place of the present one. -/
  | attach (stream : Stream)

def Happening.isTo (i : Nat) : Happening → Bool
  | .command j _ => i = j
  | .attach _ => false

namespace Session

def undergo (session : Session) : Happening → Session
  | .command i command => (session.step i command).2
  | .attach stream => { session with stream }

def after (session : Session) (history : List Happening) : Session := history.foldl undergo session

variable {session : Session} {i j : Nat}

theorem after_cons (session : Session) (happening : Happening) (history : List Happening) :
    session.after (happening :: history) = (session.undergo happening).after history := rfl

def outcome (receiver : Receiver) (stream : Stream) : Command → Receiver
  | .parse input => (receiver.parse input).2
  | .read waiting => (receiver.read waiting stream).1.2
  | .takeRequest => receiver.takeRequest.2
  | .takeOctets _ => receiver

theorem config_outcome (receiver : Receiver) (stream : Stream) (command : Command) :
    (outcome receiver stream command).config = receiver.config := by
  cases command with
  | parse input => exact Receiver.config_parse receiver input
  | read waiting => exact Receiver.config_read receiver waiting stream
  | takeRequest => exact Receiver.config_takeRequest receiver
  | takeOctets count? => rfl

theorem receivers_step {receiver : Receiver} (h : session.receivers[i]? = some receiver)
    (command : Command) :
    (session.step i command).2.receivers =
      session.receivers.set i (outcome receiver session.stream command) := by
  simp only [step, h]
  cases command with
  | parse input => rfl
  | read waiting => rfl
  | takeRequest => rfl
  | takeOctets count? =>
    have hset : session.receivers.set i receiver = session.receivers := by
      obtain ⟨hlt, rfl⟩ := List.getElem?_eq_some_iff.1 h
      exact List.set_getElem_self hlt
    cases count? <;> exact hset.symm

theorem step_of_none (h : session.receivers[i]? = none) (command : Command) :
    session.step i command = (.nobody, session) := by
  simp only [step, h]

theorem receivers_step_of_ne (h : i ≠ j) (command : Command) :
    (session.step j command).2.receivers[i]? = session.receivers[i]? := by
  cases hj : session.receivers[j]? with
  | none => rw [step_of_none hj]
  | some receiver => rw [receivers_step hj, List.getElem?_set_ne h.symm]

theorem config_step (session : Session) (i j : Nat) (command : Command) :
    (session.step j command).2.receivers[i]?.map (·.config) =
      session.receivers[i]?.map (·.config) := by
  by_cases h : i = j
  · subst h
    cases hi : session.receivers[i]? with
    | none => rw [step_of_none hi, hi]
    | some receiver =>
      obtain ⟨hlt, -⟩ := List.getElem?_eq_some_iff.1 hi
      rw [receivers_step hi, List.getElem?_set_self hlt, Option.map_some, config_outcome]
      rfl
  · rw [receivers_step_of_ne h]

theorem config_after (session : Session) (history : List Happening) (i : Nat) :
    (session.after history).receivers[i]?.map (·.config) =
      session.receivers[i]?.map (·.config) := by
  induction history generalizing session with
  | nil => rfl
  | cons happening history ih =>
    rw [after_cons, ih]
    cases happening with
    | command j command => exact config_step session i j command
    | attach stream => rfl

theorem receivers_after_of_not_isTo {history : List Happening}
    (h : ∀ happening ∈ history, ¬happening.isTo i) :
    (session.after history).receivers[i]? = session.receivers[i]? := by
  induction history generalizing session with
  | nil => rfl
  | cons happening history ih =>
    obtain ⟨hhead, htail⟩ := List.forall_mem_cons.1 h
    rw [after_cons, ih htail]
    cases happening with
    | command j command =>
      have hne : i ≠ j := by simpa [Happening.isTo] using hhead
      exact receivers_step_of_ne hne command
    | attach stream => rfl

theorem step_of_parses {receiver : Receiver} {command : Command}
    (h : session.receivers[i]? = some receiver) (hparses : command.parses) :
    let used := session.step i command
    let new := (start [receiver.config] session.stream).step 0 command
    used.1 = new.1 ∧ used.2.stream = new.2.stream ∧
      ∃ r, used.2.receivers[i]? = some r ∧ new.2.receivers = [r] := by
  obtain ⟨hlt, -⟩ := List.getElem?_eq_some_iff.1 h
  have hnew : (start [receiver.config] session.stream).receivers[0]? =
      some { config := receiver.config } := rfl
  cases command with
  | parse input =>
    simp only [step, h, hnew]
    rw [receiver.parse_eq_new input]
    exact ⟨rfl, rfl, _, List.getElem?_set_self hlt, rfl⟩
  | read waiting =>
    simp only [step, h, hnew]
    rw [receiver.read_eq_new waiting session.stream]
    exact ⟨rfl, rfl, _, List.getElem?_set_self hlt, rfl⟩
  | takeRequest => cases hparses
  | takeOctets count? => cases hparses

theorem receivers_start (configs : List Config) (stream : Stream) :
    (start configs stream).receivers[i]?.map (·.config) = configs[i]? := by
  simp [start, Function.comp_def]

/-- Whatever has happened to a session, a receiver that begins a parse gives the reply of a new
one, takes the same octets from the stream, and ends in the same state, in which it stays as long
as nothing happens to it. That holds under every limit of a head, and so also where the sum that
tells how much to ask for overflows (`Reading.readLimit`). -/
theorem step_after_history (configs : List Config) (stream : Stream) (history : List Happening)
    (i : Nat) (config : Config) (h : configs[i]? = some config) (command : Command)
    (hparses : command.parses) (later : List Happening)
    (hlater : ∀ happening ∈ later, ¬happening.isTo i) :
    let session := (start configs stream).after history
    let used := session.step i command
    let new := (start [config] session.stream).step 0 command
    used.1 = new.1 ∧ used.2.stream = new.2.stream ∧
      ∃ r, (used.2.after later).receivers[i]? = some r ∧ new.2.receivers = [r] := by
  intro session used new
  have hconfig : session.receivers[i]?.map (·.config) = some config := by
    rw [config_after, receivers_start, h]
  obtain ⟨receiver, hreceiver, rfl⟩ := Option.map_eq_some_iff.1 hconfig
  rw [receivers_after_of_not_isTo hlater]
  exact step_of_parses hreceiver hparses

/-- One of two receivers has read from a stream that failed, has parsed a head, has had the request
taken out, and has rejected a head behind its first field; that field is still there when it
begins the next parse. -/
theorem step_after_history_of_two :
    let configs : List Config := [{ strictness := .strict }, {}]
    let history : List Happening :=
      [.command 1 (.read .blocking), .command 1 (.parse (Utf8.encode "GET /a HTTP/1.0\r\n\r\n")),
        .command 0 (.parse (Utf8.encode "GET /b HTTP/1.0\r\n\r\n")), .command 1 .takeRequest,
        .command 1 (.parse (Utf8.encode "PUT /c HTTP/1.1\r\nContent-Length: 1\r\nHost")),
        .attach [.data (Utf8.encode "GET /d HTTP/1.0\r\n\r\nbody")]]
    let later : List Happening := [.command 0 .takeRequest, .attach []]
    let session := (start configs [.data [0x47], .fault ⟨.brokenPipe, none⟩]).after history
    let used := session.step 1 (.read .async)
    let new := (start [{}] session.stream).step 0 (.read .async)
    configs[1]? = some ({} : Config) ∧ (Command.read .async).parses ∧
      (∀ happening ∈ later, ¬happening.isTo 1) ∧
      session.receivers[1]?.map (·.filled.target) = some "/c" ∧
      session.receivers[1]?.map (·.filled.fields.size) = some 1 ∧
      used.1 = new.1 ∧ used.2.stream = new.2.stream ∧
      ∃ r, (used.2.after later).receivers[1]? = some r ∧ new.2.receivers = [r] := by
  intro configs history later session used new
  have hlater : ∀ happening ∈ later, ¬happening.isTo 1 :=
    List.forall_mem_cons.2 ⟨by decide, List.forall_mem_singleton.2 (by decide)⟩
  exact ⟨rfl, rfl, hlater, by decide +kernel, by decide +kernel,
    step_after_history configs _ history 1 {} rfl (.read .async) rfl later hlater⟩

end Session

end HttpHead
