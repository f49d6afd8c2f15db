import HttpHead.Proofs.Agreement
import HttpHead.Receiver.Session

/-! How a receiver stands between two uses. Its status, its parse and its request change one by
one, and a use may break off after any of them; yet behind every use they agree with each other and
with the last reply (`Keeps`). -/
namespace HttpHead

/-- What a receiver is used for. A stream that it reads from may be a new one each time. -/
inductive Use where
  | parse (input : Octets)
  | read (waiting : Waiting) (stream : Stream)
  | takeRequest

namespace Reply

/-- The last result of a parse after one more reply. A request that was taken out is gone. -/
def keep (last? : Option (Except Error Request)) : Reply → Option (Except Error Request)
  | .result given => some given
  | .request (some _) => none
  | _ => last?

def last? (replies : List Reply) : Option (Except Error Request) := replies.foldl keep none

end Reply

inductive Standing where
  /-- The last parse has accepted, and its request is there. -/
  | accepted
  /-- The last parse has rejected. -/
  | rejected
  /-- There is no parse. -/
  | vacant
  deriving DecidableEq

namespace Receiver

def Stands (receiver : Receiver) : Standing → Prop
  | .accepted =>
    receiver.status = .success ∧ receiver.request?.isSome ∧ ∃ parse,
      receiver.parse? = some parse ∧ parse.stage = .accepted ∧
        receiver.headLength? = some parse.cursor.position
  | .rejected =>
    receiver.status = .syntaxError ∧ receiver.request? = none ∧ receiver.headLength? = none ∧
      ∃ parse violation offset,
        receiver.parse? = some parse ∧ parse.stage = .rejected violation offset
  | .vacant =>
    receiver.status ∈ [.syntaxError, .resourceExhausted, .ioFailure] ∧
      receiver.parse? = none ∧ receiver.request? = none ∧ receiver.headLength? = none

def serve (receiver : Receiver) : Use → Reply × Receiver
  | .parse input =>
    let (result, receiver) := receiver.parse input
    (.result result, receiver)
  | .read waiting stream =>
    let ((result, receiver), _) := receiver.read waiting stream
    (.result result, receiver)
  | .takeRequest =>
    let (request?, receiver) := receiver.takeRequest
    (.request request?, receiver)

def serveAll (receiver : Receiver) : List Use → List Reply × Receiver
  | [] => ([], receiver)
  | use :: uses =>
    let (reply, receiver) := receiver.serve use
    let (replies, receiver) := receiver.serveAll uses
    (reply :: replies, receiver)

/-- A receiver with these settings, and the last result that it has not given away. -/
inductive Keeps (config : Config) : Receiver → Option (Except Error Request) → Prop where
  | accepted (parse : Parse) (stage : parse.stage = .accepted) :
      Keeps config ⟨config, some parse, parse.request, .success⟩ (some (.ok parse.request))
  | rejected (parse : Parse) (violation : Violation) (offset : Nat)
      (stage : parse.stage = .rejected violation offset) :
      Keeps config ⟨config, some parse, parse.request, .syntaxError⟩
        (some (.error (.malformed violation offset)))
  | failed (error : Error) : Keeps config { config, status := error.code } (some (.error error))
  | unused : Keeps config { config } none

variable {config : Config} {receiver : Receiver} {last? : Option (Except Error Request)}

theorem keeps_parse (receiver : Receiver) (input : Octets) :
    Keeps receiver.config (receiver.parse input).2 (some (receiver.parse input).1) := by
  by_cases hroom : receiver.HasRoom
  · rw [parse_of_hasRoom hroom]
    have hfinal := Parse.isFinal_run (.ofInput receiver.config input)
    generalize (Parse.ofInput receiver.config input).run = parse at hfinal
    cases hs : parse.stage with
    | accepted =>
      have hresult : parse.result = .ok parse.request := by simp [Parse.result, hs]
      simp only [hresult]
      exact .accepted parse hs
    | rejected violation offset =>
      have hresult := Parse.result_eq_malformed_iff.2 hs
      simp only [hresult]
      exact .rejected parse violation offset hs
    | _ => simp [hs, Stage.isFinal] at hfinal
  · rw [parse_of_not_hasRoom hroom]
    exact .failed .exhausted

theorem keeps_read (receiver : Receiver) (waiting : Waiting) (stream : Stream) :
    Keeps receiver.config (receiver.read waiting stream).1.2
      (some (receiver.read waiting stream).1.1) := by
  rw [read_eq]
  cases stream.readHead waiting receiver.config.limits.head with
  | mk head rest =>
    cases head with
    | error error => exact .failed error
    | ok head => exact keeps_parse receiver head.octets

theorem Keeps.config_eq (h : Keeps config receiver last?) : receiver.config = config := by
  cases h <;> rfl

theorem Keeps.takeRequest_eq (h : Keeps config receiver last?) :
    receiver.takeRequest =
      match receiver.request? with
      | some request => (some request, { config })
      | none => (none, receiver) := by
  cases h with
  | failed error => cases error <;> rfl
  | _ => rfl

theorem keeps_serve (h : Keeps config receiver last?) (use : Use) :
    Keeps config (receiver.serve use).2 ((receiver.serve use).1.keep last?) := by
  cases use with
  | parse input =>
    have hkeeps := keeps_parse receiver input
    rwa [h.config_eq] at hkeeps
  | read waiting stream =>
    have hkeeps := keeps_read receiver waiting stream
    rwa [h.config_eq] at hkeeps
  | takeRequest =>
    rw [serve, h.takeRequest_eq]
    cases h with
    | accepted parse stage => exact .unused
    | rejected parse violation offset stage => exact .rejected parse violation offset stage
    | failed error => cases error <;> exact .failed _
    | unused => exact .unused

theorem keeps_serveAll (h : Keeps config receiver last?) (uses : List Use) :
    let outcome := receiver.serveAll uses
    Keeps config outcome.2 (outcome.1.foldl Reply.keep last?) := by
  induction uses generalizing receiver last? with
  | nil => exact h
  | cons use uses ih => exact ih (keeps_serve h use)

theorem Stands.unique {standing standing' : Standing} (h : receiver.Stands standing)
    (h' : receiver.Stands standing') : standing = standing' := by
  cases standing <;> cases standing' <;> simp_all [Stands]

theorem Keeps.existsUnique_stands (h : Keeps config receiver last?) :
    ∃! standing, receiver.Stands standing := by
  have hexists : ∃ standing, receiver.Stands standing := by
    cases h with
    | accepted parse stage =>
      have hlength : parse.headLength? = some parse.cursor.position := if_pos stage
      exact ⟨.accepted, rfl, rfl, parse, rfl, stage, hlength⟩
    | rejected parse violation offset stage =>
      have hlength : parse.headLength? = none := by simp [Parse.headLength?, stage]
      exact ⟨.rejected, rfl, rfl, hlength, parse, violation, offset, rfl, stage⟩
    | failed error => cases error <;> exact ⟨.vacant, by simp [Error.code], rfl, rfl, rfl⟩
    | unused => exact ⟨.vacant, by simp, rfl, rfl, rfl⟩
  obtain ⟨standing, hstands⟩ := hexists
  exact ⟨standing, hstands, fun other hother => hother.unique hstands⟩

theorem Keeps.stands_vacant (h : Keeps config receiver last?)
    (hstatus : receiver.status = .resourceExhausted ∨ receiver.status = .ioFailure) :
    receiver.Stands .vacant := by
  obtain ⟨standing, hstands, -⟩ := h.existsUnique_stands
  cases standing with
  | vacant => exact hstands
  | _ => simp [hstands.1] at hstatus

theorem Keeps.isFinal_of_parse? (h : Keeps config receiver last?) {parse : Parse}
    (hparse : receiver.parse? = some parse) : parse.stage.isFinal := by
  cases h with
  | accepted parse' stage => cases hparse; rw [stage]; rfl
  | rejected parse' violation offset stage => cases hparse; rw [stage]; rfl
  | failed error => cases hparse
  | unused => cases hparse

theorem Keeps.status_eq {result : Except Error Request}
    (h : Keeps config receiver (some result)) : receiver.status = .ofResult result := by
  cases h <;> rfl

theorem Keeps.request?_eq_some_iff (h : Keeps config receiver last?) {request : Request} :
    receiver.request? = some request ↔ last? = some (.ok request) := by
  cases h with
  | accepted parse stage => simp [request?, Code.isSuccess]
  | failed error => cases error <;> simp [request?, Code.isSuccess, Error.code]
  | _ => simp [request?, Code.isSuccess]

theorem Keeps.stands_accepted_iff (h : Keeps config receiver last?) :
    receiver.Stands .accepted ↔ receiver.request?.isSome := by
  obtain ⟨standing, hstands, -⟩ := h.existsUnique_stands
  cases standing with
  | accepted => simp [hstands, hstands.2.1]
  | _ => simp_all [Stands]

/-- After any uses a receiver stands in exactly one way, which its status agrees with. The uses may
be reads under the largest limit, which take the stream to be at its end
(`Receiver.read_of_largest`). -/
theorem standing_of_serveAll (config : Config) (uses : List Use) :
    let outcome := ({ config } : Receiver).serveAll uses
    let receiver := outcome.2
    let last? := Reply.last? outcome.1
    (∃! standing, receiver.Stands standing) ∧
      (receiver.status = .resourceExhausted ∨ receiver.status = .ioFailure →
        receiver.Stands .vacant) ∧
      (∀ parse, receiver.parse? = some parse → parse.stage.isFinal) ∧
      (∀ result, last? = some result → receiver.status = .ofResult result) ∧
      (receiver.Stands .accepted →
        ∃ request, receiver.request? = some request ∧ last? = some (.ok request)) ∧
      (receiver.takeRequest.1.isSome ↔ receiver.Stands .accepted) ∧
      receiver.takeRequest.1 = receiver.request? ∧
      receiver.takeRequest.2 = if receiver.takeRequest.1.isSome then { config } else receiver := by
  intro outcome receiver last?
  have h : Keeps config receiver last? := keeps_serveAll .unused uses
  have htake : receiver.takeRequest.1 = receiver.request? ∧
      receiver.takeRequest.2 = if receiver.request?.isSome then { config } else receiver := by
    rw [h.takeRequest_eq]
    cases receiver.request? <;> simp
  refine ⟨h.existsUnique_stands, h.stands_vacant, fun parse => h.isFinal_of_parse?, ?status,
    ?request, ?taken, htake.1, ?left⟩
  case status =>
    intro result hlast
    exact Keeps.status_eq (hlast ▸ h)
  case request =>
    intro hstands
    obtain ⟨request, hrequest⟩ := Option.isSome_iff_exists.1 hstands.2.1
    exact ⟨request, hrequest, h.request?_eq_some_iff.1 hrequest⟩
  case taken => rw [htake.1, h.stands_accepted_iff]
  case left => rw [htake.1, htake.2]

end Receiver

end HttpHead
