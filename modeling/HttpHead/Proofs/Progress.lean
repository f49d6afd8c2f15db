import HttpHead.Proofs.Walk

/-! How far a parse gets with a step. Every step follows an edge of the graph of stages, or ends in
a violation (`follows_step`); the edges around a field are four, so the steps to a stage tell how
many fields were appended on the way (`gains_iterate`), and the octets that are left bound the
steps to the end (`exists_endsAfter`). -/
namespace HttpHead

namespace Stage

/-- The edges of the graph of stages that lead to no violation. -/
inductive Leads : Stage → Stage → Prop where
  | method : Leads start method
  | target : Leads method target
  | version : Leads target version
  | requestLineEnd : Leads version requestLineEnd
  | firstName (name : Token) : Leads requestLineEnd (fieldName name)
  | noField : Leads requestLineEnd fieldsDone
  | colon (name : Token) : Leads (fieldName name) (fieldColon name)
  | value (name : Token) : Leads (fieldColon name) fieldValue
  | fieldLineEnd : Leads fieldValue fieldLineEnd
  | nextName (name : Token) : Leads fieldLineEnd (fieldName name)
  | lastField : Leads fieldLineEnd fieldsDone
  | accepted : Leads fieldsDone accepted

/-- The steps to a stage, less four for each field that was appended on the way. The field is
appended at its value, one step before its line is over. -/
def steps : Stage → Nat
  | start | rejected .. => 0
  | method => 1
  | target => 2
  | version | fieldValue => 3
  | requestLineEnd | fieldLineEnd => 4
  | fieldName _ | fieldsDone => 5
  | fieldColon _ | accepted => 6

end Stage

namespace Fields

theorem appendAll_append (fields : Fields) (front more : List Field) :
    fields.appendAll (front ++ more) = (fields.appendAll front).appendAll more := by
  simp [appendAll]

theorem append_eq_appendAll (fields : Fields) (field : Field) :
    fields.append field = fields.appendAll [field] := by
  rw [appendAll_cons, appendAll_nil]

end Fields

namespace Parse

variable {p q : Parse} {t : Token}

/-- The second parse has appended some fields, and is as many steps further as they take. -/
def Gains (p q : Parse) (n : Nat) : Prop :=
  ∃ more : List Field, q.request.fields = p.request.fields.appendAll more ∧
    q.stage.steps + 4 * more.length = p.stage.steps + n

def Follows (p q : Parse) : Prop :=
  (p.stage.Leads q.stage ∧ p.Gains q 1) ∨ ∃ violation offset, q.stage = .rejected violation offset

theorem follows_reject (p : Parse) (violation : Violation) (offset : Nat) :
    p.Follows (p.reject violation offset) := .inr ⟨violation, offset, rfl⟩

theorem follows_of_leads (h : p.stage.Leads q.stage)
    (hfields : q.request.fields = p.request.fields)
    (hsteps : q.stage.steps = p.stage.steps + 1) : p.Follows q :=
  .inl ⟨h, [], by rw [hfields, Fields.appendAll_nil], hsteps⟩

theorem follows_takeMethod (hs : p.stage = .start) : p.Follows (p.takeMethod t) := by
  unfold takeMethod
  split
  · exact follows_reject ..
  simp only
  split
  · exact follows_reject ..
  · exact follows_of_leads (by rw [hs]; exact .method) rfl (by rw [hs]; rfl)

theorem follows_takeTarget (hs : p.stage = .method) : p.Follows (p.takeTarget t) := by
  unfold takeTarget
  split
  · exact follows_reject ..
  · exact follows_of_leads (by rw [hs]; exact .target) rfl (by rw [hs]; rfl)

theorem follows_takeVersion (hs : p.stage = .target) : p.Follows (p.takeVersion t) := by
  unfold takeVersion
  split
  · exact follows_reject ..
  · exact follows_of_leads (by rw [hs]; exact .version) rfl (by rw [hs]; rfl)

theorem follows_takeFieldName (hs : p.stage = .requestLineEnd ∨ p.stage = .fieldLineEnd) :
    p.Follows (p.takeFieldName t) := by
  unfold takeFieldName
  split
  · exact follows_reject ..
  · rcases hs with hs | hs
    · exact follows_of_leads (by rw [hs]; exact .firstName t) rfl (by rw [hs]; rfl)
    · exact follows_of_leads (by rw [hs]; exact .nextName t) rfl (by rw [hs]; rfl)

theorem follows_takeField {name : Token} (hs : p.stage = .fieldColon name) :
    p.Follows (p.takeField name t) := by
  unfold takeField
  split
  · exact follows_reject ..
  simp only
  split
  · exact follows_reject ..
  · refine .inl ⟨by rw [hs]; exact .value name, [_], Fields.append_eq_appendAll _ _, ?_⟩
    rw [hs]
    rfl

theorem follows_close (hs : p.stage = .fieldsDone) : p.Follows (p.close t) := by
  unfold close
  split
  · exact follows_reject ..
  · exact follows_of_leads (by rw [hs]; exact .accepted) rfl (by rw [hs]; rfl)

theorem follows_take (p : Parse) (t : Token) : p.Follows (p.take t) := by
  unfold take
  split <;> rename_i hs hk
  · exact follows_reject ..
  · exact follows_takeMethod hs
  · exact follows_takeTarget hs
  · exact follows_takeVersion hs
  · exact follows_of_leads (by rw [hs]; exact .requestLineEnd) rfl (by rw [hs]; rfl)
  · exact follows_takeFieldName (.inl hs)
  · exact follows_takeFieldName (.inr hs)
  · exact follows_of_leads (by rw [hs]; exact .noField) rfl (by rw [hs]; rfl)
  · exact follows_of_leads (by rw [hs]; exact .lastField) rfl (by rw [hs]; rfl)
  · exact follows_takeField hs
  · exact follows_of_leads (by rw [hs]; exact .fieldLineEnd) rfl (by rw [hs]; rfl)
  · exact follows_close hs
  · exact follows_reject ..
  · exact follows_reject ..

theorem follows_step (hlive : p.stage.isFinal = false) : p.Follows p.step := by
  cases hr : p.stage.reads with
  | true =>
    rw [step_of_reads hr]
    exact follows_take { p with cursor := p.cursor.next.2 } p.cursor.next.1
  | false =>
    obtain ⟨name, hs⟩ := Stage.exists_eq_fieldName hlive hr
    rw [step_of_not_reads hr, hs]
    exact follows_of_leads (by rw [hs]; exact .colon name) rfl (by rw [hs]; rfl)

def EndsAfter (p : Parse) (n : Nat) : Prop :=
  (step^[n] p).stage.isFinal ∧ ∀ m < n, (step^[m] p).stage.isFinal = false

/-- As long as a parse is not rejected, its stage and the fields that it has appended tell how many
steps it has taken. -/
theorem gains_iterate (n : Nat) (hlive : ∀ m < n, (step^[m] p).stage.isFinal = false) :
    p.Gains (step^[n] p) n ∨
      ∃ violation offset, (step^[n] p).stage = .rejected violation offset := by
  induction n with
  | zero => exact .inl ⟨[], by rw [Fields.appendAll_nil]; rfl, rfl⟩
  | succ n ih =>
    have hlast := hlive n (Nat.lt_succ_self n)
    rw [Function.iterate_succ_apply']
    obtain ⟨front, hfront, hn⟩ | ⟨violation, offset, hrejected⟩ :=
      ih fun m hm => hlive m (Nat.lt_succ_of_lt hm)
    · refine (follows_step hlast).imp_left ?_
      intro hstep
      obtain ⟨-, more, hmore, hsteps⟩ := hstep
      refine ⟨front ++ more, ?_, ?_⟩
      · rw [hmore, hfront, Fields.appendAll_append]
      · rw [List.length_append]
        omega
    · -- A parse that is rejected is not live any more.
      rw [hrejected] at hlast
      cases hlast

theorem iterate_eq_run {n : Nat} (h : (step^[n] p).stage.isFinal) : step^[n] p = p.run := by
  induction n generalizing p with
  | zero => exact (run_of_isFinal h).symm
  | succ n ih => exact (ih h).trans (run_step p)

theorem endsAfter_succ {n : Nat} (hlive : p.stage.isFinal = false) (h : p.step.EndsAfter n) :
    p.EndsAfter (n + 1) := by
  refine ⟨h.1, ?_⟩
  intro m hm
  cases m with
  | zero => exact hlive
  | succ m => exact h.2 m (Nat.lt_of_succ_lt_succ hm)

theorem exists_endsAfter (p : Parse) : ∃ n ≤ p.weight + 1, p.EndsAfter n := by
  induction p using run_induction with
  | final p hfinal => exact ⟨0, Nat.zero_le _, hfinal, nofun⟩
  | step p hlive ih =>
    by_cases hfinal : p.step.stage.isFinal
    · exact ⟨1, Nat.le_add_left _ _, endsAfter_succ hlive ⟨hfinal, nofun⟩⟩
    · obtain ⟨n, hn, hends⟩ := ih
      have hweight := (weight_step p hlive).resolve_left hfinal
      exact ⟨n + 1, by omega, endsAfter_succ hlive hends⟩

theorem error_iff_rejected (p : Parse) :
    (∃ error, p.result = .error error) ↔
      ∃ violation offset, p.stage = .rejected violation offset := by
  unfold result
  cases p.stage <;> simp

/-- A parse from wherever moves have led a cursor ends after at most one step more than there are
octets left. Every step follows an edge of the graph of stages or ends in a violation, and only
that makes the result an error; an accepted parse has taken six steps, and four more for each field
that it has appended. When a parse that has ended is run again, for whatever request, nothing
changes. -/
theorem run_within_graph (limits : Limits) (input : Octets) (moves : List Move) (config : Config)
    (request : Request) :
    let place := (Place.start limits input).walk moves
    let start : Parse := { config, cursor := place.cursor, request }
    (∃ n ≤ place.input.length - place.cursor.position + 1,
        start.EndsAfter n ∧ step^[n] start = start.run ∧
          (start.run.stage = .accepted → ∃ more : List Field,
            start.run.request.fields = request.fields.appendAll more ∧ n = 6 + 4 * more.length)) ∧
      (∀ n, let p := step^[n] start
        (p.stage.isFinal = false → p.stage.Leads p.step.stage ∨
          ∃ violation offset, p.step.stage = .rejected violation offset) ∧
        ((∃ error, p.result = .error error) ↔
          ∃ violation offset, p.stage = .rejected violation offset)) ∧
      ∀ other : Request,
        let again : Parse := { start.run with request := other }
        again.run = again ∧
          again.run.result.map (fun _ => ()) = start.run.result.map (fun _ => ()) := by
  intro place start
  have hsound : place.Sound := Place.sound_walk (Place.sound_start limits input) moves
  refine ⟨?ends, ?steps, ?again⟩
  case ends =>
    obtain ⟨n, hn, hends⟩ := exists_endsAfter start
    have hrun := iterate_eq_run hends.1
    have hweight : start.weight = place.input.length - place.cursor.position := by
      change place.cursor.rest.length + 0 = _
      rw [hsound.rest_eq, List.length_drop, Nat.add_zero]
    refine ⟨n, by rwa [← hweight], hends, hrun, ?_⟩
    intro haccepted
    obtain ⟨more, hfields, hsteps⟩ | ⟨violation, offset, hrejected⟩ := gains_iterate n hends.2
    · rw [hrun] at hfields hsteps
      rw [haccepted] at hsteps
      refine ⟨more, hfields, ?_⟩
      -- The accepted stage counts six steps, and the start none.
      have hsteps : 6 + 4 * more.length = 0 + n := hsteps
      omega
    · rw [hrun, haccepted] at hrejected
      cases hrejected
  case steps =>
    intro n p
    exact ⟨fun hlive => (follows_step hlive).imp_left And.left, error_iff_rejected p⟩
  case again =>
    intro other again
    have hagain : again.run = again := run_of_isFinal (isFinal_run start)
    refine ⟨hagain, ?_⟩
    rw [hagain]
    simp only [result, again]
    cases start.run.stage <;> rfl

end Parse

end HttpHead
