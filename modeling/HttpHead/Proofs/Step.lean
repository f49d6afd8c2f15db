import HttpHead.Proofs.Accept
import HttpHead.Proofs.Halt

/-! One step of a parse. A step that does not end the parse reads one of the tokens that let it
go on, or passes the colon (`step_cases`); whatever it does, the cursor only goes forward. -/
namespace HttpHead

theorem Cursor.lineStart_le_of_scans {c c' : Cursor} {t : Token} (h : c.Scans t c')
    (hc : c.lineStart ≤ c.position) : c'.lineStart ≤ c'.position := by
  cases h <;> simp only <;> omega

/-- The name that waits for its value. -/
def Stage.kept? : Stage → Option Token
  | .fieldName name | .fieldColon name => some name
  | _ => none

namespace Parse

variable {p : Parse}

theorem take_of_invalid {t : Token} {violation : Violation} (h : t.kind = .invalid violation) :
    p.take t = p.reject violation t.offset := by
  rw [take, h]

theorem isFinal_take_of_not_goesOn {t : Token} (ht : ¬t.kind.goesOn) :
    (p.take t).stage.isFinal := by
  by_cases hd : p.stage = .fieldsDone
  · cases hk : t.kind with
    | endOfInput =>
      have htake : p.take t = p.close t := by rw [take, hd, hk]
      rw [htake, close]
      split
      all_goals rfl
    | invalid violation =>
      rw [take_of_invalid hk]
      rfl
    | _ => rw [hk] at ht; exact absurd rfl ht
  · obtain ⟨v, offset, hstage⟩ := rejected_of_not_goesOn hd ht
    rw [hstage]
    rfl

/-- A token changes the stage, the summary and the request. The name of a field is kept unless it is
refused, and no other token leaves a name. -/
theorem take_frame (p : Parse) (t : Token) :
    ∃ stage summary request, p.take t = { p with stage, summary, request } ∧
      (stage.kept? = none ∨ t.kind = .fieldName ∧ stage.kept? = some t) := by
  have hname (hk : t.kind = .fieldName) :
      ∃ stage summary request, p.takeFieldName t = { p with stage, summary, request } ∧
        (stage.kept? = none ∨ t.kind = .fieldName ∧ stage.kept? = some t) := by
    unfold takeFieldName
    split
    · exact ⟨_, _, _, rfl, .inl rfl⟩
    · exact ⟨_, _, _, rfl, .inr ⟨hk, rfl⟩⟩
  unfold take
  split
  · exact ⟨_, _, _, rfl, .inl rfl⟩
  · unfold takeMethod
    split
    · exact ⟨_, _, _, rfl, .inl rfl⟩
    · simp only
      split
      all_goals exact ⟨_, _, _, rfl, .inl rfl⟩
  · unfold takeTarget
    split
    all_goals exact ⟨_, _, _, rfl, .inl rfl⟩
  · unfold takeVersion
    split
    all_goals exact ⟨_, _, _, rfl, .inl rfl⟩
  · exact ⟨_, _, _, rfl, .inl rfl⟩
  · exact hname ‹_›
  · exact hname ‹_›
  · exact ⟨_, _, _, rfl, .inl rfl⟩
  · exact ⟨_, _, _, rfl, .inl rfl⟩
  · unfold takeField
    split
    · exact ⟨_, _, _, rfl, .inl rfl⟩
    · simp only
      split
      all_goals exact ⟨_, _, _, rfl, .inl rfl⟩
  · exact ⟨_, _, _, rfl, .inl rfl⟩
  · unfold close
    split
    all_goals exact ⟨_, _, _, rfl, .inl rfl⟩
  · exact ⟨_, _, _, rfl, .inl rfl⟩
  · exact ⟨_, _, _, rfl, .inl rfl⟩

/-- A value is taken together with the name that is kept. Without one it would be out of place, but
then the stage takes no value. -/
theorem take_fieldValue {t : Token} (hr : p.stage.reads) (h : t.kind = .fieldValue) :
    p.take t =
      match p.stage.kept? with
      | some name => p.takeField name t
      | none => p.reject .unexpectedToken t.offset := by
  cases hs : p.stage with
  | fieldName name => simp [hs, Stage.reads] at hr
  | _ => simp [take, hs, h, Stage.kept?]

section elsewhere

variable {config : Config} {cursor : Cursor} {t : Token}

def elsewhere (config : Config) (cursor : Cursor) (p : Parse) : Parse := { p with config, cursor }

@[simp] theorem stage_elsewhere : (p.elsewhere config cursor).stage = p.stage := rfl

@[simp] theorem summary_elsewhere : (p.elsewhere config cursor).summary = p.summary := rfl

@[simp] theorem request_elsewhere : (p.elsewhere config cursor).request = p.request := rfl

theorem takeMethod_elsewhere (hstrict : config.isStrict = p.config.isStrict) :
    (p.elsewhere config cursor).takeMethod t = (p.takeMethod t).elsewhere config cursor := by
  have hconfig : (p.elsewhere config cursor).config.isStrict = p.config.isStrict := hstrict
  rw [takeMethod, takeMethod, hconfig]
  split
  · rfl
  · dsimp only
    split
    all_goals rfl

theorem takeTarget_elsewhere :
    (p.elsewhere config cursor).takeTarget t = (p.takeTarget t).elsewhere config cursor := by
  rw [takeTarget, takeTarget]
  split
  all_goals rfl

theorem takeVersion_elsewhere :
    (p.elsewhere config cursor).takeVersion t = (p.takeVersion t).elsewhere config cursor := by
  rw [takeVersion, takeVersion]
  split
  all_goals rfl

theorem takeFieldName_elsewhere (hfull : config.limits.fieldCount ≤ p.request.fields.size ↔
      p.config.limits.fieldCount ≤ p.request.fields.size) :
    (p.elsewhere config cursor).takeFieldName t =
      (p.takeFieldName t).elsewhere config cursor := by
  rw [takeFieldName, takeFieldName]
  by_cases h : p.config.limits.fieldCount ≤ p.request.fields.size
  · rw [if_pos h]
    exact if_pos (hfull.2 h)
  · rw [if_neg h]
    exact if_neg (mt hfull.1 h)

theorem takeField_elsewhere (hstrict : config.isStrict = p.config.isStrict) (name : Token) :
    (p.elsewhere config cursor).takeField name t =
      (p.takeField name t).elsewhere config cursor := by
  have hconfig : (p.elsewhere config cursor).config.isStrict = p.config.isStrict := hstrict
  rw [takeField, takeField, hconfig, summary_elsewhere]
  split
  · rfl
  · dsimp only
    split
    all_goals rfl

theorem close_elsewhere (hstrict : config.isStrict = p.config.isStrict) :
    (p.elsewhere config cursor).close t = (p.close t).elsewhere config cursor := by
  have hconfig : (p.elsewhere config cursor).config.isStrict = p.config.isStrict := hstrict
  rw [close, close, hconfig, summary_elsewhere, request_elsewhere]
  split
  all_goals rfl

/-- What a token makes of a parse depends on no settings but the strictness and, for the name of a
field, the number of fields, and not on where the cursor is. -/
theorem take_elsewhere (hstrict : config.isStrict = p.config.isStrict)
    (hfull : p.take t = p.takeFieldName t →
      (config.limits.fieldCount ≤ p.request.fields.size ↔
        p.config.limits.fieldCount ≤ p.request.fields.size)) :
    (p.elsewhere config cursor).take t = (p.take t).elsewhere config cursor := by
  rw [take, stage_elsewhere]
  rw [take] at hfull ⊢
  split at hfull
  · rfl
  · exact takeMethod_elsewhere hstrict
  · exact takeTarget_elsewhere
  · exact takeVersion_elsewhere
  · rfl
  · exact takeFieldName_elsewhere (hfull rfl)
  · exact takeFieldName_elsewhere (hfull rfl)
  · rfl
  · rfl
  · exact takeField_elsewhere hstrict _
  · rfl
  · exact close_elsewhere hstrict
  · rfl
  · rfl

end elsewhere

theorem cursor_take (p : Parse) (t : Token) : (p.take t).cursor = p.cursor := by
  obtain ⟨stage, summary, request, htake, -⟩ := take_frame p t
  rw [htake]

theorem config_take (p : Parse) (t : Token) : (p.take t).config = p.config := by
  obtain ⟨stage, summary, request, htake, -⟩ := take_frame p t
  rw [htake]

theorem cursor_step_of_reads (h : p.stage.reads) : p.step.cursor = p.cursor.next.2 := by
  rw [step_of_reads h, cursor_take]

theorem cursor_step_of_not_reads (h : p.stage.reads = false) : p.step.cursor = p.cursor := by
  rw [step_of_not_reads h]

theorem config_step (p : Parse) : p.step.config = p.config := by
  cases h : p.stage.reads with
  | true => rw [step_of_reads h, config_take]
  | false => rw [step_of_not_reads h]

def InOrder (p : Parse) : Prop := p.cursor.lineStart ≤ p.cursor.position

theorem scans_of_step (hp : p.InOrder) (hr : p.stage.reads) (h : p.step.stage.isFinal = false) :
    p.cursor.Scans p.cursor.next.1 p.cursor.next.2 := by
  apply Cursor.scans_next hp
  by_contra hgo
  rw [step_of_reads hr, isFinal_take_of_not_goesOn hgo] at h
  cases h

/-- What a step does that does not end the parse. -/
theorem step_cases (hp : p.InOrder) (h : p.step.stage.isFinal = false) :
    (∃ name, p.stage = .fieldName name ∧ p.step = { p with stage := .fieldColon name }) ∨
      p.stage.reads ∧ ∃ t c, p.cursor.Scans t c ∧
        p.step = ({ p with cursor := c } : Parse).take t := by
  cases hr : p.stage.reads with
  | true => exact .inr ⟨rfl, _, _, scans_of_step hp hr h, step_of_reads hr⟩
  | false =>
    have hlive : p.stage.isFinal = false := by
      by_contra hfinal
      rw [step_of_isFinal (by simpa using hfinal)] at h
      exact hfinal h
    obtain ⟨name, hs⟩ := Stage.exists_eq_fieldName hlive hr
    refine .inl ⟨name, hs, ?_⟩
    rw [step_of_not_reads hr, hs]
    rfl

theorem reads_of_rejected (hlive : p.stage.isFinal = false) {violation : Violation} {offset : Nat}
    (h : p.step.stage = .rejected violation offset) : p.stage.reads := by
  by_contra hr
  rw [Bool.not_eq_true] at hr
  obtain ⟨name, hs⟩ := Stage.exists_eq_fieldName hlive hr
  rw [step_of_not_reads hr, hs] at h
  cases h

theorem inOrder_step (hp : p.InOrder) (h : p.step.stage.isFinal = false) : p.step.InOrder := by
  obtain ⟨name, -, heq⟩ | ⟨-, t, c, hscan, heq⟩ := step_cases hp h
  · rw [heq]
    exact hp
  · rw [InOrder, heq, cursor_take]
    exact Cursor.lineStart_le_of_scans hscan hp

theorem reaches_step (hp : p.InOrder) : p.cursor.Reaches p.step.cursor := by
  cases hr : p.stage.reads with
  | true =>
    rw [cursor_step_of_reads hr]
    exact Cursor.reaches_next hp
  | false =>
    rw [cursor_step_of_not_reads hr]
    exact .refl _

theorem reaches_run (hp : p.InOrder) : p.cursor.Reaches p.run.cursor := by
  induction p using run_induction with
  | final p hfinal =>
    rw [run_of_isFinal hfinal]
    exact .refl _
  | step p _ ih =>
    have hstep := reaches_step hp
    rw [← run_step]
    by_cases hfinal : p.step.stage.isFinal
    · rw [run_of_isFinal hfinal]
      exact hstep
    · exact hstep.trans (ih (inOrder_step hp (by simpa using hfinal)))

end Parse

end HttpHead
