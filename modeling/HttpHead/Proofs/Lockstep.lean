import HttpHead.Proofs.Step

/-! A parse and its cursor keep step. The stage of the one tells the mode of the other
(`Stage.mode?`), so no token comes out of order, and what is spelled by a method, a target or a
field name is always a text (`lockstep_step`). -/
namespace HttpHead

/-- The violations that are named but never come up: a token out of order, and a blank in a token,
which a cursor takes for the end of the token. -/
def Violation.isIdle : Violation → Bool
  | .unexpectedToken | .blankInToken => true
  | _ => false

theorem Violation.isIdle_eq_false_of_isLexical {violation : Violation}
    (h : violation.isLexical) : violation.isIdle = false := by
  cases violation <;> simp_all [isLexical, isIdle]

theorem Summary.isIdle_eq_false_of_note {summary : Summary} {strict : Bool} {field : Field}
    {violation : Violation} (h : summary.note strict field = .error violation) :
    violation.isIdle = false := by
  unfold note noteLength noteHost at h
  grind [Violation.isIdle]

namespace Stage

/-- The mode of the cursor when a parse has come to a stage. A rejected parse may have left it in
any mode. -/
def mode? : Stage → Option Mode
  | start => some .method
  | method => some .target
  | target => some .version
  | version => some .requestLineEnd
  | requestLineEnd | fieldLineEnd => some .fieldName
  | fieldName _ | fieldColon _ => some .fieldValue
  | fieldValue => some .fieldLineEnd
  | fieldsDone | accepted => some .finished
  | rejected .. => none

theorem of_mode? (stage : Stage) :
    match stage.mode? with
    | some .method => stage = start
    | some .target => stage = method
    | some .version => stage = target
    | some .requestLineEnd => stage = version
    | some .fieldName => stage = requestLineEnd ∨ stage = fieldLineEnd
    | some .fieldValue => ∃ name, stage = fieldName name ∨ stage = fieldColon name
    | some .fieldLineEnd => stage = fieldValue
    | some .finished => stage = fieldsDone ∨ stage = accepted
    | some (.failed ..) => False
    | none => ∃ violation offset, stage = rejected violation offset := by
  cases stage <;> simp [mode?]

end Stage

def Token.IsText (t : Token) : Prop := ∃ spelled, t.text = Utf8.encode spelled

namespace Cursor

theorem isText_of_scans {c c' : Cursor} {t : Token} (h : c.Scans t c')
    (ht : t.kind ∈ [.method, .target, .fieldName]) : t.IsText := by
  cases h with
  | method n text rest mode input nonempty token fits =>
    obtain ⟨s, hs⟩ := Utf8.exists_encode_eq fun b hb => Octet.lt_of_isToken (token b hb)
    exact ⟨s, hs.symm⟩
  | target text rest mode input nonempty visible fits =>
    obtain ⟨s, hs⟩ := Utf8.exists_encode_eq fun b hb => Octet.lt_of_isVisible (visible b hb)
    exact ⟨s, hs.symm⟩
  | fieldName text rest mode input nonempty token fits =>
    obtain ⟨s, hs⟩ := Utf8.exists_encode_eq fun b hb => Octet.lt_of_isToken (token b hb)
    exact ⟨s, hs.symm⟩
  | _ => simp at ht

theorem isText_next {c : Cursor} (hc : c.lineStart ≤ c.position)
    (h : c.next.1.kind ∈ [.method, .target, .fieldName]) : c.next.1.IsText := by
  have hgo : c.next.1.kind.goesOn := by
    simp only [List.mem_cons, List.not_mem_nil, or_false] at h
    rcases h with h | h | h <;> rw [h] <;> rfl
  exact isText_of_scans (scans_next hc hgo) h

end Cursor

namespace Parse

/-- A parse that is not rejected is at the stage of its cursor's mode, and a name that waits for its
value is a text. A rejected parse has not come to an idle violation. -/
inductive Lockstep (p : Parse) : Prop where
  | live (inOrder : p.InOrder) (mode : p.stage.mode? = some p.cursor.mode)
      (name : ∀ name, p.stage.kept? = some name → name.kind = .fieldName ∧ name.IsText)
  | rejected (violation : Violation) (offset : Nat) (stage : p.stage = .rejected violation offset)
      (busy : violation.isIdle = false)

variable {p : Parse} {t : Token} {c : Cursor}

theorem Lockstep.of_not_kept (hp : p.InOrder) (hm : p.stage.mode? = some p.cursor.mode)
    (hkept : p.stage.kept? = none) : p.Lockstep := by
  refine .live hp hm ?_
  intro name hname
  rw [hkept] at hname
  cases hname

theorem lockstep_takeMethod (hp : p.InOrder) (hm : p.cursor.mode = .target) (ht : t.IsText) :
    (p.takeMethod t).Lockstep := by
  obtain ⟨s, hs⟩ := ht
  simp only [takeMethod, hs, Utf8.decode?_encode]
  split
  · exact .rejected .unknownMethod t.offset rfl rfl
  · exact .of_not_kept hp (by rw [hm]; rfl) rfl

theorem lockstep_takeTarget (hp : p.InOrder) (hm : p.cursor.mode = .version) (ht : t.IsText) :
    (p.takeTarget t).Lockstep := by
  obtain ⟨s, hs⟩ := ht
  simp only [takeTarget, hs, Utf8.decode?_encode]
  exact .of_not_kept hp (by rw [hm]; rfl) rfl

theorem lockstep_takeVersion (hp : p.InOrder) (hm : p.cursor.mode = .requestLineEnd) :
    (p.takeVersion t).Lockstep := by
  unfold takeVersion
  split
  · exact .rejected .invalidVersion t.offset rfl rfl
  · exact .of_not_kept hp (by rw [hm]; rfl) rfl

theorem lockstep_takeFieldName (hp : p.InOrder) (hm : p.cursor.mode = .fieldValue)
    (hk : t.kind = .fieldName) (ht : t.IsText) : (p.takeFieldName t).Lockstep := by
  unfold takeFieldName
  split
  · exact .rejected .tooManyHeaders t.offset rfl rfl
  · refine .live hp (by rw [hm]; rfl) ?_
    intro name hname
    cases hname
    exact ⟨hk, ht⟩

theorem lockstep_takeField {name : Token} (hp : p.InOrder) (hm : p.cursor.mode = .fieldLineEnd)
    (hname : name.IsText) : (p.takeField name t).Lockstep := by
  obtain ⟨s, hs⟩ := hname
  simp only [takeField, hs, Utf8.decode?_encode]
  split
  · rename_i violation hnote
    exact .rejected violation _ rfl (Summary.isIdle_eq_false_of_note hnote)
  · exact .of_not_kept hp (by rw [hm]; rfl) rfl

theorem lockstep_close (hp : p.InOrder) (hm : p.cursor.mode = .finished) :
    (p.close t).Lockstep := by
  unfold close
  split
  · exact .rejected .missingHost t.offset rfl rfl
  · exact .of_not_kept hp (by rw [hm]; rfl) rfl

theorem lockstep_take (hp : p.InOrder) (hm : p.stage.mode? = some p.cursor.mode)
    (hname : ∀ name, p.stage.kept? = some name → name.IsText) (hr : p.stage.reads)
    (h : p.cursor.Scans t c) : (({ p with cursor := c } : Parse).take t).Lockstep := by
  have hc : ({ p with cursor := c } : Parse).InOrder := Cursor.lineStart_le_of_scans h hp
  have hstage := p.stage.of_mode?
  rw [hm] at hstage
  have htext := Cursor.isText_of_scans h
  cases h with
  | method n text rest mode input nonempty token fits =>
    rw [mode] at hstage
    simp only [take, hstage]
    exact lockstep_takeMethod hc rfl (htext (by simp))
  | target text rest mode input nonempty visible fits =>
    rw [mode] at hstage
    simp only [take, hstage]
    exact lockstep_takeTarget hc rfl (htext (by simp))
  | version text rest mode input version stops =>
    rw [mode] at hstage
    simp only [take, hstage]
    exact lockstep_takeVersion hc rfl
  | lineEnd rest mode input =>
    rcases mode with mode | mode
    all_goals
      rw [mode] at hstage
      simp only [take, hstage]
      exact .of_not_kept hc rfl rfl
  | fieldName text rest mode input nonempty token fits =>
    rw [mode] at hstage
    rcases hstage with hstage | hstage
    all_goals
      simp only [take, hstage]
      exact lockstep_takeFieldName hc rfl rfl (htext (by simp))
  | headEnd rest mode input =>
    rw [mode] at hstage
    rcases hstage with hstage | hstage
    all_goals
      simp only [take, hstage]
      exact .of_not_kept hc rfl rfl
  | fieldValue text rest mode input field stops fits =>
    rw [mode] at hstage
    obtain ⟨name, hstage | hstage⟩ := hstage
    · simp [hstage, Stage.reads] at hr
    · simp only [take, hstage]
      exact lockstep_takeField hc rfl (hname name (by rw [hstage]; rfl))

theorem lockstep_take_of_halts (hr : p.stage.reads) (hd : p.stage ≠ .fieldsDone)
    (h : p.cursor.Halts t c) : (({ p with cursor := c } : Parse).take t).Lockstep := by
  cases h with
  | ended _ reaches spent =>
    refine .rejected .unexpectedEnd c.position ?_ rfl
    cases hs : p.stage <;> simp_all [Stage.reads, take, reject]
  | broken d violation offset reaches lexical low high unexpected =>
    refine .rejected violation offset ?_ (Violation.isIdle_eq_false_of_isLexical lexical)
    cases hs : p.stage <;> simp [take, reject]

theorem lockstep_step (h : p.Lockstep) : p.step.Lockstep := by
  by_cases hfinal : p.stage.isFinal
  · rwa [step_of_isFinal hfinal]
  cases h with
  | rejected violation offset stage busy => simp [stage, Stage.isFinal] at hfinal
  | live inOrder mode name =>
    have hunfailed (violation : Violation) (offset : Nat) :
        p.cursor.mode ≠ .failed violation offset := by
      intro hfailed
      have hstage := p.stage.of_mode?
      rw [mode, hfailed] at hstage
      exact hstage
    cases hr : p.stage.reads with
    | true =>
      rw [step_of_reads hr]
      by_cases hgo : p.cursor.next.1.kind.goesOn
      · exact lockstep_take inOrder mode (fun n hn => (name n hn).2) hr
          (Cursor.scans_next inOrder hgo)
      by_cases hd : p.stage = .fieldsDone
      · -- Here alone the end of the input does not come too early.
        have hmode : p.cursor.mode = .finished := by simpa [hd, Stage.mode?] using mode.symm
        simp only [Cursor.next, hmode, Cursor.atEnd, take, hd]
        exact lockstep_close inOrder hmode
      · exact lockstep_take_of_halts hr hd (Cursor.halts_next inOrder hunfailed hgo)
    | false =>
      obtain ⟨token, hs⟩ := Stage.exists_eq_fieldName (by simpa using hfinal) hr
      rw [hs] at mode name
      rw [step_of_not_reads hr, hs]
      exact .live inOrder mode name

theorem lockstep_iterate (h : p.Lockstep) (n : Nat) : (step^[n] p).Lockstep := by
  induction n generalizing p with
  | zero => exact h
  | succ n ih => exact ih (lockstep_step h)

theorem lockstep_run (h : p.Lockstep) : p.run.Lockstep := by
  induction p using run_induction with
  | final p hfinal => rwa [run_of_isFinal hfinal]
  | step p _ ih =>
    rw [← run_step]
    exact ih (lockstep_step h)

theorem Lockstep.busy_of_rejected (h : p.Lockstep) {violation : Violation} {offset : Nat}
    (hs : p.stage = .rejected violation offset) :
    violation ≠ .unexpectedToken ∧ violation ≠ .blankInToken := by
  cases h with
  | live inOrder mode name => simp [hs, Stage.mode?] at mode
  | rejected violation' offset' stage busy =>
    obtain ⟨rfl, -⟩ := Stage.rejected.inj (stage.symm.trans hs)
    cases violation' <;> simp_all [Violation.isIdle]

/-- After any number of steps from the start of an input, a parse that is not rejected is at a
stage of its cursor's mode. What spells a method, a target or a field name is a text, and a
rejection, whenever it comes, is neither for a token out of order nor for a blank in a token. -/
theorem stage_of_mode (config : Config) (limits : Limits) (input : Octets) (request : Request)
    (n : Nat) :
    let start : Parse := { config, cursor := .start limits input, request }
    let p := step^[n] start
    ((∀ violation offset, p.stage ≠ .rejected violation offset) →
        p.stage.mode? = some p.cursor.mode) ∧
      (∀ name, p.stage.kept? = some name →
        name.kind = .fieldName ∧ (Utf8.decode? name.text).isSome) ∧
      (p.stage.reads → p.cursor.next.1.kind ∈ [.method, .target, .fieldName] →
        (Utf8.decode? p.cursor.next.1.text).isSome) ∧
      (∀ violation offset, p.stage = .rejected violation offset →
        violation ≠ .unexpectedToken ∧ violation ≠ .blankInToken) ∧
      ∀ violation offset, start.run.result = .error (.malformed violation offset) →
        violation ≠ .unexpectedToken ∧ violation ≠ .blankInToken := by
  intro start p
  have hread {t : Token} (ht : t.IsText) : (Utf8.decode? t.text).isSome := by
    obtain ⟨spelled, hspelled⟩ := ht
    simp [hspelled]
  have hstart : start.Lockstep := .of_not_kept (Nat.le_refl _) rfl rfl
  have h : p.Lockstep := lockstep_iterate hstart n
  refine ⟨?mode, ?name, ?token, fun v o hs => h.busy_of_rejected hs, ?run⟩
  case mode =>
    intro hlive
    cases h with
    | live inOrder mode name => exact mode
    | rejected violation offset stage busy => exact absurd stage (hlive violation offset)
  case name =>
    intro name hname
    cases h with
    | live inOrder mode kept => exact ⟨(kept name hname).1, hread (kept name hname).2⟩
    | rejected violation offset stage busy => simp [stage, Stage.kept?] at hname
  case token =>
    intro hr hk
    cases h with
    | live inOrder mode name => exact hread (Cursor.isText_next inOrder hk)
    | rejected violation offset stage busy => simp [stage, Stage.reads] at hr
  case run =>
    intro violation offset hresult
    exact (lockstep_run hstart).busy_of_rejected (result_eq_malformed_iff.1 hresult)

end Parse

end HttpHead
