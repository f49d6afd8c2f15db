import HttpHead.Proofs.Step

/-! Which violations a parse can still come to, and where it places them. A violation stands at the
token that is read, or at the name of its field, so none is placed before a mark that only moves
on (`Underway.mark_le_step`, `rejected_run`). -/
namespace HttpHead

/-- The violations that only a strict parse finds. -/
def Violation.isStrictOnly : Violation → Bool
  | .unknownMethod | .duplicateContentLength | .duplicateHost | .missingHost => true
  | _ => false

theorem Violation.isStrictOnly_eq_false_of_isLexical {violation : Violation}
    (h : violation.isLexical) : violation.isStrictOnly = false := by
  cases violation with
  | unknownMethod => cases h
  | duplicateContentLength => cases h
  | duplicateHost => cases h
  | missingHost => cases h
  | _ => rfl

namespace Cursor

variable {c c' : Cursor} {t : Token}

theorem mode_ne_failed_of_scans (h : c.Scans t c') (violation : Violation) (offset : Nat) :
    c'.mode ≠ .failed violation offset := by
  cases h <;> exact nofun

theorem floor_le_of_scans (h : c.Scans t c') (hc : c.lineStart ≤ c.position) :
    c.floor ≤ t.offset ∧ t.offset ≤ c'.floor := by
  have hfloor := floor_le_position hc
  cases h with
  | fieldName text rest mode input nonempty token fits => exact ⟨hfloor, Nat.le_refl _⟩
  | fieldValue text rest mode input field stops fits =>
    have hblanks : (text.takeWhile Octet.isBlank).length ≤ text.length :=
      (List.takeWhile_prefix _).length_le
    exact ⟨Nat.le_add_right_of_le hfloor, Nat.add_le_add_left hblanks _⟩
  | _ =>
    refine ⟨hfloor.trans ?_, ?_⟩
    all_goals
      simp only [floor, reduceCtorEq, if_false]
      omega

theorem floor_le_of_halts (h : c.Halts t c') (hc : c.lineStart ≤ c.position) :
    c.floor ≤ t.offset := by
  cases h with
  | ended _ reaches spent => exact (floor_le_position hc).trans reaches.position_le
  | broken d violation offset reaches lexical low high unexpected => exact low

theorem floor_le_next (hc : c.lineStart ≤ c.position)
    (hm : ∀ violation offset, c.mode ≠ .failed violation offset) : c.floor ≤ c.next.1.offset := by
  by_cases hgo : c.next.1.kind.goesOn
  · exact (floor_le_of_scans (scans_next hc hgo) hc).1
  · exact floor_le_of_halts (halts_next hc hm hgo) hc

theorem isStrictOnly_eq_false_of_next (hc : c.lineStart ≤ c.position)
    (hm : ∀ violation offset, c.mode ≠ .failed violation offset) {violation : Violation}
    (h : c.next.1.kind = .invalid violation) : violation.isStrictOnly = false := by
  have hhalts := halts_next hc hm (by rw [h]; nofun)
  generalize c.next.1 = t, c.next.2 = d at h hhalts
  cases hhalts with
  | ended _ reaches spent => cases h
  | broken d violation offset reaches lexical low high unexpected =>
    cases h
    exact Violation.isStrictOnly_eq_false_of_isLexical lexical

end Cursor

namespace Summary

theorem isStrictOnly_eq_false_of_note {summary : Summary} {field : Field} {violation : Violation}
    (h : summary.note false field = .error violation) : violation.isStrictOnly = false := by
  unfold note at h
  split at h
  · unfold noteLength at h
    split at h
    · cases h
      rfl
    · cases h
    · split at h
      · cases h
        rfl
      · cases h
  · split at h
    all_goals cases h

end Summary

namespace Parse

variable {p : Parse} {t : Token} {violation : Violation} {offset : Nat}

/-- The place of a violation, and how it comes: the token is none, or what it says is wrong. -/
def Faults (p : Parse) (t : Token) (violation : Violation) (offset : Nat) : Prop :=
  (offset = t.offset ∨ ∃ name, p.stage = .fieldColon name ∧ offset = name.offset) ∧
    (t.kind = .invalid violation ∨ p.config.isStrict ∨ violation.isStrictOnly = false)

theorem faults_at (h : violation.isStrictOnly = false) : p.Faults t violation t.offset :=
  ⟨.inl rfl, .inr (.inr h)⟩

theorem faults_of_takeMethod (h : (p.takeMethod t).stage = .rejected violation offset) :
    p.Faults t violation offset := by
  unfold takeMethod at h
  split at h
  · cases h
    exact faults_at rfl
  simp only at h
  split at h
  · rename_i hstrict
    cases h
    exact ⟨.inl rfl, .inr (.inl (Bool.and_eq_true_iff.1 hstrict).1)⟩
  · cases h

theorem faults_of_takeTarget (h : (p.takeTarget t).stage = .rejected violation offset) :
    p.Faults t violation offset := by
  unfold takeTarget at h
  split at h
  · cases h
    exact faults_at rfl
  · cases h

theorem faults_of_takeVersion (h : (p.takeVersion t).stage = .rejected violation offset) :
    p.Faults t violation offset := by
  unfold takeVersion at h
  split at h
  · cases h
    exact faults_at rfl
  · cases h

theorem faults_of_takeFieldName (h : (p.takeFieldName t).stage = .rejected violation offset) :
    p.Faults t violation offset := by
  unfold takeFieldName at h
  split at h
  · cases h
    exact faults_at rfl
  · cases h

theorem faults_of_takeField {name : Token} (hs : p.stage = .fieldColon name)
    (h : (p.takeField name t).stage = .rejected violation offset) :
    p.Faults t violation offset := by
  have hplace (v : Violation) : fieldOffset name t v = t.offset ∨
      ∃ name', p.stage = .fieldColon name' ∧ fieldOffset name t v = name'.offset := by
    cases v with
    | duplicateHost => exact .inr ⟨name, hs, rfl⟩
    | _ => exact .inl rfl
  unfold takeField at h
  split at h
  · cases h
    exact ⟨.inr ⟨name, hs, rfl⟩, .inr (.inr rfl)⟩
  simp only at h
  split at h
  · rename_i hnote
    cases h
    refine ⟨hplace violation, .inr ?_⟩
    cases hstrict : p.config.isStrict with
    | true => exact .inl rfl
    | false => exact .inr (Summary.isStrictOnly_eq_false_of_note (hstrict ▸ hnote))
  · cases h

theorem faults_of_close (h : (p.close t).stage = .rejected violation offset) :
    p.Faults t violation offset := by
  unfold close at h
  split at h
  · rename_i hmissing
    cases h
    simp only [Bool.and_eq_true] at hmissing
    exact ⟨.inl rfl, .inr (.inl hmissing.1.1)⟩
  · cases h

theorem faults_of_take (h : (p.take t).stage = .rejected violation offset) :
    p.Faults t violation offset := by
  unfold take at h
  split at h <;> rename_i hs hk
  · cases h
    exact ⟨.inl rfl, .inl hk⟩
  · exact faults_of_takeMethod h
  · exact faults_of_takeTarget h
  · exact faults_of_takeVersion h
  · cases h
  · exact faults_of_takeFieldName h
  · exact faults_of_takeFieldName h
  · cases h
  · cases h
  · exact faults_of_takeField hs h
  · cases h
  · exact faults_of_close h
  · cases h
    exact faults_at rfl
  · cases h
    exact faults_at rfl

/-- No violation is placed before this offset any more. -/
def mark (p : Parse) : Nat := (p.stage.kept?.map (·.offset)).getD p.cursor.floor

theorem mark_take (p : Parse) (t : Token) :
    (p.take t).mark = p.cursor.floor ∨ (p.take t).mark = t.offset := by
  obtain ⟨stage, summary, request, htake, hkept⟩ := take_frame p t
  rw [htake, mark]
  obtain hkept | ⟨-, hkept⟩ := hkept
  · rw [hkept]
    exact .inl rfl
  · rw [hkept]
    exact .inr rfl

structure Underway (p : Parse) : Prop where
  inOrder : p.InOrder
  unfailed : ∀ violation offset, p.cursor.mode ≠ .failed violation offset
  mark_le : p.mark ≤ p.cursor.floor

theorem underway_ofInput (config : Config) (input : Octets) : (ofInput config input).Underway where
  inOrder := Nat.le_refl _
  unfailed _ _ := nofun
  mark_le := Nat.le_refl _

theorem underway_take {c : Cursor} (hp : p.InOrder) (h : p.cursor.Scans t c) :
    let q := ({ p with cursor := c } : Parse).take t
    t.offset ≤ q.mark ∧ q.Underway := by
  intro q
  have hcursor : q.cursor = c := cursor_take ..
  have hoffset := (Cursor.floor_le_of_scans h hp).2
  have hmark : t.offset ≤ q.mark ∧ q.mark ≤ c.floor := by
    obtain hmark | hmark := mark_take { p with cursor := c } t
    · rw [hmark]
      exact ⟨hoffset, Nat.le_refl _⟩
    · rw [hmark]
      exact ⟨Nat.le_refl _, hoffset⟩
  refine ⟨hmark.1, ?_, ?_, ?_⟩
  · rw [InOrder, hcursor]
    exact Cursor.lineStart_le_of_scans h hp
  · rw [hcursor]
    exact Cursor.mode_ne_failed_of_scans h
  · rw [hcursor]
    exact hmark.2

namespace Underway

theorem mark_le_step (hp : p.Underway) (h : p.step.stage.isFinal = false) :
    p.mark ≤ p.step.mark ∧ p.step.Underway := by
  obtain ⟨name, hs, hstep⟩ | ⟨-, t, c, hscan, hstep⟩ := step_cases hp.inOrder h
  · have hmark : p.step.mark = p.mark := by
      rw [hstep, mark, mark, hs]
      rfl
    refine ⟨hmark.ge, inOrder_step hp.inOrder h, ?_, ?_⟩
    · rw [hstep]
      exact hp.unfailed
    · rw [hmark, hstep]
      exact hp.mark_le
  · have hoffset := (Cursor.floor_le_of_scans hscan hp.inOrder).1
    obtain ⟨hmark, hunderway⟩ := underway_take hp.inOrder hscan
    rw [hstep]
    exact ⟨(hp.mark_le.trans hoffset).trans hmark, hunderway⟩

theorem next_le_mark_step (hp : p.Underway) (hr : p.stage.reads)
    (h : p.step.stage.isFinal = false) : p.cursor.next.1.offset ≤ p.step.mark := by
  rw [step_of_reads hr]
  exact (underway_take hp.inOrder (scans_of_step hp.inOrder hr h)).1

/-- A step places a violation behind the mark and in front of the token; it is one of a strict
parse only if the parse is strict. -/
theorem rejected_step (hp : p.Underway) (hlive : p.stage.isFinal = false) {violation : Violation}
    {offset : Nat} (h : p.step.stage = .rejected violation offset) :
    (p.mark ≤ offset ∧ offset ≤ p.cursor.next.1.offset) ∧
      (p.config.isStrict ∨ violation.isStrictOnly = false) := by
  rw [step_of_reads (reads_of_rejected hlive h)] at h
  obtain ⟨hplace, hground⟩ := faults_of_take h
  have hnext := Cursor.floor_le_next hp.inOrder hp.unfailed
  have hmark := hp.mark_le
  constructor
  · obtain rfl | ⟨name, hs, rfl⟩ := hplace
    · exact ⟨hmark.trans hnext, Nat.le_refl _⟩
    · have hname : p.mark = name.offset := by
        have hs' : p.stage = .fieldColon name := hs
        rw [mark, hs']
        rfl
      omega
  · obtain hk | hground := hground
    · exact .inr (Cursor.isStrictOnly_eq_false_of_next hp.inOrder hp.unfailed hk)
    · exact hground

theorem rejected_run (hp : p.Underway) (hlive : p.stage.isFinal = false) {violation : Violation}
    {offset : Nat} (h : p.run.stage = .rejected violation offset) :
    p.mark ≤ offset ∧ (p.config.isStrict ∨ violation.isStrictOnly = false) := by
  induction p using run_induction with
  | final p hfinal => rw [hfinal] at hlive; cases hlive
  | step p _ ih =>
    rw [← run_step] at h
    by_cases hfinal : p.step.stage.isFinal
    · rw [run_of_isFinal hfinal] at h
      obtain ⟨⟨hmark, -⟩, hground⟩ := hp.rejected_step hlive h
      exact ⟨hmark, hground⟩
    · rw [Bool.not_eq_true] at hfinal
      obtain ⟨hmark, hstep⟩ := hp.mark_le_step hfinal
      obtain ⟨hle, hground⟩ := ih hstep hfinal h
      rw [config_step] at hground
      exact ⟨hmark.trans hle, hground⟩

end Underway

end Parse

end HttpHead
