import HttpHead.Proofs.Lockstep
import HttpHead.Proofs.Strictness
import HttpHead.Proofs.Walk

/-! Violations are placed inside the input. A parse places one at a token that it has read, so not
behind the octets that there are; an end that comes too early is placed behind the last of them
(`Inside.rejected_run`). -/
namespace HttpHead

theorem Summary.ne_unexpectedEnd_of_note {summary : Summary} {strict : Bool} {field : Field}
    {violation : Violation} (h : summary.note strict field = .error violation) :
    violation ≠ .unexpectedEnd := by
  unfold note noteLength noteHost at h
  grind

namespace Parse

variable {p : Parse} {t : Token} {input : Octets} {violation : Violation} {offset : Nat}

theorem ne_unexpectedEnd_of_takeField {name : Token}
    (h : (p.takeField name t).stage = .rejected violation offset) :
    violation ≠ .unexpectedEnd := by
  unfold takeField at h
  split at h
  · cases h
    exact nofun
  simp only at h
  split at h
  · rename_i hnote
    cases h
    exact Summary.ne_unexpectedEnd_of_note hnote
  · cases h

theorem unexpectedEnd_of_take (h : (p.take t).stage = .rejected .unexpectedEnd offset) :
    offset = t.offset ∧
      (t.kind = .invalid .unexpectedEnd ∨ t.kind = .endOfInput ∧ p.stage ≠ .fieldsDone) := by
  have hfieldName (h : (p.takeFieldName t).stage = .rejected .unexpectedEnd offset) : False := by
    unfold takeFieldName at h
    split at h
    all_goals cases h
  unfold take at h
  split at h
  · rename_i hk
    cases h
    exact ⟨rfl, .inl hk⟩
  · unfold takeMethod at h
    split at h
    · cases h
    simp only at h
    split at h
    all_goals cases h
  · unfold takeTarget at h
    split at h
    all_goals cases h
  · unfold takeVersion at h
    split at h
    all_goals cases h
  · cases h
  · exact absurd h hfieldName
  · exact absurd h hfieldName
  · cases h
  · cases h
  · exact absurd rfl (ne_unexpectedEnd_of_takeField h)
  · cases h
  · unfold close at h
    split at h
    all_goals cases h
  · rename_i hk hd
    cases h
    exact ⟨rfl, .inr ⟨hk, hd⟩⟩
  · cases h

/-- The cursor of a parse is inside the input, the parse keeps step with it, and no violation has
been found yet. -/
structure Inside (input : Octets) (p : Parse) : Prop where
  sound : Place.Sound ⟨input, p.cursor⟩
  lockstep : p.Lockstep
  underway : p.Underway

theorem inside_ofInput (config : Config) (input : Octets) :
    (ofInput config input).Inside input where
  sound := Place.sound_start config.limits input
  lockstep := .of_not_kept (Nat.le_refl _) rfl rfl
  underway := underway_ofInput config input

namespace Inside

theorem step (h : p.Inside input) (hlive : p.step.stage.isFinal = false) :
    p.step.Inside input := by
  refine ⟨?_, lockstep_step h.lockstep, (h.underway.mark_le_step hlive).2⟩
  by_cases hr : p.stage.reads
  · rw [cursor_step_of_reads hr]
    exact Place.sound_move h.sound .next
  · rw [cursor_step_of_not_reads (by simpa using hr)]
    exact h.sound

theorem mode_ne_finished (h : p.Inside input) (hr : p.stage.reads) (hd : p.stage ≠ .fieldsDone) :
    p.cursor.mode ≠ .finished := by
  intro hm
  cases h.lockstep with
  | live inOrder mode name =>
    have hstage := p.stage.of_mode?
    rw [mode, hm] at hstage
    rcases hstage with hstage | hstage
    · exact hd hstage
    · rw [hstage] at hr
      cases hr
  | rejected violation offset stage busy =>
    rw [stage] at hr
    cases hr

theorem rejected_step (h : p.Inside input) (hlive : p.stage.isFinal = false)
    (hs : p.step.stage = .rejected violation offset) :
    offset ≤ input.length ∧ (violation = .unexpectedEnd → offset = input.length) := by
  have hreads := Place.reads_next h.sound
  have hmoved := (Place.sound_move h.sound .next).position_le
  have hstop : p.cursor.next.1.offset ≤ input.length :=
    (Nat.le_add_right _ _).trans (hreads.stop_le.trans hmoved)
  have hplace := (h.underway.rejected_step hlive hs).1.2
  refine ⟨hplace.trans hstop, ?_⟩
  intro heq
  subst heq
  have hr := reads_of_rejected hlive hs
  rw [step_of_reads hr] at hs
  -- The scan has told it, or else the end of the input came too early for the stage.
  obtain ⟨hoffset, hk | ⟨hk, hd⟩⟩ := unexpectedEnd_of_take hs
  · exact hoffset.trans (hreads.unexpectedEnd hk)
  · exact hoffset.trans ((hreads.endOfInput hk).resolve_right (h.mode_ne_finished hr hd))

theorem rejected_run (h : p.Inside input) (hlive : p.stage.isFinal = false)
    (hs : p.run.stage = .rejected violation offset) :
    offset ≤ input.length ∧ (violation = .unexpectedEnd → offset = input.length) := by
  induction p using run_induction with
  | final p hfinal =>
    rw [hfinal] at hlive
    cases hlive
  | step p _ ih =>
    rw [← run_step] at hs
    by_cases hfinal : p.step.stage.isFinal
    · rw [run_of_isFinal hfinal] at hs
      exact h.rejected_step hlive hs
    · rw [Bool.not_eq_true] at hfinal
      exact ih (h.step hfinal) hfinal hs

end Inside

end Parse

namespace Receiver

variable {receiver : Receiver} {input : Octets} {violation : Violation} {offset : Nat}

theorem placed_of_malformed (h : (receiver.parse input).1 = .error (.malformed violation offset)) :
    offset ≤ input.length ∧ (violation = .unexpectedEnd → offset = input.length) := by
  by_cases hroom : receiver.HasRoom
  · exact (Parse.inside_ofInput receiver.config input).rejected_run rfl
      ((parse_eq_malformed_iff hroom).1 h)
  · rw [parse_of_not_hasRoom hroom] at h
    cases h

end Receiver

namespace Place

/-- Wherever moves have led a cursor, it is in its input and behind the start of its line. What it
reads next stands in the input as the token says, not before the cursor unless a rule is broken,
and the cursor behind it has not gone back; behind the end of the input, or a broken rule, it reads
the same again without moving. So a receiver places no violation outside of its input, and an end
that comes too early at the end of the input. -/
theorem inside_of_walk (limits : Limits) (input : Octets) (moves : List Move) :
    let place := (start limits input).walk moves
    let c := place.cursor
    let token := c.next.1
    let behind := c.next.2
    (c.lineStart ≤ c.position ∧ c.position ≤ place.input.length ∧
        c.rest = place.input.drop c.position) ∧
      c.position ≤ behind.position ∧
      (token.offset ≤ token.stop ∧ token.stop ≤ behind.position ∧
        token.text <+: place.input.drop token.offset) ∧
      ((∀ violation, token.kind ≠ .invalid violation) → c.position ≤ token.offset) ∧
      (token.kind = .invalid .unexpectedEnd → token.offset = place.input.length) ∧
      ((token.kind = .endOfInput ∨ ∃ violation, token.kind = .invalid violation) →
        ∀ n, behind.tokens n = (List.replicate n token, behind)) ∧
      ∀ (receiver : Receiver) (violation : Violation) (offset : Nat),
        (receiver.parse input).1 = .error (.malformed violation offset) →
          offset ≤ input.length ∧ (violation = .unexpectedEnd → offset = input.length) := by
  intro place c token behind
  have hsound : place.Sound := sound_walk (sound_start limits input) moves
  have hreads : place.Reads token behind := reads_next hsound
  refine ⟨⟨hsound.lineStart_le, hsound.position_le, hsound.rest_eq⟩, hreads.position_le,
    ⟨Nat.le_add_right _ _, hreads.stop_le, hreads.text_prefix⟩, hreads.ahead, hreads.unexpectedEnd,
    ?stays, fun _ _ _ => Receiver.placed_of_malformed⟩
  case stays =>
    intro hk
    apply Cursor.tokens_next
    obtain hk | ⟨violation, hk⟩ := hk
    all_goals
      change ¬token.kind.goesOn
      rw [hk]
      exact nofun

end Place

end HttpHead
