import HttpHead.Proofs.Rejection

/-! A cursor on its way through inputs. Tokens may be read, a request begun, and another input
taken up, in any order and after any failure: the cursor stays inside its input and behind the start
of its line (`sound_walk`), what it reads stands where the token says (`reads_next`), and where it
has come to the end of the input or to a broken rule it stays (`next_next`). -/
namespace HttpHead

def Token.stop (t : Token) : Nat := t.offset + t.text.length

namespace Cursor

variable {c d e : Cursor}

def tokens : Nat → Cursor → List Token × Cursor
  | 0, c => ([], c)
  | n + 1, c => (c.next.1 :: (tokens n c.next.2).1, (tokens n c.next.2).2)

def Onward (c d : Cursor) : Prop :=
  d.limits = c.limits ∧ (c.lineStart ≤ c.position → d.lineStart ≤ d.position)

/-- A token and the cursor behind it, which reads the token again if it does not let a parse go
on. -/
def Orderly (c : Cursor) (out : Token × Cursor) : Prop :=
  c.Onward out.2 ∧ (out.1.kind.goesOn ∨ out.2.next = out)

theorem Onward.trans (h : c.Onward d) (h' : d.Onward e) : c.Onward e :=
  ⟨h'.1.trans h.1, fun hc => h'.2 (h.2 hc)⟩

theorem onward_ahead (c : Cursor) (n : Nat) (mode : Mode) (rest : Octets) :
    c.Onward { c with mode, position := c.position + n, rest } :=
  ⟨rfl, Nat.le_add_right_of_le⟩

theorem onward_skip (h : c.Onward d) (n : Nat) : c.Onward (d.skip n) :=
  h.trans (onward_ahead d n d.mode _)

theorem orderly_fail (h : c.Onward d) (violation : Violation) (offset : Nat) :
    c.Orderly (d.fail violation offset) :=
  ⟨h.trans (onward_ahead d 0 _ _), .inr rfl⟩

theorem orderly_atEnd (h : c.Onward d) (hagain : d.next = d.atEnd) : c.Orderly d.atEnd :=
  ⟨h, .inr hagain⟩

theorem orderly_pass (h : c.Onward d) {kind : TokenKind} (hgo : kind.goesOn) (text : Octets)
    (gap : Nat) (mode : Mode) : c.Orderly (d.pass kind text gap mode) :=
  ⟨h.trans (onward_ahead d _ _ _), .inl hgo⟩

theorem orderly_nextMethod (hm : c.mode = .method) : c.Orderly c.nextMethod := by
  have hd : c.Onward c.skipEmptyLines := ⟨rfl, fun _ => Nat.le_refl _⟩
  have hagain : c.skipEmptyLines.next = c.nextMethod := by rw [next_skipEmptyLines hm, next, hm]
  rw [nextMethod_eq] at hagain ⊢
  generalize c.skipEmptyLines = d at hd hagain
  simp only at hagain ⊢
  split
  · rename_i hnil
    rw [if_pos hnil] at hagain
    exact orderly_atEnd hd hagain
  split
  · exact orderly_fail (onward_skip hd _) _ _
  split
  · split
    · exact orderly_fail (onward_skip hd _) _ _
    · exact orderly_pass hd rfl _ _ _
  split
  all_goals exact orderly_fail (onward_skip hd _) _ _

theorem orderly_nextTarget (c : Cursor) : c.Orderly c.nextTarget := by
  have hafter : c.Onward (c.skip (c.run (c.limits.target + 1) Octet.isTarget).length) :=
    onward_ahead c _ c.mode _
  rw [nextTarget_eq]
  simp only
  split
  · exact orderly_fail hafter _ _
  split
  · split
    · exact orderly_fail hafter _ _
    · exact orderly_pass (onward_ahead c 0 c.mode c.rest) rfl _ _ _
  split_ifs
  all_goals exact orderly_fail hafter _ _

theorem orderly_nextVersion (c : Cursor) : c.Orderly c.nextVersion := by
  rw [nextVersion]
  split
  · exact orderly_pass (onward_ahead c 0 c.mode c.rest) rfl _ _ _
  · exact orderly_fail (onward_ahead c _ c.mode _) _ _

theorem orderly_nextLineEnd (hm : c.mode = .requestLineEnd ∨ c.mode = .fieldLineEnd) :
    c.Orderly c.nextLineEnd := by
  have hc := onward_ahead c 0 c.mode c.rest
  have hagain : c.next = c.nextLineEnd := by
    rcases hm with hm | hm
    all_goals rw [next, hm]
  rw [nextLineEnd_eq] at hagain ⊢
  split
  · rename_i hnil
    rw [if_pos hnil] at hagain
    exact orderly_atEnd hc hagain
  split
  · exact orderly_pass hc rfl _ _ _
  · exact orderly_fail hc _ _

theorem orderly_failName (h : c.Onward d) : c.Orderly d.failName := by
  rw [failName_eq]
  split_ifs
  all_goals exact orderly_fail h _ _

theorem orderly_nextFieldName (hm : c.mode = .fieldName) : c.Orderly c.nextFieldName := by
  -- All but the start of the line is as before, and to scan from there again changes nothing.
  obtain ⟨d, hd⟩ : ∃ d : Cursor, d = { c with lineStart := c.position } := ⟨_, rfl⟩
  have honward : c.Onward d := by
    rw [hd]
    exact ⟨rfl, fun _ => Nat.le_refl _⟩
  have hagain : d.next = c.nextFieldName := by
    have hmode : d.mode = .fieldName := by rw [hd, hm]
    rw [next, hmode, nextFieldName_eq, nextFieldName_eq, hd]
  rw [nextFieldName_eq, ← hd] at hagain ⊢
  simp only at hagain ⊢
  split
  · rename_i hnil
    rw [if_pos hnil] at hagain
    exact orderly_atEnd honward hagain
  split
  · exact orderly_pass honward rfl _ _ _
  split
  · exact orderly_fail honward _ _
  split
  · exact orderly_fail honward _ _
  split
  · exact orderly_fail (onward_skip honward _) _ _
  split
  · split
    · exact orderly_fail (onward_skip honward _) _ _
    · exact orderly_pass honward rfl _ _ _
  · exact orderly_failName (onward_skip honward _)

theorem orderly_nextFieldValue (c : Cursor) : c.Orderly c.nextFieldValue := by
  have hd : c.Onward (c.skip (c.rest.takeWhile Octet.isBlank).length) := onward_ahead c _ c.mode _
  rw [nextFieldValue_eq]
  generalize c.skip (c.rest.takeWhile Octet.isBlank).length = d at hd
  simp only
  split
  · exact orderly_fail (onward_skip hd _) _ _
  split
  · exact orderly_pass hd rfl _ _ _
  · exact orderly_fail (onward_skip hd _) _ _

theorem orderly_next (c : Cursor) : c.Orderly c.next := by
  have hc := onward_ahead c 0 c.mode c.rest
  rw [next]
  cases hm : c.mode with
  | method => exact orderly_nextMethod hm
  | target => exact orderly_nextTarget c
  | version => exact orderly_nextVersion c
  | requestLineEnd => exact orderly_nextLineEnd (.inl hm)
  | fieldName => exact orderly_nextFieldName hm
  | fieldValue => exact orderly_nextFieldValue c
  | fieldLineEnd => exact orderly_nextLineEnd (.inr hm)
  | finished => exact orderly_atEnd hc (by rw [next, hm])
  | failed violation offset => exact orderly_fail hc violation offset

/-- A cursor that has come to the end of the input, or to a broken rule, stays there. -/
theorem next_next (h : ¬c.next.1.kind.goesOn) : c.next.2.next = c.next :=
  (orderly_next c).2.resolve_left h

theorem tokens_next (h : ¬c.next.1.kind.goesOn) (n : Nat) :
    c.next.2.tokens n = (List.replicate n c.next.1, c.next.2) := by
  have hagain := next_next h
  induction n with
  | zero => rfl
  | succ n ih => rw [tokens, hagain, ih, List.replicate_succ]

theorem exists_split_of_scans {t : Token} (h : c.Scans t d) :
    ∃ before after : Octets, c.rest = before ++ (t.text ++ (after ++ d.rest)) ∧
      t.offset = c.position + before.length ∧ d.position = t.stop + after.length := by
  cases h with
  | method n text rest mode input nonempty token fits =>
    refine ⟨Octets.emptyLines n, [Octet.sp], input, ?_, rfl⟩
    rw [length_emptyLines]
  | target text rest mode input nonempty visible fits =>
    exact ⟨[], [Octet.sp], input, rfl, rfl⟩
  | version text rest mode input version stops => exact ⟨[], [], input, rfl, rfl⟩
  | lineEnd rest mode input => exact ⟨[], [], input, rfl, rfl⟩
  | fieldName text rest mode input nonempty token fits =>
    exact ⟨[], [Octet.colon], input, rfl, rfl⟩
  | headEnd rest mode input => exact ⟨[], [], input, rfl, rfl⟩
  | fieldValue text rest mode input field stops fits =>
    obtain ⟨after, -, hafter⟩ := Octets.exists_eq_trimEnd_append (text.dropWhile Octet.isBlank)
    have htext : text = text.takeWhile Octet.isBlank ++ (text.trim ++ after) := by
      rw [Octets.trim, Octets.trimStart, ← hafter, List.takeWhile_append_dropWhile]
    refine ⟨text.takeWhile Octet.isBlank, after, ?_, rfl, ?_⟩
    · rw [← List.append_assoc text.trim, ← List.append_assoc, ← htext]
      exact input
    · have hlength := congrArg List.length htext
      simp only [List.length_append] at hlength
      simp only [Token.stop]
      omega

end Cursor

inductive Move where
  | next
  | beginRequest
  | rebind (input : Octets)

structure Place where
  input : Octets
  cursor : Cursor

namespace Place

def start (limits : Limits) (input : Octets) : Place := ⟨input, .start limits input⟩

def move (place : Place) : Move → Place
  | .next => { place with cursor := place.cursor.next.2 }
  | .beginRequest => { place with cursor := place.cursor.beginRequest }
  | .rebind input => ⟨input, place.cursor.rebind input⟩

def walk (place : Place) (moves : List Move) : Place := moves.foldl move place

/-- The cursor is inside its input and not in front of the start of its line, and a broken rule that
it has stopped at is not ahead of it. -/
structure Sound (place : Place) : Prop where
  lineStart_le : place.cursor.lineStart ≤ place.cursor.position
  position_le : place.cursor.position ≤ place.input.length
  rest_eq : place.cursor.rest = place.input.drop place.cursor.position
  failed_le : ∀ violation offset, place.cursor.mode = .failed violation offset →
    offset ≤ place.cursor.position ∧ (violation = .unexpectedEnd → offset = place.input.length)

/-- A token that is read, and the cursor behind it. The text is what stands in the input from the
offset on. -/
structure Reads (place : Place) (t : Token) (d : Cursor) : Prop where
  position_le : place.cursor.position ≤ d.position
  stop_le : t.stop ≤ d.position
  text_prefix : t.text <+: place.input.drop t.offset
  ahead : (∀ violation, t.kind ≠ .invalid violation) → place.cursor.position ≤ t.offset
  unexpectedEnd : t.kind = .invalid .unexpectedEnd → t.offset = place.input.length
  endOfInput : t.kind = .endOfInput →
    t.offset = place.input.length ∨ place.cursor.mode = .finished

variable {place : Place}

theorem sound_start (limits : Limits) (input : Octets) : (start limits input).Sound where
  lineStart_le := Nat.le_refl _
  position_le := Nat.zero_le _
  rest_eq := rfl
  failed_le := nofun

theorem Sound.of_reaches {d : Cursor} (h : place.Sound) (hreach : place.cursor.Reaches d) :
    d.position ≤ place.input.length ∧ d.rest = place.input.drop d.position := by
  obtain ⟨n, hn, hposition, hrest⟩ := hreach
  have hle := h.position_le
  rw [h.rest_eq, List.length_drop] at hn
  refine ⟨by omega, ?_⟩
  rw [hrest, h.rest_eq, List.drop_drop, hposition]

theorem Sound.position_eq_of_spent {d : Cursor} (h : place.Sound) (hreach : place.cursor.Reaches d)
    (hnil : d.rest = []) : d.position = place.input.length := by
  obtain ⟨hle, hrest⟩ := h.of_reaches hreach
  rw [hrest, List.drop_eq_nil_iff] at hnil
  omega

theorem reads_next (h : place.Sound) : place.Reads place.cursor.next.1 place.cursor.next.2 := by
  have hreach := Cursor.reaches_next h.lineStart_le
  -- The scan goes on, or had stopped before, or stops here.
  by_cases hgo : place.cursor.next.1.kind.goesOn
  · obtain ⟨before, after, hrest, hoffset, hposition⟩ :=
      Cursor.exists_split_of_scans (Cursor.scans_next h.lineStart_le hgo)
    refine ⟨hreach.position_le, by omega, ?_, fun _ => by omega, ?_, ?_⟩
    · rw [hoffset, ← List.drop_drop, ← h.rest_eq, hrest, List.drop_left]
      exact List.prefix_append _ _
    all_goals
      intro hk
      rw [hk] at hgo
      cases hgo
  by_cases hfailed : ∃ violation offset, place.cursor.mode = .failed violation offset
  · obtain ⟨violation, offset, hmode⟩ := hfailed
    obtain ⟨hle, hend⟩ := h.failed_le violation offset hmode
    have hnext : place.cursor.next = place.cursor.fail violation offset := by
      rw [Cursor.next, hmode]
    rw [hnext]
    refine ⟨Nat.le_refl _, hle, List.nil_prefix, ?_, ?_, by simp [Cursor.fail]⟩
    · intro hk
      exact absurd rfl (hk violation)
    · intro hk
      exact hend (TokenKind.invalid.inj hk)
  · have hlive (violation : Violation) (offset : Nat) :
        place.cursor.mode ≠ .failed violation offset := fun heq => hfailed ⟨_, _, heq⟩
    have hhalts := Cursor.halts_next h.lineStart_le hlive hgo
    generalize place.cursor.next.1 = t, place.cursor.next.2 = d at hreach hhalts
    cases hhalts with
    | ended _ reaches spent =>
      refine ⟨hreach.position_le, Nat.le_refl _, List.nil_prefix, fun _ => hreach.position_le,
        by simp, fun _ => spent.imp_left (h.position_eq_of_spent reaches)⟩
    | broken d violation offset reaches lexical low high unexpected =>
      refine ⟨hreach.position_le, high, List.nil_prefix, ?_, ?_, by simp⟩
      · intro hk
        exact absurd rfl (hk violation)
      · intro hk
        obtain ⟨hnil, hoffset⟩ := unexpected (TokenKind.invalid.inj hk)
        exact hoffset.trans (h.position_eq_of_spent reaches hnil)

theorem sound_move (h : place.Sound) (move : Move) : (place.move move).Sound := by
  cases move with
  | next =>
    have hreads := reads_next h
    obtain ⟨hle, hrest⟩ := h.of_reaches (Cursor.reaches_next h.lineStart_le)
    refine ⟨(Cursor.orderly_next _).1.2 h.lineStart_le, hle, hrest, ?_⟩
    intro violation offset hmode
    by_cases hgo : place.cursor.next.1.kind.goesOn
    · exact absurd hmode
        (Cursor.mode_ne_failed_of_scans (Cursor.scans_next h.lineStart_le hgo) violation offset)
    · change place.cursor.next.2.mode = .failed violation offset at hmode
      have htoken : place.cursor.next.1 = ⟨.invalid violation, offset, []⟩ := by
        rw [← Cursor.next_next hgo, Cursor.next, hmode]
        rfl
      have hstop := hreads.stop_le
      have hend := hreads.unexpectedEnd
      rw [htoken] at hstop hend
      exact ⟨hstop, fun heq => hend (congrArg _ heq)⟩
  | beginRequest =>
    refine ⟨Nat.le_refl _, h.position_le, h.rest_eq, ?_⟩
    intro violation offset hmode
    cases hmode
  | rebind input => exact sound_start place.cursor.limits input

theorem sound_walk (h : place.Sound) (moves : List Move) : (place.walk moves).Sound := by
  induction moves generalizing place with
  | nil => exact h
  | cons move moves ih => exact ih (sound_move h move)

theorem limits_move (place : Place) (move : Move) :
    (place.move move).cursor.limits = place.cursor.limits := by
  cases move with
  | next => exact (Cursor.orderly_next _).1.1
  | beginRequest => rfl
  | rebind input => rfl

theorem limits_walk (place : Place) (moves : List Move) :
    (place.walk moves).cursor.limits = place.cursor.limits := by
  induction moves generalizing place with
  | nil => rfl
  | cons move moves ih => exact (ih _).trans (limits_move place move)

end Place

end HttpHead
