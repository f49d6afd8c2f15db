import HttpHead.Proofs.Scan

/-! The tokens that end a parse, the counterpart of `Cursor.Scans`: the input is over, or a rule
is broken. A cursor only goes forward, and what it finds broken is not in front of the place where
it looks; only a line that is too long is told by its start. -/
namespace HttpHead

/-- The violations that show in the octets alone. The others are found in what the octets say, or
in the order of the tokens. -/
def Violation.isLexical : Violation → Bool
  | .missingColon | .headerTooLarge | .invalidLineEnd | .invalidVersion | .emptyTarget
  | .invalidTarget | .methodTooLarge | .targetTooLarge | .delimiterInToken | .nonVisibleInToken
  | .emptyToken | .invalidFieldValue | .invalidOctetInMethod | .invalidOctetInTarget
  | .obsoleteFolding | .blankBeforeColon | .unexpectedEnd => true
  | _ => false

namespace Cursor

def Reaches (c d : Cursor) : Prop :=
  ∃ n ≤ c.rest.length, d.position = c.position + n ∧ d.rest = c.rest.drop n

/-- No violation is placed before this offset. -/
def floor (c : Cursor) : Nat := if c.mode = .fieldValue then c.lineStart else c.position

/-- From the first cursor no token can be read that lets a parse go on. -/
inductive Halts (c : Cursor) : Token → Cursor → Prop where
  | ended (d : Cursor) (reaches : c.Reaches d) (spent : d.rest = [] ∨ c.mode = .finished) :
      Halts c ⟨.endOfInput, d.position, []⟩ d
  | broken (d : Cursor) (violation : Violation) (offset : Nat) (reaches : c.Reaches d)
      (lexical : violation.isLexical) (low : c.floor ≤ offset) (high : offset ≤ d.position)
      (unexpected : violation = .unexpectedEnd → d.rest = [] ∧ offset = d.position) :
      Halts c ⟨.invalid violation, offset, []⟩ { d with mode := .failed violation offset }

variable {c d e : Cursor}

theorem Reaches.refl (c : Cursor) : c.Reaches c := ⟨0, Nat.zero_le _, rfl, rfl⟩

theorem Reaches.trans (h : c.Reaches d) (h' : d.Reaches e) : c.Reaches e := by
  obtain ⟨m, hm, hposition, hrest⟩ := h
  obtain ⟨n, hn, hposition', hrest'⟩ := h'
  rw [hrest, List.length_drop] at hn
  refine ⟨m + n, by omega, ?_, ?_⟩
  · rw [hposition', hposition, Nat.add_assoc]
  · rw [hrest', hrest, List.drop_drop]

theorem Reaches.position_le (h : c.Reaches d) : c.position ≤ d.position := by
  obtain ⟨n, -, hposition, -⟩ := h
  omega

theorem Reaches.mem_rest {b : UInt8} (h : c.Reaches d) (hb : b ∈ d.rest) : b ∈ c.rest := by
  obtain ⟨n, -, -, hrest⟩ := h
  rw [hrest] at hb
  exact List.mem_of_mem_drop hb

theorem reaches_skip {n : Nat} (h : n ≤ c.rest.length) : c.Reaches (c.skip n) := ⟨n, h, rfl, rfl⟩

theorem reaches_skip_run (c : Cursor) (bound : Nat) (p : UInt8 → Bool) :
    c.Reaches (c.skip (c.run bound p).length) :=
  reaches_skip (length_run_le c bound p)

theorem reaches_skipEmptyLines (c : Cursor) : c.Reaches c.skipEmptyLines := by
  have hlength := congrArg List.length (eq_emptyLines_append c.rest)
  rw [List.length_append, length_emptyLines] at hlength
  exact ⟨2 * emptyLines c.rest, by omega, rfl, rfl⟩

theorem reaches_of_append (text : Octets) {rest : Octets} (h : c.rest = text ++ rest)
    (hposition : d.position = c.position + text.length) (hrest : d.rest = rest) : c.Reaches d :=
  ⟨text.length, by rw [h, List.length_append]; omega, hposition, by rw [hrest, h, List.drop_left]⟩

theorem reaches_of_scans {t : Token} (h : c.Scans t d) : c.Reaches d := by
  cases h with
  | method n text rest mode input nonempty token fits =>
    refine reaches_of_append (Octets.emptyLines n ++ (text ++ [Octet.sp])) ?_ ?_ rfl
    · rw [input]
      simp
    · simp only [List.length_append, length_emptyLines, List.length_singleton]
      omega
  | target text rest mode input nonempty visible fits =>
    refine reaches_of_append (text ++ [Octet.sp]) ?_ ?_ rfl
    · rw [input]
      simp
    · rw [List.length_append, List.length_singleton]
      exact Nat.add_assoc ..
  | version text rest mode input version stops => exact reaches_of_append text input rfl rfl
  | lineEnd rest mode input => exact reaches_of_append Octets.crlf input rfl rfl
  | fieldName text rest mode input nonempty token fits =>
    refine reaches_of_append (text ++ [Octet.colon]) ?_ ?_ rfl
    · rw [input]
      simp
    · rw [List.length_append, List.length_singleton]
      exact Nat.add_assoc ..
  | headEnd rest mode input => exact reaches_of_append Octets.crlf input rfl rfl
  | fieldValue text rest mode input field stops fits => exact reaches_of_append text input rfl rfl

theorem reaches_of_halts {t : Token} (h : c.Halts t d) : c.Reaches d := by
  cases h with
  | ended _ reaches spent => exact reaches
  | broken e violation offset reaches lexical low high unexpected => exact reaches

theorem floor_le_position (hc : c.lineStart ≤ c.position) : c.floor ≤ c.position := by
  unfold floor
  split
  · exact hc
  · exact Nat.le_refl _

theorem floor_of_ne (hm : c.mode ≠ .fieldValue) : c.floor = c.position := if_neg hm

theorem halts_atEnd (h : c.Reaches d) (hspent : d.rest = [] ∨ c.mode = .finished) :
    c.Halts d.atEnd.1 d.atEnd.2 :=
  .ended d h hspent

theorem halts_fail {v : Violation} {offset : Nat} (h : c.Reaches d) (hv : v.isLexical)
    (hend : v ≠ .unexpectedEnd) (hlow : c.floor ≤ offset) (hhigh : offset ≤ d.position) :
    c.Halts (d.fail v offset).1 (d.fail v offset).2 :=
  .broken d v offset h hv hlow hhigh fun heq => absurd heq hend

theorem halts_unexpectedEnd (h : c.Reaches d) (hnil : d.rest = []) (hlow : c.floor ≤ d.position) :
    c.Halts (d.fail .unexpectedEnd d.position).1 (d.fail .unexpectedEnd d.position).2 :=
  .broken d .unexpectedEnd d.position h rfl hlow (Nat.le_refl _) fun _ => ⟨hnil, rfl⟩

theorem halts_nextMethod (hm : c.mode = .method) :
    c.nextMethod.1.kind.goesOn ∨ c.Halts c.nextMethod.1 c.nextMethod.2 := by
  have hd := reaches_skipEmptyLines c
  have hlow : c.floor ≤ c.skipEmptyLines.position := by
    rw [floor_of_ne (by rw [hm]; decide)]
    exact hd.position_le
  rw [nextMethod_eq]
  generalize c.skipEmptyLines = d at hd hlow
  have hrun := reaches_skip_run d (d.limits.method + 1) Octet.isToken
  have hafter := hd.trans hrun
  have hlow' := hlow.trans hrun.position_le
  simp only
  split
  · rename_i hnil
    exact .inr (halts_atEnd hd (.inl hnil))
  split
  · exact .inr (halts_fail hafter rfl (by decide) hlow hrun.position_le)
  split
  · split
    · exact .inr (halts_fail hafter rfl (by decide) hlow hrun.position_le)
    · exact .inl rfl
  split
  · rename_i hnil
    exact .inr (halts_unexpectedEnd hafter hnil hlow')
  · exact .inr (halts_fail hafter rfl (by decide) hlow' (Nat.le_refl _))

theorem halts_nextTarget (hm : c.mode = .target) :
    c.nextTarget.1.kind.goesOn ∨ c.Halts c.nextTarget.1 c.nextTarget.2 := by
  have hlow : c.floor ≤ c.position := (floor_of_ne (by rw [hm]; decide)).le
  have hrun := reaches_skip_run c (c.limits.target + 1) Octet.isTarget
  have hlow' := hlow.trans hrun.position_le
  rw [nextTarget_eq]
  simp only
  split
  · exact .inr (halts_fail hrun rfl (by decide) hlow hrun.position_le)
  split
  · split
    · exact .inr (halts_fail hrun rfl (by decide) hlow hrun.position_le)
    · exact .inl rfl
  split
  · split
    · exact .inr (halts_fail hrun rfl (by decide) hlow hrun.position_le)
    · exact .inr (halts_fail hrun rfl (by decide) hlow' (Nat.le_refl _))
  split
  · rename_i hnil
    exact .inr (halts_unexpectedEnd hrun hnil hlow')
  · exact .inr (halts_fail hrun rfl (by decide) hlow' (Nat.le_refl _))

theorem halts_nextVersion (hm : c.mode = .version) :
    c.nextVersion.1.kind.goesOn ∨ c.Halts c.nextVersion.1 c.nextVersion.2 := by
  have hlow : c.floor ≤ c.position := (floor_of_ne (by rw [hm]; decide)).le
  have hrun := reaches_skip_run c 9 Octet.isVisible
  rw [nextVersion]
  split
  · exact .inl rfl
  · exact .inr (halts_fail hrun rfl (by decide) hlow hrun.position_le)

theorem halts_nextLineEnd (hm : c.mode = .requestLineEnd ∨ c.mode = .fieldLineEnd) :
    c.nextLineEnd.1.kind.goesOn ∨ c.Halts c.nextLineEnd.1 c.nextLineEnd.2 := by
  have hlow : c.floor ≤ c.position := (floor_of_ne (by rcases hm with hm | hm <;> simp [hm])).le
  rw [nextLineEnd_eq]
  split
  · rename_i hnil
    exact .inr (halts_atEnd (.refl c) (.inl hnil))
  split
  · exact .inl rfl
  · exact .inr (halts_fail (.refl c) rfl (by decide) hlow (Nat.le_refl _))

theorem isLexical_tokenViolation {b : UInt8} (htoken : Octet.isToken b = false)
    (hblank : Octet.isBlank b = false) :
    ((Octet.tokenViolation? b).getD .unexpectedToken).isLexical ∧
      (Octet.tokenViolation? b).getD .unexpectedToken ≠ .unexpectedEnd := by
  simp only [Octet.tokenViolation?, htoken, hblank]
  cases Octet.isDelimiter b with
  | false => exact ⟨rfl, by decide⟩
  | true => exact ⟨rfl, by decide⟩

theorem halts_failName (h : c.Reaches d) (hlow : c.floor ≤ d.lineStart)
    (hd : d.lineStart ≤ d.position) (hstops : Stops Octet.isToken d.rest) :
    c.Halts d.failName.1 d.failName.2 := by
  have hlow' := hlow.trans hd
  rw [failName_eq]
  split
  · rename_i hnil
    exact halts_unexpectedEnd h hnil hlow'
  rename_i hne
  split
  · split
    · exact halts_fail h rfl (by decide) hlow' (Nat.le_refl _)
    · exact halts_fail h rfl (by decide) hlow hd
  rename_i hblank
  split
  · exact halts_fail h rfl (by decide) hlow hd
  · obtain ⟨b, tail, hb⟩ := List.exists_cons_of_ne_nil hne
    rw [hb, stops_cons] at hstops
    have hnot : Octet.isBlank b = false := by
      simpa [hb, Octet.isBlank] using hblank
    obtain ⟨hlexical, hend⟩ := isLexical_tokenViolation hstops hnot
    rw [hb]
    exact halts_fail h hlexical hend hlow' (Nat.le_refl _)

theorem halts_nextFieldName (hm : c.mode = .fieldName) :
    c.nextFieldName.1.kind.goesOn ∨ c.Halts c.nextFieldName.1 c.nextFieldName.2 := by
  have hlow : c.floor ≤ c.position := (floor_of_ne (by rw [hm]; decide)).le
  obtain ⟨d, hd⟩ : ∃ d : Cursor, d = { c with lineStart := c.position } := ⟨_, rfl⟩
  have hreach : c.Reaches d := by rw [hd]; exact .refl c
  have hline : d.lineStart = d.position := by rw [hd]
  replace hlow : c.floor ≤ d.position := by rw [hd]; exact hlow
  rw [nextFieldName_eq, ← hd]
  have hrun := reaches_skip_run d (d.limits.fieldLine + 1) Octet.isToken
  have hafter := hreach.trans hrun
  simp only [hline]
  split
  · rename_i hnil
    exact .inr (halts_atEnd hreach (.inl hnil))
  split
  · exact .inl rfl
  split
  · exact .inr (halts_fail hreach rfl (by decide) hlow (Nat.le_refl _))
  split
  · exact .inr (halts_fail hreach rfl (by decide) hlow (Nat.le_refl _))
  split
  · exact .inr (halts_fail hafter rfl (by decide) hlow hrun.position_le)
  rename_i hfits
  split
  · split
    · exact .inr (halts_fail hafter rfl (by decide) hlow hrun.position_le)
    · exact .inl rfl
  · refine .inr (halts_failName hafter ?_ ?_ (stops_behind_run (by omega)))
    · exact hlow.trans hline.ge
    · exact hline.le.trans hrun.position_le

theorem halts_nextFieldValue (hm : c.mode = .fieldValue) (hc : c.lineStart ≤ c.position) :
    c.nextFieldValue.1.kind.goesOn ∨ c.Halts c.nextFieldValue.1 c.nextFieldValue.2 := by
  have hfloor : c.floor = c.lineStart := if_pos hm
  have hblanks : c.Reaches (c.skip (c.rest.takeWhile Octet.isBlank).length) :=
    reaches_skip (List.takeWhile_prefix _).length_le
  have hline : (c.skip (c.rest.takeWhile Octet.isBlank).length).lineStart = c.lineStart := rfl
  rw [nextFieldValue_eq]
  generalize c.skip (c.rest.takeWhile Octet.isBlank).length = d at hblanks hline
  simp only
  generalize d.limits.fieldLine + 1 - (d.position - d.lineStart) = bound
  have hrun := reaches_skip_run d bound Octet.isFieldText
  have hafter := hblanks.trans hrun
  have hlow : c.lineStart ≤ (d.skip (d.run bound Octet.isFieldText).length).position :=
    hc.trans hafter.position_le
  split
  · rw [hline]
    exact .inr (halts_fail hafter rfl (by decide) hfloor.le hlow)
  split
  · exact .inl rfl
  · exact .inr (halts_fail hafter rfl (by decide) (hfloor.le.trans hlow) (Nat.le_refl _))

theorem halts_next (hc : c.lineStart ≤ c.position) (hm : ∀ v offset, c.mode ≠ .failed v offset)
    (h : ¬c.next.1.kind.goesOn) : c.Halts c.next.1 c.next.2 := by
  cases hmode : c.mode with
  | method => rw [next, hmode] at h ⊢; exact (halts_nextMethod hmode).resolve_left h
  | target => rw [next, hmode] at h ⊢; exact (halts_nextTarget hmode).resolve_left h
  | version => rw [next, hmode] at h ⊢; exact (halts_nextVersion hmode).resolve_left h
  | requestLineEnd =>
    rw [next, hmode] at h ⊢
    exact (halts_nextLineEnd (.inl hmode)).resolve_left h
  | fieldName => rw [next, hmode] at h ⊢; exact (halts_nextFieldName hmode).resolve_left h
  | fieldValue => rw [next, hmode] at h ⊢; exact (halts_nextFieldValue hmode hc).resolve_left h
  | fieldLineEnd =>
    rw [next, hmode] at h ⊢
    exact (halts_nextLineEnd (.inr hmode)).resolve_left h
  | finished => rw [next, hmode]; exact halts_atEnd (.refl c) (.inr hmode)
  | failed v offset => exact absurd hmode (hm v offset)

theorem reaches_next (hc : c.lineStart ≤ c.position) : c.Reaches c.next.2 := by
  by_cases hgo : c.next.1.kind.goesOn
  · exact reaches_of_scans (scans_next hc hgo)
  by_cases hm : ∃ v offset, c.mode = .failed v offset
  · obtain ⟨v, offset, hm⟩ := hm
    rw [next, hm]
    exact .refl c
  · have hlive : ∀ v offset, c.mode ≠ .failed v offset := fun v offset heq => hm ⟨v, offset, heq⟩
    exact reaches_of_halts (halts_next hc hlive hgo)

end Cursor

end HttpHead
