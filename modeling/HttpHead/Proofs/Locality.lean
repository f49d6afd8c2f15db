import HttpHead.Proofs.Step

/-! How far a parse looks. As long as a LF is ahead of its cursor, the next token does not
depend on the octets behind the input: a run of a class stops there at the latest, and what
stands behind the run is told by one or two octets. If an invariant keeps a LF ahead, then no
octets behind the input change the run. -/
namespace HttpHead

namespace Cursor

def extend (more : Octets) (c : Cursor) : Cursor := { c with rest := c.rest ++ more }

/-- A LF is ahead, or no octet is looked at. -/
def Settled (c : Cursor) : Prop :=
  match c.mode with
  | .method => Octet.lf ∈ c.skipEmptyLines.rest
  | .finished | .failed .. => True
  | _ => Octet.lf ∈ c.rest

variable {c : Cursor} {more : Octets} {p : UInt8 → Bool} {bound : Nat}

theorem run_extend (h : Octet.lf ∈ c.rest) (hp : p Octet.lf = false) :
    (c.extend more).run bound p = c.run bound p := by
  rw [run, run, extend, takeWhile_append_of_mem h hp]

theorem skip_extend {n : Nat} (h : n ≤ c.rest.length) :
    (c.extend more).skip n = (c.skip n).extend more := by
  simp only [skip, extend, List.drop_append_of_le_length h]

theorem pass_extend {kind : TokenKind} {text : Octets} {gap : Nat} {mode : Mode}
    (h : text.length + gap ≤ c.rest.length) :
    (c.extend more).pass kind text gap mode =
      ((c.pass kind text gap mode).1, (c.pass kind text gap mode).2.extend more) := by
  simp only [pass, skip_extend h]
  rfl

theorem head?_rest_extend (h : Octet.lf ∈ c.rest) :
    (c.extend more).rest.head? = c.rest.head? := by
  obtain ⟨b, tail, hb⟩ := List.exists_cons_of_ne_nil (List.ne_nil_of_mem h)
  rw [extend, hb]
  rfl

theorem rest_ne_nil_of_lf_mem (more : Octets) (h : Octet.lf ∈ c.rest) :
    c.rest ≠ [] ∧ (c.extend more).rest ≠ [] :=
  ⟨List.ne_nil_of_mem h, List.ne_nil_of_mem (List.mem_append_left more h)⟩

theorem lf_mem_rest_skip_run (bound : Nat) (h : Octet.lf ∈ c.rest) (hp : p Octet.lf = false) :
    Octet.lf ∈ (c.skip (c.run bound p).length).rest := by
  rw [rest_eq_run_append bound p rfl, List.mem_append] at h
  cases h with
  | inl h => exact absurd (of_mem_run h) (by simp [hp])
  | inr h => exact h

theorem length_run_lt (bound : Nat) (h : Octet.lf ∈ c.rest) (hp : p Octet.lf = false) :
    (c.run bound p).length < c.rest.length := by
  have hlength := congrArg List.length (rest_eq_run_append (c := c) bound p rfl)
  have hpos := List.length_pos_of_mem (lf_mem_rest_skip_run bound h hp)
  rw [List.length_append] at hlength
  omega

theorem emptyLines_append_eq_zero {text : Octets} (h : emptyLines text = 0)
    (hlf : Octet.lf ∈ text) : emptyLines (text ++ more) = 0 := by
  obtain ⟨b, tail, rfl⟩ := List.exists_cons_of_ne_nil (List.ne_nil_of_mem hlf)
  by_cases hb : b = Octet.cr
  · subst hb
    have htail : Octet.lf ∈ tail := (List.mem_cons.1 hlf).resolve_left (by decide)
    obtain ⟨b, tail, rfl⟩ := List.exists_cons_of_ne_nil (List.ne_nil_of_mem htail)
    have hne : b ≠ Octet.lf := by
      intro hb
      rw [hb, emptyLines_crlf] at h
      omega
    rw [List.cons_append, List.cons_append, emptyLines.eq_2]
    intro rest hrest
    exact hne (List.cons.inj (List.cons.inj hrest).2).1
  · exact emptyLines_eq_zero hb

theorem skipEmptyLines_extend (h : Octet.lf ∈ c.skipEmptyLines.rest) :
    (c.extend more).skipEmptyLines = c.skipEmptyLines.extend more := by
  have hrest := eq_emptyLines_append c.rest
  have hcount : emptyLines (c.extend more).rest = emptyLines c.rest := by
    rw [extend, hrest, List.append_assoc, emptyLines_append, emptyLines_append,
      emptyLines_append_eq_zero (emptyLines_drop c.rest) h, emptyLines_drop]
  have hlen : 2 * emptyLines c.rest ≤ c.rest.length := by
    have := congrArg List.length hrest
    rw [List.length_append, length_emptyLines] at this
    omega
  simp only [skipEmptyLines, hcount, skip_extend hlen]
  rfl

theorem nextMethod_extend (h : Octet.lf ∈ c.skipEmptyLines.rest) :
    (c.extend more).nextMethod = (c.nextMethod.1, c.nextMethod.2.extend more) := by
  rw [nextMethod_eq, nextMethod_eq, skipEmptyLines_extend h]
  generalize c.skipEmptyLines = d at h
  have hp : Octet.isToken Octet.lf = false := by decide
  have hrun : (d.extend more).run (d.limits.method + 1) Octet.isToken =
      d.run (d.limits.method + 1) Octet.isToken := run_extend h hp
  have hlt := length_run_lt (d.limits.method + 1) h hp
  have hlf := lf_mem_rest_skip_run (d.limits.method + 1) h hp
  obtain ⟨hne, hne'⟩ := rest_ne_nil_of_lf_mem more h
  obtain ⟨hafter, hafter'⟩ := rest_ne_nil_of_lf_mem more hlf
  have hlimits : (d.extend more).limits = d.limits := rfl
  simp only [hlimits, hrun, skip_extend hlt.le, head?_rest_extend hlf, hne, hne', hafter, hafter',
    if_false]
  split
  · rfl
  split
  · split
    · rfl
    · exact pass_extend hlt
  · rfl

theorem nextTarget_extend (h : Octet.lf ∈ c.rest) :
    (c.extend more).nextTarget = (c.nextTarget.1, c.nextTarget.2.extend more) := by
  have hp : Octet.isTarget Octet.lf = false := by decide
  have hrun : (c.extend more).run (c.limits.target + 1) Octet.isTarget =
      c.run (c.limits.target + 1) Octet.isTarget := run_extend h hp
  have hlt := length_run_lt (c.limits.target + 1) h hp
  have hlf := lf_mem_rest_skip_run (c.limits.target + 1) h hp
  obtain ⟨hafter, hafter'⟩ := rest_ne_nil_of_lf_mem more hlf
  have hlimits : (c.extend more).limits = c.limits := rfl
  rw [nextTarget_eq, nextTarget_eq]
  simp only [hlimits, hrun, skip_extend hlt.le, head?_rest_extend hlf, hafter, hafter', if_false]
  split
  · rfl
  split
  · split
    · rfl
    · exact pass_extend hlt
  split
  · split
    all_goals rfl
  · rfl

theorem nextVersion_extend (h : Octet.lf ∈ c.rest) :
    (c.extend more).nextVersion = (c.nextVersion.1, c.nextVersion.2.extend more) := by
  have hp : Octet.isVisible Octet.lf = false := by decide
  have hlt := length_run_lt 9 h hp
  simp only [nextVersion, run_extend h hp, skip_extend hlt.le]
  split
  · exact pass_extend hlt.le
  · rfl

theorem crlf_prefix_append_iff {text : Octets} (h : Octet.lf ∈ text) :
    Octets.crlf <+: text ++ more ↔ Octets.crlf <+: text := by
  constructor
  · intro hprefix
    obtain ⟨b, tail, rfl⟩ := List.exists_cons_of_ne_nil (List.ne_nil_of_mem h)
    obtain ⟨hb, htail⟩ := List.cons_prefix_cons.1 hprefix
    have hmem : Octet.lf ∈ tail := (List.mem_cons.1 h).resolve_left (by rw [← hb]; decide)
    obtain ⟨b, tail, rfl⟩ := List.exists_cons_of_ne_nil (List.ne_nil_of_mem hmem)
    obtain ⟨hlf, -⟩ := List.cons_prefix_cons.1 htail
    rw [← hb, ← hlf]
    exact List.prefix_append _ tail
  · intro hprefix
    exact hprefix.trans (List.prefix_append text more)

theorem nextLineEnd_extend (h : Octet.lf ∈ c.rest) :
    (c.extend more).nextLineEnd = (c.nextLineEnd.1, c.nextLineEnd.2.extend more) := by
  obtain ⟨hne, hne'⟩ := rest_ne_nil_of_lf_mem more h
  have hcrlf : Octets.crlf <+: (c.extend more).rest ↔ Octets.crlf <+: c.rest :=
    crlf_prefix_append_iff h
  rw [nextLineEnd_eq, nextLineEnd_eq]
  simp only [hne, hne', if_false, hcrlf]
  split
  · rename_i hprefix
    exact pass_extend hprefix.length_le
  · rfl

theorem failName_extend (h : Octet.lf ∈ c.rest) :
    (c.extend more).failName = (c.failName.1, c.failName.2.extend more) := by
  obtain ⟨hne, hne'⟩ := rest_ne_nil_of_lf_mem more h
  have htrim : (c.extend more).rest.trimStart.head? = c.rest.trimStart.head? := by
    -- The LF is no blank, so the blanks end in front of it.
    have hstop : c.rest.dropWhile Octet.isBlank ≠ [] := by
      intro hnil
      have hblank := List.dropWhile_eq_nil_iff.1 hnil _ h
      exact absurd hblank (by decide)
    obtain ⟨b, tail, hb⟩ := List.exists_cons_of_ne_nil hstop
    simp only [extend, Octets.trimStart, List.dropWhile_append, List.isEmpty_iff, hb]
    rfl
  rw [failName_eq, failName_eq]
  simp only [hne, hne', if_false, head?_rest_extend h, htrim]
  split
  · split
    all_goals rfl
  split
  all_goals rfl

theorem nextFieldName_extend (h : Octet.lf ∈ c.rest) :
    (c.extend more).nextFieldName = (c.nextFieldName.1, c.nextFieldName.2.extend more) := by
  obtain ⟨d, hd⟩ : ∃ d : Cursor, d = { c with lineStart := c.position } := ⟨_, rfl⟩
  have hd' : ({ c.extend more with lineStart := (c.extend more).position } : Cursor) =
      d.extend more := by rw [hd]; rfl
  rw [nextFieldName_eq, nextFieldName_eq, hd', ← hd]
  replace h : Octet.lf ∈ d.rest := by rw [hd]; exact h
  have hp : Octet.isToken Octet.lf = false := by decide
  have hrun : (d.extend more).run (d.limits.fieldLine + 1) Octet.isToken =
      d.run (d.limits.fieldLine + 1) Octet.isToken := run_extend h hp
  have hlt := length_run_lt (d.limits.fieldLine + 1) h hp
  have hlf := lf_mem_rest_skip_run (d.limits.fieldLine + 1) h hp
  obtain ⟨hne, hne'⟩ := rest_ne_nil_of_lf_mem more h
  have hlimits : (d.extend more).limits = d.limits := rfl
  have hcrlf : Octets.crlf <+: (d.extend more).rest ↔ Octets.crlf <+: d.rest :=
    crlf_prefix_append_iff h
  simp only [hlimits, hrun, hne, hne', if_false, hcrlf, head?_rest_extend h, skip_extend hlt.le,
    head?_rest_extend hlf]
  split
  · rename_i hprefix
    exact pass_extend hprefix.length_le
  split
  · rfl
  split
  · rfl
  split
  · rfl
  split
  · split
    · rfl
    · exact pass_extend hlt
  · exact failName_extend hlf

theorem nextFieldValue_extend (h : Octet.lf ∈ c.rest) :
    (c.extend more).nextFieldValue = (c.nextFieldValue.1, c.nextFieldValue.2.extend more) := by
  have hblank : Octet.isBlank Octet.lf = false := by decide
  have hp : Octet.isFieldText Octet.lf = false := by decide
  have hblanks : c.rest.takeWhile Octet.isBlank = c.run c.rest.length Octet.isBlank := by
    rw [run, List.take_of_length_le (List.takeWhile_sublist _).length_le]
  have hblanks' : (c.extend more).rest.takeWhile Octet.isBlank = c.rest.takeWhile Octet.isBlank :=
    takeWhile_append_of_mem h hblank
  have hskip : (c.extend more).skip (c.run c.rest.length Octet.isBlank).length =
      (c.skip (c.run c.rest.length Octet.isBlank).length).extend more :=
    skip_extend (length_run_lt c.rest.length h hblank).le
  have hlf := lf_mem_rest_skip_run c.rest.length h hblank
  rw [← hblanks] at hskip hlf
  rw [nextFieldValue_eq, nextFieldValue_eq, hblanks', hskip]
  generalize c.skip (c.rest.takeWhile Octet.isBlank).length = d at hlf
  have hlimits : (d.extend more).limits = d.limits := rfl
  have hline : (d.extend more).lineStart = d.lineStart := rfl
  have hposition : (d.extend more).position = d.position := rfl
  simp only [hlimits, hline, hposition]
  generalize d.limits.fieldLine + 1 - (d.position - d.lineStart) = bound
  have hlt := length_run_lt bound hlf hp
  have hlf' := lf_mem_rest_skip_run bound hlf hp
  obtain ⟨hafter, hafter'⟩ := rest_ne_nil_of_lf_mem more hlf'
  simp only [run_extend hlf hp, skip_extend hlt.le, hafter, hafter', false_or,
    head?_rest_extend hlf']
  split
  · rfl
  split
  · have htrim := length_trimEnd_le (d.run bound Octet.isFieldText)
    exact pass_extend (by omega)
  · rfl

/-- What stands behind a LF that is ahead does not change the next token. -/
theorem next_extend (h : c.Settled) : (c.extend more).next = (c.next.1, c.next.2.extend more) := by
  have hmode : (c.extend more).mode = c.mode := rfl
  rw [next, next, hmode]
  cases hm : c.mode with
  | method => rw [Settled, hm] at h; exact nextMethod_extend h
  | target => rw [Settled, hm] at h; exact nextTarget_extend h
  | version => rw [Settled, hm] at h; exact nextVersion_extend h
  | requestLineEnd => rw [Settled, hm] at h; exact nextLineEnd_extend h
  | fieldName => rw [Settled, hm] at h; exact nextFieldName_extend h
  | fieldValue => rw [Settled, hm] at h; exact nextFieldValue_extend h
  | fieldLineEnd => rw [Settled, hm] at h; exact nextLineEnd_extend h
  | finished => rfl
  | failed violation offset => rfl

end Cursor

namespace Parse

variable {p : Parse} {more : Octets}

def extend (more : Octets) (p : Parse) : Parse := { p with cursor := p.cursor.extend more }

theorem take_extend (t : Token) : (p.extend more).take t = (p.take t).extend more := by
  have hextend (q : Parse) :
      q.extend more = q.elsewhere q.config (q.cursor.extend more) := rfl
  rw [hextend, hextend, config_take, cursor_take]
  exact take_elsewhere rfl fun _ => Iff.rfl

theorem step_extend (h : p.stage.reads → p.cursor.Settled) :
    (p.extend more).step = p.step.extend more := by
  cases hr : p.stage.reads with
  | true =>
    have hnext : (p.extend more).cursor.next = (p.cursor.next.1, p.cursor.next.2.extend more) :=
      Cursor.next_extend (h hr)
    rw [step_of_reads hr, step_of_reads (p := p.extend more) hr, hnext, ← take_extend]
    rfl
  | false =>
    rw [step_of_not_reads hr, step_of_not_reads (p := p.extend more) hr]
    rfl

/-- An invariant that keeps a LF ahead makes a run independent of what stands behind its input. -/
theorem run_extend (Inv : Parse → Prop)
    (settled : ∀ p, Inv p → p.stage.reads → p.cursor.Settled)
    (keeps : ∀ p, Inv p → p.step.stage.isFinal = false → Inv p.step) (h : Inv p) :
    (p.extend more).run = p.run.extend more := by
  induction p using run_induction with
  | final p hp => rw [run_of_isFinal hp, run_of_isFinal (p := p.extend more) hp]
  | step p hp ih =>
    rw [← run_step, step_extend (settled p h), ← run_step p]
    by_cases hfinal : p.step.stage.isFinal
    · rw [run_of_isFinal hfinal, run_of_isFinal (p := p.step.extend more) hfinal]
    · exact ih (keeps p h (by simpa using hfinal))

theorem result_extend : (p.extend more).result = p.result := rfl

theorem headLength?_extend : (p.extend more).headLength? = p.headLength? := rfl

end Parse

end HttpHead
