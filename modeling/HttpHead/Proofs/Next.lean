import HttpHead.Token.Cursor

/-! The next token by conditions: what a cursor does is told by a run of octets of one class
and by the first octets behind it. -/
namespace HttpHead.Cursor

theorem nextMethod_eq (c : Cursor) :
    c.nextMethod =
      let d := c.skipEmptyLines
      let text := d.run (d.limits.method + 1) Octet.isToken
      let after := d.skip text.length
      if d.rest = [] then d.atEnd
      else if d.limits.method < text.length then after.fail .methodTooLarge d.position
      else if after.rest.head? = some Octet.sp then
        if text = [] then after.fail .emptyToken d.position else d.pass .method text 1 .target
      else if after.rest = [] then after.fail .unexpectedEnd after.position
      else after.fail .invalidOctetInMethod after.position := by
  simp only [nextMethod, List.isEmpty_iff]
  split
  · rfl
  split
  · rfl
  split <;> simp_all

theorem nextTarget_eq (c : Cursor) :
    c.nextTarget =
      let text := c.run (c.limits.target + 1) Octet.isTarget
      let after := c.skip text.length
      if c.limits.target < text.length then after.fail .targetTooLarge c.position
      else if after.rest.head? = some Octet.sp then
        if text = [] then after.fail .emptyTarget c.position else c.pass .target text 1 .version
      else if after.rest.head? = some Octet.cr ∨ after.rest.head? = some Octet.lf then
        if text = [] then after.fail .emptyTarget c.position
        else after.fail .invalidTarget after.position
      else if after.rest = [] then after.fail .unexpectedEnd after.position
      else after.fail .invalidOctetInTarget after.position := by
  have hcr : Octet.cr ≠ Octet.sp := by decide
  have hlf : Octet.lf ≠ Octet.sp := by decide
  simp only [nextTarget, List.isEmpty_iff]
  split
  · rfl
  split
  · rename_i h; rw [h]; rfl
  · rename_i h; rw [h]; rfl
  · rename_i h; rw [h]; rfl
  · rename_i hsp hcr hlf h; simp_all
  · rename_i h; simp [h]

theorem nextLineEnd_eq (c : Cursor) :
    c.nextLineEnd =
      if c.rest = [] then c.atEnd
      else if Octets.crlf <+: c.rest then c.pass .lineEnd Octets.crlf 0 .fieldName
      else c.fail .invalidLineEnd c.position := by
  rw [nextLineEnd]
  split
  · rename_i h; rw [if_pos h]
  · rename_i rest h; rw [h]; rfl
  · rename_i hnil hcrlf
    rw [if_neg hnil, if_neg]
    intro h
    obtain ⟨rest, hrest⟩ := h
    exact hcrlf rest hrest.symm

theorem failName_eq (c : Cursor) :
    c.failName =
      if c.rest = [] then c.fail .unexpectedEnd c.position
      else if c.rest.head? = some Octet.sp ∨ c.rest.head? = some Octet.htab then
        if c.rest.trimStart.head? = some Octet.colon then c.fail .blankBeforeColon c.position
        else c.fail .missingColon c.lineStart
      else if c.rest.head? = some Octet.cr ∨ c.rest.head? = some Octet.lf then
        c.fail .missingColon c.lineStart
      else c.fail ((c.rest.head?.bind Octet.tokenViolation?).getD .unexpectedToken) c.position := by
  rw [failName]
  split
  · rename_i h; simp [h]
  · rename_i h; rw [h]; simp
  · rename_i h; rw [h]; simp
  · rename_i h; rw [h]; rfl
  · rename_i h; rw [h]; rfl
  · rename_i h; simp_all

theorem nextFieldName_eq (c : Cursor) :
    c.nextFieldName =
      let d := { c with lineStart := c.position }
      let text := d.run (d.limits.fieldLine + 1) Octet.isToken
      let after := d.skip text.length
      if d.rest = [] then d.atEnd
      else if Octets.crlf <+: d.rest then d.pass .lineEnd Octets.crlf 0 .finished
      else if d.rest.head? = some Octet.cr ∨ d.rest.head? = some Octet.lf then
        d.fail .invalidLineEnd d.position
      else if d.rest.head? = some Octet.sp ∨ d.rest.head? = some Octet.htab then
        d.fail .obsoleteFolding d.position
      else if d.limits.fieldLine < text.length then after.fail .headerTooLarge d.lineStart
      else if after.rest.head? = some Octet.colon then
        if text = [] then after.fail .emptyToken d.position
        else d.pass .fieldName text 1 .fieldValue
      else after.failName := by
  simp only [nextFieldName, List.isEmpty_iff, beq_iff_eq]
  split
  · rename_i h; rw [h]; rfl
  · rename_i h; rw [h]; rfl
  · rename_i tail hcrlf h
    have hne : ¬Octets.crlf <+: c.rest := by
      intro hprefix
      obtain ⟨rest, hrest⟩ := hprefix
      exact hcrlf rest (List.cons.inj (h.symm.trans hrest.symm)).2
    rw [if_neg (by simp [h]), if_neg hne, if_pos (.inl (by rw [h]; rfl))]
  · rename_i h; rw [h]; rfl
  · rename_i h; rw [h]; rfl
  · rename_i h; rw [h]; rfl
  · rename_i b tail _ hcr hlf hsp hhtab h
    have hnil : ¬c.rest = [] := by simp [h]
    have hne : ¬Octets.crlf <+: c.rest := by
      intro hprefix
      obtain ⟨rest, hrest⟩ := hprefix
      exact hcr (List.cons.inj (h.symm.trans hrest.symm)).1
    have hhead : c.rest.head? = some b := by rw [h]; rfl
    have hline : ¬(c.rest.head? = some Octet.cr ∨ c.rest.head? = some Octet.lf) := by
      rw [hhead, Option.some_inj, Option.some_inj]
      exact not_or.2 ⟨hcr, hlf⟩
    have hblank : ¬(c.rest.head? = some Octet.sp ∨ c.rest.head? = some Octet.htab) := by
      rw [hhead, Option.some_inj, Option.some_inj]
      exact not_or.2 ⟨hsp, hhtab⟩
    rw [if_neg hnil, if_neg hne, if_neg hline, if_neg hblank]

theorem nextFieldValue_eq (c : Cursor) :
    c.nextFieldValue =
      let d := c.skip (c.rest.takeWhile Octet.isBlank).length
      let used := d.position - d.lineStart
      let text := d.run (d.limits.fieldLine + 1 - used) Octet.isFieldText
      let after := d.skip text.length
      if d.limits.fieldLine < used + text.length then after.fail .headerTooLarge d.lineStart
      else if after.rest = [] ∨ after.rest.head? = some Octet.cr ∨ after.rest.head? = some Octet.lf
        then d.pass .fieldValue text.trimEnd (text.length - text.trimEnd.length) .fieldLineEnd
      else after.fail .invalidFieldValue after.position := by
  simp only [nextFieldValue]
  split
  · rfl
  split
  · rename_i h; rw [h]; rfl
  · rename_i h; rw [h]; rfl
  · rename_i h; rw [h]; rfl
  · rename_i h; simp_all

end HttpHead.Cursor
