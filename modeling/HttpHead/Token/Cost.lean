import HttpHead.Token.Cursor

/-! How many octets a token uses up at the least. A field value may be empty, and
every other token that lets a parse go on uses up some: `spends_next`. -/
namespace HttpHead

/-- The least number of octets that a token of a kind uses up, with those behind it
that belong to no token. -/
def TokenKind.cost : TokenKind → Nat
  | .method | .target | .fieldName | .lineEnd => 2
  | .version => 1
  | .fieldValue | .endOfInput | .invalid _ => 0

namespace Cursor

/-- The token and what is left behind it fit into what was there before. -/
def Spends (c : Cursor) (out : Token × Cursor) : Prop :=
  out.2.rest.length + out.1.kind.cost ≤ c.rest.length

theorem length_rest_skip (n : Nat) (c : Cursor) : (c.skip n).rest.length = c.rest.length - n := by
  simp [skip]

theorem length_rest_skip_le (n : Nat) (c : Cursor) : (c.skip n).rest.length ≤ c.rest.length := by
  simp [length_rest_skip]

theorem lt_length_of_rest_skip {n : Nat} {c : Cursor} {b : UInt8} {rest : Octets}
    (h : (c.skip n).rest = b :: rest) : n < c.rest.length := by
  have hl := congrArg List.length h
  rw [length_rest_skip, List.length_cons] at hl
  omega

theorem length_rest_skipEmptyLines (c : Cursor) :
    c.skipEmptyLines.rest.length ≤ c.rest.length := by
  simp [skipEmptyLines, length_rest_skip]

theorem length_run_le (c : Cursor) (bound : Nat) (p : UInt8 → Bool) :
    (c.run bound p).length ≤ c.rest.length := by
  have := (List.takeWhile_sublist p (l := c.rest)).length_le
  simp only [run, List.length_take]
  omega

theorem spends_fail {c after : Cursor} (h : after.rest.length ≤ c.rest.length) (v : Violation)
    (offset : Nat) : c.Spends (after.fail v offset) := by
  simpa [Spends, fail, TokenKind.cost] using h

theorem spends_atEnd {c after : Cursor} (h : after.rest.length ≤ c.rest.length) :
    c.Spends after.atEnd := by
  simpa [Spends, atEnd, TokenKind.cost] using h

theorem spends_pass {c d : Cursor} {kind : TokenKind} {text : Octets} {gap : Nat} {mode : Mode}
    (h : d.rest.length ≤ c.rest.length) (hgap : text.length + gap ≤ d.rest.length)
    (hcost : kind.cost ≤ text.length + gap) : c.Spends (d.pass kind text gap mode) := by
  simp only [Spends, pass, length_rest_skip]
  omega

theorem spends_nextMethod (c : Cursor) : c.Spends c.nextMethod := by
  unfold nextMethod
  have h := length_rest_skipEmptyLines c
  generalize c.skipEmptyLines = d at h
  have hs := Nat.le_trans (length_rest_skip_le (d.run (d.limits.method + 1) Octet.isToken).length d) h
  simp only
  split
  · exact spends_atEnd h
  split
  · exact spends_fail hs _ _
  split
  · rename_i heq
    split
    · exact spends_fail hs _ _
    · rename_i hne
      have hpos := List.length_pos_iff.2 (by simpa using hne)
      exact spends_pass h (lt_length_of_rest_skip heq) (Nat.succ_le_succ hpos)
  · exact spends_fail hs _ _
  · exact spends_fail hs _ _

theorem spends_nextTarget (c : Cursor) : c.Spends c.nextTarget := by
  unfold nextTarget
  have hs := length_rest_skip_le (c.run (c.limits.target + 1) Octet.isTarget).length c
  simp only
  split
  · exact spends_fail hs _ _
  split
  · rename_i heq
    split
    · exact spends_fail hs _ _
    · rename_i hne
      have hpos := List.length_pos_iff.2 (by simpa using hne)
      exact spends_pass (Nat.le_refl _) (lt_length_of_rest_skip heq) (Nat.succ_le_succ hpos)
  · split <;> exact spends_fail hs _ _
  · split <;> exact spends_fail hs _ _
  · exact spends_fail hs _ _
  · exact spends_fail hs _ _

theorem spends_nextVersion (c : Cursor) : c.Spends c.nextVersion := by
  unfold nextVersion
  simp only
  split
  · rename_i hv
    have hpos : 0 < (c.run 9 Octet.isVisible).length := by
      cases hr : c.run 9 Octet.isVisible with
      | nil => simp [hr, isVersion] at hv
      | cons => simp
    exact spends_pass (Nat.le_refl _) (length_run_le ..) hpos
  · exact spends_fail (length_rest_skip_le _ _) _ _

theorem spends_nextLineEnd (c : Cursor) : c.Spends c.nextLineEnd := by
  unfold nextLineEnd
  split
  · exact spends_atEnd (Nat.le_refl _)
  · rename_i heq
    exact spends_pass (Nat.le_refl _) (by simp [heq, Octets.crlf]) (by simp [Octets.crlf, TokenKind.cost])
  · exact spends_fail (Nat.le_refl _) _ _

theorem spends_failName (c : Cursor) {d : Cursor} (h : c.rest.length ≤ d.rest.length) :
    d.Spends c.failName := by
  unfold failName
  split
  · exact spends_fail h _ _
  · split <;> exact spends_fail h _ _
  · split <;> exact spends_fail h _ _
  · exact spends_fail h _ _
  · exact spends_fail h _ _
  · exact spends_fail h _ _

theorem spends_nextFieldName (c : Cursor) : c.Spends c.nextFieldName := by
  unfold nextFieldName
  have h : c.rest.length ≤ c.rest.length := Nat.le_refl _
  simp only
  split
  · exact spends_atEnd h
  · rename_i heq
    exact spends_pass h (by simp [heq, Octets.crlf]) (by simp [Octets.crlf, TokenKind.cost])
  · exact spends_fail h _ _
  · exact spends_fail h _ _
  · exact spends_fail h _ _
  · exact spends_fail h _ _
  · split
    · exact spends_fail (length_rest_skip_le _ _) _ _
    split
    · rename_i hc
      split
      · exact spends_fail (length_rest_skip_le _ _) _ _
      · rename_i hne
        have hpos := List.length_pos_iff.2 (by simpa using hne)
        obtain ⟨rest, heq⟩ := List.head?_eq_some_iff.1 (by simpa using hc)
        exact spends_pass h (lt_length_of_rest_skip heq) (Nat.succ_le_succ hpos)
    · exact spends_failName _ (length_rest_skip_le _ _)

theorem length_trimEnd_le (text : Octets) : text.trimEnd.length ≤ text.length := by
  have := (List.dropWhile_sublist Octet.isBlank (l := text.reverse)).length_le
  simpa [Octets.trimEnd, Octets.trimStart] using this

theorem spends_nextFieldValue (c : Cursor) : c.Spends c.nextFieldValue := by
  unfold nextFieldValue
  have h := length_rest_skip_le (c.rest.takeWhile Octet.isBlank).length c
  generalize c.skip (c.rest.takeWhile Octet.isBlank).length = d at h
  simp only
  generalize d.limits.fieldLine + 1 - (d.position - d.lineStart) = bound
  have hs := Nat.le_trans (length_rest_skip_le (d.run bound Octet.isFieldText).length d) h
  have hlen := length_run_le d bound Octet.isFieldText
  have htrim := length_trimEnd_le (d.run bound Octet.isFieldText)
  split
  · exact spends_fail hs _ _
  split
  · exact spends_pass h (by omega) (Nat.zero_le _)
  · exact spends_pass h (by omega) (Nat.zero_le _)
  · exact spends_pass h (by omega) (Nat.zero_le _)
  · exact spends_fail hs _ _

theorem spends_next (c : Cursor) : c.Spends c.next := by
  unfold next
  split
  · exact spends_nextMethod c
  · exact spends_nextTarget c
  · exact spends_nextVersion c
  · exact spends_nextLineEnd c
  · exact spends_nextLineEnd c
  · exact spends_nextFieldName c
  · exact spends_nextFieldValue c
  · exact spends_atEnd (Nat.le_refl _)
  · exact spends_fail (Nat.le_refl _) _ _

end Cursor

end HttpHead
