import HttpHead.Proofs.Walk

/-! The tokens of a scan and the octets between them. As long as no rule is broken, the tokens
with what separates them make up all the octets that were passed (`exists_pieces`), and a field
value is what stands between the colon and the end of its line, trimmed (`value_of_scans`). -/
namespace HttpHead

/-- The octets that a token takes up: its text, the space or the colon behind it, and the blanks
around a field value. -/
inductive Token.Fills : Token → Octets → Prop where
  | method (offset : Nat) (text : Octets) : Fills ⟨.method, offset, text⟩ (text ++ [Octet.sp])
  | target (offset : Nat) (text : Octets) : Fills ⟨.target, offset, text⟩ (text ++ [Octet.sp])
  | version (offset : Nat) (text : Octets) : Fills ⟨.version, offset, text⟩ text
  | fieldName (offset : Nat) (text : Octets) :
      Fills ⟨.fieldName, offset, text⟩ (text ++ [Octet.colon])
  | fieldValue (offset : Nat) (text before after : Octets)
      (before_blank : ∀ b ∈ before, Octet.isBlank b) (after_blank : ∀ b ∈ after, Octet.isBlank b) :
      Fills ⟨.fieldValue, offset, text⟩ (before ++ text ++ after)
  | lineEnd (offset : Nat) : Fills ⟨.lineEnd, offset, Octets.crlf⟩ Octets.crlf
  | endOfInput (offset : Nat) : Fills ⟨.endOfInput, offset, []⟩ []

namespace Octets

def firstLine (text : Octets) : Octets := text.takeWhile fun b => b != Octet.cr && b != Octet.lf

theorem emptyLines_add (m n : Nat) : emptyLines (m + n) = emptyLines m ++ emptyLines n := by
  rw [emptyLines, List.replicate_add, List.flatten_append]
  rfl

theorem firstLine_append {text rest : Octets} (ht : ∀ b ∈ text, Octet.isFieldText b)
    (hr : LineStops rest) : (text ++ rest).firstLine = text := by
  apply takeWhile_append_stop
  · intro b hb
    have hcr : b ≠ Octet.cr := Octet.ne_of_class (by decide) (ht b hb)
    have hlf : b ≠ Octet.lf := Octet.ne_of_class (by decide) (ht b hb)
    simp [hcr, hlf]
  · intro b hb
    rcases hr b hb with rfl | rfl
    all_goals rfl

theorem bare_trim (text : Octets) : text.trim.Bare := (trim_eq_iff.1 rfl).1

end Octets

/-- The second token is the value of the field that the first one names: what the line has behind
the colon, without the blanks at its ends. -/
structure Token.Names (input : Octets) (name value : Token) : Prop where
  kind : name.kind = .fieldName
  colon : input[name.stop]? = some Octet.colon
  text : value.text = (Octets.firstLine (input.drop (name.stop + 1))).trim
  bare : value.text.Bare
  offset : value.offset = name.stop + 1 +
    ((Octets.firstLine (input.drop (name.stop + 1))).takeWhile Octet.isBlank).length

namespace Cursor

variable {c d : Cursor} {t : Token}

/-- The octets that are passed with a token that lets a parse go on. Only a method has empty lines
in front of it, and only in front of the first method there can be any. -/
theorem fills_of_scans (h : c.Scans t d) : d.mode ≠ .method ∧ ∃ (k : Nat) (piece : Octets),
    t.Fills piece ∧ c.rest = Octets.emptyLines k ++ (piece ++ d.rest) ∧
      (c.mode ≠ .method → k = 0) := by
  suffices hfills : ∃ (k : Nat) (piece : Octets), t.Fills piece ∧
      c.rest = Octets.emptyLines k ++ (piece ++ d.rest) ∧ (c.mode = .method ∨ k = 0) by
    obtain ⟨k, piece, hpiece, hrest, hk⟩ := hfills
    exact ⟨by cases h <;> nofun, k, piece, hpiece, hrest, hk.resolve_left⟩
  have hplain {piece : Octets} (hpiece : t.Fills piece) (hrest : c.rest = piece ++ d.rest) :
      ∃ (k : Nat) (piece : Octets), t.Fills piece ∧
        c.rest = Octets.emptyLines k ++ (piece ++ d.rest) ∧ (c.mode = .method ∨ k = 0) :=
    ⟨0, piece, hpiece, hrest, .inr rfl⟩
  cases h with
  | method n text rest mode input nonempty token fits =>
    exact ⟨n, _, .method _ text, by simpa using input, .inl mode⟩
  | target text rest mode input nonempty visible fits =>
    exact hplain (.target _ text) (by simpa using input)
  | version text rest mode input version stops => exact hplain (.version _ text) input
  | lineEnd rest mode input => exact hplain (.lineEnd _) input
  | fieldName text rest mode input nonempty token fits =>
    exact hplain (.fieldName _ text) (by simpa using input)
  | headEnd rest mode input => exact hplain (.lineEnd _) input
  | fieldValue text rest mode input field stops fits =>
    obtain ⟨-, before, after, hbefore, hafter, htext⟩ := Octets.trim_eq_iff.1 (Eq.refl text.trim)
    refine hplain (.fieldValue _ _ before after hbefore hafter) ?_
    rw [← htext]
    exact input

theorem nextMethod_of_endOfInput (h : c.nextMethod.1.kind = .endOfInput) :
    c.nextMethod = c.skipEmptyLines.atEnd := by
  rw [nextMethod_eq] at h ⊢
  dsimp only at h ⊢
  split_ifs at h ⊢
  all_goals first
    | rfl
    | cases h

theorem nextLineEnd_of_endOfInput (h : c.nextLineEnd.1.kind = .endOfInput) :
    c.nextLineEnd = c.atEnd := by
  rw [nextLineEnd_eq] at h ⊢
  split_ifs at h ⊢
  all_goals first
    | rfl
    | cases h

theorem nextFieldName_of_endOfInput (h : c.nextFieldName.1.kind = .endOfInput) :
    c.nextFieldName = ({ c with lineStart := c.position } : Cursor).atEnd := by
  have hname (d : Cursor) : d.failName.1.kind ≠ .endOfInput := by
    rw [failName_eq]
    split_ifs
    all_goals nofun
  rw [nextFieldName_eq] at h ⊢
  dsimp only at h ⊢
  split_ifs at h ⊢
  all_goals first
    | rfl
    | cases h
    | exact absurd h (hname _)

/-- At the end of the input a cursor stays where it is, but for the empty lines in front of a
method. A target, a version or a value has to be there, so no end comes in its place. -/
theorem next_of_endOfInput (h : c.next.1.kind = .endOfInput) :
    (c.mode = .method ∧ c.next = c.skipEmptyLines.atEnd) ∨
      c.mode ≠ .method ∧ c.mode ≠ .fieldValue ∧
        ∃ d : Cursor, c.next = d.atEnd ∧ d.rest = c.rest ∧ d.mode = c.mode := by
  rw [next] at h ⊢
  cases hm : c.mode with
  | method =>
    rw [hm] at h
    exact .inl ⟨rfl, nextMethod_of_endOfInput h⟩
  | target =>
    simp only [hm, nextTarget_eq] at h
    split_ifs at h
    all_goals cases h
  | version =>
    simp only [hm, nextVersion] at h
    split_ifs at h
    all_goals cases h
  | requestLineEnd =>
    rw [hm] at h
    exact .inr ⟨by decide, by decide, c, nextLineEnd_of_endOfInput h, rfl, hm⟩
  | fieldName =>
    rw [hm] at h
    exact .inr ⟨by decide, by decide, _, nextFieldName_of_endOfInput h, rfl, hm⟩
  | fieldValue =>
    simp only [hm, nextFieldValue_eq] at h
    split_ifs at h
    all_goals cases h
  | fieldLineEnd =>
    rw [hm] at h
    exact .inr ⟨by decide, by decide, c, nextLineEnd_of_endOfInput h, rfl, hm⟩
  | finished => exact .inr ⟨by decide, by decide, c, rfl, rfl, hm⟩
  | failed violation offset =>
    rw [hm] at h
    cases h

theorem endOfInput_of_not_goesOn (h : ¬t.kind.goesOn)
    (hvalid : ∀ violation, t.kind ≠ .invalid violation) : t.kind = .endOfInput := by
  cases hk : t.kind with
  | endOfInput => rfl
  | invalid violation => exact absurd hk (hvalid violation)
  | _ => rw [hk] at h; exact absurd rfl h

theorem fills_next (hc : c.lineStart ≤ c.position)
    (hvalid : ∀ violation, c.next.1.kind ≠ .invalid violation) :
    ∃ (k : Nat) (piece : Octets), c.next.1.Fills piece ∧
      c.rest = Octets.emptyLines k ++ (piece ++ c.next.2.rest) ∧
        (c.mode ≠ .method → k = 0 ∧ c.next.2.mode ≠ .method) ∧
          (piece = [] ∨ c.next.2.mode ≠ .method) := by
  by_cases hgo : c.next.1.kind.goesOn
  · obtain ⟨hmode, k, piece, hpiece, hrest, hk⟩ := fills_of_scans (scans_next hc hgo)
    exact ⟨k, piece, hpiece, hrest, fun hm => ⟨hk hm, hmode⟩, .inr hmode⟩
  · obtain ⟨hm, hnext⟩ | ⟨hm, -, d, hnext, hrest, hmode⟩ :=
      next_of_endOfInput (endOfInput_of_not_goesOn hgo hvalid)
    · rw [hnext]
      exact ⟨emptyLines c.rest, [], .endOfInput _, eq_emptyLines_append c.rest,
        fun hne => absurd hm hne, .inl rfl⟩
    · rw [hnext]
      refine ⟨0, [], .endOfInput _, hrest.symm, fun hne => ⟨rfl, ?_⟩, .inl rfl⟩
      exact hmode ▸ hne

theorem exists_pieces (n : Nat) (hc : c.lineStart ≤ c.position)
    (hvalid : ∀ t ∈ (c.tokens n).1, ∀ violation, t.kind ≠ .invalid violation) :
    ∃ (k : Nat) (pieces : List Octets), List.Forall₂ Token.Fills (c.tokens n).1 pieces ∧
      c.rest = Octets.emptyLines k ++ (pieces.flatten ++ (c.tokens n).2.rest) ∧
        (c.mode ≠ .method → k = 0) := by
  induction n generalizing c with
  | zero => exact ⟨0, [], .nil, rfl, fun _ => rfl⟩
  | succ n ih =>
    obtain ⟨hfirst, hmore⟩ := List.forall_mem_cons.1 hvalid
    obtain ⟨m, piece, hpiece, hrest, hm, hbehind⟩ := fills_next hc hfirst
    obtain ⟨k, pieces, hpieces, hrest', hk⟩ := ih ((orderly_next c).1.2 hc) hmore
    refine ⟨m + k, piece :: pieces, .cons hpiece hpieces, ?_, ?_⟩
    · -- More empty lines may follow as long as no token but the end has come.
      rcases hbehind with rfl | hmode
      · rw [hrest, hrest', Octets.emptyLines_add]
        simp [tokens]
      · obtain rfl := hk hmode
        rw [hrest, hrest']
        simp [tokens, Octets.emptyLines]
    · intro hne
      obtain ⟨rfl, hmode⟩ := hm hne
      rw [hk hmode]

theorem getElem?_tokens {n i : Nat} (h : (c.tokens n).1[i]? = some t) :
    t = (c.tokens i).2.next.1 := by
  induction n generalizing c i with
  | zero => simp [tokens] at h
  | succ n ih =>
    cases i with
    | zero => simpa [tokens] using h.symm
    | succ i =>
      rw [tokens, List.getElem?_cons_succ] at h
      exact ih (c := c.next.2) h

theorem tokens_succ_snd (n : Nat) (c : Cursor) : (c.tokens (n + 1)).2 = (c.tokens n).2.next.2 := by
  induction n generalizing c with
  | zero => rfl
  | succ n ih => exact ih c.next.2

theorem value_of_scans (h : c.Scans t d) (hk : t.kind = .fieldValue) :
    c.mode = .fieldValue ∧ t.text = c.rest.firstLine.trim ∧
      t.offset = c.position + (c.rest.firstLine.takeWhile Octet.isBlank).length := by
  cases h with
  | fieldValue text rest mode input field stops fits =>
    rw [input, Octets.firstLine_append field stops]
    exact ⟨mode, rfl, rfl⟩
  | _ => cases hk

end Cursor

namespace Place

variable {place : Place}

theorem sound_tokens (h : place.Sound) (n : Nat) :
    Sound ⟨place.input, (place.cursor.tokens n).2⟩ := by
  induction n with
  | zero => exact h
  | succ n ih =>
    rw [Cursor.tokens_succ_snd]
    exact sound_move ih .next

theorem name_of_mode_next (h : place.Sound)
    (hvalid : ∀ violation, place.cursor.next.1.kind ≠ .invalid violation)
    (hmode : place.cursor.next.2.mode = .fieldValue) :
    let name := place.cursor.next.1
    name.kind = .fieldName ∧ place.input[name.stop]? = some Octet.colon ∧
      place.cursor.next.2.position = name.stop + 1 := by
  by_cases hgo : place.cursor.next.1.kind.goesOn
  · have hscan := Cursor.scans_next h.lineStart_le hgo
    have hrest := h.rest_eq
    generalize place.cursor.next.1 = t, place.cursor.next.2 = d at hscan hmode
    cases hscan with
    | fieldName text rest mode input nonempty token fits =>
      refine ⟨rfl, ?_, rfl⟩
      rw [input] at hrest
      rw [Token.stop, ← List.getElem?_drop, ← hrest]
      simp
    | _ => cases hmode
  · obtain ⟨hm, hnext⟩ | ⟨-, hvalue, d, hnext, -, hd⟩ :=
      Cursor.next_of_endOfInput (Cursor.endOfInput_of_not_goesOn hgo hvalid)
    · rw [hnext] at hmode
      have hmethod : place.cursor.mode = .fieldValue := hmode
      rw [hm] at hmethod
      cases hmethod
    · rw [hnext] at hmode
      exact absurd (hd.symm.trans hmode) hvalue

theorem names_value (h : place.Sound) (hstart : place.cursor.mode ≠ .fieldValue) {n i : Nat}
    (hvalid : ∀ t ∈ (place.cursor.tokens n).1, ∀ violation, t.kind ≠ .invalid violation)
    {value : Token} (hi : (place.cursor.tokens n).1[i]? = some value)
    (hk : value.kind = .fieldValue) :
    ∃ (j : Nat) (name : Token), i = j + 1 ∧ (place.cursor.tokens n).1[j]? = some name ∧
      name.Names place.input value := by
  have hsound := sound_tokens h i
  have hvalue : value = (place.cursor.tokens i).2.next.1 := Cursor.getElem?_tokens hi
  have hscan := Cursor.scans_next hsound.lineStart_le (by rw [← hvalue, hk]; rfl)
  obtain ⟨hmode, htext, hoffset⟩ := Cursor.value_of_scans hscan (by rw [← hvalue, hk])
  have hrest := hsound.rest_eq
  rw [← hvalue] at htext hoffset
  -- The mode in which a value is read comes from the token in front of it.
  cases i with
  | zero => exact absurd hmode hstart
  | succ j =>
    obtain ⟨name, hj⟩ : ∃ name, (place.cursor.tokens n).1[j]? = some name :=
      ⟨_, List.getElem?_eq_getElem (Nat.lt_of_succ_lt (List.getElem?_eq_some_iff.1 hi).1)⟩
    have hname : name = (place.cursor.tokens j).2.next.1 := Cursor.getElem?_tokens hj
    have hlegal := hvalid name (List.mem_of_getElem? hj)
    simp only [Cursor.tokens_succ_snd] at hmode htext hoffset hrest
    rw [hname] at hlegal
    obtain ⟨hkind, hcolon, hposition⟩ := name_of_mode_next (sound_tokens h j) hlegal hmode
    rw [← hname] at hkind hcolon hposition
    rw [hrest, hposition] at htext hoffset
    exact ⟨j, name, rfl, hj, hkind, hcolon, htext, htext ▸ Octets.bare_trim _, hoffset⟩

/-- As long as a scan finds no rule broken, its tokens make up what it has passed. That is some
empty lines and then the texts of the tokens in order, with one space behind a method or a target,
one colon behind a field name, and blanks around a field value; every text stands where the token
says. A value comes behind the name of its field. -/
theorem tokens_reassemble (limits : Limits) (input : Octets) (n : Nat)
    (hvalid : ∀ t ∈ ((Cursor.start limits input).tokens n).1, ∀ violation,
      t.kind ≠ .invalid violation) :
    let tokens := ((Cursor.start limits input).tokens n).1
    let position := ((Cursor.start limits input).tokens n).2.position
    (position ≤ input.length ∧ ∃ (k : Nat) (pieces : List Octets),
        List.Forall₂ Token.Fills tokens pieces ∧
          input.take position = Octets.emptyLines k ++ pieces.flatten) ∧
      (∀ t ∈ tokens, t.text <+: input.drop t.offset) ∧
      ∀ (i : Nat) (value : Token), tokens[i]? = some value → value.kind = .fieldValue →
        ∃ (j : Nat) (name : Token), i = j + 1 ∧ tokens[j]? = some name ∧
          name.Names input value := by
  intro tokens position
  have hstart := sound_start limits input
  have hbehind := sound_tokens hstart n
  refine ⟨⟨hbehind.position_le, ?pieces⟩, ?texts, ?values⟩
  case pieces =>
    obtain ⟨k, pieces, hpieces, hrest, -⟩ := Cursor.exists_pieces n hstart.lineStart_le hvalid
    have hinput : input = Octets.emptyLines k ++ (pieces.flatten ++ input.drop position) :=
      hrest.trans (congrArg _ (congrArg _ hbehind.rest_eq))
    refine ⟨k, pieces, hpieces, ?_⟩
    rw [← List.append_assoc] at hinput
    conv_lhs at hinput => rw [← List.take_append_drop position input]
    exact List.append_cancel_right hinput
  case texts =>
    intro t ht
    obtain ⟨i, hi⟩ := List.mem_iff_getElem?.1 ht
    have hreads := reads_next (sound_tokens hstart i)
    rw [Cursor.getElem?_tokens hi]
    exact hreads.text_prefix
  case values =>
    intro i value hi hk
    exact names_value hstart nofun hvalid hi hk

/-- An empty line in front, a value of blanks only, and one that the input breaks off. -/
theorem tokens_reassemble_unterminated :
    let input := Utf8.encode "\r\nPUT /a HTTP/1.0\r\nA: \t \r\nB: b c "
    let tokens := ((Cursor.start {} input).tokens 11).1
    (∀ t ∈ tokens, ∀ violation, t.kind ≠ .invalid violation) ∧
      (∃ (k : Nat) (pieces : List Octets), List.Forall₂ Token.Fills tokens pieces ∧
        input = Octets.emptyLines k ++ pieces.flatten) ∧
      (∃ name : Token, tokens[4]? = some name ∧ name.Names input ⟨.fieldValue, 24, []⟩) ∧
      ∃ name : Token, tokens[7]? = some name ∧
        name.Names input ⟨.fieldValue, 29, Utf8.encode "b c"⟩ := by
  intro input tokens
  have hkinds : tokens.map (·.kind) = [.method, .target, .version, .lineEnd, .fieldName,
      .fieldValue, .lineEnd, .fieldName, .fieldValue, .endOfInput, .endOfInput] := by
    decide +kernel
  have hvalid : ∀ t ∈ tokens, ∀ violation, t.kind ≠ .invalid violation := by
    intro t ht violation hk
    have hmem := List.mem_map_of_mem (f := fun t : Token => t.kind) ht
    rw [hkinds, hk] at hmem
    simp at hmem
  obtain ⟨⟨-, hpieces⟩, -, hvalues⟩ := tokens_reassemble {} input 11 hvalid
  refine ⟨hvalid, ?_, ?_, ?_⟩
  · have hall : input.take ((Cursor.start {} input).tokens 11).2.position = input := by
      decide +kernel
    rwa [hall] at hpieces
  · obtain ⟨j, name, hj, hname⟩ := hvalues 5 ⟨.fieldValue, 24, []⟩ (by decide +kernel) rfl
    obtain rfl := Nat.succ.inj hj
    exact ⟨name, hname⟩
  · obtain ⟨j, name, hj, hname⟩ :=
      hvalues 8 ⟨.fieldValue, 29, Utf8.encode "b c"⟩ (by decide +kernel) rfl
    obtain rfl := Nat.succ.inj hj
    exact ⟨name, hname⟩

end Place

end HttpHead
