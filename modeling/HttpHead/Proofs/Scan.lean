import HttpHead.Proofs.Next
import HttpHead.Proofs.Octet
import HttpHead.Token.Cost

/-! The tokens that let a parse go on, each told by the octets that it is made from:
`Cursor.Scans`. The cursor finds exactly these (`scans_iff`); every other token is
invalid or the end of the input. -/
namespace HttpHead

def Octets.emptyLines (n : Nat) : Octets := (List.replicate n Octets.crlf).flatten

def LineStops (rest : Octets) : Prop := ∀ b ∈ rest.head?, b = Octet.cr ∨ b = Octet.lf

theorem lineStops_iff {rest : Octets} :
    LineStops rest ↔ rest = [] ∨ rest.head? = some Octet.cr ∨ rest.head? = some Octet.lf := by
  cases rest with
  | nil => simp [LineStops]
  | cons b rest => simp [LineStops]

def TokenKind.goesOn : TokenKind → Bool
  | .endOfInput | .invalid _ => false
  | _ => true

namespace Cursor

/-- From the first cursor the token is read, and the second cursor stands behind it. -/
inductive Scans (c : Cursor) : Token → Cursor → Prop where
  | method (n : Nat) (text rest : Octets) (mode : c.mode = .method)
      (input : c.rest = Octets.emptyLines n ++ (text ++ Octet.sp :: rest)) (nonempty : text ≠ [])
      (token : ∀ b ∈ text, Octet.isToken b) (fits : text.length ≤ c.limits.method) :
      Scans c ⟨.method, c.position + 2 * n, text⟩
        { c with
          mode := .target
          position := c.position + 2 * n + text.length + 1
          lineStart := c.position + 2 * n
          rest }
  | target (text rest : Octets) (mode : c.mode = .target)
      (input : c.rest = text ++ Octet.sp :: rest)
      (nonempty : text ≠ []) (visible : ∀ b ∈ text, Octet.isTarget b)
      (fits : text.length ≤ c.limits.target) :
      Scans c ⟨.target, c.position, text⟩
        { c with mode := .version, position := c.position + text.length + 1, rest }
  | version (text rest : Octets) (mode : c.mode = .version) (input : c.rest = text ++ rest)
      (version : isVersion text) (stops : Stops Octet.isVisible rest) :
      Scans c ⟨.version, c.position, text⟩
        { c with mode := .requestLineEnd, position := c.position + text.length, rest }
  | lineEnd (rest : Octets) (mode : c.mode = .requestLineEnd ∨ c.mode = .fieldLineEnd)
      (input : c.rest = Octet.cr :: Octet.lf :: rest) :
      Scans c ⟨.lineEnd, c.position, Octets.crlf⟩
        { c with mode := .fieldName, position := c.position + 2, rest }
  | fieldName (text rest : Octets) (mode : c.mode = .fieldName)
      (input : c.rest = text ++ Octet.colon :: rest) (nonempty : text ≠ [])
      (token : ∀ b ∈ text, Octet.isToken b) (fits : text.length ≤ c.limits.fieldLine) :
      Scans c ⟨.fieldName, c.position, text⟩
        { c with
          mode := .fieldValue
          position := c.position + text.length + 1
          lineStart := c.position
          rest }
  | headEnd (rest : Octets) (mode : c.mode = .fieldName)
      (input : c.rest = Octet.cr :: Octet.lf :: rest) :
      Scans c ⟨.lineEnd, c.position, Octets.crlf⟩
        { c with mode := .finished, position := c.position + 2, lineStart := c.position, rest }
  | fieldValue (text rest : Octets) (mode : c.mode = .fieldValue) (input : c.rest = text ++ rest)
      (field : ∀ b ∈ text, Octet.isFieldText b) (stops : LineStops rest)
      (fits : c.position + text.length ≤ c.lineStart + c.limits.fieldLine) :
      Scans c ⟨.fieldValue, c.position + (text.takeWhile Octet.isBlank).length, text.trim⟩
        { c with mode := .fieldLineEnd, position := c.position + text.length, rest }

theorem goesOn_of_scans {c c' : Cursor} {t : Token} (h : c.Scans t c') : t.kind.goesOn := by
  cases h <;> rfl

/-! From the octets to the token. -/

theorem run_eq_of_append {c : Cursor} {bound : Nat} {p : UInt8 → Bool} {text rest : Octets}
    (h : c.rest = text ++ rest) (ht : ∀ b ∈ text, p b) (hr : Stops p rest)
    (hlen : text.length ≤ bound) : c.run bound p = text := by
  rw [run, h, takeWhile_append_stop ht hr, List.take_of_length_le hlen]

theorem rest_skip_of_append {c : Cursor} {text rest : Octets} (h : c.rest = text ++ rest) :
    (c.skip text.length).rest = rest := by
  simp [skip, h]

theorem emptyLines_crlf (rest : Octets) :
    emptyLines (Octet.cr :: Octet.lf :: rest) = emptyLines rest + 1 := by
  exact emptyLines.eq_1 rest

theorem emptyLines_eq_zero {b : UInt8} {rest : Octets} (h : b ≠ Octet.cr) :
    emptyLines (b :: rest) = 0 := by
  rw [emptyLines.eq_2]
  intro tail htail
  exact h (List.cons.inj htail).1

theorem emptyLines_append (n : Nat) (rest : Octets) :
    emptyLines (Octets.emptyLines n ++ rest) = n + emptyLines rest := by
  induction n with
  | zero => simp [Octets.emptyLines]
  | succ n ih =>
    have hcons : Octets.emptyLines (n + 1) ++ rest =
        Octet.cr :: Octet.lf :: (Octets.emptyLines n ++ rest) := by
      simp [Octets.emptyLines, List.replicate_succ, Octets.crlf]
    rw [hcons, emptyLines_crlf, ih]
    omega

theorem length_emptyLines (n : Nat) : (Octets.emptyLines n).length = 2 * n := by
  simp [Octets.emptyLines, Octets.crlf, Nat.mul_comm]

theorem skipEmptyLines_of_append {c : Cursor} {n : Nat} {b : UInt8} {rest : Octets}
    (h : c.rest = Octets.emptyLines n ++ b :: rest) (hb : b ≠ Octet.cr) :
    c.skipEmptyLines = { c with
      position := c.position + 2 * n, lineStart := c.position + 2 * n, rest := b :: rest } := by
  have hn : emptyLines c.rest = n := by
    rw [h, emptyLines_append, emptyLines_eq_zero hb, Nat.add_zero]
  have hdrop : c.rest.drop (2 * n) = b :: rest := by
    rw [h, ← length_emptyLines, List.drop_left]
  simp [skipEmptyLines, skip, hn, hdrop]

theorem nextMethod_of_append {c : Cursor} {n : Nat} {text rest : Octets}
    (h : c.rest = Octets.emptyLines n ++ (text ++ Octet.sp :: rest)) (hne : text ≠ [])
    (ht : ∀ b ∈ text, Octet.isToken b) (hlen : text.length ≤ c.limits.method) :
    c.nextMethod = (⟨.method, c.position + 2 * n, text⟩,
      { c with
        mode := .target
        position := c.position + 2 * n + text.length + 1
        lineStart := c.position + 2 * n
        rest }) := by
  obtain ⟨b, tail, rfl⟩ := List.exists_cons_of_ne_nil hne
  have hb : b ≠ Octet.cr := Octet.ne_of_class (by decide) (ht b (by simp))
  rw [nextMethod_eq, skipEmptyLines_of_append h hb]
  generalize hd : ({ c with
      position := c.position + 2 * n
      lineStart := c.position + 2 * n
      rest := b :: (tail.append (Octet.sp :: rest)) } : Cursor) = d
  have hdrest : d.rest = (b :: tail) ++ Octet.sp :: rest := by subst d; rfl
  have hlimit : (b :: tail).length ≤ d.limits.method := by subst d; exact hlen
  have hrun : d.run (d.limits.method + 1) Octet.isToken = b :: tail :=
    run_eq_of_append hdrest ht (stops_cons.2 (by decide)) (Nat.le_succ_of_le hlimit)
  simp only [hrun, rest_skip_of_append hdrest]
  rw [if_neg (by simp [hdrest]), if_neg (Nat.not_lt.2 hlimit), if_pos List.head?_cons, if_neg hne]
  subst d
  simp [pass, skip, Nat.add_assoc]

theorem nextTarget_of_append {c : Cursor} {text rest : Octets}
    (h : c.rest = text ++ Octet.sp :: rest) (hne : text ≠ []) (ht : ∀ b ∈ text, Octet.isTarget b)
    (hlen : text.length ≤ c.limits.target) :
    c.nextTarget = (⟨.target, c.position, text⟩,
      { c with mode := .version, position := c.position + text.length + 1, rest }) := by
  have hrun : c.run (c.limits.target + 1) Octet.isTarget = text :=
    run_eq_of_append h ht (stops_cons.2 (by decide)) (Nat.le_succ_of_le hlen)
  rw [nextTarget_eq]
  simp only [hrun, rest_skip_of_append h]
  rw [if_neg (Nat.not_lt.2 hlen), if_pos List.head?_cons, if_neg hne]
  simp [pass, skip, h, Nat.add_assoc]

theorem length_and_visible_of_isVersion {text : Octets} (h : isVersion text) :
    text.length = 8 ∧ ∀ b ∈ text, Octet.isVisible b := by
  unfold isVersion at h
  split at h
  · rename_i major minor
    rw [Bool.and_eq_true] at h
    have hmajor := Octet.isVisible_of_isDigit h.1
    have hminor := Octet.isVisible_of_isDigit h.2
    refine ⟨rfl, ?_⟩
    simp only [List.forall_mem_cons, hmajor, hminor, List.not_mem_nil, false_imp_iff, implies_true]
    decide
  · cases h

theorem nextVersion_of_append {c : Cursor} {text rest : Octets} (h : c.rest = text ++ rest)
    (hv : isVersion text) (hr : Stops Octet.isVisible rest) :
    c.nextVersion = (⟨.version, c.position, text⟩,
      { c with mode := .requestLineEnd, position := c.position + text.length, rest }) := by
  obtain ⟨hlen, hvisible⟩ := length_and_visible_of_isVersion hv
  have hrun : c.run 9 Octet.isVisible = text := run_eq_of_append h hvisible hr (by omega)
  simp only [nextVersion, hrun, hv, if_true]
  simp [pass, skip, h]

theorem nextLineEnd_of_crlf {c : Cursor} {rest : Octets}
    (h : c.rest = Octet.cr :: Octet.lf :: rest) :
    c.nextLineEnd = (⟨.lineEnd, c.position, Octets.crlf⟩,
      { c with mode := .fieldName, position := c.position + 2, rest }) := by
  rw [nextLineEnd_eq, if_neg (by simp [h]), if_pos ⟨rest, h.symm⟩]
  simp [pass, skip, h, Octets.crlf]

theorem nextFieldName_of_crlf {c : Cursor} {rest : Octets}
    (h : c.rest = Octet.cr :: Octet.lf :: rest) :
    c.nextFieldName = (⟨.lineEnd, c.position, Octets.crlf⟩,
      { c with mode := .finished, position := c.position + 2, lineStart := c.position, rest }) := by
  rw [nextFieldName_eq]
  simp only
  rw [if_neg (by simp [h]), if_pos ⟨rest, h.symm⟩]
  simp [pass, skip, h, Octets.crlf]

theorem nextFieldName_of_append {c : Cursor} {text rest : Octets}
    (h : c.rest = text ++ Octet.colon :: rest) (hne : text ≠ [])
    (ht : ∀ b ∈ text, Octet.isToken b) (hlen : text.length ≤ c.limits.fieldLine) :
    c.nextFieldName = (⟨.fieldName, c.position, text⟩,
      { c with
        mode := .fieldValue
        position := c.position + text.length + 1
        lineStart := c.position
        rest }) := by
  obtain ⟨b, tail, rfl⟩ := List.exists_cons_of_ne_nil hne
  have hb {a : UInt8} (ha : Octet.isToken a = false) : b ≠ a :=
    Octet.ne_of_class ha (ht b List.mem_cons_self)
  have hhead : c.rest.head? = some b := by rw [h]; rfl
  have hcrlf : ¬Octets.crlf <+: c.rest := by
    intro hprefix
    obtain ⟨more, hmore⟩ := hprefix
    exact hb (by decide) (List.cons.inj (h.symm.trans hmore.symm)).1
  have hline : ¬(c.rest.head? = some Octet.cr ∨ c.rest.head? = some Octet.lf) := by
    rw [hhead, Option.some_inj, Option.some_inj]
    exact not_or.2 ⟨hb (by decide), hb (by decide)⟩
  have hblank : ¬(c.rest.head? = some Octet.sp ∨ c.rest.head? = some Octet.htab) := by
    rw [hhead, Option.some_inj, Option.some_inj]
    exact not_or.2 ⟨hb (by decide), hb (by decide)⟩
  obtain ⟨d, hd⟩ : ∃ d : Cursor, d = { c with lineStart := c.position } := ⟨_, rfl⟩
  have hrest : d.rest = (b :: tail) ++ Octet.colon :: rest := by rw [hd]; exact h
  have hlimit : (b :: tail).length ≤ d.limits.fieldLine := by rw [hd]; exact hlen
  have hrun : d.run (d.limits.fieldLine + 1) Octet.isToken = b :: tail :=
    run_eq_of_append hrest ht (stops_cons.2 (by decide)) (Nat.le_succ_of_le hlimit)
  have hdrest : d.rest = c.rest := by rw [hd]
  rw [nextFieldName_eq, ← hd]
  simp only [hrun, rest_skip_of_append hrest]
  rw [hdrest, if_neg (by simp [h]), if_neg hcrlf, if_neg hline, if_neg hblank,
    if_neg (Nat.not_lt.2 hlimit), if_pos List.head?_cons, if_neg hne, hd]
  simp [pass, skip, h, Nat.add_assoc]

/-- The blanks in front of a value, and the text behind them up to the end of the line. -/
theorem run_fieldValue {c : Cursor} {text rest : Octets} (h : c.rest = text ++ rest)
    (ht : ∀ b ∈ text, Octet.isFieldText b) (hr : LineStops rest) (bound : Nat)
    (hlen : text.length ≤ (text.takeWhile Octet.isBlank).length + bound) :
    c.rest.takeWhile Octet.isBlank = text.takeWhile Octet.isBlank ∧
      (c.skip (text.takeWhile Octet.isBlank).length).rest = text.dropWhile Octet.isBlank ++ rest ∧
      (c.skip (text.takeWhile Octet.isBlank).length).run bound Octet.isFieldText =
        text.dropWhile Octet.isBlank := by
  have hstop (p : UInt8 → Bool) (hcr : p Octet.cr = false) (hlf : p Octet.lf = false) :
      Stops p rest := by
    intro b hb
    cases hr b hb with
    | inl heq => rw [heq]; exact hcr
    | inr heq => rw [heq]; exact hlf
  have hsplit := List.takeWhile_append_dropWhile (p := Octet.isBlank) (l := text)
  have hrest : c.rest = text.takeWhile Octet.isBlank ++ (text.dropWhile Octet.isBlank ++ rest) := by
    rw [← List.append_assoc, hsplit, h]
  have hskip := rest_skip_of_append hrest
  refine ⟨?_, hskip, run_eq_of_append hskip ?_ (hstop _ (by decide) (by decide)) ?_⟩
  · rw [hrest, takeWhile_append_stop fun b => List.mem_takeWhile_imp]
    cases hdrop : text.dropWhile Octet.isBlank with
    | nil => exact hstop _ (by decide) (by decide)
    | cons b tail =>
      have := stops_dropWhile Octet.isBlank text
      rw [hdrop] at this
      exact stops_cons.2 (stops_cons.1 this)
  · intro b hb
    exact ht b ((List.dropWhile_sublist _).subset hb)
  · have := congrArg List.length hsplit
    rw [List.length_append] at this
    omega

theorem nextFieldValue_of_append {c : Cursor} {text rest : Octets} (h : c.rest = text ++ rest)
    (ht : ∀ b ∈ text, Octet.isFieldText b) (hr : LineStops rest)
    (hfits : c.position + text.length ≤ c.lineStart + c.limits.fieldLine)
    (hc : c.lineStart ≤ c.position) :
    c.nextFieldValue =
      (⟨.fieldValue, c.position + (text.takeWhile Octet.isBlank).length, text.trim⟩,
        { c with mode := .fieldLineEnd, position := c.position + text.length, rest }) := by
  have hlen := congrArg List.length
    (List.takeWhile_append_dropWhile (p := Octet.isBlank) (l := text))
  rw [List.length_append] at hlen
  generalize hd : c.skip (text.takeWhile Octet.isBlank).length = d
  have hpos : d.position = c.position + (text.takeWhile Octet.isBlank).length := by
    rw [← hd]
    rfl
  have hline : d.lineStart = c.lineStart ∧ d.limits.fieldLine = c.limits.fieldLine := by
    rw [← hd]
    exact ⟨rfl, rfl⟩
  obtain ⟨hblank, hrest, hrun⟩ := run_fieldValue h ht hr
    (d.limits.fieldLine + 1 - (d.position - d.lineStart)) (by omega)
  rw [hd] at hrest hrun
  have htrim := length_trimEnd_le (text.dropWhile Octet.isBlank)
  generalize hvalue : Octets.trimEnd (text.dropWhile Octet.isBlank) = value at htrim
  have hpass : d.pass .fieldValue value ((text.dropWhile Octet.isBlank).length - value.length)
      .fieldLineEnd = (⟨.fieldValue, c.position + (text.takeWhile Octet.isBlank).length, text.trim⟩,
        { c with mode := .fieldLineEnd, position := c.position + text.length, rest }) := by
    have hgap : value.length + ((text.dropWhile Octet.isBlank).length - value.length) =
        (text.dropWhile Octet.isBlank).length := by omega
    have hdrop : d.rest.drop (text.dropWhile Octet.isBlank).length = rest := by
      rw [hrest, List.drop_left]
    simp only [pass, skip, hgap, hdrop, hpos, ← hlen, Nat.add_assoc]
    subst hd hvalue
    rfl
  rw [nextFieldValue_eq]
  simp only [hblank, hd, hrun, rest_skip_of_append hrest, hvalue]
  rw [if_neg (by omega), if_pos (lineStops_iff.1 hr)]
  exact hpass

theorem next_of_scans {c c' : Cursor} {t : Token} (h : c.Scans t c')
    (hc : c.lineStart ≤ c.position) :
    c.next = (t, c') := by
  cases h with
  | method n text rest mode input nonempty token fits =>
    rw [next, mode]
    exact nextMethod_of_append input nonempty token fits
  | target text rest mode input nonempty visible fits =>
    rw [next, mode]
    exact nextTarget_of_append input nonempty visible fits
  | version text rest mode input version stops =>
    rw [next, mode]
    exact nextVersion_of_append input version stops
  | lineEnd rest mode input =>
    cases mode with
    | inl mode => rw [next, mode]; exact nextLineEnd_of_crlf input
    | inr mode => rw [next, mode]; exact nextLineEnd_of_crlf input
  | fieldName text rest mode input nonempty token fits =>
    rw [next, mode]
    exact nextFieldName_of_append input nonempty token fits
  | headEnd rest mode input =>
    rw [next, mode]
    exact nextFieldName_of_crlf input
  | fieldValue text rest mode input field stops fits =>
    rw [next, mode]
    exact nextFieldValue_of_append input field stops fits hc

/-! From the token to the octets. -/

theorem rest_eq_run_append {c : Cursor} (bound : Nat) (p : UInt8 → Bool) {tail : Octets}
    (h : (c.skip (c.run bound p).length).rest = tail) : c.rest = c.run bound p ++ tail := by
  have hprefix : c.run bound p <+: c.rest := (List.take_prefix ..).trans (List.takeWhile_prefix p)
  obtain ⟨tail', htail⟩ := hprefix
  rw [← h, rest_skip_of_append htail.symm, htail]

theorem of_mem_run {c : Cursor} {bound : Nat} {p : UInt8 → Bool} {b : UInt8}
    (h : b ∈ c.run bound p) : p b :=
  List.mem_takeWhile_imp (List.mem_of_mem_take h)

theorem stops_behind_run {c : Cursor} {bound : Nat} {p : UInt8 → Bool}
    (h : (c.run bound p).length < bound) :
    Stops p (c.skip (c.run bound p).length).rest := by
  have hfull : c.run bound p = c.rest.takeWhile p := by
    rw [run, List.length_take] at h
    rw [run, List.take_of_length_le (by omega)]
  have hdrop : (c.skip (c.run bound p).length).rest = c.rest.dropWhile p := by
    have hrest := rest_eq_run_append (c := c) bound p rfl
    rw [hfull] at hrest ⊢
    exact List.append_cancel_left (hrest.symm.trans List.takeWhile_append_dropWhile.symm)
  rw [hdrop]
  exact stops_dropWhile _ _

theorem eq_emptyLines_append (rest : Octets) :
    rest = Octets.emptyLines (emptyLines rest) ++ rest.drop (2 * emptyLines rest) := by
  fun_induction emptyLines rest with
  | case1 rest ih =>
    have hcons : Octets.emptyLines (emptyLines rest + 1) =
        Octet.cr :: Octet.lf :: Octets.emptyLines (emptyLines rest) := by
      simp [Octets.emptyLines, List.replicate_succ, Octets.crlf]
    rw [hcons, Nat.mul_add, List.cons_append, List.cons_append]
    exact congrArg (fun text => Octet.cr :: Octet.lf :: text) ih
  | case2 => simp [Octets.emptyLines]

theorem emptyLines_drop (rest : Octets) : emptyLines (rest.drop (2 * emptyLines rest)) = 0 := by
  have h := congrArg emptyLines (eq_emptyLines_append rest)
  rw [emptyLines_append] at h
  omega

theorem next_skipEmptyLines {c : Cursor} (hm : c.mode = .method) :
    c.skipEmptyLines.next = c.next := by
  have hskip : c.skipEmptyLines.skipEmptyLines = c.skipEmptyLines := by
    have hnone : emptyLines c.skipEmptyLines.rest = 0 := emptyLines_drop c.rest
    rw [skipEmptyLines, hnone]
    rfl
  have hmode : c.skipEmptyLines.mode = .method := hm
  rw [next, next, hmode, hm]
  change c.skipEmptyLines.nextMethod = c.nextMethod
  rw [nextMethod_eq, nextMethod_eq, hskip]

theorem not_goesOn_fail {c : Cursor} {v : Violation} {offset : Nat} :
    ¬(c.fail v offset).1.kind.goesOn := Bool.false_ne_true

theorem scans_nextMethod {c : Cursor} (hm : c.mode = .method) (h : c.nextMethod.1.kind.goesOn) :
    c.Scans c.nextMethod.1 c.nextMethod.2 := by
  suffices hs : ∃ text rest : Octets,
      c.skipEmptyLines.rest = text ++ Octet.sp :: rest ∧ text ≠ [] ∧
        (∀ b ∈ text, Octet.isToken b) ∧ text.length ≤ c.limits.method by
    obtain ⟨text, rest, hrest, hne, ht, hlen⟩ := hs
    have hinput : c.rest = Octets.emptyLines (emptyLines c.rest) ++ (text ++ Octet.sp :: rest) := by
      rw [← hrest]
      exact eq_emptyLines_append c.rest
    rw [nextMethod_of_append hinput hne ht hlen]
    exact .method _ text rest hm hinput hne ht hlen
  revert h
  rw [nextMethod_eq]
  generalize hd : c.skipEmptyLines = d
  have hlimits : d.limits.method = c.limits.method := by rw [← hd]; rfl
  intro h
  simp only at h
  split at h
  · exact absurd h Bool.false_ne_true
  split at h
  · exact absurd h not_goesOn_fail
  rename_i hlen
  split at h
  · rename_i hspace
    split at h
    · exact absurd h not_goesOn_fail
    rename_i hne
    obtain ⟨rest, hrest⟩ := List.head?_eq_some_iff.1 hspace
    exact ⟨_, rest, rest_eq_run_append _ _ hrest, hne, fun b => of_mem_run, by omega⟩
  split at h
  all_goals exact absurd h not_goesOn_fail

theorem scans_nextTarget {c : Cursor} (hm : c.mode = .target) (h : c.nextTarget.1.kind.goesOn) :
    c.Scans c.nextTarget.1 c.nextTarget.2 := by
  suffices hs : ∃ text rest : Octets, c.rest = text ++ Octet.sp :: rest ∧ text ≠ [] ∧
      (∀ b ∈ text, Octet.isTarget b) ∧ text.length ≤ c.limits.target by
    obtain ⟨text, rest, hrest, hne, ht, hlen⟩ := hs
    rw [nextTarget_of_append hrest hne ht hlen]
    exact .target text rest hm hrest hne ht hlen
  rw [nextTarget_eq] at h
  simp only at h
  split at h
  · exact absurd h not_goesOn_fail
  rename_i hlen
  split at h
  · rename_i hspace
    split at h
    · exact absurd h not_goesOn_fail
    rename_i hne
    obtain ⟨rest, hrest⟩ := List.head?_eq_some_iff.1 hspace
    exact ⟨_, rest, rest_eq_run_append _ _ hrest, hne, fun b => of_mem_run, by omega⟩
  split at h
  all_goals
    split at h
    all_goals exact absurd h not_goesOn_fail

theorem scans_nextVersion {c : Cursor} (hm : c.mode = .version)
    (h : c.nextVersion.1.kind.goesOn) : c.Scans c.nextVersion.1 c.nextVersion.2 := by
  rw [nextVersion] at h
  split at h
  · rename_i hv
    obtain ⟨hlen, -⟩ := length_and_visible_of_isVersion hv
    have hrest := rest_eq_run_append (c := c) 9 Octet.isVisible rfl
    -- The run has eight octets and could have had nine.
    have hstops : Stops Octet.isVisible (c.skip (c.run 9 Octet.isVisible).length).rest :=
      stops_behind_run (by omega)
    rw [nextVersion_of_append hrest hv hstops]
    exact .version _ _ hm hrest hv hstops
  · exact absurd h not_goesOn_fail

theorem scans_nextLineEnd {c : Cursor} (hm : c.mode = .requestLineEnd ∨ c.mode = .fieldLineEnd)
    (h : c.nextLineEnd.1.kind.goesOn) : c.Scans c.nextLineEnd.1 c.nextLineEnd.2 := by
  rw [nextLineEnd_eq] at h
  split at h
  · exact absurd h Bool.false_ne_true
  split at h
  · rename_i hcrlf
    obtain ⟨rest, hrest⟩ := hcrlf
    rw [nextLineEnd_of_crlf hrest.symm]
    exact .lineEnd rest hm hrest.symm
  · exact absurd h not_goesOn_fail

theorem not_goesOn_failName {c : Cursor} : ¬c.failName.1.kind.goesOn := by
  rw [failName_eq]
  split
  · exact not_goesOn_fail
  split
  all_goals
    split
    all_goals exact not_goesOn_fail

theorem scans_nextFieldName {c : Cursor} (hm : c.mode = .fieldName)
    (h : c.nextFieldName.1.kind.goesOn) : c.Scans c.nextFieldName.1 c.nextFieldName.2 := by
  suffices hs : (∃ rest, c.rest = Octet.cr :: Octet.lf :: rest) ∨
      ∃ text rest : Octets, c.rest = text ++ Octet.colon :: rest ∧ text ≠ [] ∧
        (∀ b ∈ text, Octet.isToken b) ∧ text.length ≤ c.limits.fieldLine by
    obtain ⟨rest, hrest⟩ | ⟨text, rest, hrest, hne, ht, hlen⟩ := hs
    · rw [nextFieldName_of_crlf hrest]
      exact .headEnd rest hm hrest
    · rw [nextFieldName_of_append hrest hne ht hlen]
      exact .fieldName text rest hm hrest hne ht hlen
  rw [nextFieldName_eq] at h
  simp only at h
  split at h
  · exact absurd h Bool.false_ne_true
  split at h
  · rename_i hcrlf
    obtain ⟨rest, hrest⟩ := hcrlf
    exact .inl ⟨rest, hrest.symm⟩
  split at h
  · exact absurd h not_goesOn_fail
  split at h
  · exact absurd h not_goesOn_fail
  split at h
  · exact absurd h not_goesOn_fail
  rename_i hlen
  split at h
  · rename_i hcolon
    split at h
    · exact absurd h not_goesOn_fail
    rename_i hne
    obtain ⟨rest, hrest⟩ := List.head?_eq_some_iff.1 hcolon
    exact .inr ⟨_, rest, rest_eq_run_append _ _ hrest, hne, fun b => of_mem_run,
      Nat.not_lt.1 hlen⟩
  · exact absurd h not_goesOn_failName

theorem scans_nextFieldValue {c : Cursor} (hm : c.mode = .fieldValue)
    (hc : c.lineStart ≤ c.position)
    (h : c.nextFieldValue.1.kind.goesOn) : c.Scans c.nextFieldValue.1 c.nextFieldValue.2 := by
  suffices hs : ∃ text rest : Octets, c.rest = text ++ rest ∧ (∀ b ∈ text, Octet.isFieldText b) ∧
      LineStops rest ∧ c.position + text.length ≤ c.lineStart + c.limits.fieldLine by
    obtain ⟨text, rest, hrest, ht, hstops, hfits⟩ := hs
    rw [nextFieldValue_of_append hrest ht hstops hfits hc]
    exact .fieldValue text rest hm hrest ht hstops hfits
  have hblanks : c.rest = c.rest.takeWhile Octet.isBlank ++
      (c.skip (c.rest.takeWhile Octet.isBlank).length).rest := by
    obtain ⟨tail, htail⟩ := List.takeWhile_prefix Octet.isBlank (l := c.rest)
    rw [rest_skip_of_append htail.symm, htail]
  rw [nextFieldValue_eq] at h
  generalize hd : c.skip (c.rest.takeWhile Octet.isBlank).length = d at h hblanks
  have hused : d.position - d.lineStart =
      c.position + (c.rest.takeWhile Octet.isBlank).length - c.lineStart := by rw [← hd]; rfl
  have hlimits : d.limits = c.limits := by rw [← hd]; rfl
  simp only [hused, hlimits] at h
  split at h
  · exact absurd h not_goesOn_fail
  rename_i hfits
  split at h
  · rename_i hstops
    have hrest := rest_eq_run_append (c := d)
      (c.limits.fieldLine + 1 -
        (c.position + (c.rest.takeWhile Octet.isBlank).length - c.lineStart)) Octet.isFieldText rfl
    refine ⟨_, _, (hblanks.trans (congrArg _ hrest)).trans (List.append_assoc ..).symm, ?_,
      lineStops_iff.2 hstops, ?_⟩
    · intro b hb
      cases List.mem_append.1 hb with
      | inl hb => exact Octet.isFieldText_of_isBlank (List.mem_takeWhile_imp hb)
      | inr hb => exact of_mem_run hb
    · rw [List.length_append]
      omega
  · exact absurd h not_goesOn_fail

theorem scans_next {c : Cursor} (hc : c.lineStart ≤ c.position) (h : c.next.1.kind.goesOn) :
    c.Scans c.next.1 c.next.2 := by
  cases hm : c.mode with
  | method => rw [next, hm] at h ⊢; exact scans_nextMethod hm h
  | target => rw [next, hm] at h ⊢; exact scans_nextTarget hm h
  | version => rw [next, hm] at h ⊢; exact scans_nextVersion hm h
  | requestLineEnd => rw [next, hm] at h ⊢; exact scans_nextLineEnd (.inl hm) h
  | fieldName => rw [next, hm] at h ⊢; exact scans_nextFieldName hm h
  | fieldValue => rw [next, hm] at h ⊢; exact scans_nextFieldValue hm hc h
  | fieldLineEnd => rw [next, hm] at h ⊢; exact scans_nextLineEnd (.inr hm) h
  | finished => rw [next, hm] at h; exact absurd h Bool.false_ne_true
  | failed v offset => rw [next, hm] at h; exact absurd h not_goesOn_fail

/-- The tokens that let a parse go on are exactly those that can be told by their octets. -/
theorem scans_iff {c c' : Cursor} {t : Token} (hc : c.lineStart ≤ c.position) :
    c.Scans t c' ↔ c.next = (t, c') ∧ t.kind.goesOn := by
  constructor
  · intro h
    exact ⟨next_of_scans h hc, goesOn_of_scans h⟩
  · intro hboth
    obtain ⟨hnext, hgo⟩ := hboth
    have h := scans_next (c := c) hc (by rw [hnext]; exact hgo)
    rwa [hnext] at h

end Cursor

end HttpHead
