import HttpHead.Proofs.Walk

/-! Where an input starts does not matter. A cursor that was moved by a number of octets, with the
same octets left, reads the same tokens moved by that number (`next_shift`), and a parse over it
comes to the same end (`run_shift`). To begin a request where a cursor is, is to start afresh there
(`beginRequest_eq`). -/
namespace HttpHead

def Token.shift (n : Nat) (t : Token) : Token := { t with offset := t.offset + n }

def Mode.shift (n : Nat) : Mode → Mode
  | failed violation offset => failed violation (offset + n)
  | mode => mode

def Stage.shift (n : Nat) : Stage → Stage
  | fieldName name => fieldName (name.shift n)
  | fieldColon name => fieldColon (name.shift n)
  | rejected violation offset => rejected violation (offset + n)
  | stage => stage

def Error.shift (n : Nat) : Error → Error
  | malformed violation offset => malformed violation (offset + n)
  | error => error

namespace Stage

theorem isFinal_shift (stage : Stage) (n : Nat) : (stage.shift n).isFinal = stage.isFinal := by
  cases stage <;> rfl

theorem reads_shift (stage : Stage) (n : Nat) : (stage.shift n).reads = stage.reads := by
  cases stage <;> rfl

theorem passed_shift (stage : Stage) (n : Nat) :
    (stage.shift n).passed = stage.passed.shift n := by
  cases stage <;> rfl

end Stage

namespace Cursor

def shift (n : Nat) (c : Cursor) : Cursor :=
  { c with
    mode := c.mode.shift n
    position := c.position + n
    lineStart := c.lineStart + n }

variable {c : Cursor} {n : Nat}

@[simp] theorem limits_shift : (c.shift n).limits = c.limits := rfl

@[simp] theorem mode_shift : (c.shift n).mode = c.mode.shift n := rfl

@[simp] theorem position_shift : (c.shift n).position = c.position + n := rfl

@[simp] theorem lineStart_shift : (c.shift n).lineStart = c.lineStart + n := rfl

@[simp] theorem rest_shift : (c.shift n).rest = c.rest := rfl

@[simp] theorem run_shift (bound : Nat) (p : UInt8 → Bool) :
    (c.shift n).run bound p = c.run bound p := rfl

@[simp] theorem skip_shift (k : Nat) : (c.shift n).skip k = (c.skip k).shift n := by
  simp [skip, shift, Nat.add_right_comm]

def shiftBoth (n : Nat) (out : Token × Cursor) : Token × Cursor := (out.1.shift n, out.2.shift n)

theorem pass_shift {kind : TokenKind} {text : Octets} {gap : Nat} {mode : Mode}
    (hmode : mode.shift n = mode) :
    (c.shift n).pass kind text gap mode = shiftBoth n (c.pass kind text gap mode) := by
  rw [pass, pass, skip_shift]
  simp only [shiftBoth, Token.shift, shift, hmode]

theorem skipEmptyLines_shift : (c.shift n).skipEmptyLines = c.skipEmptyLines.shift n := by
  simp only [skipEmptyLines, rest_shift, skip_shift]
  rfl

theorem nextMethod_shift : (c.shift n).nextMethod = shiftBoth n c.nextMethod := by
  rw [nextMethod_eq, nextMethod_eq, skipEmptyLines_shift]
  generalize c.skipEmptyLines = d
  simp only [limits_shift, rest_shift, position_shift, run_shift, skip_shift]
  split
  · rfl
  split
  · rfl
  split
  · split
    · rfl
    · exact pass_shift rfl
  split
  all_goals rfl

theorem nextTarget_shift : (c.shift n).nextTarget = shiftBoth n c.nextTarget := by
  rw [nextTarget_eq, nextTarget_eq]
  simp only [limits_shift, position_shift, run_shift, skip_shift, rest_shift]
  split
  · rfl
  split
  · split
    · rfl
    · exact pass_shift rfl
  split_ifs
  all_goals rfl

theorem nextVersion_shift : (c.shift n).nextVersion = shiftBoth n c.nextVersion := by
  simp only [nextVersion, run_shift, skip_shift]
  split
  · exact pass_shift rfl
  · rfl

theorem nextLineEnd_shift : (c.shift n).nextLineEnd = shiftBoth n c.nextLineEnd := by
  rw [nextLineEnd_eq, nextLineEnd_eq, rest_shift]
  split
  · rfl
  split
  · exact pass_shift rfl
  · rfl

theorem failName_shift : (c.shift n).failName = shiftBoth n c.failName := by
  rw [failName_eq, failName_eq, rest_shift]
  split_ifs
  all_goals rfl

theorem nextFieldName_shift : (c.shift n).nextFieldName = shiftBoth n c.nextFieldName := by
  obtain ⟨d, hd⟩ : ∃ d : Cursor, d = { c with lineStart := c.position } := ⟨_, rfl⟩
  have hd' : ({ c.shift n with lineStart := (c.shift n).position } : Cursor) = d.shift n := by
    rw [hd]
    rfl
  rw [nextFieldName_eq, nextFieldName_eq, hd', ← hd]
  simp only [limits_shift, rest_shift, run_shift, skip_shift]
  split
  · rfl
  split
  · exact pass_shift rfl
  split
  · rfl
  split
  · rfl
  split
  · rfl
  split
  · split
    · rfl
    · exact pass_shift rfl
  · exact failName_shift

theorem nextFieldValue_shift : (c.shift n).nextFieldValue = shiftBoth n c.nextFieldValue := by
  rw [nextFieldValue_eq, nextFieldValue_eq]
  simp only [rest_shift, skip_shift]
  generalize c.skip (c.rest.takeWhile Octet.isBlank).length = d
  simp only [limits_shift, position_shift, lineStart_shift, run_shift, Nat.add_sub_add_right]
  split
  · rfl
  split
  · exact pass_shift rfl
  · rfl

/-- Where a cursor stands in its input does not change what it reads. -/
theorem next_shift : (c.shift n).next = shiftBoth n c.next := by
  rw [next, next, mode_shift]
  cases hm : c.mode with
  | method => exact nextMethod_shift
  | target => exact nextTarget_shift
  | version => exact nextVersion_shift
  | requestLineEnd => exact nextLineEnd_shift
  | fieldName => exact nextFieldName_shift
  | fieldValue => exact nextFieldValue_shift
  | fieldLineEnd => exact nextLineEnd_shift
  | finished => rfl
  | failed violation offset => rfl

theorem tokens_shift (k : Nat) :
    (c.shift n).tokens k = ((c.tokens k).1.map (Token.shift n), (c.tokens k).2.shift n) := by
  induction k generalizing c with
  | zero => rfl
  | succ k ih =>
    simp only [tokens, next_shift, shiftBoth, ih, List.map_cons]

end Cursor

namespace Parse

def shift (n : Nat) (p : Parse) : Parse :=
  { p with cursor := p.cursor.shift n, stage := p.stage.shift n }

variable {p : Parse} {n : Nat}

theorem takeMethod_shift (t : Token) :
    (p.shift n).takeMethod (t.shift n) = (p.takeMethod t).shift n := by
  have htext : (t.shift n).text = t.text := rfl
  have hconfig : (p.shift n).config = p.config := rfl
  rw [takeMethod, takeMethod, htext]
  cases Utf8.decode? t.text with
  | none => rfl
  | some text =>
    simp only [hconfig]
    cases p.config.isStrict && (Method.ofText text).isExtension <;> rfl

theorem takeTarget_shift (t : Token) :
    (p.shift n).takeTarget (t.shift n) = (p.takeTarget t).shift n := by
  have htext : (t.shift n).text = t.text := rfl
  rw [takeTarget, takeTarget, htext]
  cases Utf8.decode? t.text <;> rfl

theorem takeVersion_shift (t : Token) :
    (p.shift n).takeVersion (t.shift n) = (p.takeVersion t).shift n := by
  have htext : (t.shift n).text = t.text := rfl
  rw [takeVersion, takeVersion, htext]
  cases Version.ofOctets? t.text <;> rfl

theorem takeFieldName_shift (t : Token) :
    (p.shift n).takeFieldName (t.shift n) = (p.takeFieldName t).shift n := by
  have hfull : (p.shift n).config.limits.fieldCount ≤ (p.shift n).request.fields.size ↔
      p.config.limits.fieldCount ≤ p.request.fields.size := Iff.rfl
  rw [takeFieldName, takeFieldName]
  simp only [hfull]
  split <;> rfl

theorem fieldOffset_shift (name value : Token) (violation : Violation) :
    fieldOffset (name.shift n) (value.shift n) violation =
      fieldOffset name value violation + n := by
  cases violation <;> rfl

theorem takeField_shift (name value : Token) :
    (p.shift n).takeField (name.shift n) (value.shift n) = (p.takeField name value).shift n := by
  have htext (t : Token) : (t.shift n).text = t.text := rfl
  have hnote : (p.shift n).summary.note (p.shift n).config.isStrict =
      p.summary.note p.config.isStrict := rfl
  simp only [takeField, htext, hnote, fieldOffset_shift]
  cases Utf8.decode? name.text with
  | none => rfl
  | some spelled =>
    simp only
    cases p.summary.note p.config.isStrict ⟨spelled, value.text⟩ <;> rfl

theorem close_shift (t : Token) : (p.shift n).close (t.shift n) = (p.close t).shift n := by
  have hmissing : ((p.shift n).config.isStrict && (p.shift n).request.version == .http11 &&
      (p.shift n).summary.hosts == 0) =
        (p.config.isStrict && p.request.version == .http11 && p.summary.hosts == 0) := rfl
  rw [close, close, hmissing]
  split <;> rfl

theorem take_shift (t : Token) : (p.shift n).take (t.shift n) = (p.take t).shift n := by
  have hstage : (p.shift n).stage = p.stage.shift n := rfl
  have hkind : (t.shift n).kind = t.kind := rfl
  rw [take, hstage, hkind]
  fun_cases take p t with
  | case1 violation hk =>
    rw [hk]
    cases p.stage
    all_goals rfl
  | case2 hk hs => rw [hk, hs]; exact takeMethod_shift t
  | case3 hk hs => rw [hk, hs]; exact takeTarget_shift t
  | case4 hk hs => rw [hk, hs]; exact takeVersion_shift t
  | case5 hk hs => rw [hk, hs]; rfl
  | case6 hk hs => rw [hk, hs]; exact takeFieldName_shift t
  | case7 hk hs => rw [hk, hs]; exact takeFieldName_shift t
  | case8 hk hs => rw [hk, hs]; rfl
  | case9 hk hs => rw [hk, hs]; rfl
  | case10 name hk hs => rw [hk, hs]; exact takeField_shift name t
  | case11 hk hs => rw [hk, hs]; rfl
  | case12 hk hs => rw [hk, hs]; exact close_shift t
  | case13 hk hs =>
    rw [hk]
    cases h : p.stage with
    | fieldsDone => exact absurd h hs
    | _ => rfl
  | case14 =>
    -- No stage wants a token of this kind, so the matches above are all refuted.
    cases hs : p.stage
    all_goals cases hk : t.kind
    all_goals first
      | rfl
      | simp_all

theorem step_shift : (p.shift n).step = p.step.shift n := by
  have hreads : (p.shift n).stage.reads = p.stage.reads := p.stage.reads_shift n
  cases hr : p.stage.reads with
  | true =>
    have hnext : (p.shift n).cursor.next = Cursor.shiftBoth n p.cursor.next := Cursor.next_shift
    rw [step_of_reads (hreads.trans hr), step_of_reads hr, hnext, ← take_shift]
    rfl
  | false =>
    have hpassed : (p.shift n).stage.passed = p.stage.passed.shift n :=
      p.stage.passed_shift n
    rw [step_of_not_reads (hreads.trans hr), step_of_not_reads hr, hpassed]
    rfl

theorem run_shift : (p.shift n).run = p.run.shift n := by
  induction p using run_induction with
  | final p hfinal =>
    have hfinal' : (p.shift n).stage.isFinal := (p.stage.isFinal_shift n).trans hfinal
    rw [run_of_isFinal hfinal, run_of_isFinal hfinal']
  | step p _ ih => rw [← run_step (p.shift n), step_shift, ih, run_step]

theorem result_shift : (p.shift n).result = p.result.mapError (Error.shift n) := by
  have hstage : (p.shift n).stage = p.stage.shift n := rfl
  rw [result, result, hstage]
  cases p.stage <;> rfl

theorem headLength?_shift : (p.shift n).headLength? = p.headLength?.map (· + n) := by
  have hstage : (p.shift n).stage = p.stage.shift n := rfl
  rw [headLength?, headLength?, hstage]
  cases p.stage <;> rfl

end Parse

namespace Place

theorem Sound.beginRequest_eq {place : Place} (h : place.Sound) :
    place.cursor.beginRequest =
      (Cursor.start place.cursor.limits (place.input.drop place.cursor.position)).shift
        place.cursor.position := by
  simp [Cursor.beginRequest, Cursor.start, Cursor.shift, Mode.shift, h.rest_eq]

/-- To begin a request where moves have led a cursor is to start afresh with what is left of the
input: the same tokens follow, and a parse comes to the same end, with every offset counted from
there. -/
theorem beginRequest_restarts (limits : Limits) (input : Octets) (moves : List Move) :
    let place := (start limits input).walk moves
    let passed := place.cursor.position
    let begun := place.cursor.beginRequest
    let fresh := Cursor.start limits (place.input.drop passed)
    (∀ n, (begun.tokens n).1 = (fresh.tokens n).1.map (Token.shift passed) ∧
        (begun.tokens n).2.position = (fresh.tokens n).2.position + passed) ∧
      ∀ (config : Config) (request : Request),
        let here := ({ config, cursor := begun, request } : Parse).run
        let afresh := ({ config, cursor := fresh, request } : Parse).run
        here.request = afresh.request ∧ here.stage = afresh.stage.shift passed ∧
          here.result = afresh.result.mapError (Error.shift passed) ∧
          here.cursor.position = afresh.cursor.position + passed ∧
          here.headLength? = afresh.headLength?.map (· + passed) := by
  intro place passed begun fresh
  have hbegun : begun = fresh.shift passed := by
    have hsound : place.Sound := sound_walk (sound_start limits input) moves
    have hlimits : place.cursor.limits = limits := limits_walk (start limits input) moves
    have h := hsound.beginRequest_eq
    rwa [hlimits] at h
  constructor
  · intro n
    rw [hbegun, Cursor.tokens_shift]
    exact ⟨rfl, rfl⟩
  · intro config request here afresh
    have hrun : here = afresh.shift passed := by
      have hstart : ({ config, cursor := begun, request } : Parse) =
          ({ config, cursor := fresh, request } : Parse).shift passed := by
        rw [hbegun]
        rfl
      exact (congrArg Parse.run hstart).trans Parse.run_shift
    rw [hrun]
    exact ⟨rfl, rfl, Parse.result_shift, rfl, Parse.headLength?_shift⟩

end Place

end HttpHead
