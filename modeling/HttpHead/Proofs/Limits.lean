import HttpHead.Proofs.Receiver
import HttpHead.Proofs.Walk

/-! A parse under wider limits. A limit is looked at only to find that it is broken, so a cursor
reads under wider limits what it reads under narrow ones (`next_withLimits`), and a parse comes to
the same end (`run_withLimits`), unless a narrow limit is broken. -/
namespace HttpHead

def Violation.isLimit : Violation → Bool
  | .methodTooLarge | .targetTooLarge | .headerTooLarge | .tooManyHeaders => true
  | _ => false

def TokenKind.breaksLimit : TokenKind → Bool
  | .invalid violation => violation.isLimit
  | _ => false

def Stage.breaksLimit : Stage → Bool
  | .rejected violation _ => violation.isLimit
  | _ => false

/-- No limit on a head is above that of the other limits. The limit of a stream is not one on a
head, and may be any. -/
structure Limits.Within (narrow wide : Limits) : Prop where
  method : narrow.method ≤ wide.method
  target : narrow.target ≤ wide.target
  fieldLine : narrow.fieldLine ≤ wide.fieldLine
  fieldCount : narrow.fieldCount ≤ wide.fieldCount

def Config.withLimits (limits : Limits) (config : Config) : Config := { config with limits }

namespace Cursor

def withLimits (limits : Limits) (c : Cursor) : Cursor := { c with limits }

variable {c : Cursor} {limits : Limits}

@[simp] theorem limits_withLimits : (c.withLimits limits).limits = limits := rfl

@[simp] theorem mode_withLimits : (c.withLimits limits).mode = c.mode := rfl

@[simp] theorem position_withLimits : (c.withLimits limits).position = c.position := rfl

@[simp] theorem lineStart_withLimits : (c.withLimits limits).lineStart = c.lineStart := rfl

@[simp] theorem rest_withLimits : (c.withLimits limits).rest = c.rest := rfl

@[simp] theorem run_withLimits (bound : Nat) (p : UInt8 → Bool) :
    (c.withLimits limits).run bound p = c.run bound p := rfl

@[simp] theorem skip_withLimits (n : Nat) :
    (c.withLimits limits).skip n = (c.skip n).withLimits limits := rfl

/-- What is read under a limit, behind `used` octets that count as well, is read under a wider one,
and it is too long for both or for none. -/
theorem run_limit (used : Nat) {narrow wide : Nat} {p : UInt8 → Bool} (h : narrow ≤ wide)
    (hback : narrow < used + (c.run (narrow + 1 - used) p).length → wide ≤ narrow) :
    c.run (wide + 1 - used) p = c.run (narrow + 1 - used) p ∧
      (wide < used + (c.run (narrow + 1 - used) p).length ↔
        narrow < used + (c.run (narrow + 1 - used) p).length) := by
  by_cases hlarge : narrow < used + (c.run (narrow + 1 - used) p).length
  · rw [Nat.le_antisymm (hback hlarge) h]
    exact ⟨rfl, Iff.rfl⟩
  · -- What is not too long is the whole run, so neither bound cuts it.
    refine ⟨?_, by omega⟩
    simp only [run, List.length_take] at hlarge ⊢
    rw [List.take_of_length_le (by omega), List.take_of_length_le (by omega)]

theorem run_limit_zero {narrow wide : Nat} {p : UInt8 → Bool} (h : narrow ≤ wide)
    (hback : narrow < (c.run (narrow + 1) p).length → wide ≤ narrow) :
    c.run (wide + 1) p = c.run (narrow + 1) p ∧
      (wide < (c.run (narrow + 1) p).length ↔ narrow < (c.run (narrow + 1) p).length) := by
  have hrun := run_limit (c := c) (p := p) 0 h
  simp only [Nat.zero_add, Nat.sub_zero] at hrun
  exact hrun hback

theorem nextMethod_withLimits (h : c.limits.Within limits)
    (hback : c.nextMethod.1.kind.breaksLimit → limits.Within c.limits) :
    (c.withLimits limits).nextMethod = (c.nextMethod.1, c.nextMethod.2.withLimits limits) := by
  have hlimits : c.skipEmptyLines.limits = c.limits := rfl
  have hskip : (c.withLimits limits).skipEmptyLines = c.skipEmptyLines.withLimits limits := rfl
  rw [← hlimits] at h hback
  rw [nextMethod_eq] at hback
  rw [nextMethod_eq, nextMethod_eq, hskip]
  generalize c.skipEmptyLines = d at h hback
  dsimp only
  rw [rest_withLimits]
  by_cases hrest : d.rest = []
  · rw [if_pos hrest, if_pos hrest]
    rfl
  simp only [if_neg hrest] at hback ⊢
  have hwide (hlarge : d.limits.method < (d.run (d.limits.method + 1) Octet.isToken).length) :
      limits.method ≤ d.limits.method := by
    rw [if_pos hlarge] at hback
    exact (hback rfl).method
  obtain ⟨hrun, hlarge⟩ := run_limit_zero h.method hwide
  simp only [limits_withLimits, run_withLimits, hrun, hlarge, skip_withLimits, rest_withLimits]
  split_ifs
  all_goals rfl

theorem nextTarget_withLimits (h : c.limits.Within limits)
    (hback : c.nextTarget.1.kind.breaksLimit → limits.Within c.limits) :
    (c.withLimits limits).nextTarget = (c.nextTarget.1, c.nextTarget.2.withLimits limits) := by
  rw [nextTarget_eq] at hback
  rw [nextTarget_eq, nextTarget_eq]
  have hwide (hlarge : c.limits.target < (c.run (c.limits.target + 1) Octet.isTarget).length) :
      limits.target ≤ c.limits.target := by
    simp only [if_pos hlarge] at hback
    exact (hback rfl).target
  obtain ⟨hrun, hlarge⟩ := run_limit_zero h.target hwide
  simp only [limits_withLimits, rest_withLimits, run_withLimits, hrun, hlarge, skip_withLimits]
  split_ifs
  all_goals rfl

theorem nextVersion_withLimits :
    (c.withLimits limits).nextVersion = (c.nextVersion.1, c.nextVersion.2.withLimits limits) := by
  simp only [nextVersion]
  rw [run_withLimits]
  split_ifs
  all_goals rfl

theorem nextLineEnd_withLimits :
    (c.withLimits limits).nextLineEnd = (c.nextLineEnd.1, c.nextLineEnd.2.withLimits limits) := by
  rw [nextLineEnd_eq, nextLineEnd_eq, rest_withLimits]
  split_ifs
  all_goals rfl

theorem failName_withLimits :
    (c.withLimits limits).failName = (c.failName.1, c.failName.2.withLimits limits) := by
  rw [failName_eq, failName_eq, rest_withLimits]
  split_ifs
  all_goals rfl

theorem nextFieldName_withLimits (h : c.limits.Within limits)
    (hback : c.nextFieldName.1.kind.breaksLimit → limits.Within c.limits) :
    (c.withLimits limits).nextFieldName =
      (c.nextFieldName.1, c.nextFieldName.2.withLimits limits) := by
  obtain ⟨d, hd⟩ : ∃ d : Cursor, d = { c with lineStart := c.position } := ⟨_, rfl⟩
  have hd' : ({ c.withLimits limits with lineStart := (c.withLimits limits).position } : Cursor) =
      d.withLimits limits := by
    rw [hd]
    rfl
  have hlimits : d.limits = c.limits := by rw [hd]
  rw [← hlimits] at h hback
  rw [nextFieldName_eq, ← hd] at hback
  rw [nextFieldName_eq, nextFieldName_eq, hd', ← hd]
  dsimp only
  rw [rest_withLimits]
  split
  · rfl
  rename_i hnil
  split
  · rfl
  rename_i hcrlf
  split
  · rfl
  rename_i hline
  split
  · rfl
  rename_i hblank
  -- Until here nothing was asked of the limits.
  simp only [if_neg hnil, if_neg hcrlf, if_neg hline, if_neg hblank] at hback ⊢
  have hwide (hlarge : d.limits.fieldLine <
      (d.run (d.limits.fieldLine + 1) Octet.isToken).length) :
      limits.fieldLine ≤ d.limits.fieldLine := by
    rw [if_pos hlarge] at hback
    exact (hback rfl).fieldLine
  obtain ⟨hrun, hlarge⟩ := run_limit_zero h.fieldLine hwide
  simp only [limits_withLimits, run_withLimits, hrun, hlarge, skip_withLimits, rest_withLimits]
  split_ifs
  · rfl
  · rfl
  · rfl
  · exact failName_withLimits

theorem nextFieldValue_withLimits (h : c.limits.Within limits)
    (hback : c.nextFieldValue.1.kind.breaksLimit → limits.Within c.limits) :
    (c.withLimits limits).nextFieldValue =
      (c.nextFieldValue.1, c.nextFieldValue.2.withLimits limits) := by
  have hlimits : (c.skip (c.rest.takeWhile Octet.isBlank).length).limits = c.limits := rfl
  have hskip : (c.withLimits limits).skip
      ((c.withLimits limits).rest.takeWhile Octet.isBlank).length =
        (c.skip (c.rest.takeWhile Octet.isBlank).length).withLimits limits := rfl
  rw [← hlimits] at h hback
  rw [nextFieldValue_eq] at hback
  rw [nextFieldValue_eq, nextFieldValue_eq, hskip]
  generalize c.skip (c.rest.takeWhile Octet.isBlank).length = d at h hback
  obtain ⟨used, hused⟩ : ∃ used, d.position - d.lineStart = used := ⟨_, rfl⟩
  simp only [hused] at hback
  have hwide (hlarge : d.limits.fieldLine <
      used + (d.run (d.limits.fieldLine + 1 - used) Octet.isFieldText).length) :
      limits.fieldLine ≤ d.limits.fieldLine := by
    rw [if_pos hlarge] at hback
    exact (hback rfl).fieldLine
  obtain ⟨hrun, hlarge⟩ := run_limit used h.fieldLine hwide
  simp only [limits_withLimits, position_withLimits, lineStart_withLimits, run_withLimits, hused,
    hrun, hlarge, skip_withLimits, rest_withLimits]
  split_ifs
  all_goals rfl

theorem next_withLimits (h : c.limits.Within limits)
    (hback : c.next.1.kind.breaksLimit → limits.Within c.limits) :
    (c.withLimits limits).next = (c.next.1, c.next.2.withLimits limits) := by
  rw [next] at hback
  rw [next, next, mode_withLimits]
  cases hm : c.mode with
  | method => rw [hm] at hback; exact nextMethod_withLimits h hback
  | target => rw [hm] at hback; exact nextTarget_withLimits h hback
  | version => exact nextVersion_withLimits
  | requestLineEnd => exact nextLineEnd_withLimits
  | fieldName => rw [hm] at hback; exact nextFieldName_withLimits h hback
  | fieldValue => rw [hm] at hback; exact nextFieldValue_withLimits h hback
  | fieldLineEnd => exact nextLineEnd_withLimits
  | finished => rfl
  | failed violation offset => rfl

end Cursor

namespace Parse

def withLimits (limits : Limits) (p : Parse) : Parse :=
  { p with config := p.config.withLimits limits, cursor := p.cursor.withLimits limits }

variable {p : Parse} {limits : Limits} {t : Token}

theorem take_withLimits (h : p.config.limits.Within limits)
    (hback : (p.take t).stage.breaksLimit → limits.Within p.config.limits) :
    (p.withLimits limits).take t = (p.take t).withLimits limits := by
  have hwith (q : Parse) : q.withLimits limits =
      q.elsewhere (q.config.withLimits limits) (q.cursor.withLimits limits) := rfl
  have hstrict : (p.config.withLimits limits).isStrict = p.config.isStrict := rfl
  rw [hwith, hwith, config_take, cursor_take]
  apply take_elsewhere hstrict
  intro htake
  refine ⟨h.fieldCount.trans, ?_⟩
  intro hfull
  rw [htake, takeFieldName, if_pos hfull] at hback
  exact (hback rfl).fieldCount.trans hfull

theorem step_withLimits (hlimits : p.cursor.limits = p.config.limits)
    (h : p.config.limits.Within limits)
    (hback : p.step.stage.breaksLimit → limits.Within p.config.limits) :
    (p.withLimits limits).step = p.step.withLimits limits := by
  cases hr : p.stage.reads with
  | true =>
    rw [step_of_reads hr] at hback ⊢
    have hnext : (p.withLimits limits).cursor.next =
        (p.cursor.next.1, p.cursor.next.2.withLimits limits) := by
      apply Cursor.next_withLimits (by rwa [hlimits])
      intro hbreaks
      rw [hlimits]
      cases hk : p.cursor.next.1.kind with
      | invalid violation =>
        rw [hk] at hbreaks
        rw [take_of_invalid hk] at hback
        exact hback hbreaks
      | _ =>
        rw [hk] at hbreaks
        cases hbreaks
    rw [step_of_reads (p := p.withLimits limits) hr, hnext]
    exact take_withLimits (p := { p with cursor := p.cursor.next.2 }) h hback
  | false =>
    rw [step_of_not_reads hr, step_of_not_reads (p := p.withLimits limits) hr]
    rfl

theorem limits_step (hlimits : p.cursor.limits = p.config.limits) :
    p.step.cursor.limits = p.step.config.limits := by
  rw [config_step, ← hlimits]
  cases hr : p.stage.reads with
  | true =>
    rw [cursor_step_of_reads hr]
    exact (Cursor.orderly_next p.cursor).1.1
  | false => rw [cursor_step_of_not_reads hr]

/-- A parse comes to the same end under wider limits, unless it breaks a limit. -/
theorem run_withLimits (hlimits : p.cursor.limits = p.config.limits)
    (h : p.config.limits.Within limits)
    (hback : p.run.stage.breaksLimit → limits.Within p.config.limits) :
    (p.withLimits limits).run = p.run.withLimits limits := by
  induction p using run_induction with
  | final p hfinal => rw [run_of_isFinal hfinal, run_of_isFinal (p := p.withLimits limits) hfinal]
  | step p _ ih =>
    -- A step that breaks a limit is the last one, so the whole run breaks it as well.
    have hstep : (p.withLimits limits).step = p.step.withLimits limits := by
      apply step_withLimits hlimits h
      intro hbreaks
      apply hback
      have hfinal : p.step.stage.isFinal := by
        cases hs : p.step.stage with
        | rejected violation offset => rfl
        | _ =>
          rw [hs] at hbreaks
          cases hbreaks
      rwa [← run_step, run_of_isFinal hfinal]
    rw [← run_step (p.withLimits limits), hstep, ← run_step p]
    rw [← run_step p] at hback
    have hconfig := config_step p
    exact ih (limits_step hlimits) (by rwa [hconfig]) (by rwa [hconfig])

end Parse

def Error.breaksLimit (error : Error) : Bool := error.violation?.any Violation.isLimit

namespace Receiver

def withLimits (limits : Limits) (receiver : Receiver) : Receiver :=
  { receiver with
    config := receiver.config.withLimits limits
    parse? := receiver.parse?.map (Parse.withLimits limits) }

variable {receiver : Receiver} {limits : Limits} {input : Octets}

theorem headLength?_withLimits :
    (receiver.withLimits limits).headLength? = receiver.headLength? := by
  rw [headLength?, headLength?, withLimits]
  cases receiver.parse? <;> rfl

theorem parse_withLimits (h : receiver.config.limits.Within limits)
    (hback : ∀ error, (receiver.parse input).1 = .error error → error.breaksLimit →
      limits.Within receiver.config.limits) :
    (receiver.withLimits limits).parse input =
      ((receiver.parse input).1, (receiver.parse input).2.withLimits limits) := by
  by_cases hroom : receiver.HasRoom
  · have hroom' : (receiver.withLimits limits).HasRoom := hroom
    rw [parse_of_hasRoom hroom] at hback
    have hrun : (Parse.ofInput (receiver.withLimits limits).config input).run =
        (Parse.ofInput receiver.config input).run.withLimits limits := by
      refine Parse.run_withLimits (p := .ofInput receiver.config input) rfl h ?_
      intro hbreaks
      cases hs : (Parse.ofInput receiver.config input).run.stage with
      | rejected violation offset =>
        rw [hs] at hbreaks
        exact hback _ (Parse.result_eq_malformed_iff.2 hs) hbreaks
      | _ =>
        rw [hs] at hbreaks
        cases hbreaks
    rw [parse_of_hasRoom hroom, parse_of_hasRoom hroom', hrun]
    rfl
  · -- How much room is reserved is not a limit, so both are out of it.
    have hroom' : ¬(receiver.withLimits limits).HasRoom := hroom
    rw [parse_of_not_hasRoom hroom, parse_of_not_hasRoom hroom']
    rfl

/-- Limits only restrict. What a receiver accepts, it accepts under wider limits, with the same
request and length; what it rejects for any reason but a limit, it rejects for the same reason and
at the same offset. The limit of a stream changes nothing. -/
theorem limits_only_restrict (receiver : Receiver) (limits : Limits)
    (h : receiver.config.limits.Within limits) (input : Octets) :
    let wide := receiver.withLimits limits
    (∀ request length, receiver.Accepts input request length →
      wide.Accepts input request length) ∧
    (∀ error, (receiver.parse input).1 = .error error → error.breaksLimit = false →
      (wide.parse input).1 = .error error) ∧
    ∀ head,
      let other := { receiver.config.limits with head }
      (receiver.withLimits other).parse input =
        ((receiver.parse input).1, (receiver.parse input).2.withLimits other) := by
  intro wide
  refine ⟨?accepts, ?rejects, ?head⟩
  case accepts =>
    intro request length haccepts
    have hparse : wide.parse input = _ := parse_withLimits h (by
      intro error herror
      rw [haccepts.1] at herror
      cases herror)
    rw [Accepts, hparse]
    exact ⟨haccepts.1, headLength?_withLimits.trans haccepts.2⟩
  case rejects =>
    intro error herror hfree
    have hparse : wide.parse input = _ := parse_withLimits h (by
      intro error' herror' hbreaks
      rw [herror] at herror'
      cases herror'
      rw [hfree] at hbreaks
      cases hbreaks)
    rw [hparse]
    exact herror
  case head =>
    intro head other
    have hwithin : receiver.config.limits.Within other := ⟨le_rfl, le_rfl, le_rfl, le_rfl⟩
    exact parse_withLimits hwithin fun _ _ _ => ⟨le_rfl, le_rfl, le_rfl, le_rfl⟩

/-- A head that reaches every limit, and one without a colon. -/
theorem limits_only_restrict_reached :
    let receiver : Receiver :=
      { config := { limits := { method := 3, target := 1, fieldLine := 7, fieldCount := 1 } } }
    let limits : Limits := { fieldLine := 2 ^ 64 - 1 }
    let wide := receiver.withLimits limits
    let head := Utf8.encode "GET / HTTP/1.1\r\nHost: a\r\n\r\n"
    let request : Request := { target := "/", fields := ⟨#[⟨"Host", Utf8.encode "a"⟩]⟩ }
    let broken := Utf8.encode "GET / HTTP/1.1\r\nHost\r\n\r\n"
    receiver.config.limits.Within limits ∧
      receiver.Accepts head request 27 ∧ wide.Accepts head request 27 ∧
      (receiver.parse broken).1 = .error (.malformed .missingColon 16) ∧
      (wide.parse broken).1 = .error (.malformed .missingColon 16) := by
  intro receiver limits wide head request broken
  have hwithin : receiver.config.limits.Within limits := by constructor <;> decide
  have haccepts : receiver.Accepts head request 27 := by constructor <;> decide +kernel
  have hrejects : (receiver.parse broken).1 = .error (.malformed .missingColon 16) := by
    decide +kernel
  obtain ⟨haccepted, -, -⟩ := limits_only_restrict receiver limits hwithin head
  obtain ⟨-, hrejected, -⟩ := limits_only_restrict receiver limits hwithin broken
  exact ⟨hwithin, haccepts, haccepted request 27 haccepts, hrejects, hrejected _ hrejects rfl⟩

end Receiver

end HttpHead
