import HttpHead.Proofs.Rejection
import HttpHead.Proofs.Stability

/-! A strict parse next to a lenient one of the same input. Both do the same with every token,
until the strict one refuses what the lenient one lets pass (`Parse.tightens_step`). Whatever the
lenient one still finds wrong after that, it finds further on. -/
namespace HttpHead

/-- What a strict parse asks of a request besides what a lenient one asks. -/
structure Request.Strict (request : Request) : Prop where
  registered : request.method.isExtension = false
  length_once : request.fields.toList.countP (·.isNamed KnownName.contentLength.text) ≤ 1
  host_once : request.fields.toList.countP (·.isNamed KnownName.host.text) ≤ 1
  host_given : request.version = .http11 →
    ∃ f ∈ request.fields.toList, f.isNamed KnownName.host.text

def Config.withStrictness (config : Config) (strictness : Strictness) : Config :=
  { config with strictness }

theorem Request.admissible_strict_iff {config : Config} {request : Request} :
    request.Admissible (config.withStrictness .strict) ↔
      request.Admissible (config.withStrictness .lenient) ∧ request.Strict := by
  constructor
  · intro h
    exact ⟨⟨h.size_le, h.same_length, nofun, nofun, nofun, nofun⟩,
      ⟨h.registered rfl, h.length_once rfl, h.host_once rfl, h.host_given rfl⟩⟩
  · intro h
    obtain ⟨hadmissible, hstrict⟩ := h
    exact ⟨hadmissible.size_le, hadmissible.same_length, fun _ => hstrict.registered,
      fun _ => hstrict.length_once, fun _ => hstrict.host_once, fun _ => hstrict.host_given⟩

theorem Spelling.permitted_strict_iff {config : Config} {s : Spelling} :
    s.Permitted (config.withStrictness .strict) ↔
      s.Permitted (config.withStrictness .lenient) ∧ s.request.Strict := by
  constructor
  · intro h
    obtain ⟨hadmissible, hstrict⟩ := Request.admissible_strict_iff.1 h.admissible
    exact ⟨{ h with admissible := hadmissible }, hstrict⟩
  · intro h
    obtain ⟨hpermitted, hstrict⟩ := h
    exact { hpermitted with
      admissible := Request.admissible_strict_iff.2 ⟨hpermitted.admissible, hstrict⟩ }

theorem Summary.note_strict (summary : Summary) (field : Field) :
    summary.note true field = summary.note false field ∨
      ∃ violation noted, summary.note true field = .error violation ∧ violation.isStrictOnly ∧
        violation ≠ .missingHost ∧ summary.note false field = .ok noted := by
  unfold note
  split
  · unfold noteLength
    split
    · exact .inl rfl
    · exact .inl rfl
    · split
      · exact .inl rfl
      · exact .inr ⟨.duplicateContentLength, summary, rfl, rfl, nofun, rfl⟩
  split
  · unfold noteHost
    by_cases hhosts : 0 < summary.hosts
    · refine .inr ⟨.duplicateHost, _, ?_, rfl, nofun, rfl⟩
      simp [hhosts]
    · refine .inl ?_
      simp [hhosts]
  · exact .inl rfl

namespace Parse

variable {p : Parse} {request : Request} {length : Nat}

def strictly (p : Parse) : Parse := { p with config := p.config.withStrictness .strict }

@[simp] theorem isStrict_strictly (p : Parse) : p.strictly.config.isStrict = true := rfl

@[simp] theorem limits_strictly (p : Parse) : p.strictly.config.limits = p.config.limits := rfl

@[simp] theorem stage_strictly (p : Parse) : p.strictly.stage = p.stage := rfl

@[simp] theorem summary_strictly (p : Parse) : p.strictly.summary = p.summary := rfl

@[simp] theorem request_strictly (p : Parse) : p.strictly.request = p.request := rfl

/-- Next to a lenient parse, a strict one is at the same point, or it has refused what the lenient
one has let pass. Only a missing host is found when the lenient one has already accepted. -/
inductive Tightens (p : Parse) : Parse → Prop where
  | same : Tightens p p.strictly
  | refused (q : Parse) (violation : Violation) (offset : Nat)
      (stage : q.stage = .rejected violation offset) (only : violation.isStrictOnly)
      (hosted : violation ≠ .missingHost) (live : p.stage.isFinal = false) : Tightens p q
  | hostless (q : Parse) (offset : Nat) (stage : q.stage = .rejected .missingHost offset)
      (accepted : p.stage = .accepted) : Tightens p q

theorem tightens_takeMethod (h : p.config.isStrict = false) (t : Token) :
    (p.takeMethod t).Tightens (p.strictly.takeMethod t) := by
  unfold takeMethod
  cases Utf8.decode? t.text with
  | none => exact .same
  | some text =>
    simp only [h, isStrict_strictly, Bool.false_and, Bool.true_and, Bool.false_eq_true, if_false]
    split
    · exact .refused _ .unknownMethod t.offset rfl rfl nofun rfl
    · exact .same

theorem tightens_takeTarget (t : Token) : (p.takeTarget t).Tightens (p.strictly.takeTarget t) := by
  unfold takeTarget
  cases Utf8.decode? t.text <;> exact .same

theorem tightens_takeVersion (t : Token) :
    (p.takeVersion t).Tightens (p.strictly.takeVersion t) := by
  unfold takeVersion
  cases Version.ofOctets? t.text <;> exact .same

theorem tightens_takeFieldName (t : Token) :
    (p.takeFieldName t).Tightens (p.strictly.takeFieldName t) := by
  rw [takeFieldName, takeFieldName, limits_strictly, request_strictly]
  split <;> exact .same

theorem tightens_takeField (h : p.config.isStrict = false) (name value : Token) :
    (p.takeField name value).Tightens (p.strictly.takeField name value) := by
  unfold takeField
  cases Utf8.decode? name.text with
  | none => exact .same
  | some spelled =>
    simp only [h, isStrict_strictly, summary_strictly]
    obtain heq | ⟨violation, noted, hnote, honly, hhosted, hlenient⟩ :=
      p.summary.note_strict ⟨spelled, value.text⟩
    · rw [heq]
      cases p.summary.note false ⟨spelled, value.text⟩ <;> exact .same
    · rw [hnote, hlenient]
      exact .refused _ violation _ rfl honly hhosted rfl

theorem tightens_close (h : p.config.isStrict = false) (t : Token) :
    (p.close t).Tightens (p.strictly.close t) := by
  unfold close
  simp only [h, isStrict_strictly, request_strictly, summary_strictly, Bool.false_and,
    Bool.true_and, Bool.false_eq_true, if_false]
  split
  · exact .hostless _ t.offset rfl rfl
  · exact .same

theorem tightens_take (h : p.config.isStrict = false) (t : Token) :
    (p.take t).Tightens (p.strictly.take t) := by
  rw [take, take, stage_strictly]
  split
  · exact .same
  · exact tightens_takeMethod h t
  · exact tightens_takeTarget t
  · exact tightens_takeVersion t
  · exact .same
  · exact tightens_takeFieldName t
  · exact tightens_takeFieldName t
  · exact .same
  · exact .same
  · exact tightens_takeField h _ t
  · exact .same
  · exact tightens_close h t
  · exact .same
  · exact .same

theorem tightens_step (h : p.config.isStrict = false) : p.step.Tightens p.strictly.step := by
  cases hr : p.stage.reads with
  | true =>
    rw [step_of_reads hr, step_of_reads (p := p.strictly) hr]
    exact tightens_take (p := { p with cursor := p.cursor.next.2 }) h p.cursor.next.1
  | false =>
    rw [step_of_not_reads hr, step_of_not_reads (p := p.strictly) hr]
    exact .same

theorem Underway.strictly (hp : p.Underway) : p.strictly.Underway :=
  ⟨hp.inOrder, hp.unfailed, hp.mark_le⟩

/-- A strict parse ends as the lenient one does, or in a violation of its own. It finds that before
any violation that the lenient parse comes to. -/
theorem tightens_run (hp : p.Underway) (h : p.config.isStrict = false) :
    p.strictly.run = p.run.strictly ∨
      ∃ violation offset, p.strictly.run.stage = .rejected violation offset ∧
        violation.isStrictOnly ∧
        ∀ v o, p.run.stage = .rejected v o → violation ≠ .missingHost ∧ offset ≤ o := by
  induction p using run_induction with
  | final p hfinal =>
    rw [run_of_isFinal hfinal, run_of_isFinal (p := p.strictly) hfinal]
    exact .inl rfl
  | step p hlive ih =>
    have hstep := tightens_step h
    rw [← run_step p.strictly, ← run_step p]
    generalize hq : p.strictly.step = q at hstep
    cases hstep with
    | same =>
      by_cases hfinal : p.step.stage.isFinal
      · rw [run_of_isFinal hfinal, run_of_isFinal (p := p.step.strictly) hfinal]
        exact .inl rfl
      · rw [Bool.not_eq_true] at hfinal
        exact ih (hp.mark_le_step hfinal).2 (by rw [config_step]; exact h)
    | refused _ violation offset stage only hosted live =>
      have hrun : q.run.stage = .rejected violation offset := by
        rw [run_of_isFinal (by rw [stage]; rfl), stage]
      refine .inr ⟨violation, offset, hrun, only, fun v o hlenient => ⟨hosted, ?_⟩⟩
      have hrejected : p.strictly.step.stage = .rejected violation offset := by rw [hq, stage]
      -- The lenient parse goes on behind this token and rejects nothing in front of its mark.
      have hr : p.stage.reads := reads_of_rejected (p := p.strictly) hlive hrejected
      have hoffset := (hp.strictly.rejected_step hlive hrejected).1.2
      have hlow := ((hp.mark_le_step live).2.rejected_run live hlenient).1
      exact (hoffset.trans (hp.next_le_mark_step hr live)).trans hlow
    | hostless _ offset stage accepted =>
      have hrun : q.run.stage = .rejected .missingHost offset := by
        rw [run_of_isFinal (by rw [stage]; rfl), stage]
      refine .inr ⟨.missingHost, offset, hrun, rfl, fun v o hlenient => ?_⟩
      rw [run_of_isFinal (by rw [accepted]; rfl), accepted] at hlenient
      cases hlenient

end Parse

namespace Receiver

variable {receiver : Receiver} {input : Octets} {request : Request} {length : Nat}

def withStrictness (receiver : Receiver) (strictness : Strictness) : Receiver :=
  { receiver with config := receiver.config.withStrictness strictness }

theorem parse_eq_malformed_iff (hroom : receiver.HasRoom) {violation : Violation} {offset : Nat} :
    (receiver.parse input).1 = .error (.malformed violation offset) ↔
      (Parse.ofInput receiver.config input).run.stage = .rejected violation offset := by
  rw [parse_of_hasRoom hroom]
  exact Parse.result_eq_malformed_iff

theorem accepts_strict_iff (hroom : receiver.HasRoom) :
    (receiver.withStrictness .strict).Accepts input request length ↔
      (receiver.withStrictness .lenient).Accepts input request length ∧ request.Strict := by
  rw [accepts_iff_spelled (receiver.withStrictness .strict) hroom,
    accepts_iff_spelled (receiver.withStrictness .lenient) hroom]
  constructor
  · intro h
    obtain ⟨s, rest, hinput, hpermitted, rfl, hlength⟩ := h
    obtain ⟨hlenient, hstrict⟩ := Spelling.permitted_strict_iff.1 hpermitted
    exact ⟨⟨s, rest, hinput, hlenient, rfl, hlength⟩, hstrict⟩
  · intro h
    obtain ⟨⟨s, rest, hinput, hlenient, rfl, hlength⟩, hstrict⟩ := h
    exact ⟨s, rest, hinput, Spelling.permitted_strict_iff.2 ⟨hlenient, hstrict⟩, rfl, hlength⟩

theorem isStrictOnly_eq_false_of_lenient (hroom : receiver.HasRoom) {violation : Violation}
    {offset : Nat} (h : ((receiver.withStrictness .lenient).parse input).1 =
      .error (.malformed violation offset)) : violation.isStrictOnly = false := by
  have hroom : (receiver.withStrictness .lenient).HasRoom := hroom
  rw [parse_eq_malformed_iff hroom] at h
  obtain ⟨-, hstrict | hground⟩ := (Parse.underway_ofInput _ input).rejected_run rfl h
  · cases hstrict
  · exact hground

theorem parse_strict_cases (hroom : receiver.HasRoom) (input : Octets) :
    let lenient := (receiver.withStrictness .lenient).parse input
    let strict := (receiver.withStrictness .strict).parse input
    (strict.1 = lenient.1 ∧ strict.2.headLength? = lenient.2.headLength?) ∨
      ∃ violation offset, strict.1 = .error (.malformed violation offset) ∧
        violation.isStrictOnly ∧
        ∀ v o, lenient.1 = .error (.malformed v o) → violation ≠ .missingHost ∧ offset ≤ o := by
  have hlenient : (receiver.withStrictness .lenient).HasRoom := hroom
  have hstrict : (receiver.withStrictness .strict).HasRoom := hroom
  let parse := Parse.ofInput (receiver.withStrictness .lenient).config input
  have hunderway : parse.Underway := Parse.underway_ofInput _ input
  obtain hsame | ⟨violation, offset, hstage, honly, hbefore⟩ := Parse.tightens_run hunderway rfl
  · refine .inl ?_
    rw [parse_of_hasRoom hlenient, parse_of_hasRoom hstrict]
    change parse.strictly.run.result = parse.run.result ∧
      parse.strictly.run.headLength? = parse.run.headLength?
    rw [hsame]
    exact ⟨rfl, rfl⟩
  · refine .inr ⟨violation, offset, (parse_eq_malformed_iff hstrict).2 hstage, honly, ?_⟩
    intro v o h
    exact hbefore v o ((parse_eq_malformed_iff hlenient).1 h)

/-- A strict receiver is a lenient one with four violations more. It accepts a head as the lenient
one does, if the request is strict, and refuses any other for a violation of its own; a head that
the lenient one rejects it rejects in the same way, or for a violation of its own that is not
behind. -/
theorem strict_refines_lenient (receiver : Receiver) (hroom : receiver.HasRoom) (input : Octets) :
    let lenient := receiver.withStrictness .lenient
    let strict := receiver.withStrictness .strict
    (∀ violation offset, (lenient.parse input).1 = .error (.malformed violation offset) →
      violation.isStrictOnly = false) ∧
    (∀ request length, strict.Accepts input request length →
      lenient.Accepts input request length) ∧
    (∀ request length, lenient.Accepts input request length →
      ((∃ request' length', strict.Accepts input request' length') ↔ request.Strict) ∧
        (¬request.Strict → ∃ violation offset,
          (strict.parse input).1 = .error (.malformed violation offset) ∧
            violation.isStrictOnly)) ∧
    ∀ violation offset, (lenient.parse input).1 = .error (.malformed violation offset) →
      (strict.parse input).1 = .error (.malformed violation offset) ∨
        ∃ violation' offset', (strict.parse input).1 = .error (.malformed violation' offset') ∧
          violation'.isStrictOnly ∧ violation' ≠ .missingHost ∧ offset' ≤ offset := by
  intro lenient strict
  refine ⟨fun _ _ => isStrictOnly_eq_false_of_lenient hroom, ?_, ?_, ?_⟩
  · intro request length h
    exact ((accepts_strict_iff hroom).1 h).1
  · intro request length h
    refine ⟨⟨?_, ?_⟩, ?_⟩
    · intro haccepts
      obtain ⟨request', length', haccepts⟩ := haccepts
      obtain ⟨haccepts, hstrict⟩ := (accepts_strict_iff hroom).1 haccepts
      rwa [(accepts_inj h haccepts).1]
    · intro hstrict
      exact ⟨request, length, (accepts_strict_iff hroom).2 ⟨h, hstrict⟩⟩
    · intro hnot
      -- Had the strict parse ended as the lenient one does, it would have accepted.
      obtain ⟨hresult, hlength⟩ | ⟨violation, offset, hresult, honly, -⟩ :=
        parse_strict_cases hroom input
      · have haccepts : strict.Accepts input request length :=
          ⟨hresult.trans h.1, hlength.trans h.2⟩
        exact absurd ((accepts_strict_iff hroom).1 haccepts).2 hnot
      · exact ⟨violation, offset, hresult, honly⟩
  · intro violation offset h
    obtain ⟨hresult, -⟩ | ⟨violation', offset', hresult, honly, hbefore⟩ :=
      parse_strict_cases hroom input
    · exact .inl (hresult.trans h)
    · obtain ⟨hhosted, hle⟩ := hbefore violation offset h
      exact .inr ⟨violation', offset', hresult, honly, hhosted, hle⟩

/-- A length told twice is refused by a strict receiver only, also if a later line is broken. -/
theorem strict_refines_lenient_twice :
    let receiver : Receiver := { config := {} }
    let lenient := receiver.withStrictness .lenient
    let strict := receiver.withStrictness .strict
    let lines := Utf8.encode "GET / HTTP/1.0\r\nContent-Length: 1\r\ncontent-length: 01\r\n"
    let request : Request :=
      { target := "/"
        version := .http10
        fields :=
          ⟨#[⟨"Content-Length", Utf8.encode "1"⟩, ⟨"content-length", Utf8.encode "01"⟩]⟩ }
    receiver.HasRoom ∧
      lenient.Accepts (lines ++ Octets.crlf) request 57 ∧ ¬request.Strict ∧
      (∃ violation offset,
        (strict.parse (lines ++ Octets.crlf)).1 = .error (.malformed violation offset) ∧
          violation.isStrictOnly) ∧
      (lenient.parse (lines ++ [Octet.colon])).1 = .error (.malformed .emptyToken 55) ∧
      (strict.parse (lines ++ [Octet.colon])).1 ≠ .error (.malformed .emptyToken 55) ∧
      ∃ violation offset,
        (strict.parse (lines ++ [Octet.colon])).1 = .error (.malformed violation offset) ∧
          violation.isStrictOnly ∧ violation ≠ .missingHost ∧ offset ≤ 55 := by
  intro receiver lenient strict lines request
  have hroom : receiver.HasRoom := by decide
  have haccepts : lenient.Accepts (lines ++ Octets.crlf) request 57 := by
    constructor <;> decide +kernel
  have htwice : ¬request.Strict := by
    intro h
    exact absurd h.length_once (by decide +kernel)
  have hlenient : (lenient.parse (lines ++ [Octet.colon])).1 =
      .error (.malformed .emptyToken 55) := by decide +kernel
  have hstrict : (strict.parse (lines ++ [Octet.colon])).1 ≠
      .error (.malformed .emptyToken 55) := by decide +kernel
  obtain ⟨-, -, haccepted, -⟩ := strict_refines_lenient receiver hroom (lines ++ Octets.crlf)
  obtain ⟨-, -, -, hrejected⟩ := strict_refines_lenient receiver hroom (lines ++ [Octet.colon])
  exact ⟨hroom, haccepts, htwice, (haccepted request 57 haccepts).2 htwice, hlenient, hstrict,
    (hrejected _ _ hlenient).resolve_left hstrict⟩

end Receiver

end HttpHead
