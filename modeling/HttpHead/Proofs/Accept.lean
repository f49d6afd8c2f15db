import HttpHead.Proofs.Grammar
import HttpHead.Proofs.Run

/-! The heads that a parse accepts, stage by stage: what the octets in front of the cursor
have to be, and from which state the parse then goes on. Put together, a fresh parse
accepts exactly the permitted spellings (`accepts_ofInput_iff`). -/
namespace HttpHead

def Stage.reads : Stage → Bool
  | .accepted | .rejected .. | .fieldName _ => false
  | _ => true

/-- The stage behind a step that reads no token: the colon is passed, and an end stays an end. -/
def Stage.passed : Stage → Stage
  | .fieldName name => .fieldColon name
  | stage => stage

theorem Stage.exists_eq_fieldName {stage : Stage} (hlive : stage.isFinal = false)
    (h : stage.reads = false) : ∃ name, stage = .fieldName name := by
  cases stage with
  | fieldName name => exact ⟨name, rfl⟩
  | accepted => cases hlive
  | rejected violation offset => cases hlive
  | _ => cases h

namespace Fields

def appendAll (fields : Fields) (more : List Field) : Fields := ⟨fields.entries ++ more.toArray⟩

theorem size_append (fields : Fields) (field : Field) :
    (fields.append field).size = fields.size + 1 :=
  Array.size_push field

theorem appendAll_nil (fields : Fields) : fields.appendAll [] = fields := by
  simp [appendAll]

theorem appendAll_cons (fields : Fields) (field : Field) (more : List Field) :
    fields.appendAll (field :: more) = (fields.append field).appendAll more := by
  simp [appendAll, append]

end Fields

namespace Parse

variable {p : Parse} {request : Request} {length : Nat}

theorem step_of_reads (h : p.stage.reads) :
    p.step = ({ p with cursor := p.cursor.next.2 } : Parse).take p.cursor.next.1 := by
  unfold step
  cases hs : p.stage <;> simp_all [Stage.reads]

theorem step_of_not_reads (h : p.stage.reads = false) :
    p.step = { p with stage := p.stage.passed } := by
  obtain ⟨config, cursor, stage, summary, request⟩ := p
  cases stage with
  | fieldName name => rfl
  | accepted => rfl
  | rejected violation offset => rfl
  | _ => cases h

theorem rejected_of_not_goesOn {t : Token} (hd : p.stage ≠ .fieldsDone) (ht : ¬t.kind.goesOn) :
    ∃ v offset, (p.take t).stage = .rejected v offset := by
  unfold take
  split
  all_goals first
    | exact ⟨_, _, rfl⟩
    | simp_all [TokenKind.goesOn]

theorem accepts_iff_scans (hr : p.stage.reads) (hd : p.stage ≠ .fieldsDone)
    (hc : p.cursor.lineStart ≤ p.cursor.position) :
    p.Accepts request length ↔ ∃ t c, p.cursor.Scans t c ∧
      (({ p with cursor := c } : Parse).take t).Accepts request length := by
  rw [← accepts_step, step_of_reads hr]
  constructor
  · intro h
    by_cases hgo : p.cursor.next.1.kind.goesOn
    · exact ⟨_, _, Cursor.scans_next hc hgo, h⟩
    · obtain ⟨v, offset, hv⟩ :=
        rejected_of_not_goesOn (p := { p with cursor := p.cursor.next.2 }) hd hgo
      exact absurd h (not_accepts_of_rejected hv)
  · intro h
    obtain ⟨t, c, hscan, h⟩ := h
    rwa [Cursor.next_of_scans hscan hc]

theorem accepts_reject {v : Violation} {offset : Nat} :
    (p.reject v offset).Accepts request length ↔ False :=
  iff_of_false (not_accepts_of_rejected rfl) id

def afterMethod (p : Parse) (n : Nat) (method : String) (rest : Octets) : Parse :=
  { p with
    stage := .method
    cursor := { p.cursor with
      mode := .target
      position := p.cursor.position + 2 * n + (Utf8.encode method).length + 1
      lineStart := p.cursor.position + 2 * n
      rest }
    request := { p.request with method := .ofText method } }

def afterTarget (p : Parse) (target : String) (rest : Octets) : Parse :=
  { p with
    stage := .target
    cursor := { p.cursor with
      mode := .version
      position := p.cursor.position + (Utf8.encode target).length + 1
      rest }
    request := { p.request with target := p.request.target ++ target } }

def afterVersion (p : Parse) (version : Version) (rest : Octets) : Parse :=
  { p with
    stage := .requestLineEnd
    cursor := { p.cursor with
      mode := .fieldName
      position := p.cursor.position + (Utf8.encode version.text).length + 2
      rest }
    request := { p.request with version } }

def afterField (p : Parse) (size : Nat) (field : Field) (summary : Summary) (rest : Octets) :
    Parse :=
  { p with
    stage := .fieldLineEnd
    cursor := { p.cursor with
      mode := .fieldName
      position := p.cursor.position + size + 2
      lineStart := p.cursor.position
      rest }
    summary
    request := { p.request with fields := p.request.fields.append field } }

theorem accepts_start_iff (hs : p.stage = .start) (hm : p.cursor.mode = .method)
    (hc : p.cursor.lineStart ≤ p.cursor.position) :
    p.Accepts request length ↔ ∃ (n : Nat) (method : String) (rest : Octets),
      p.cursor.rest = Octets.emptyLines n ++ (Utf8.encode method ++ Octet.sp :: rest) ∧
      Utf8.encode method ≠ [] ∧ (∀ b ∈ Utf8.encode method, Octet.isToken b) ∧
      (Utf8.encode method).length ≤ p.cursor.limits.method ∧
      (p.config.isStrict → (Method.ofText method).isExtension = false) ∧
      (p.afterMethod n method rest).Accepts request length := by
  rw [accepts_iff_scans (by simp [hs, Stage.reads]) (by simp [hs]) hc]
  have htake (n : Nat) (method : String) (rest : Octets) :
      (take { p with cursor := (p.afterMethod n method rest).cursor }
          ⟨.method, p.cursor.position + 2 * n, Utf8.encode method⟩).Accepts request length ↔
        (p.config.isStrict → (Method.ofText method).isExtension = false) ∧
          (p.afterMethod n method rest).Accepts request length := by
    simp only [take, hs, takeMethod, Utf8.decode?_encode, afterMethod]
    cases p.config.isStrict <;> cases (Method.ofText method).isExtension <;>
      simp [accepts_reject]
  constructor
  · intro h
    obtain ⟨t, c, hscan, h⟩ := h
    cases hscan with
    | method n text rest mode input nonempty token fits =>
      obtain ⟨method, rfl⟩ := Utf8.exists_encode_eq fun b hb => Octet.lt_of_isToken (token b hb)
      exact ⟨n, method, rest, input, nonempty, token, fits, (htake n method rest).1 h⟩
    | _ => simp_all
  · intro h
    obtain ⟨n, method, rest, input, nonempty, token, fits, h⟩ := h
    exact ⟨_, _, .method n _ rest hm input nonempty token fits, (htake n method rest).2 h⟩

theorem accepts_method_iff (hs : p.stage = .method) (hm : p.cursor.mode = .target)
    (hc : p.cursor.lineStart ≤ p.cursor.position) :
    p.Accepts request length ↔ ∃ (target : String) (rest : Octets),
      p.cursor.rest = Utf8.encode target ++ Octet.sp :: rest ∧
      Utf8.encode target ≠ [] ∧ (∀ b ∈ Utf8.encode target, Octet.isTarget b) ∧
      (Utf8.encode target).length ≤ p.cursor.limits.target ∧
      (p.afterTarget target rest).Accepts request length := by
  rw [accepts_iff_scans (by simp [hs, Stage.reads]) (by simp [hs]) hc]
  have htake (target : String) (rest : Octets) :
      take { p with cursor := (p.afterTarget target rest).cursor }
        ⟨.target, p.cursor.position, Utf8.encode target⟩ = p.afterTarget target rest := by
    simp only [take, hs, takeTarget, Utf8.decode?_encode, afterTarget]
  constructor
  · intro h
    obtain ⟨t, c, hscan, h⟩ := h
    cases hscan with
    | target text rest mode input nonempty visible fits =>
      obtain ⟨target, rfl⟩ :=
        Utf8.exists_encode_eq fun b hb => Octet.lt_of_isVisible (visible b hb)
      exact ⟨target, rest, input, nonempty, visible, fits, htake target rest ▸ h⟩
    | _ => simp_all
  · intro h
    obtain ⟨target, rest, input, nonempty, visible, fits, h⟩ := h
    exact ⟨_, _, .target _ rest hm input nonempty visible fits, (htake target rest).symm ▸ h⟩

theorem isVersion_encode (version : Version) : Cursor.isVersion (Utf8.encode version.text) := by
  cases version <;> decide

theorem ofOctets?_eq_some_iff {text : Octets} {version : Version} :
    Version.ofOctets? text = some version ↔ text = Utf8.encode version.text := by
  constructor
  · intro h
    have hfound := List.find?_some (p := fun v : Version => Utf8.encode v.text == text) h
    exact (beq_iff_eq.1 hfound).symm
  · intro h
    subst h
    cases version <;> decide

def afterLineEnd (p : Parse) (stage : Stage) (rest : Octets) : Parse :=
  { p with
    stage
    cursor := { p.cursor with mode := .fieldName, position := p.cursor.position + 2, rest } }

theorem accepts_lineEnd_iff {stage : Stage}
    (hs : p.stage = .version ∧ stage = .requestLineEnd ∨
      p.stage = .fieldValue ∧ stage = .fieldLineEnd)
    (hm : p.cursor.mode = .requestLineEnd ∨ p.cursor.mode = .fieldLineEnd)
    (hc : p.cursor.lineStart ≤ p.cursor.position) :
    p.Accepts request length ↔ ∃ rest, p.cursor.rest = Octets.crlf ++ rest ∧
      (p.afterLineEnd stage rest).Accepts request length := by
  rw [accepts_iff_scans (by rcases hs with hs | hs <;> simp [hs, Stage.reads])
    (by rcases hs with hs | hs <;> simp [hs]) hc]
  have htake (rest : Octets) :
      take { p with cursor := (p.afterLineEnd stage rest).cursor }
        ⟨.lineEnd, p.cursor.position, Octets.crlf⟩ = p.afterLineEnd stage rest := by
    rcases hs with ⟨hs, rfl⟩ | ⟨hs, rfl⟩ <;> simp only [take, hs, afterLineEnd]
  constructor
  · intro h
    obtain ⟨t, c, hscan, h⟩ := h
    cases hscan with
    | lineEnd rest mode input => exact ⟨rest, input, htake rest ▸ h⟩
    | _ => simp_all
  · intro h
    obtain ⟨rest, input, h⟩ := h
    exact ⟨_, _, .lineEnd rest hm input, (htake rest).symm ▸ h⟩

theorem accepts_target_iff (hs : p.stage = .target) (hm : p.cursor.mode = .version)
    (hc : p.cursor.lineStart ≤ p.cursor.position) :
    p.Accepts request length ↔ ∃ (version : Version) (rest : Octets),
      p.cursor.rest = Utf8.encode version.text ++ (Octets.crlf ++ rest) ∧
      (p.afterVersion version rest).Accepts request length := by
  rw [accepts_iff_scans (by simp [hs, Stage.reads]) (by simp [hs]) hc]
  have hline (version : Version) (tail : Octets) :
      (take { p with cursor := { p.cursor with
            mode := .requestLineEnd
            position := p.cursor.position + (Utf8.encode version.text).length
            rest := tail } }
          ⟨.version, p.cursor.position, Utf8.encode version.text⟩).Accepts request length ↔
        ∃ rest, tail = Octets.crlf ++ rest ∧
          (p.afterVersion version rest).Accepts request length := by
    have hread : Version.ofOctets? (Utf8.encode version.text) = some version :=
      ofOctets?_eq_some_iff.2 rfl
    simp only [take, hs, takeVersion, hread]
    rw [accepts_lineEnd_iff (.inl ⟨rfl, rfl⟩) (.inl rfl) (Nat.le_add_right_of_le hc)]
    rfl
  constructor
  · intro h
    obtain ⟨t, c, hscan, h⟩ := h
    cases hscan with
    | version text tail mode input isVersion stops =>
      cases hv : Version.ofOctets? text with
      | none => simp [take, hs, takeVersion, hv, accepts_reject] at h
      | some version =>
        obtain rfl := ofOctets?_eq_some_iff.1 hv
        obtain ⟨rest, rfl, hrest⟩ := (hline version tail).1 h
        exact ⟨version, rest, input, hrest⟩
    | _ => simp_all
  · intro h
    obtain ⟨version, rest, input, h⟩ := h
    have stops : Stops Octet.isVisible (Octets.crlf ++ rest) := stops_cons.2 (by decide)
    exact ⟨_, _, .version _ _ hm input (isVersion_encode version) stops,
      (hline version _).2 ⟨rest, rfl, h⟩⟩

/-- A value with its blanks is what lies between the colon and the end of the line. -/
theorem accepts_fieldColon_iff {name : Token} {spelled : String}
    (hs : p.stage = .fieldColon name) (hname : name.text = Utf8.encode spelled)
    (hm : p.cursor.mode = .fieldValue) (hc : p.cursor.lineStart ≤ p.cursor.position) :
    p.Accepts request length ↔ ∃ (text rest : Octets) (summary : Summary),
      p.cursor.rest = text ++ (Octets.crlf ++ rest) ∧ (∀ b ∈ text, Octet.isFieldText b) ∧
      p.cursor.position + text.length ≤ p.cursor.lineStart + p.cursor.limits.fieldLine ∧
      p.summary.note p.config.isStrict ⟨spelled, text.trim⟩ = .ok summary ∧
      Parse.Accepts
        { p with
          stage := .fieldLineEnd
          cursor := { p.cursor with
            mode := .fieldName, position := p.cursor.position + text.length + 2, rest }
          summary
          request := { p.request with fields := p.request.fields.append ⟨spelled, text.trim⟩ } }
        request length := by
  rw [accepts_iff_scans (by simp [hs, Stage.reads]) (by simp [hs]) hc]
  have hline (text tail : Octets) (offset : Nat) :
      (take { p with cursor := { p.cursor with
            mode := .fieldLineEnd, position := p.cursor.position + text.length, rest := tail } }
          ⟨.fieldValue, offset, text.trim⟩).Accepts request length ↔
        ∃ rest summary, tail = Octets.crlf ++ rest ∧
          p.summary.note p.config.isStrict ⟨spelled, text.trim⟩ = .ok summary ∧
          Parse.Accepts
            { p with
              stage := .fieldLineEnd
              cursor := { p.cursor with
                mode := .fieldName, position := p.cursor.position + text.length + 2, rest }
              summary
              request := { p.request with
                fields := p.request.fields.append ⟨spelled, text.trim⟩ } } request length := by
    simp only [take, hs, takeField, hname, Utf8.decode?_encode]
    cases p.summary.note p.config.isStrict ⟨spelled, text.trim⟩ with
    | error v => simp [accepts_reject]
    | ok summary =>
      simp only
      rw [accepts_lineEnd_iff (.inr ⟨rfl, rfl⟩) (.inr rfl) (Nat.le_add_right_of_le hc)]
      simp [afterLineEnd]
  constructor
  · intro h
    obtain ⟨t, c, hscan, h⟩ := h
    cases hscan with
    | fieldValue text tail mode input field stops fits =>
      obtain ⟨rest, summary, rfl, hnote, hrest⟩ := (hline text tail _).1 h
      exact ⟨text, rest, summary, input, field, fits, hnote, hrest⟩
    | _ => simp_all
  · intro h
    obtain ⟨text, rest, summary, input, field, fits, hnote, h⟩ := h
    have stops : LineStops (Octets.crlf ++ rest) := by
      intro b hb
      exact .inl (Option.some.inj hb).symm
    exact ⟨_, _, .fieldValue text _ hm input field stops fits,
      (hline text _ _).2 ⟨rest, summary, rfl, hnote, h⟩⟩

theorem accepts_fieldsDone_iff (hs : p.stage = .fieldsDone) (hm : p.cursor.mode = .finished) :
    p.Accepts request length ↔
      (p.config.isStrict → p.request.version = .http11 → p.summary.hosts ≠ 0) ∧
        p.request = request ∧ p.cursor.position = length := by
  have hnext : p.cursor.next = p.cursor.atEnd := by rw [Cursor.next, hm]
  rw [← accepts_step, step_of_reads (by simp [hs, Stage.reads]), hnext]
  simp only [Cursor.atEnd, take, hs, close]
  have haccepted : (Parse.Accepts { p with stage := .accepted } request length) ↔
      p.request = request ∧ p.cursor.position = length := accepts_iff_of_accepted rfl
  split
  · rename_i h
    simp only [Bool.and_eq_true, beq_iff_eq] at h
    rw [accepts_reject, false_iff]
    intro h
    obtain ⟨hgiven, -⟩ := h
    exact hgiven h.1.1 h.1.2 h.2
  · rename_i h
    rw [haccepted]
    simp only [Bool.and_eq_true, beq_iff_eq] at h
    have hgiven : p.config.isStrict → p.request.version = .http11 → p.summary.hosts ≠ 0 :=
      fun hstrict hversion hzero => h ⟨⟨hstrict, hversion⟩, hzero⟩
    exact ⟨fun h => ⟨hgiven, h⟩, And.right⟩

def behindColon (p : Parse) (name : String) (rest : Octets) : Parse :=
  { p with
    cursor := { p.cursor with
      mode := .fieldValue
      position := p.cursor.position + (Utf8.encode name).length + 1
      lineStart := p.cursor.position
      rest } }

theorem accepts_takeFieldName_iff {name : String} {tail : Octets} :
    ((p.behindColon name tail).takeFieldName
        ⟨.fieldName, p.cursor.position, Utf8.encode name⟩).Accepts request length ↔
      p.request.fields.size < p.config.limits.fieldCount ∧
        ∃ (text rest : Octets) (summary : Summary), tail = text ++ (Octets.crlf ++ rest) ∧
          (∀ b ∈ text, Octet.isFieldText b) ∧
          (Utf8.encode name).length + 1 + text.length ≤ p.cursor.limits.fieldLine ∧
          p.summary.note p.config.isStrict ⟨name, text.trim⟩ = .ok summary ∧
          (p.afterField ((Utf8.encode name).length + 1 + text.length) ⟨name, text.trim⟩ summary
            rest).Accepts request length := by
  rw [takeFieldName]
  split
  · rename_i hfull
    rw [accepts_reject, false_iff]
    intro h
    obtain ⟨hroom, -⟩ := h
    exact absurd hroom (Nat.not_lt.2 hfull)
  · rename_i hroom
    have hroom' : p.request.fields.size < p.config.limits.fieldCount := Nat.not_le.1 hroom
    -- The colon costs a step, but no token.
    rw [← accepts_step, step, behindColon]
    simp only
    rw [accepts_fieldColon_iff rfl rfl rfl (by simp only; omega)]
    simp only [hroom', true_and, afterField, Nat.add_assoc, Nat.add_le_add_iff_left]

/-- Where a field line may start, the fields end or one more of them follows. -/
theorem accepts_fields_iff (hs : p.stage = .requestLineEnd ∨ p.stage = .fieldLineEnd)
    (hm : p.cursor.mode = .fieldName) (hc : p.cursor.lineStart ≤ p.cursor.position) :
    p.Accepts request length ↔
      (∃ rest, p.cursor.rest = Octets.crlf ++ rest ∧
        (p.config.isStrict → p.request.version = .http11 → p.summary.hosts ≠ 0) ∧
        p.request = request ∧ p.cursor.position + 2 = length) ∨
      ∃ (name : String) (text rest : Octets) (summary : Summary),
        p.cursor.rest = Utf8.encode name ++ (Octet.colon :: (text ++ (Octets.crlf ++ rest))) ∧
        Utf8.encode name ≠ [] ∧ (∀ b ∈ Utf8.encode name, Octet.isToken b) ∧
        (∀ b ∈ text, Octet.isFieldText b) ∧
        (Utf8.encode name).length + 1 + text.length ≤ p.cursor.limits.fieldLine ∧
        p.request.fields.size < p.config.limits.fieldCount ∧
        p.summary.note p.config.isStrict ⟨name, text.trim⟩ = .ok summary ∧
        (p.afterField ((Utf8.encode name).length + 1 + text.length) ⟨name, text.trim⟩ summary
          rest).Accepts request length := by
  rw [accepts_iff_scans (by rcases hs with hs | hs <;> simp [hs, Stage.reads])
    (by rcases hs with hs | hs <;> simp [hs]) hc]
  have hend (rest : Octets) :
      (take { p with cursor := { p.cursor with
            mode := .finished
            position := p.cursor.position + 2
            lineStart := p.cursor.position
            rest } }
          ⟨.lineEnd, p.cursor.position, Octets.crlf⟩).Accepts request length ↔
        (p.config.isStrict → p.request.version = .http11 → p.summary.hosts ≠ 0) ∧
          p.request = request ∧ p.cursor.position + 2 = length := by
    rcases hs with hs | hs
    all_goals
      simp only [take, hs]
      exact accepts_fieldsDone_iff rfl rfl
  have hname (name : String) (tail : Octets) :
      (p.behindColon name tail).take ⟨.fieldName, p.cursor.position, Utf8.encode name⟩ =
        (p.behindColon name tail).takeFieldName
          ⟨.fieldName, p.cursor.position, Utf8.encode name⟩ := by
    rcases hs with hs | hs <;> simp only [take, behindColon, hs]
  constructor
  · intro h
    obtain ⟨t, c, hscan, h⟩ := h
    cases hscan with
    | fieldName text tail mode input nonempty token fits =>
      obtain ⟨name, rfl⟩ := Utf8.exists_encode_eq fun b hb => Octet.lt_of_isToken (token b hb)
      obtain ⟨hroom, text, rest, summary, rfl, field, fits', hnote, hrest⟩ :=
        accepts_takeFieldName_iff.1 (hname name tail ▸ h)
      exact .inr ⟨name, text, rest, summary, input, nonempty, token, field, fits', hroom, hnote,
        hrest⟩
    | headEnd rest mode input => exact .inl ⟨rest, input, (hend rest).1 h⟩
    | _ => simp_all
  · intro h
    obtain ⟨rest, input, h⟩ | ⟨name, text, rest, summary, input, nonempty, token, field, fits,
      hroom, hnote, h⟩ := h
    · exact ⟨_, _, .headEnd rest hm input, (hend rest).2 h⟩
    · have htake := accepts_takeFieldName_iff.2 ⟨hroom, text, rest, summary, rfl, field, fits,
        hnote, h⟩
      exact ⟨_, _, .fieldName _ _ hm input nonempty token (by omega), (hname name _).symm ▸ htake⟩

theorem accepts_line_iff (hs : p.stage = .requestLineEnd ∨ p.stage = .fieldLineEnd)
    (hm : p.cursor.mode = .fieldName) (hc : p.cursor.lineStart ≤ p.cursor.position) :
    p.Accepts request length ↔
      (∃ rest, p.cursor.rest = Octets.crlf ++ rest ∧
        (p.config.isStrict → p.request.version = .http11 → p.summary.hosts ≠ 0) ∧
        p.request = request ∧ p.cursor.position + 2 = length) ∨
      ∃ (line : FieldLine) (rest : Octets) (summary : Summary),
        p.cursor.rest = line.full ++ rest ∧ line.WellFormed p.cursor.limits.fieldLine ∧
        p.request.fields.size < p.config.limits.fieldCount ∧
        p.summary.note p.config.isStrict line.field = .ok summary ∧
        (p.afterField line.octets.length line.field summary rest).Accepts request length := by
  rw [accepts_fields_iff hs hm hc]
  apply or_congr_right
  constructor
  · intro h
    obtain ⟨name, text, rest, summary, hrest, hne, htoken, htext, hfits, hroom, hnote, h⟩ := h
    obtain ⟨line, hname, hline, hfield, hwell⟩ := FieldLine.exists_wellFormed hne htoken htext hfits
    have hoctets : line.octets = Utf8.encode name ++ Octet.colon :: text := by
      rw [FieldLine.octets_eq, hname, hline]
    have hlength : line.octets.length = (Utf8.encode name).length + 1 + text.length := by
      rw [FieldLine.length_octets, hname, hline]
    refine ⟨line, rest, summary, ?_, hwell, hroom, hfield ▸ hnote, ?_⟩
    · rw [hrest, FieldLine.full, hoctets]
      simp
    · rw [hlength, hfield]
      exact h
  · intro h
    obtain ⟨line, rest, summary, hrest, hwell, hroom, hnote, h⟩ := h
    have hfield : line.field = ⟨line.name, line.text.trim⟩ := by rw [hwell.trim_text]; rfl
    rw [hfield] at hnote h
    rw [line.length_octets] at h
    refine ⟨line.name, line.text, rest, summary, ?_, hwell.name_ne, hwell.name_token,
      fun b => hwell.isFieldText_of_mem, line.length_octets ▸ hwell.length_le, hroom, hnote, h⟩
    rw [hrest, FieldLine.full, FieldLine.octets_eq]
    simp

/-- The input goes on with these field lines and the empty line behind them; the lines are
well-formed, agree with the fields so far, and make up the request with them. -/
def ReadsLines (p : Parse) (lines : List FieldLine) (request : Request) (length : Nat) : Prop :=
  ∃ (rest : Octets) (summary : Summary),
    p.cursor.rest = lines.flatMap FieldLine.full ++ (Octets.crlf ++ rest) ∧
    (∀ line ∈ lines, line.WellFormed p.cursor.limits.fieldLine) ∧
    p.request.fields.size + lines.length ≤ p.config.limits.fieldCount ∧
    p.summary.noteAll p.config.isStrict (lines.map FieldLine.field) = .ok summary ∧
    (p.config.isStrict → p.request.version = .http11 → summary.hosts ≠ 0) ∧
    { p.request with fields := p.request.fields.appendAll (lines.map FieldLine.field) } = request ∧
    p.cursor.position + (lines.flatMap FieldLine.full).length + 2 = length

theorem ReadsLines.size_le {lines : List FieldLine} (h : p.ReadsLines lines request length) :
    p.request.fields.size + lines.length ≤ p.config.limits.fieldCount := by
  obtain ⟨rest, summary, hrest, hlines, hsize, hall⟩ := h
  exact hsize

theorem readsLines_nil_iff (hsize : p.request.fields.size ≤ p.config.limits.fieldCount) :
    p.ReadsLines [] request length ↔ ∃ rest, p.cursor.rest = Octets.crlf ++ rest ∧
      (p.config.isStrict → p.request.version = .http11 → p.summary.hosts ≠ 0) ∧
      p.request = request ∧ p.cursor.position + 2 = length := by
  simp [ReadsLines, Summary.noteAll, pure, Except.pure, Fields.appendAll_nil, hsize]

theorem readsLines_cons_iff {line : FieldLine} {lines : List FieldLine} :
    p.ReadsLines (line :: lines) request length ↔ ∃ (rest : Octets) (summary : Summary),
      p.cursor.rest = line.full ++ rest ∧ line.WellFormed p.cursor.limits.fieldLine ∧
      p.summary.note p.config.isStrict line.field = .ok summary ∧
      (p.afterField line.octets.length line.field summary rest).ReadsLines lines request
        length := by
  have hposition : p.cursor.position + ((line :: lines).flatMap FieldLine.full).length + 2 =
      p.cursor.position + line.octets.length + 2 + (lines.flatMap FieldLine.full).length + 2 := by
    rw [List.flatMap_cons, List.length_append, FieldLine.full, List.length_append, Octets.crlf,
      List.length_cons, List.length_singleton]
    omega
  have hcount : p.request.fields.size + (line :: lines).length =
      p.request.fields.size + 1 + lines.length := by
    rw [List.length_cons]
    omega
  constructor
  · intro h
    obtain ⟨rest, summary, hrest, hlines, hsize, hall, hhost, hrequest, hlength⟩ := h
    obtain ⟨hwell, hlines⟩ := List.forall_mem_cons.1 hlines
    obtain ⟨noted, hnote, hall⟩ := Summary.noteAll_cons.1 hall
    rw [hposition] at hlength
    rw [hcount] at hsize
    rw [List.flatMap_cons, List.append_assoc] at hrest
    refine ⟨_, noted, hrest, hwell, hnote, rest, summary, rfl, hlines, ?_, hall, hhost, ?_, hlength⟩
    · rw [afterField, Fields.size_append]
      exact hsize
    · rw [← hrequest, List.map_cons, Fields.appendAll_cons]
      rfl
  · intro h
    obtain ⟨tail, noted, hrest, hwell, hnote, h⟩ := h
    obtain ⟨rest, summary, htail, hlines, hsize, hall, hhost, hrequest, hlength⟩ := h
    simp only [afterField, Fields.size_append] at htail hlines hsize hall hhost hrequest hlength
    refine ⟨rest, summary, ?_, List.forall_mem_cons.2 ⟨hwell, hlines⟩, ?_,
      Summary.noteAll_cons.2 ⟨noted, hnote, hall⟩, hhost, ?_, ?_⟩
    · rw [hrest, htail, List.flatMap_cons, List.append_assoc]
    · rw [hcount]
      exact hsize
    · rw [← hrequest, List.map_cons, Fields.appendAll_cons]
    · rw [hposition]
      exact hlength

theorem exists_readsLines_of_accepts (hs : p.stage = .requestLineEnd ∨ p.stage = .fieldLineEnd)
    (hm : p.cursor.mode = .fieldName) (hc : p.cursor.lineStart ≤ p.cursor.position)
    (hsize : p.request.fields.size ≤ p.config.limits.fieldCount) (h : p.Accepts request length) :
    ∃ lines, p.ReadsLines lines request length := by
  -- One more line leaves less of the input.
  induction hn : p.cursor.rest.length using Nat.strongRecOn generalizing p with
  | ind n ih =>
    cases (accepts_line_iff hs hm hc).1 h with
    | inl hend => exact ⟨[], (readsLines_nil_iff hsize).2 hend⟩
    | inr hmore =>
      obtain ⟨line, rest, summary, hrest, hwell, hroom, hnote, h⟩ := hmore
      have hshort : rest.length < n := by
        rw [← hn, hrest, FieldLine.full, Octets.crlf]
        simp only [List.length_append, List.length_cons]
        omega
      have hsize' : (p.afterField line.octets.length line.field summary rest).request.fields.size ≤
          p.config.limits.fieldCount := by
        rw [afterField, Fields.size_append]
        exact hroom
      obtain ⟨lines, hlines⟩ := ih rest.length hshort (.inr rfl) rfl
        (Nat.le_add_right_of_le (Nat.le_add_right ..)) hsize' h rfl
      exact ⟨line :: lines, readsLines_cons_iff.2 ⟨rest, summary, hrest, hwell, hnote, hlines⟩⟩

theorem accepts_of_readsLines {lines : List FieldLine}
    (hs : p.stage = .requestLineEnd ∨ p.stage = .fieldLineEnd)
    (hm : p.cursor.mode = .fieldName) (hc : p.cursor.lineStart ≤ p.cursor.position)
    (h : p.ReadsLines lines request length) : p.Accepts request length := by
  induction lines generalizing p with
  | nil =>
    exact (accepts_line_iff hs hm hc).2 (.inl ((readsLines_nil_iff h.size_le).1 h))
  | cons line lines ih =>
    have hsize := h.size_le
    rw [List.length_cons] at hsize
    obtain ⟨rest, summary, hrest, hwell, hnote, hlines⟩ := readsLines_cons_iff.1 h
    have hroom : p.request.fields.size < p.config.limits.fieldCount := by omega
    have haccepts := ih (.inr rfl) rfl (Nat.le_add_right_of_le (Nat.le_add_right ..)) hlines
    exact (accepts_line_iff hs hm hc).2
      (.inr ⟨line, rest, summary, hrest, hwell, hroom, hnote, haccepts⟩)

theorem length_spelling_octets (s : Spelling) :
    s.octets.length = 2 * s.emptyLines + (Utf8.encode s.method).length + 1 +
      (Utf8.encode s.target).length + 1 + (Utf8.encode s.version.text).length + 2 +
      (s.lines.flatMap FieldLine.full).length + 2 := by
  simp only [Spelling.octets, List.length_append, Cursor.length_emptyLines, Octets.crlf,
    List.length_cons, List.length_nil]

theorem exists_spelling_of_accepts {config : Config} {input : Octets}
    (h : (ofInput config input).Accepts request length) : ∃ (s : Spelling) (rest : Octets),
      input = s.octets ++ rest ∧ s.Permitted config ∧ s.request = request ∧
        s.octets.length = length := by
  -- Stage by stage, what was accepted is cut into the parts of a spelling.
  obtain ⟨n, method, rest₁, hinput, hmne, hmtoken, hmfits, hregistered, h⟩ :=
    (accepts_start_iff rfl rfl (Nat.le_refl _)).1 h
  obtain ⟨target, rest₂, hrest₁, htne, htvisible, htfits, h⟩ :=
    (accepts_method_iff rfl rfl (Nat.le_add_right_of_le (Nat.le_add_right ..))).1 h
  obtain ⟨version, rest₃, hrest₂, h⟩ :=
    (accepts_target_iff rfl rfl (by simp only [afterTarget, afterMethod]; omega)).1 h
  obtain ⟨lines, rest, summary, hrest₃, hlines, hsize, hall, hhost, hrequest, hlength⟩ :=
    exists_readsLines_of_accepts (.inl rfl) rfl
      (by simp only [afterVersion, afterTarget, afterMethod]; omega) (Nat.zero_le _) h
  obtain ⟨hagree, rfl⟩ := Summary.noteAll_eq_ok_iff.1 hall
  have hsize' : lines.length ≤ config.limits.fieldCount := Nat.le_trans (Nat.le_add_left ..) hsize
  let s : Spelling := ⟨n, method, target, version, lines⟩
  have hadmissible : s.request.Admissible config := by
    rw [Request.admissible_iff, Spelling.toList_fields_request]
    exact ⟨by simpa using hsize', hagree, hregistered, hhost⟩
  refine ⟨s, rest, ?_,
    ⟨hmne, hmtoken, hmfits, htne, htvisible, htfits, hlines, hadmissible⟩, ?_, ?_⟩
  · simp only [afterMethod, ofInput, Cursor.start] at hinput hrest₁
    simp only [afterVersion, afterTarget, afterMethod] at hrest₂ hrest₃
    simp [s, Spelling.octets, hinput, hrest₁, hrest₂, hrest₃]
  · rw [← hrequest]
    simp [s, Spelling.request, afterVersion, afterTarget, afterMethod, ofInput, Fields.appendAll,
      Fields.empty]
  · rw [length_spelling_octets, ← hlength]
    simp [s, afterVersion, afterTarget, afterMethod, ofInput, Cursor.start]

theorem accepts_of_spelling {config : Config} {s : Spelling} (h : s.Permitted config)
    (rest : Octets) :
    (ofInput config (s.octets ++ rest)).Accepts s.request s.octets.length := by
  have hadmissible := h.admissible
  rw [Request.admissible_iff, Spelling.toList_fields_request, List.length_map] at hadmissible
  obtain ⟨hsize, hagree, hregistered, hhost⟩ := hadmissible
  let tail := s.lines.flatMap FieldLine.full ++ (Octets.crlf ++ rest)
  rw [accepts_start_iff rfl rfl (Nat.le_refl _)]
  refine ⟨s.emptyLines, s.method, Utf8.encode s.target ++ Octet.sp ::
    (Utf8.encode s.version.text ++ (Octets.crlf ++ tail)), ?_, h.method_ne, h.method_token,
    h.method_le, hregistered, ?_⟩
  · simp [ofInput, Cursor.start, Spelling.octets, tail]
  rw [accepts_method_iff rfl rfl (Nat.le_add_right_of_le (Nat.le_add_right ..))]
  refine ⟨s.target, _, rfl, h.target_ne, h.target_visible, h.target_le, ?_⟩
  rw [accepts_target_iff rfl rfl (by simp only [afterTarget, afterMethod]; omega)]
  refine ⟨s.version, _, rfl, ?_⟩
  apply accepts_of_readsLines (.inl rfl) rfl
    (by simp only [afterVersion, afterTarget, afterMethod]; omega)
  refine ⟨rest, _, rfl, h.lines, ?_, Summary.noteAll_eq_ok_iff.2 ⟨hagree, rfl⟩, hhost, ?_, ?_⟩
  · simpa [afterVersion, afterTarget, afterMethod, ofInput, Fields.size, Fields.empty] using hsize
  · simp [Spelling.request, afterVersion, afterTarget, afterMethod, ofInput, Fields.appendAll,
      Fields.empty]
  · rw [length_spelling_octets]
    simp [afterVersion, afterTarget, afterMethod, ofInput, Cursor.start]

/-- A fresh parse accepts exactly the permitted spellings, whatever follows them. -/
theorem accepts_ofInput_iff {config : Config} {input : Octets} :
    (ofInput config input).Accepts request length ↔ ∃ (s : Spelling) (rest : Octets),
      input = s.octets ++ rest ∧ s.Permitted config ∧ s.request = request ∧
        s.octets.length = length := by
  constructor
  · exact exists_spelling_of_accepts
  · intro h
    obtain ⟨s, rest, rfl, hpermitted, rfl, rfl⟩ := h
    exact accepts_of_spelling hpermitted rest

end Parse

end HttpHead
