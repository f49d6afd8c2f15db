import HttpHead.Proofs.Accept

/-! Parses that fill in a request which is not empty. What it holds stays in front and takes up room
for fields, and nothing else of it is ever looked at: at each step the parse is at the same point as
one that fills in a new request and has as much less room (`seeded_step`). -/
namespace HttpHead

/-- The request with another one put behind it. The method and the version are those of the second,
the target and the fields are appended. -/
def Request.followedBy (seed request : Request) : Request where
  method := request.method
  target := seed.target ++ request.target
  version := request.version
  fields := seed.fields.appendAll request.fields.toList

theorem Fields.appendAll_append_field (fields more : Fields) (field : Field) :
    fields.appendAll (more.append field).toList = (fields.appendAll more.toList).append field :=
  congrArg Fields.mk (Array.toList_inj.1 (by simp [appendAll, append, toList]))

theorem Fields.size_appendAll (fields more : Fields) :
    (fields.appendAll more.toList).size = fields.size + more.size := by
  simp [appendAll, size, toList]

namespace Stage

def hasMethod : Stage → Bool
  | start | rejected .. => false
  | _ => true

def hasVersion : Stage → Bool
  | start | method | target | rejected .. => false
  | _ => true

theorem hasMethod_of_hasVersion {stage : Stage} (h : stage.hasVersion) : stage.hasMethod := by
  cases stage <;> simp_all [hasVersion, hasMethod]

end Stage

namespace Parse

variable {seed : Request} {p q : Parse} {t : Token}

/-- The first parse is at the point of the second, but what the seed holds is in front of what was
filled in. As long as the method or the version was not read, it is that of the seed. -/
structure Seeded (seed : Request) (p q : Parse) : Prop where
  strictness : p.config.isStrict = q.config.isStrict
  room : q.config.limits.fieldCount = p.config.limits.fieldCount - seed.fields.size
  cursor : p.cursor = q.cursor
  stage : p.stage = q.stage
  summary : p.summary = q.summary
  target : p.request.target = seed.target ++ q.request.target
  fields : p.request.fields = seed.fields.appendAll q.request.fields.toList
  method : q.stage.hasMethod → p.request.method = q.request.method
  version : q.stage.hasVersion → p.request.version = q.request.version

namespace Seeded

theorem reject (h : Seeded seed p q) (violation : Violation) (offset : Nat) :
    Seeded seed (p.reject violation offset) (q.reject violation offset) :=
  ⟨h.strictness, h.room, h.cursor, rfl, h.summary, h.target, h.fields, nofun, nofun⟩

theorem enter (h : Seeded seed p q) (hv : q.stage.hasVersion) (stage : Stage) :
    Seeded seed { p with stage } { q with stage } :=
  ⟨h.strictness, h.room, h.cursor, rfl, h.summary, h.target, h.fields,
    fun _ => h.method (Stage.hasMethod_of_hasVersion hv), fun _ => h.version hv⟩

theorem takeMethod (h : Seeded seed p q) (t : Token) :
    Seeded seed (p.takeMethod t) (q.takeMethod t) := by
  rw [Parse.takeMethod, Parse.takeMethod, h.strictness]
  cases Utf8.decode? t.text with
  | none => exact h.reject _ _
  | some text =>
    dsimp only
    split
    · exact h.reject _ _
    · exact ⟨h.strictness, h.room, h.cursor, rfl, h.summary, h.target, h.fields,
        fun _ => rfl, by simp [Stage.hasVersion]⟩

theorem takeTarget (h : Seeded seed p q) (hm : q.stage.hasMethod) (t : Token) :
    Seeded seed (p.takeTarget t) (q.takeTarget t) := by
  rw [Parse.takeTarget, Parse.takeTarget]
  cases Utf8.decode? t.text with
  | none => exact h.reject _ _
  | some text =>
    have htarget : p.request.target ++ text = seed.target ++ (q.request.target ++ text) := by
      rw [h.target, String.append_assoc]
    exact ⟨h.strictness, h.room, h.cursor, rfl, h.summary, htarget, h.fields,
      fun _ => h.method hm, by simp [Stage.hasVersion]⟩

theorem takeVersion (h : Seeded seed p q) (hm : q.stage.hasMethod) (t : Token) :
    Seeded seed (p.takeVersion t) (q.takeVersion t) := by
  rw [Parse.takeVersion, Parse.takeVersion]
  cases Version.ofOctets? t.text with
  | none => exact h.reject _ _
  | some version =>
    exact ⟨h.strictness, h.room, h.cursor, rfl, h.summary, h.target, h.fields,
      fun _ => h.method hm, fun _ => rfl⟩

theorem takeFieldName (h : Seeded seed p q) (hv : q.stage.hasVersion) (t : Token) :
    Seeded seed (p.takeFieldName t) (q.takeFieldName t) := by
  have hfull : p.config.limits.fieldCount ≤ p.request.fields.size ↔
      q.config.limits.fieldCount ≤ q.request.fields.size := by
    rw [h.fields, Fields.size_appendAll, h.room]
    omega
  rw [Parse.takeFieldName, Parse.takeFieldName]
  simp only [hfull]
  split
  · exact h.reject _ _
  · exact h.enter hv _

theorem takeField (h : Seeded seed p q) (hv : q.stage.hasVersion) (name value : Token) :
    Seeded seed (p.takeField name value) (q.takeField name value) := by
  rw [Parse.takeField, Parse.takeField, h.strictness, h.summary]
  cases Utf8.decode? name.text with
  | none => exact h.reject _ _
  | some spelled =>
    dsimp only
    cases q.summary.note q.config.isStrict ⟨spelled, value.text⟩ with
    | error violation => exact h.reject _ _
    | ok summary =>
      have hfields : p.request.fields.append ⟨spelled, value.text⟩ =
          seed.fields.appendAll (q.request.fields.append ⟨spelled, value.text⟩).toList := by
        rw [h.fields, Fields.appendAll_append_field]
      exact ⟨h.strictness, h.room, h.cursor, rfl, rfl, h.target, hfields,
        fun _ => h.method (Stage.hasMethod_of_hasVersion hv), fun _ => h.version hv⟩

theorem close (h : Seeded seed p q) (hv : q.stage.hasVersion) (t : Token) :
    Seeded seed (p.close t) (q.close t) := by
  have hmissing : (p.config.isStrict && p.request.version == .http11 && p.summary.hosts == 0) =
      (q.config.isStrict && q.request.version == .http11 && q.summary.hosts == 0) := by
    rw [h.strictness, h.version hv, h.summary]
  rw [Parse.close, Parse.close, hmissing]
  split
  · exact h.reject _ _
  · exact h.enter hv _

theorem take (h : Seeded seed p q) (t : Token) : Seeded seed (p.take t) (q.take t) := by
  rw [Parse.take, Parse.take, h.stage]
  split
  · exact h.reject _ _
  · exact h.takeMethod t
  · exact h.takeTarget (by simp [*, Stage.hasMethod]) t
  · exact h.takeVersion (by simp [*, Stage.hasMethod]) t
  · exact h.enter (by simp [*, Stage.hasVersion]) _
  · exact h.takeFieldName (by simp [*, Stage.hasVersion]) t
  · exact h.takeFieldName (by simp [*, Stage.hasVersion]) t
  · exact h.enter (by simp [*, Stage.hasVersion]) _
  · exact h.enter (by simp [*, Stage.hasVersion]) _
  · exact h.takeField (by simp [*, Stage.hasVersion]) _ t
  · exact h.enter (by simp [*, Stage.hasVersion]) _
  · exact h.close (by simp [*, Stage.hasVersion]) t
  · exact h.reject _ _
  · exact h.reject _ _

end Seeded

theorem seeded_step (h : Seeded seed p q) : Seeded seed p.step q.step := by
  cases hr : q.stage.reads with
  | true =>
    have hmoved : Seeded seed { p with cursor := p.cursor.next.2 }
        { q with cursor := q.cursor.next.2 } :=
      { h with cursor := by rw [h.cursor] }
    rw [step_of_reads hr, step_of_reads (h.stage ▸ hr)]
    rw [h.cursor] at hmoved ⊢
    exact hmoved.take q.cursor.next.1
  | false =>
    have hmethod : q.stage.passed.hasMethod = q.stage.hasMethod := by cases q.stage <;> rfl
    have hversion : q.stage.passed.hasVersion = q.stage.hasVersion := by cases q.stage <;> rfl
    rw [step_of_not_reads hr, step_of_not_reads (h.stage ▸ hr)]
    exact { h with
      stage := congrArg Stage.passed h.stage
      method := fun hm => h.method (hmethod ▸ hm)
      version := fun hv => h.version (hversion ▸ hv) }

theorem seeded_run (h : Seeded seed p q) : Seeded seed p.run q.run := by
  induction p using run_induction generalizing q with
  | final p hfinal =>
    rwa [run_of_isFinal hfinal, run_of_isFinal (h.stage ▸ hfinal)]
  | step p _ ih =>
    rw [← run_step p, ← run_step q]
    exact ih (seeded_step h)

theorem result_of_seeded (h : Seeded seed p q) (hfinal : q.stage.isFinal) :
    p.result = q.result.map seed.followedBy := by
  rw [result, result, h.stage]
  cases hs : q.stage with
  | rejected violation offset => rfl
  | accepted =>
    have hrequest : p.request = seed.followedBy q.request := by
      rw [Request.followedBy, ← h.target, ← h.fields, ← h.method (by rw [hs]; rfl),
        ← h.version (by rw [hs]; rfl)]
    exact congrArg Except.ok hrequest
  | _ => rw [hs] at hfinal; cases hfinal

/-- Wherever a cursor stands, what a request holds in front of a parse changes the parse by the room
that its fields take up, and by nothing else: the parse gives the same verdict, with the same stage
at the same place, as one that fills in a new request with so much less room, and the request that
it accepts is the seed followed by that of the other. -/
theorem run_seeded (config : Config) (cursor : Cursor) (seed : Request) :
    let room := config.limits.fieldCount - seed.fields.size
    let less : Config := { config with limits := { config.limits with fieldCount := room } }
    let p := ({ config, cursor, request := seed } : Parse).run
    let q := ({ config := less, cursor } : Parse).run
    p.result = q.result.map seed.followedBy ∧ p.stage = q.stage ∧ p.cursor = q.cursor := by
  intro room less p q
  have htarget : seed.target = seed.target ++ "" := String.append_empty.symm
  have hfields : seed.fields = seed.fields.appendAll Fields.empty.toList :=
    (Fields.appendAll_nil _).symm
  have hseeded : Seeded seed p q :=
    seeded_run ⟨rfl, rfl, rfl, rfl, rfl, htarget, hfields, nofun, nofun⟩
  exact ⟨result_of_seeded hseeded (isFinal_run _), hseeded.stage, hseeded.cursor⟩

end Parse

end HttpHead
