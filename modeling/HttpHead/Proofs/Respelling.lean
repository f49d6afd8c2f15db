import HttpHead.Proofs.Agreement
import HttpHead.Proofs.Case
import HttpHead.Proofs.Lockstep
import HttpHead.Proofs.Shift

/-! Field names in other cases. Two inputs that differ in the case of their field names alone are
read token by token alike (`Cursor.Respelled.next`), and so two parses over them stay alike from
step to step (`Parse.respelled_step`) and come to the same verdict. -/
namespace HttpHead

namespace Octet

theorem isToken_lower (b : UInt8) : isToken (lower b) = isToken b := by
  have h : ∀ n < 256, isToken (lower (.ofNat n)) = isToken (.ofNat n) := by decide +kernel
  simpa using h b.toNat b.toNat_lt

theorem isVisible_lower (b : UInt8) : isVisible (lower b) = isVisible b := by
  have h : ∀ n < 256, isVisible (lower (.ofNat n)) = isVisible (.ofNat n) := by decide +kernel
  simpa using h b.toNat b.toNat_lt

theorem lower_eq_iff {a : UInt8} (ha : a ∈ [lf, cr, sp, colon]) (b : UInt8) :
    lower b = a ↔ b = a := by
  have h : ∀ n < 256, ∀ a ∈ [lf, cr, sp, colon], lower (.ofNat n) = a ↔ .ofNat n = a := by
    decide +kernel
  simpa using h b.toNat b.toNat_lt a ha

end Octet

namespace Octets

variable {text other : Octets}

theorem length_of_lower (h : lower other = lower text) : other.length = text.length := by
  simpa [lower] using congrArg List.length h

theorem forall_of_lower {p : UInt8 → Bool} (hp : ∀ b, p (Octet.lower b) = p b)
    (h : lower other = lower text) (ht : ∀ b ∈ text, p b) : ∀ b ∈ other, p b := by
  intro b hb
  have hmem : Octet.lower b ∈ lower text := h ▸ List.mem_map_of_mem hb
  obtain ⟨a, ha, hab⟩ := List.mem_map.1 hmem
  rw [← hp, ← hab, hp]
  exact ht a ha

theorem exists_head_of_lower {b : UInt8} (h : lower other = lower text) (hb : b ∈ other.head?) :
    ∃ a ∈ text.head?, Octet.lower a = Octet.lower b := by
  have hhead : other.head?.map Octet.lower = text.head?.map Octet.lower := by
    simpa [lower] using congrArg List.head? h
  rw [Option.mem_def.1 hb, Option.map_some, eq_comm, Option.map_eq_some_iff] at hhead
  exact hhead

theorem stops_of_lower {p : UInt8 → Bool} (hp : ∀ b, p (Octet.lower b) = p b)
    (h : lower other = lower text) (ht : Stops p text) : Stops p other := by
  intro b hb
  obtain ⟨a, ha, hab⟩ := exists_head_of_lower h hb
  rw [← hp, ← hab, hp]
  exact ht a ha

theorem lineStops_of_lower (h : lower other = lower text) (ht : LineStops text) :
    LineStops other := by
  intro b hb
  obtain ⟨a, ha, hab⟩ := exists_head_of_lower h hb
  rcases ht a ha with rfl | rfl
  · exact .inl ((Octet.lower_eq_iff (by simp) b).1 hab.symm)
  · exact .inr ((Octet.lower_eq_iff (by simp) b).1 hab.symm)

end Octets

namespace Cursor

open Octets

variable {c d : Cursor} {t : Token} {other : Octets} {n i : Nat}

/-- Other octets for those ahead of a cursor: they differ in the case of letters only, and only
where the name of a field is going to be read. -/
structure Respelled (c : Cursor) (other : Octets) : Prop where
  letters : lower other = lower c.rest
  names : ∀ i, other[i]? ≠ c.rest[i]? → ∃ n, ∃ t ∈ (c.tokens n).1,
    t.kind = .fieldName ∧ t.offset ≤ c.position + i ∧ c.position + i < t.stop

theorem between_of_goesOn (hc : c.lineStart ≤ c.position) (hgo : c.next.1.kind.goesOn) :
    c.position ≤ c.next.1.offset ∧ c.next.1.stop ≤ c.next.2.position := by
  obtain ⟨before, after, -, hoffset, hposition⟩ := exists_split_of_scans (scans_next hc hgo)
  omega

theorem goesOn_of_fieldName (h : t.kind = .fieldName) : t.kind.goesOn := by
  rw [h]
  rfl

theorem position_le_of_mem_tokens (hc : c.lineStart ≤ c.position) (ht : t ∈ (c.tokens n).1)
    (hk : t.kind = .fieldName) : c.position ≤ t.offset := by
  induction n generalizing c with
  | zero => simp [tokens] at ht
  | succ n ih =>
    rw [tokens, List.mem_cons] at ht
    rcases ht with rfl | ht
    · exact (between_of_goesOn hc (goesOn_of_fieldName hk)).1
    · exact (reaches_next hc).position_le.trans (ih ((orderly_next c).1.2 hc) ht)

namespace Respelled

/-- A difference is in the name that is read next, or ahead behind the next token. -/
theorem difference (h : c.Respelled other) (hc : c.lineStart ≤ c.position)
    (hi : other[i]? ≠ c.rest[i]?) :
    c.next.1.kind = .fieldName ∧ c.position + i < c.next.1.stop ∨
      c.next.2.position ≤ c.position + i ∧ ∃ n, ∃ t ∈ (c.next.2.tokens n).1,
        t.kind = .fieldName ∧ t.offset ≤ c.position + i ∧ c.position + i < t.stop := by
  obtain ⟨n, t, ht, hk, hlow, hhigh⟩ := h.names i hi
  cases n with
  | zero => simp [tokens] at ht
  | succ n =>
    rw [tokens, List.mem_cons] at ht
    rcases ht with rfl | ht
    · exact .inl ⟨hk, hhigh⟩
    · have hle := position_le_of_mem_tokens ((orderly_next c).1.2 hc) ht hk
      exact .inr ⟨hle.trans hlow, n, t, ht, hk, hlow, hhigh⟩

theorem eq_of_halts (h : c.Respelled other) (hc : c.lineStart ≤ c.position)
    (hgo : ¬c.next.1.kind.goesOn) : other = c.rest := by
  apply List.ext_getElem?
  intro i
  by_contra hi
  obtain ⟨hk, -⟩ | ⟨-, n, t, ht, hk, -⟩ := h.difference hc hi
  · exact hgo (goesOn_of_fieldName hk)
  · rw [tokens_next hgo] at ht
    obtain rfl := List.eq_of_mem_replicate ht
    exact hgo (goesOn_of_fieldName hk)

theorem behind (h : c.Respelled other) (hc : c.lineStart ≤ c.position)
    (hposition : c.next.2.position = c.position + n) (hrest : c.next.2.rest = c.rest.drop n) :
    c.next.2.Respelled (other.drop n) where
  letters := by
    have hletters := congrArg (List.drop n) h.letters
    rwa [lower, lower, ← List.map_drop, ← List.map_drop, ← hrest] at hletters
  names i hi := by
    rw [hrest, List.getElem?_drop, List.getElem?_drop] at hi
    obtain ⟨hk, hstop⟩ | ⟨-, hnames⟩ := h.difference hc hi
    · have hle := (between_of_goesOn hc (goesOn_of_fieldName hk)).2
      omega
    · rwa [hposition, Nat.add_assoc]

theorem front (h : c.Respelled other) (hc : c.lineStart ≤ c.position)
    (hposition : c.next.2.position = c.position + n) (hk : c.next.1.kind ≠ .fieldName) :
    other.take n = c.rest.take n := by
  apply List.ext_getElem?
  intro i
  rw [List.getElem?_take, List.getElem?_take]
  by_cases hin : i < n
  · rw [if_pos hin, if_pos hin]
    by_contra hi
    obtain ⟨hname, -⟩ | ⟨hle, -⟩ := h.difference hc hi
    · exact hk hname
    · omega
  · rw [if_neg hin, if_neg hin]

end Respelled

end Cursor

inductive Token.Respelled : Token → Token → Prop where
  | same {t : Token} (kind : t.kind ≠ .fieldName) : Respelled t t
  | name (offset : Nat) {s s' : String} (spelled : Text.sameUpToCase s s') :
      Respelled ⟨.fieldName, offset, Utf8.encode s⟩ ⟨.fieldName, offset, Utf8.encode s'⟩

namespace Token.Respelled

variable {t t' : Token}

theorem kind_eq (h : t.Respelled t') : t'.kind = t.kind := by
  cases h <;> rfl

theorem offset_eq (h : t.Respelled t') : t'.offset = t.offset := by
  cases h <;> rfl

theorem eq (h : t.Respelled t') (hk : t.kind ≠ .fieldName) : t' = t := by
  cases h with
  | same => rfl
  | name => exact absurd rfl hk

theorem decode?_cases (h : t.Respelled t') :
    Utf8.decode? t.text = none ∧ Utf8.decode? t'.text = none ∨
      ∃ s s', Utf8.decode? t.text = some s ∧ Utf8.decode? t'.text = some s' ∧
        Text.sameUpToCase s s' := by
  cases h with
  | same =>
    cases hs : Utf8.decode? t.text with
    | none => exact .inl ⟨rfl, rfl⟩
    | some s => exact .inr ⟨s, s, rfl, rfl, beq_self_eq_true _⟩
  | name offset spelled =>
    exact .inr ⟨_, _, Utf8.decode?_encode _, Utf8.decode?_encode _, spelled⟩

end Token.Respelled

namespace Cursor

open Octets

variable {c d : Cursor} {t : Token} {other : Octets} {n : Nat}

theorem eq_append_of_front {front rest : Octets} (hrest : c.rest = front ++ rest)
    (hn : front.length = n) (hfront : other.take n = c.rest.take n) :
    other = front ++ other.drop n := by
  subst hn
  rw [hrest, List.take_left] at hfront
  conv_lhs => rw [← List.take_append_drop front.length other, hfront]

theorem scans_respelled (hscan : c.Scans t d) (hposition : d.position = c.position + n)
    (hletters : lower other = lower c.rest) (hbehind : lower (other.drop n) = lower d.rest)
    (hfront : t.kind ≠ .fieldName → other.take n = c.rest.take n) :
    ∃ t', ({ c with rest := other } : Cursor).Scans t' { d with rest := other.drop n } ∧
      t.Respelled t' := by
  cases hscan with
  | method k text rest mode input nonempty token fits =>
    have hother : other = Octets.emptyLines k ++ (text ++ [Octet.sp]) ++ other.drop n := by
      apply eq_append_of_front (by simpa using input) _ (hfront (by simp))
      simp only [List.length_append, length_emptyLines, List.length_singleton] at hposition ⊢
      omega
    have hinput : other = Octets.emptyLines k ++ (text ++ Octet.sp :: other.drop n) := by
      simpa using hother
    exact ⟨_, .method k text _ mode hinput nonempty token fits, .same (by simp)⟩
  | target text rest mode input nonempty visible fits =>
    have hother : other = (text ++ [Octet.sp]) ++ other.drop n := by
      apply eq_append_of_front (by simpa using input) _ (hfront (by simp))
      simp only [List.length_append, List.length_singleton] at hposition ⊢
      omega
    have hinput : other = text ++ Octet.sp :: other.drop n := by simpa using hother
    exact ⟨_, .target text _ mode hinput nonempty visible fits, .same (by simp)⟩
  | version text rest mode input version stops =>
    have hother : other = text ++ other.drop n :=
      eq_append_of_front input (Nat.add_left_cancel hposition) (hfront (by simp))
    have hstops := stops_of_lower Octet.isVisible_lower hbehind stops
    exact ⟨_, .version text _ mode hother version hstops, .same (by simp)⟩
  | lineEnd rest mode input =>
    have hother : other = Octets.crlf ++ other.drop n :=
      eq_append_of_front input (Nat.add_left_cancel hposition) (hfront (by simp))
    exact ⟨_, .lineEnd _ mode hother, .same (by simp)⟩
  | fieldName text rest mode input nonempty token fits =>
    rw [input, lower, lower, List.map_append, List.map_cons, List.map_eq_append_iff] at hletters
    obtain ⟨text', tail, rfl, htext, htail⟩ := hletters
    obtain ⟨b, rest', rfl, hb, -⟩ := List.map_eq_cons_iff.1 htail
    have hcolon : Octet.lower Octet.colon = Octet.colon := by decide
    obtain rfl := (Octet.lower_eq_iff (by simp) b).1 (hb.trans hcolon)
    have hlength : text'.length = text.length := length_of_lower htext
    have hn : n = text'.length + 1 := by
      simp only at hposition
      omega
    have htoken := forall_of_lower Octet.isToken_lower htext token
    obtain ⟨s, rfl⟩ := Utf8.exists_encode_eq fun b hb => Octet.lt_of_isToken (token b hb)
    obtain ⟨s', rfl⟩ := Utf8.exists_encode_eq fun b hb => Octet.lt_of_isToken (htoken b hb)
    have hne : Utf8.encode s' ≠ [] := by
      intro hnil
      exact nonempty (List.length_eq_zero_iff.1 (by rw [← hlength, hnil]; rfl))
    have hrest : rest' = (Utf8.encode s' ++ Octet.colon :: rest').drop n := by
      simp [hn, List.drop_append]
    have hscan := Scans.fieldName (c := { c with rest := Utf8.encode s' ++ Octet.colon :: rest' })
      (Utf8.encode s') rest' mode rfl hne htoken (by rw [hlength]; exact fits)
    rw [hlength] at hscan
    exact ⟨_, hrest ▸ hscan, .name _ (Text.sameUpToCase_iff.2 htext.symm)⟩
  | headEnd rest mode input =>
    have hother : other = Octets.crlf ++ other.drop n :=
      eq_append_of_front input (Nat.add_left_cancel hposition) (hfront (by simp))
    exact ⟨_, .headEnd _ mode hother, .same (by simp)⟩
  | fieldValue text rest mode input field stops fits =>
    have hother : other = text ++ other.drop n :=
      eq_append_of_front input (Nat.add_left_cancel hposition) (hfront (by simp))
    have hstops := lineStops_of_lower hbehind stops
    exact ⟨_, .fieldValue text _ mode hother field hstops fits, .same (by simp)⟩

/-- The next token of the other octets is the same but for the case of a field name, and so are the
octets ahead behind it. -/
theorem Respelled.next (h : c.Respelled other) (hc : c.lineStart ≤ c.position) :
    ∃ t tail, ({ c with rest := other } : Cursor).next = (t, { c.next.2 with rest := tail }) ∧
      c.next.1.Respelled t ∧ c.next.2.Respelled tail := by
  by_cases hgo : c.next.1.kind.goesOn
  · obtain ⟨n, -, hposition, hrest⟩ := reaches_next hc
    have hbehind := h.behind hc hposition hrest
    obtain ⟨t, hscan, ht⟩ := scans_respelled (scans_next hc hgo) hposition h.letters
      hbehind.letters (h.front hc hposition)
    exact ⟨t, _, next_of_scans hscan hc, ht, hbehind⟩
  · have hk : c.next.1.kind ≠ .fieldName := fun hk => hgo (goesOn_of_fieldName hk)
    -- A scan that stops here reads no name ahead, so nothing ahead is respelled.
    obtain rfl := h.eq_of_halts hc hgo
    refine ⟨c.next.1, c.next.2.rest, rfl, .same hk, rfl, ?_⟩
    intro i hi
    exact absurd rfl hi

end Cursor

structure Field.Respelled (f g : Field) : Prop where
  name : Text.sameUpToCase f.name g.name
  value : g.value = f.value

structure Request.Respelled (request other : Request) : Prop where
  method : other.method = request.method
  target : other.target = request.target
  version : other.version = request.version
  fields : List.Forall₂ Field.Respelled request.fields.toList other.fields.toList

inductive Stage.Respelled : Stage → Stage → Prop where
  | same {stage : Stage} (kept : stage.kept? = none) : Respelled stage stage
  | fieldName {t t' : Token} (h : t.Respelled t') : Respelled (.fieldName t) (.fieldName t')
  | fieldColon {t t' : Token} (h : t.Respelled t') : Respelled (.fieldColon t) (.fieldColon t')

namespace Field

variable {f g : Field} {fields others : List Field}

theorem Respelled.isNamed_eq (h : f.Respelled g) (name : String) :
    g.isNamed name = f.isNamed name := by
  have hfold : Text.foldCase f.name = Text.foldCase g.name := beq_iff_eq.1 h.name
  rw [isNamed, isNamed, Text.sameUpToCase, Text.sameUpToCase, hfold]

theorem getAll_of_respelled (h : List.Forall₂ Respelled fields others) (name : String) :
    (others.filter (·.isNamed name)).map (·.value) =
      (fields.filter (·.isNamed name)).map (·.value) := by
  induction h with
  | nil => rfl
  | @cons f g _ _ hfield _ ih =>
    rw [List.filter_cons, List.filter_cons, hfield.isNamed_eq]
    by_cases hf : f.isNamed name
    · rw [if_pos hf, if_pos hf, List.map_cons, List.map_cons, ih, hfield.value]
    · rw [if_neg hf, if_neg hf, ih]

end Field

namespace Request.Respelled

variable {request other : Request}

theorem getAll_eq (h : request.Respelled other) (name : String) :
    other.fields.getAll name = request.fields.getAll name :=
  Field.getAll_of_respelled h.fields name

theorem get?_eq (h : request.Respelled other) (name : String) :
    other.fields.get? name = request.fields.get? name := by
  rw [Fields.get?, h.getAll_eq, Fields.get?]

theorem contains_eq (h : request.Respelled other) (name : String) :
    other.fields.contains name = request.fields.contains name := by
  rw [Fields.contains, h.get?_eq, Fields.contains]

theorem contentLength?_eq (h : request.Respelled other) :
    other.contentLength? = request.contentLength? := by
  rw [contentLength?, h.get?_eq, contentLength?]

theorem size_eq (h : request.Respelled other) : other.fields.size = request.fields.size := by
  have hlength := h.fields.length_eq
  simpa [Fields.toList, Fields.size] using hlength.symm

theorem append {f g : Field} (h : request.Respelled other) (hfield : f.Respelled g) :
    Respelled { request with fields := request.fields.append f }
      { other with fields := other.fields.append g } where
  method := h.method
  target := h.target
  version := h.version
  fields := by
    simpa [Fields.append, Fields.toList] using
      List.rel_append h.fields (List.Forall₂.cons hfield .nil)

end Request.Respelled

theorem Summary.note_respelled {f g : Field} (h : f.Respelled g) (summary : Summary)
    (strict : Bool) : summary.note strict g = summary.note strict f := by
  rw [note, note, h.isNamed_eq, h.isNamed_eq, h.value]

namespace Stage.Respelled

variable {stage other : Stage}

theorem eq (h : stage.Respelled other) (hk : stage.kept? = none) : other = stage := by
  cases h with
  | same => rfl
  | _ => cases hk

theorem exists_fieldColon {name : Token} (h : (Stage.fieldColon name).Respelled other) :
    ∃ name', other = .fieldColon name' ∧ name.Respelled name' := by
  cases h with
  | same kept => cases kept
  | fieldColon hname => exact ⟨_, rfl, hname⟩

theorem reads_eq (h : stage.Respelled other) : other.reads = stage.reads := by
  cases h <;> rfl

theorem isFinal_eq (h : stage.Respelled other) : other.isFinal = stage.isFinal := by
  cases h <;> rfl

theorem passed (h : stage.Respelled other) : stage.passed.Respelled other.passed := by
  cases h with
  | @same stage kept =>
    cases stage with
    | fieldName => cases kept
    | _ => exact .same kept
  | fieldName hname => exact .fieldColon hname
  | fieldColon hname => exact .fieldColon hname

end Stage.Respelled

namespace Parse

/-- Two parses that differ in their cursors and in the case of field names only. -/
structure Alike (p q : Parse) : Prop where
  config : q.config = p.config
  summary : q.summary = p.summary
  stage : p.stage.Respelled q.stage
  request : p.request.Respelled q.request

variable {p q : Parse} {t t' : Token}

namespace Alike

theorem reject (h : p.Alike q) (violation : Violation) (offset : Nat) :
    (p.reject violation offset).Alike (q.reject violation offset) :=
  ⟨h.config, h.summary, .same rfl, h.request⟩

theorem isStrict_eq (h : p.Alike q) : q.config.isStrict = p.config.isStrict := by
  rw [h.config]

theorem takeMethod (h : p.Alike q) (t : Token) : (p.takeMethod t).Alike (q.takeMethod t) := by
  rw [Parse.takeMethod, Parse.takeMethod, h.isStrict_eq]
  cases Utf8.decode? t.text with
  | none => exact h.reject _ _
  | some text =>
    dsimp only
    split
    · exact h.reject _ _
    · exact ⟨h.config, h.summary, .same rfl, rfl, h.request.target, h.request.version,
        h.request.fields⟩

theorem takeTarget (h : p.Alike q) (t : Token) : (p.takeTarget t).Alike (q.takeTarget t) := by
  rw [Parse.takeTarget, Parse.takeTarget]
  cases Utf8.decode? t.text with
  | none => exact h.reject _ _
  | some text =>
    exact ⟨h.config, h.summary, .same rfl, h.request.method,
      congrArg (· ++ text) h.request.target, h.request.version, h.request.fields⟩

theorem takeVersion (h : p.Alike q) (t : Token) : (p.takeVersion t).Alike (q.takeVersion t) := by
  rw [Parse.takeVersion, Parse.takeVersion]
  cases Version.ofOctets? t.text with
  | none => exact h.reject _ _
  | some version =>
    exact ⟨h.config, h.summary, .same rfl, h.request.method, h.request.target, rfl,
      h.request.fields⟩

theorem takeFieldName (h : p.Alike q) (ht : t.Respelled t') :
    (p.takeFieldName t).Alike (q.takeFieldName t') := by
  have hfull : q.config.limits.fieldCount ≤ q.request.fields.size ↔
      p.config.limits.fieldCount ≤ p.request.fields.size := by
    rw [h.config, h.request.size_eq]
  rw [Parse.takeFieldName, Parse.takeFieldName, ht.offset_eq]
  simp only [hfull]
  split
  · exact h.reject _ _
  · exact ⟨h.config, h.summary, .fieldName ht, h.request⟩

theorem takeField (h : p.Alike q) (ht : t.Respelled t') (value : Token) :
    (p.takeField t value).Alike (q.takeField t' value) := by
  have hoffset (violation : Violation) :
      fieldOffset t' value violation = fieldOffset t value violation := by
    cases violation with
    | duplicateHost => exact ht.offset_eq
    | _ => rfl
  rw [Parse.takeField, Parse.takeField, ht.offset_eq]
  obtain ⟨hs, hs'⟩ | ⟨s, s', hs, hs', hsame⟩ := ht.decode?_cases
  · rw [hs, hs']
    exact h.reject _ _
  · have hfield : Field.Respelled ⟨s, value.text⟩ ⟨s', value.text⟩ := ⟨hsame, rfl⟩
    rw [hs, hs']
    dsimp only
    rw [h.summary, h.isStrict_eq, Summary.note_respelled hfield]
    cases p.summary.note p.config.isStrict ⟨s, value.text⟩ with
    | error violation =>
      dsimp only
      rw [hoffset]
      exact h.reject _ _
    | ok summary => exact ⟨h.config, rfl, .same rfl, h.request.append hfield⟩

theorem close (h : p.Alike q) (t : Token) : (p.close t).Alike (q.close t) := by
  have hmissing : (q.config.isStrict && q.request.version == .http11 && q.summary.hosts == 0) =
      (p.config.isStrict && p.request.version == .http11 && p.summary.hosts == 0) := by
    rw [h.config, h.request.version, h.summary]
  rw [Parse.close, Parse.close, hmissing]
  split
  · exact h.reject _ _
  · exact ⟨h.config, h.summary, .same rfl, h.request⟩

theorem take (h : p.Alike q) (ht : t.Respelled t') : (p.take t).Alike (q.take t') := by
  have hstage {stage : Stage} (hs : p.stage = stage) (hkept : stage.kept? = none) :
      q.stage = stage := by
    rw [h.stage.eq (hs ▸ hkept), hs]
  have hkind := ht.kind_eq
  have hoffset := ht.offset_eq
  fun_cases Parse.take p t with
  | case1 violation hk =>
    rw [take_of_invalid (hkind.trans hk), hoffset]
    exact h.reject _ _
  | case2 hk hs =>
    rw [Parse.take, hstage hs rfl, hkind, hk, ht.eq (by simp [hk])]
    exact h.takeMethod t
  | case3 hk hs =>
    rw [Parse.take, hstage hs rfl, hkind, hk, ht.eq (by simp [hk])]
    exact h.takeTarget t
  | case4 hk hs =>
    rw [Parse.take, hstage hs rfl, hkind, hk, ht.eq (by simp [hk])]
    exact h.takeVersion t
  | case5 hk hs =>
    rw [Parse.take, hstage hs rfl, hkind, hk]
    exact ⟨h.config, h.summary, .same rfl, h.request⟩
  | case6 hk hs =>
    rw [Parse.take, hstage hs rfl, hkind, hk]
    exact h.takeFieldName ht
  | case7 hk hs =>
    rw [Parse.take, hstage hs rfl, hkind, hk]
    exact h.takeFieldName ht
  | case8 hk hs =>
    rw [Parse.take, hstage hs rfl, hkind, hk]
    exact ⟨h.config, h.summary, .same rfl, h.request⟩
  | case9 hk hs =>
    rw [Parse.take, hstage hs rfl, hkind, hk]
    exact ⟨h.config, h.summary, .same rfl, h.request⟩
  | case10 name hk hs =>
    -- Of the stages that take a token, this alone keeps a name, and so may differ.
    obtain ⟨name', hq, hname⟩ := (hs ▸ h.stage).exists_fieldColon
    rw [Parse.take, hq, hkind, hk, ht.eq (by simp [hk])]
    exact h.takeField hname t
  | case11 hk hs =>
    rw [Parse.take, hstage hs rfl, hkind, hk]
    exact ⟨h.config, h.summary, .same rfl, h.request⟩
  | case12 hk hs =>
    rw [Parse.take, hstage hs rfl, hkind, hk, ht.eq (by simp [hk])]
    exact h.close t
  | case13 hk hs =>
    have hreject := h.reject .unexpectedEnd t.offset
    have hstages := h.stage
    rw [Parse.take, hkind, hk, hoffset]
    generalize p.stage = stage, q.stage = other at hs hstages
    cases hstages with
    | same kept =>
      split
      all_goals first
        | exact hreject
        | simp_all
    | fieldName => exact hreject
    | fieldColon => exact hreject
  | case14 =>
    -- No stage wants a token of this kind, whatever the case of the name that it keeps.
    have hreject := h.reject .unexpectedToken t.offset
    have hstages := h.stage
    rw [Parse.take, hkind, hoffset]
    generalize p.stage = stage, q.stage = other at *
    cases hstages with
    | same kept =>
      split
      all_goals first
        | exact hreject
        | simp_all
    | fieldName =>
      cases hk : t.kind
      all_goals first
        | exact hreject
        | simp_all
    | fieldColon =>
      cases hk : t.kind
      all_goals first
        | exact hreject
        | simp_all

end Alike

/-- Two parses of inputs that differ in the case of field names only. -/
structure Respelled (p q : Parse) : Prop extends p.Alike q where
  inOrder : p.InOrder
  ahead : ∃ rest, p.cursor.Respelled rest ∧ q.cursor = { p.cursor with rest }

theorem respelled_step (h : p.Respelled q) : p.step.Respelled q.step := by
  obtain ⟨rest, hrest, hcursor⟩ := h.ahead
  cases hr : p.stage.reads with
  | true =>
    obtain ⟨t, tail, hnext, ht, htail⟩ := hrest.next h.inOrder
    rw [← hcursor] at hnext
    have hmoved : Alike { p with cursor := p.cursor.next.2 } { q with cursor := q.cursor.next.2 } :=
      ⟨h.config, h.summary, h.stage, h.request⟩
    rw [step_of_reads hr, step_of_reads (h.stage.reads_eq.trans hr)]
    refine ⟨hmoved.take (by rw [hnext]; exact ht), ?_, tail, ?_, ?_⟩
    · rw [InOrder, cursor_take]
      exact (Cursor.orderly_next _).1.2 h.inOrder
    · rw [cursor_take]
      exact htail
    · rw [cursor_take, cursor_take, hnext]
  | false =>
    rw [step_of_not_reads hr, step_of_not_reads (h.stage.reads_eq.trans hr)]
    exact ⟨⟨h.config, h.summary, h.stage.passed, h.request⟩, h.inOrder, rest, hrest, hcursor⟩

theorem respelled_run (h : p.Respelled q) : p.run.Respelled q.run := by
  induction p using run_induction generalizing q with
  | final p hfinal =>
    have hfinal' : q.stage.isFinal := h.stage.isFinal_eq.trans hfinal
    rwa [run_of_isFinal hfinal, run_of_isFinal hfinal']
  | step p _ ih =>
    rw [← run_step p, ← run_step q]
    exact ih (respelled_step h)

theorem respelled_ofInput {config : Config} {input other : Octets}
    (h : (Cursor.start config.limits input).Respelled other) :
    (ofInput config input).Respelled (ofInput config other) :=
  ⟨⟨rfl, rfl, .same rfl, rfl, rfl, rfl, .nil⟩, Nat.le_refl _, other, h, rfl⟩

theorem Respelled.verdict (h : p.Respelled q) (hfinal : p.stage.isFinal) :
    (∃ error, p.result = .error error ∧ q.result = .error error) ∨
      p.result = .ok p.request ∧ q.result = .ok q.request ∧ q.headLength? = p.headLength? := by
  have hstage : q.stage = p.stage := by
    apply h.stage.eq
    cases hs : p.stage <;> simp_all [Stage.isFinal, Stage.kept?]
  obtain ⟨rest, -, hcursor⟩ := h.ahead
  rw [result, result, headLength?, headLength?, hstage, hcursor]
  cases p.stage with
  | rejected violation offset => exact .inl ⟨_, rfl, rfl⟩
  | _ => exact .inr ⟨rfl, rfl, rfl⟩

end Parse

namespace Receiver

/-- How field names are spelled never matters. If two inputs differ only where the names of fields
are read from the first one, and there only in the case of letters, then either both are refused for
the same reason at the same offset, or both are accepted as heads of one length and as requests that
differ in the case of their field names only. No look-up can tell these requests apart. -/
theorem parse_respelled (receiver : Receiver) (input other : Octets)
    (h : (Cursor.start receiver.config.limits input).Respelled other) :
    (∃ error, (receiver.parse input).1 = .error error ∧ (receiver.parse other).1 = .error error) ∨
      ∃ request request' length, receiver.Accepts input request length ∧
        receiver.Accepts other request' length ∧ request.Respelled request' ∧
        request'.contentLength? = request.contentLength? ∧
        ∀ name, request'.fields.get? name = request.fields.get? name ∧
          request'.fields.getAll name = request.fields.getAll name ∧
          request'.fields.contains name = request.fields.contains name := by
  by_cases hroom : receiver.HasRoom
  · have hrun := Parse.respelled_run (Parse.respelled_ofInput h)
    have hfinal := Parse.isFinal_run (.ofInput receiver.config input)
    obtain ⟨error, herror, herror'⟩ | ⟨hok, hok', hlength⟩ := hrun.verdict hfinal
    · left
      rw [parse_of_hasRoom hroom, parse_of_hasRoom hroom]
      exact ⟨error, herror, herror'⟩
    · right
      obtain ⟨length, haccepts⟩ := Parse.accepts_of_result_eq_ok hok
      have haccepts' : (Parse.ofInput receiver.config other).Accepts
          (Parse.ofInput receiver.config other).run.request length :=
        ⟨hok', hlength.trans haccepts.2⟩
      have hrequest := hrun.request
      exact ⟨_, _, length, (accepts_iff_parse_accepts hroom).2 haccepts,
        (accepts_iff_parse_accepts hroom).2 haccepts', hrequest, hrequest.contentLength?_eq,
        fun name => ⟨hrequest.get?_eq name, hrequest.getAll_eq name, hrequest.contains_eq name⟩⟩
  · left
    rw [parse_of_not_hasRoom hroom, parse_of_not_hasRoom hroom]
    exact ⟨.exhausted, rfl, rfl⟩

/-- The scan of the first input reads the names `CONTENT-length` and `A`; the second input has them
in another case, and the target, the value and the body in the same. -/
theorem parse_respelled_length :
    let receiver : Receiver := { config := {} }
    let input := Utf8.encode "GET /A HTTP/1.1\r\nCONTENT-length: 7\r\nA:A\r\n\r\nA"
    let other := Utf8.encode "GET /A HTTP/1.1\r\ncontent-Length: 7\r\na:A\r\n\r\nA"
    let request : Request :=
      { target := "/A", fields := ⟨#[⟨"CONTENT-length", Utf8.encode "7"⟩, ⟨"A", [0x41]⟩]⟩ }
    (Cursor.start receiver.config.limits input).Respelled other ∧
      receiver.Accepts input request 43 ∧
      ∃ request', receiver.Accepts other request' 43 ∧ request.Respelled request' ∧
        request'.contentLength? = some 7 := by
  intro receiver input other request
  have h : (Cursor.start receiver.config.limits input).Respelled other := by
    have hnames : ∀ i < input.length, other[i]? ≠ input[i]? →
        ∃ t ∈ ((Cursor.start receiver.config.limits input).tokens 12).1,
          t.kind = .fieldName ∧ t.offset ≤ 0 + i ∧ 0 + i < t.stop := by decide +kernel
    refine ⟨by decide +kernel, ?_⟩
    intro i hi
    change other[i]? ≠ input[i]? at hi
    have hlt : i < input.length := by
      have hlength : other.length = input.length := by decide +kernel
      by_contra hle
      rw [List.getElem?_eq_none (by omega), List.getElem?_eq_none (by omega)] at hi
      exact hi rfl
    exact ⟨12, hnames i hlt hi⟩
  have haccepts : receiver.Accepts input request 43 := by constructor <;> decide +kernel
  refine ⟨h, haccepts, ?_⟩
  obtain ⟨error, herror, -⟩ | ⟨read, request', length, hread, haccepts', hsame, hlength, -⟩ :=
    parse_respelled receiver input other h
  · rw [haccepts.1] at herror
    cases herror
  · obtain rfl := Except.ok.inj (haccepts.1.symm.trans hread.1)
    obtain rfl := Option.some.inj (haccepts.2.symm.trans hread.2)
    exact ⟨request', haccepts', hsame, hlength.trans (by decide +kernel)⟩

end Receiver

end HttpHead
