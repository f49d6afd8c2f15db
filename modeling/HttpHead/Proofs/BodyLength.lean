import HttpHead.Proofs.Agreement
import HttpHead.Proofs.Consumption

/-! The length of the body. A parse goes through the fields with the length that they have told so
far; a look-up reads the first Content-Length alone. The two never disagree, and as an input starts
with one head at most (`Spelling.Formed.request_inj`), a head whose fields tell no single length is
accepted in no way. -/
namespace HttpHead

theorem append_inj_of_stops {p : UInt8 → Bool} {a b x y : Octets} (ha : ∀ c ∈ a, p c)
    (hb : ∀ c ∈ b, p c) (hx : Stops p x) (hy : Stops p y) (h : a ++ x = b ++ y) :
    a = b ∧ x = y := by
  have hab : a = b := by rw [← takeWhile_append_stop ha hx, h, takeWhile_append_stop hb hy]
  subst hab
  exact ⟨rfl, List.append_cancel_left h⟩

namespace FieldLine

variable {limit limit' : Nat}

theorem octets_ne_nil (line : FieldLine) : line.octets ≠ [] := by
  simp [octets_eq]

theorem WellFormed.field_inj {line line' : FieldLine} (h : line.WellFormed limit)
    (h' : line'.WellFormed limit') (heq : line.octets = line'.octets) :
    line.field = line'.field := by
  have hstop (text : Octets) : Stops Octet.isToken (Octet.colon :: text) :=
    stops_cons.2 (by decide)
  rw [octets_eq, octets_eq] at heq
  obtain ⟨hname, htext⟩ :=
    append_inj_of_stops h.name_token h'.name_token (hstop _) (hstop _) heq
  have hvalue : line.value = line'.value := by
    rw [← h.trim_text, ← h'.trim_text, (List.cons.inj htext).2]
  rw [field, field, Utf8.encode_inj.1 hname, hvalue]

theorem fields_inj {lines lines' : List FieldLine} {x y : Octets}
    (h : ∀ line ∈ lines, line.WellFormed limit) (h' : ∀ line ∈ lines', line.WellFormed limit')
    (heq : lines.flatMap full ++ (Octets.crlf ++ x) = lines'.flatMap full ++ (Octets.crlf ++ y)) :
    lines.map field = lines'.map field := by
  -- An empty line is a line without octets, so it is no field line.
  induction lines generalizing lines' with
  | nil =>
    cases lines' with
    | nil => rfl
    | cons line' lines' =>
      obtain ⟨hline', -⟩ := List.forall_mem_cons.1 h'
      have hempty : [] ++ (Octets.crlf ++ x) = line'.octets ++ (Octets.crlf ++
          (lines'.flatMap full ++ (Octets.crlf ++ y))) := by simpa [full] using heq
      have hnil := Octets.append_crlf_inj (by simp) hline'.cr_notMem hempty
      exact absurd hnil.1.symm (octets_ne_nil _)
  | cons line lines ih =>
    obtain ⟨hline, hlines⟩ := List.forall_mem_cons.1 h
    cases lines' with
    | nil =>
      have hempty : line.octets ++ (Octets.crlf ++ (lines.flatMap full ++ (Octets.crlf ++ x))) =
          [] ++ (Octets.crlf ++ y) := by simpa [full] using heq
      have hnil := Octets.append_crlf_inj hline.cr_notMem (by simp) hempty
      exact absurd hnil.1 (octets_ne_nil _)
    | cons line' lines' =>
      obtain ⟨hline', hlines'⟩ := List.forall_mem_cons.1 h'
      have hboth : line.octets ++ (Octets.crlf ++ (lines.flatMap full ++ (Octets.crlf ++ x))) =
          line'.octets ++ (Octets.crlf ++ (lines'.flatMap full ++ (Octets.crlf ++ y))) := by
        simpa [full] using heq
      obtain ⟨hsame, hrest⟩ := Octets.append_crlf_inj hline.cr_notMem hline'.cr_notMem hboth
      rw [List.map_cons, List.map_cons, hline.field_inj hline' hsame, ih hlines hlines' hrest]

end FieldLine

namespace Spelling

variable {config : Config} {limits limits' : Limits} {s s' : Spelling}

/-- The spelling keeps to the grammar and to the limits, whatever its fields say together. -/
structure Formed (limits : Limits) (s : Spelling) : Prop where
  method_ne : Utf8.encode s.method ≠ []
  method_token : ∀ b ∈ Utf8.encode s.method, Octet.isToken b
  method_le : (Utf8.encode s.method).length ≤ limits.method
  target_ne : Utf8.encode s.target ≠ []
  target_visible : ∀ b ∈ Utf8.encode s.target, Octet.isTarget b
  target_le : (Utf8.encode s.target).length ≤ limits.target
  lines : ∀ line ∈ s.lines, line.WellFormed limits.fieldLine
  lines_le : s.lines.length ≤ limits.fieldCount

theorem Permitted.formed (h : s.Permitted config) : s.Formed config.limits where
  method_ne := h.method_ne
  method_token := h.method_token
  method_le := h.method_le
  target_ne := h.target_ne
  target_visible := h.target_visible
  target_le := h.target_le
  lines := h.lines
  lines_le := by simpa [toList_fields_request] using h.admissible.size_le

def text (s : Spelling) : Octets :=
  Utf8.encode s.method ++ Octet.sp :: (Utf8.encode s.target ++ Octet.sp ::
    (Utf8.encode s.version.text ++ (Octets.crlf ++
      (s.lines.flatMap FieldLine.full ++ Octets.crlf))))

theorem octets_eq (s : Spelling) : s.octets = Octets.emptyLines s.emptyLines ++ s.text := by
  simp [octets, text]

theorem Formed.emptyLines_append (h : s.Formed limits) (rest : Octets) :
    Cursor.emptyLines (s.octets ++ rest) = s.emptyLines := by
  obtain ⟨b, tail, hcons⟩ := List.exists_cons_of_ne_nil h.method_ne
  have hb : b ≠ Octet.cr := Octet.ne_of_class (by decide) (h.method_token b (by simp [hcons]))
  rw [octets_eq, List.append_assoc, Cursor.emptyLines_append, text, hcons, List.cons_append,
    List.cons_append, Cursor.emptyLines_eq_zero hb, Nat.add_zero]

theorem version_inj {version version' : Version} {x y : Octets}
    (heq : Utf8.encode version.text ++ (Octets.crlf ++ x) =
      Utf8.encode version'.text ++ (Octets.crlf ++ y)) : version = version' ∧ x = y := by
  have hcr (v : Version) : Octet.cr ∉ Utf8.encode v.text := by cases v <;> decide
  obtain ⟨htext, hrest⟩ := Octets.append_crlf_inj (hcr _) (hcr _) heq
  exact ⟨Option.some.inj ((Parse.ofOctets?_eq_some_iff.2 rfl).symm.trans
    (Parse.ofOctets?_eq_some_iff.2 htext)), hrest⟩

/-- An input starts with one head at most. -/
theorem Formed.request_inj (h : s.Formed limits) (h' : s'.Formed limits') {rest rest' : Octets}
    (heq : s.octets ++ rest = s'.octets ++ rest') : s.request = s'.request := by
  have hempty : s.emptyLines = s'.emptyLines := by
    rw [← h.emptyLines_append rest, heq, h'.emptyLines_append]
  have hsp {p : UInt8 → Bool} (hp : p Octet.sp = false) (x : Octets) : Stops p (Octet.sp :: x) :=
    stops_cons.2 hp
  simp only [octets_eq, hempty, text, List.append_assoc, List.append_cancel_left_eq,
    List.cons_append] at heq
  obtain ⟨hmethod, heq⟩ := append_inj_of_stops h.method_token h'.method_token
    (hsp (by decide) _) (hsp (by decide) _) heq
  obtain ⟨htarget, heq⟩ := append_inj_of_stops h.target_visible h'.target_visible
    (hsp (by decide) _) (hsp (by decide) _) (List.cons.inj heq).2
  obtain ⟨hversion, heq⟩ := version_inj (List.cons.inj heq).2
  have hfields := FieldLine.fields_inj h.lines h'.lines heq
  rw [request, request, Utf8.encode_inj.1 hmethod, Utf8.encode_inj.1 htarget, hversion, hfields]

end Spelling

namespace Request

variable {strict : Bool} {request : Request}

def lengths (request : Request) : List Field :=
  request.fields.toList.filter (·.isNamed KnownName.contentLength.text)

/-- One of them is no number of 64 bits, or two of them are different numbers. -/
def Contradicts (request : Request) : Prop :=
  (∃ f ∈ request.lengths, Decimal.Fails f.value) ∨
    ∃ f ∈ request.lengths, ∃ g ∈ request.lengths, ∃ m n,
      Decimal.Denotes f.value m ∧ Decimal.Denotes g.value n ∧ m ≠ n

theorem contentLength?_eq (request : Request) :
    request.contentLength? = request.lengths.head?.bind (Decimal.read? ·.value) := by
  rw [contentLength?, Fields.get?, Fields.getAll, List.head?_map, lengths, Option.bind_map]
  rfl

theorem contentLength?_eq_none (h : request.lengths = []) : request.contentLength? = none := by
  rw [contentLength?_eq, h]
  rfl

theorem contentLength?_of_mem {n : UInt64} {f : Field}
    (hsame : ∀ g ∈ request.lengths, Decimal.read? g.value = some n) (hf : f ∈ request.lengths) :
    request.contentLength? = some n := by
  rw [contentLength?_eq]
  cases hlengths : request.lengths with
  | nil => simp [hlengths] at hf
  | cons g fields => exact hsame g (by simp [hlengths])

theorem Admissible.exists_length {config : Config} (h : request.Admissible config) :
    ∃ n : UInt64, ∀ f ∈ request.lengths, Decimal.read? f.value = some n := by
  obtain ⟨-, hagree, -⟩ := admissible_iff.1 h
  obtain ⟨n, hn⟩ := hagree.same_length
  refine ⟨n, fun f hf => ?_⟩
  obtain ⟨hmem, hnamed⟩ := List.mem_filter.1 hf
  exact hn f hmem hnamed

theorem Admissible.contentLength?_eq_none_iff {config : Config} (h : request.Admissible config) :
    request.contentLength? = none ↔ request.lengths = [] := by
  constructor
  · intro hnone
    obtain ⟨n, hsame⟩ := h.exists_length
    apply List.eq_nil_iff_forall_not_mem.2
    intro f hf
    cases hnone.symm.trans (contentLength?_of_mem hsame hf)
  · exact contentLength?_eq_none

theorem Admissible.contentLength?_eq_some_iff {config : Config} (h : request.Admissible config)
    (n : UInt64) : request.contentLength? = some n ↔
      request.lengths ≠ [] ∧ ∀ f ∈ request.lengths, Decimal.Denotes f.value n.toNat := by
  simp only [← Decimal.read?_eq_some_iff]
  constructor
  · intro hsome
    obtain ⟨m, hsame⟩ := h.exists_length
    have hne : request.lengths ≠ [] := by
      intro hnil
      cases hsome.symm.trans (contentLength?_eq_none hnil)
    obtain ⟨f, hf⟩ := List.exists_mem_of_ne_nil _ hne
    obtain rfl := Option.some.inj (hsome.symm.trans (contentLength?_of_mem hsame hf))
    exact ⟨hne, hsame⟩
  · intro hboth
    obtain ⟨hne, hsame⟩ := hboth
    obtain ⟨f, hf⟩ := List.exists_mem_of_ne_nil _ hne
    exact contentLength?_of_mem hsame hf

theorem Admissible.not_contradicts {config : Config} (h : request.Admissible config) :
    ¬request.Contradicts := by
  obtain ⟨n, hsame⟩ := h.exists_length
  have hdenotes (f : Field) (hf : f ∈ request.lengths) : Decimal.Denotes f.value n.toNat :=
    Decimal.read?_eq_some_iff.1 (hsame f hf)
  intro hcontra
  obtain ⟨f, hf, hfails⟩ | ⟨f, hf, g, hg, k, l, hk, hl, hkl⟩ := hcontra
  · exact (hdenotes f hf).not_fails n.toNat_lt hfails
  · exact hkl (by rw [hk.unique (hdenotes f hf), hl.unique (hdenotes g hg)])

end Request

namespace Receiver

variable {receiver : Receiver} {text : Octets} {request : Request}

/-- What a receiver makes of a text, parsed as a whole or read from a stream that brings it in
whatever way. -/
inductive Outcome (receiver : Receiver) (text : Octets) : Except Error Request → Prop where
  | parse : Outcome receiver text (receiver.parse text).1
  | read (waiting : Waiting) (stream : Stream) (brings : stream.octets = text) :
      Outcome receiver text (receiver.read waiting stream).1.1

theorem exists_spelling_of_parse (h : (receiver.parse text).1 = .ok request) :
    ∃ (s : Spelling) (rest : Octets), text = s.octets ++ rest ∧ s.Permitted receiver.config ∧
      s.request = request := by
  obtain ⟨length, haccepts⟩ := accepts_of_parse_eq_ok h
  rw [accepts_iff_parse_accepts (hasRoom_of_accepts haccepts), Parse.accepts_ofInput_iff]
    at haccepts
  obtain ⟨s, rest, htext, hpermitted, hrequest, -⟩ := haccepts
  exact ⟨s, rest, htext, hpermitted, hrequest⟩

theorem Outcome.exists_spelling (h : receiver.Outcome text (.ok request)) :
    ∃ (s : Spelling) (rest : Octets), text = s.octets ++ rest ∧ s.Permitted receiver.config ∧
      s.request = request := by
  generalize hresult : Except.ok request = result at h
  cases h with
  | parse => exact exists_spelling_of_parse hresult.symm
  | read waiting stream brings =>
    rw [read_eq] at hresult
    cases hhead : (stream.readHead waiting receiver.config.limits.head).1 with
    | error error =>
      simp only [hhead] at hresult
      cases hresult
    | ok head =>
      simp only [hhead] at hresult
      obtain ⟨s, rest, htext, hpermitted, hrequest⟩ := exists_spelling_of_parse hresult.symm
      -- The head is the front of the text, so its spelling starts the text as well.
      obtain ⟨more, hmore⟩ := Stream.octets_prefix_of_readHead hhead
      exact ⟨s, rest ++ more, by rw [← brings, ← hmore, htext, List.append_assoc], hpermitted,
        hrequest⟩

/-- A parse and a look-up tell the same length of the body. In a request that was accepted, the
look-up finds a length exactly if there is a Content-Length, and then all of them are decimal forms
of it, in whatever case they are named. A head that is well-formed otherwise but tells no length or
two of them is not accepted. -/
theorem contentLength_agrees (receiver : Receiver) :
    (∀ text request, receiver.Outcome text (.ok request) →
      (request.contentLength? = none ↔ request.lengths = []) ∧
        ∀ n, request.contentLength? = some n ↔
          request.lengths ≠ [] ∧ ∀ f ∈ request.lengths, Decimal.Denotes f.value n.toNat) ∧
    ∀ (s : Spelling) (rest : Octets) (result : Except Error Request),
      s.Formed receiver.config.limits → s.request.Contradicts →
      receiver.Outcome (s.octets ++ rest) result → ∃ error, result = .error error := by
  refine ⟨?accepted, ?refused⟩
  case accepted =>
    intro text request h
    obtain ⟨s, -, -, hpermitted, rfl⟩ := h.exists_spelling
    have hadmissible := hpermitted.admissible
    exact ⟨hadmissible.contentLength?_eq_none_iff, hadmissible.contentLength?_eq_some_iff⟩
  case refused =>
    intro s rest result hformed hcontra h
    cases result with
    | error error => exact ⟨error, rfl⟩
    | ok request =>
      obtain ⟨s', rest', heq, hpermitted, -⟩ := h.exists_spelling
      rw [hformed.request_inj hpermitted.formed heq] at hcontra
      exact absurd hcontra hpermitted.admissible.not_contradicts

/-- Zeros in front and another case make no other length; the numbers 7 and 8 in one head, with
another field between them, are refused. -/
theorem contentLength_agrees_seven :
    let receiver : Receiver := { config := {} }
    let text := Utf8.encode
      "PUT / HTTP/1.1\r\ncontent-length: 007\r\nA: 8\r\nCONTENT-Length:7\r\n\r\n"
    let request : Request := ⟨.registered .put, "/", .http11, ⟨#[⟨"content-length",
      Utf8.encode "007"⟩, ⟨"A", Utf8.encode "8"⟩, ⟨"CONTENT-Length", Utf8.encode "7"⟩]⟩⟩
    let line (name value : String) : FieldLine := ⟨name, [], Utf8.encode value, []⟩
    let conflict : Spelling := ⟨0, "PUT", "/", .http11,
      [line "content-length" "007", line "A" "8", line "CONTENT-Length" "8"]⟩
    receiver.Outcome text (.ok request) ∧ request.contentLength? = some 7 ∧
      conflict.Formed receiver.config.limits ∧ conflict.request.Contradicts ∧
      ∃ error, (receiver.parse (conflict.octets ++ Utf8.encode "body")).1 = .error error := by
  intro receiver text request line conflict
  have haccepts : receiver.Outcome text (.ok request) := by
    have hparse : (receiver.parse text).1 = .ok request := by decide +kernel
    exact hparse ▸ .parse
  have hformed : conflict.Formed receiver.config.limits := by
    have hfirst : (line "content-length" "007").WellFormed 8192 := by
      constructor <;> decide +kernel
    have hother : (line "A" "8").WellFormed 8192 := by constructor <;> decide +kernel
    have hsecond : (line "CONTENT-Length" "8").WellFormed 8192 := by
      constructor <;> decide +kernel
    constructor
    case lines =>
      exact List.forall_mem_cons.2 ⟨hfirst,
        List.forall_mem_cons.2 ⟨hother, List.forall_mem_singleton.2 hsecond⟩⟩
    all_goals decide +kernel
  have hcontra : conflict.request.Contradicts := by
    refine .inr ⟨⟨"content-length", Utf8.encode "007"⟩, ?_, ⟨"CONTENT-Length", Utf8.encode "8"⟩,
      ?_, 7, 8, ?_⟩
    all_goals decide +kernel
  refine ⟨haccepts, ?_, hformed, hcontra,
    (contentLength_agrees receiver).2 conflict _ _ hformed hcontra .parse⟩
  exact ((contentLength_agrees receiver).1 text request haccepts).2 7 |>.2
    ⟨by decide +kernel, by decide +kernel⟩

end Receiver

end HttpHead
