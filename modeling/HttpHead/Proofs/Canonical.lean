import HttpHead.Proofs.Receiver
import HttpHead.Proofs.Registry

/-! Reading the canonical form back. Of all requests, parsed or not, exactly the
representable ones are read back as themselves, whatever follows them. An accepted request
can fall short in one way only: its canonical form has a blank in every field line, which
counts toward the limit of the line. -/
namespace HttpHead

theorem Octets.append_crlf_inj {a b x y : Octets} (ha : Octet.cr ∉ a) (hb : Octet.cr ∉ b)
    (h : a ++ (crlf ++ x) = b ++ (crlf ++ y)) : a = b ∧ x = y := by
  have hstop (z : Octets) : Stops (· != Octet.cr) (crlf ++ z) := stops_cons.2 (by decide)
  have hne {text : Octets} (ht : Octet.cr ∉ text) : ∀ b ∈ text, (b != Octet.cr) = true := by
    intro b hb
    exact bne_iff_ne.2 (ne_of_mem_of_not_mem hb ht)
  have hab : a = b := by
    rw [← takeWhile_append_stop (hne ha) (hstop x), h, takeWhile_append_stop (hne hb) (hstop y)]
  subst hab
  exact ⟨rfl, List.append_cancel_left (List.append_cancel_left h)⟩

namespace Field

def spaced (field : Field) : FieldLine := ⟨field.name, [Octet.sp], field.value, []⟩

theorem full_spaced (field : Field) : field.spaced.full = field.line := by
  simp [spaced, FieldLine.full, FieldLine.octets, line]

/-- A name that is a token, a value without control characters and without blanks around
it, and a canonical line within the limit. -/
structure Representable (limit : Nat) (field : Field) : Prop where
  name_ne : Utf8.encode field.name ≠ []
  name_token : ∀ b ∈ Utf8.encode field.name, Octet.isToken b
  value_text : ∀ b ∈ field.value, Octet.isFieldText b
  value_bare : field.value.Bare
  length_le : (Utf8.encode field.name).length + 2 + field.value.length ≤ limit

theorem length_octets_spaced (field : Field) :
    field.spaced.octets.length = (Utf8.encode field.name).length + 2 + field.value.length := by
  simp only [spaced, FieldLine.octets, List.length_append, List.length_cons, List.length_nil]
  omega

theorem Representable.wellFormed_spaced {limit : Nat} {field : Field}
    (h : field.Representable limit) : field.spaced.WellFormed limit where
  name_ne := h.name_ne
  name_token := h.name_token
  before_blank := List.forall_mem_singleton.2 rfl
  value_text := h.value_text
  value_bare := h.value_bare
  after_blank := by simp [spaced]
  length_le := by rw [length_octets_spaced]; exact h.length_le

end Field

namespace FieldLine

variable {limit : Nat}

theorem WellFormed.cr_notMem {line : FieldLine} (h : line.WellFormed limit) :
    Octet.cr ∉ line.octets := by
  rw [octets_eq, List.mem_append, List.mem_cons]
  intro hmem
  obtain hname | hcolon | htext := hmem
  · exact Octet.ne_of_class (by decide) (h.name_token _ hname) rfl
  · exact absurd hcolon (by decide)
  · exact Octet.ne_of_class (by decide) (h.isFieldText_of_mem htext) rfl

/-- The blank of the canonical line is at most one octet more than the line had. -/
theorem WellFormed.representable_field {line : FieldLine} (h : line.WellFormed limit) :
    line.field.Representable (limit + 1) where
  name_ne := h.name_ne
  name_token := h.name_token
  value_text := h.value_text
  value_bare := h.value_bare
  length_le := by
    have hle := h.length_le
    simp only [octets, field, List.length_append, List.length_singleton] at hle ⊢
    omega

theorem octets_eq_spaced {lines : List FieldLine} (h : ∀ line ∈ lines, line.WellFormed limit)
    {a b : Octets}
    (heq : lines.flatMap full ++ a = (lines.map field).flatMap Field.line ++ b) :
    ∀ line ∈ lines, line.octets = line.field.spaced.octets := by
  induction lines with
  | nil => simp
  | cons line lines ih =>
    obtain ⟨hline, hlines⟩ := List.forall_mem_cons.1 h
    have hspaced := hline.representable_field.wellFormed_spaced
    rw [List.map_cons, List.flatMap_cons, List.flatMap_cons, ← Field.full_spaced, full, full] at heq
    simp only [List.append_assoc] at heq
    obtain ⟨hsame, hrest⟩ := Octets.append_crlf_inj hline.cr_notMem hspaced.cr_notMem heq
    exact List.forall_mem_cons.2 ⟨hsame, ih hlines hrest⟩

end FieldLine

namespace Request

/-- What a request has to be for its canonical form to say all of it, and to be permitted. -/
structure Representable (config : Config) (request : Request) : Prop where
  method_ne : Utf8.encode request.method.text ≠ []
  method_token : ∀ b ∈ Utf8.encode request.method.text, Octet.isToken b
  method_le : (Utf8.encode request.method.text).length ≤ config.limits.method
  method_known : ∀ verb : Verb, request.method ≠ .extension verb.text
  target_ne : Utf8.encode request.target ≠ []
  target_visible : ∀ b ∈ Utf8.encode request.target, Octet.isTarget b
  target_le : (Utf8.encode request.target).length ≤ config.limits.target
  fields : ∀ f ∈ request.fields.toList, f.Representable config.limits.fieldLine
  admissible : request.Admissible config

def spelling (request : Request) : Spelling :=
  ⟨0, request.method.text, request.target, request.version,
    request.fields.toList.map Field.spaced⟩

theorem octets_spelling (request : Request) : request.spelling.octets = request.canonical := by
  have hline : (fun f : Field => f.spaced.full) = Field.line := funext Field.full_spaced
  have hspace : Utf8.encode " " = [Octet.sp] := by decide
  simp only [spelling, Spelling.octets, canonical, requestLine, Octets.emptyLines,
    Utf8.encode_append, List.flatMap_map, hline, hspace]
  rfl

variable {config : Config} {request : Request}

theorem request_spelling (h : ∀ verb : Verb, request.method ≠ .extension verb.text) :
    request.spelling.request = request := by
  have hfields : (request.fields.toList.map Field.spaced).map FieldLine.field =
      request.fields.toList := by
    rw [List.map_map]
    exact List.map_id _
  simp only [Spelling.request, spelling, Method.ofText_text_eq_iff.2 h, hfields]
  rfl

theorem Representable.permitted_spelling (h : request.Representable config) :
    request.spelling.Permitted config where
  method_ne := h.method_ne
  method_token := h.method_token
  method_le := h.method_le
  target_ne := h.target_ne
  target_visible := h.target_visible
  target_le := h.target_le
  lines := by
    intro line hline
    obtain ⟨field, hfield, rfl⟩ := List.mem_map.1 hline
    exact (h.fields field hfield).wellFormed_spaced
  admissible := by rw [request_spelling h.method_known]; exact h.admissible

end Request

namespace Spelling

variable {config : Config} {s : Spelling}

theorem Permitted.representable_iff (h : s.Permitted config) :
    s.request.Representable config ↔ ∀ f ∈ s.request.fields.toList,
      (Utf8.encode f.name).length + 2 + f.value.length ≤ config.limits.fieldLine := by
  constructor
  · intro hrep f hf
    exact (hrep.fields f hf).length_le
  · intro hlines
    have hmethod : s.request.method.text = s.method := Method.text_ofText s.method
    constructor
    case method_ne => rw [hmethod]; exact h.method_ne
    case method_token => rw [hmethod]; exact h.method_token
    case method_le => rw [hmethod]; exact h.method_le
    case method_known =>
      rw [← Method.ofText_text_eq_iff, hmethod]
      rfl
    case target_ne => exact h.target_ne
    case target_visible => exact h.target_visible
    case target_le => exact h.target_le
    case fields =>
      intro f hf
      obtain ⟨line, hline, rfl⟩ := List.mem_map.1 hf
      have hwell := h.lines line hline
      exact ⟨hwell.name_ne, hwell.name_token, hwell.value_text, hwell.value_bare, hlines _ hf⟩
    case admissible => exact h.admissible

theorem emptyLines_octets (hne : Utf8.encode s.method ≠ [])
    (ht : ∀ b ∈ Utf8.encode s.method, Octet.isToken b) :
    Cursor.emptyLines s.octets = s.emptyLines := by
  obtain ⟨b, tail, hcons⟩ := List.exists_cons_of_ne_nil hne
  have hb : b ≠ Octet.cr := Octet.ne_of_class (by decide) (ht b (by simp [hcons]))
  simp only [octets, hcons, List.append_assoc, List.cons_append]
  rw [Cursor.emptyLines_append, Cursor.emptyLines_eq_zero hb, Nat.add_zero]

theorem Permitted.octets_eq_spaced (h : s.Permitted config) (heq : s.octets = s.request.canonical) :
    ∀ line ∈ s.lines, line.octets = line.field.spaced.octets := by
  have hmethod : s.request.spelling.method = s.method := Method.text_ofText s.method
  have hzero : s.emptyLines = 0 := by
    have hcount := congrArg Cursor.emptyLines heq
    rwa [← Request.octets_spelling, emptyLines_octets h.method_ne h.method_token,
      emptyLines_octets (by rw [hmethod]; exact h.method_ne)
        (by rw [hmethod]; exact h.method_token)] at hcount
  have hlines : s.lines.flatMap FieldLine.full ++ Octets.crlf =
      (s.lines.map FieldLine.field).flatMap Field.line ++ Octets.crlf := by
    rw [← Request.octets_spelling, octets, octets, hmethod, hzero] at heq
    simp only [Request.spelling, List.append_assoc, List.append_cancel_left_eq] at heq
    simpa [List.flatMap_map, Field.full_spaced, request, Fields.toList] using heq
  exact FieldLine.octets_eq_spaced h.lines hlines

end Spelling

theorem Parse.accepts_canonical_iff_representable (config : Config) (request : Request)
    (rest : Octets) :
    (Parse.ofInput config (request.canonical ++ rest)).Accepts request request.canonical.length ↔
      request.Representable config := by
  rw [accepts_ofInput_iff]
  constructor
  · intro hspelled
    -- The spelling is the canonical form itself, so its lines are as long as the spaced ones.
    obtain ⟨s, tail, heq, hpermitted, rfl, hlength⟩ := hspelled
    obtain ⟨hcanonical, -⟩ := List.append_inj heq hlength.symm
    rw [hpermitted.representable_iff]
    intro f hf
    obtain ⟨line, hline, rfl⟩ := List.mem_map.1 hf
    rw [← Field.length_octets_spaced, ← hpermitted.octets_eq_spaced hcanonical.symm line hline]
    exact (hpermitted.lines line hline).length_le
  · intro hrep
    refine ⟨request.spelling, rest, ?_, hrep.permitted_spelling,
      Request.request_spelling hrep.method_known, ?_⟩
    · rw [Request.octets_spelling]
    · rw [Request.octets_spelling]

namespace Receiver

/-- A receiver reads the canonical form of a request back, and stops where it ends, for the
representable requests and for no others. -/
theorem accepts_canonical_append_iff (receiver : Receiver) (h : receiver.HasRoom)
    (request : Request) (rest : Octets) :
    receiver.Accepts (request.canonical ++ rest) request request.canonical.length ↔
      request.Representable receiver.config := by
  rw [accepts_iff_parse_accepts h]
  exact Parse.accepts_canonical_iff_representable receiver.config request rest

/-- An extension method and octets outside US-ASCII are read back; a line break in a value
is not read as one. -/
theorem accepts_canonical_brew :
    let receiver : Receiver := { config := { limits := { fieldLine := 8 } } }
    let brew : Request := ⟨.extension "BREW", "/", .http10, ⟨#[⟨"Tea", [0x80, 0x20, 0xFF]⟩]⟩⟩
    let split : Request := { brew with fields := ⟨#[⟨"a", Utf8.encode "b\r\nc: d"⟩]⟩ }
    receiver.HasRoom ∧
      receiver.Accepts (brew.canonical ++ Utf8.encode "\r\n: x") brew brew.canonical.length ∧
      ¬receiver.Accepts (split.canonical ++ []) split split.canonical.length := by
  intro receiver brew split
  have hroom : receiver.HasRoom := by decide
  refine ⟨hroom, (accepts_canonical_append_iff receiver hroom brew _).2 ?_, ?_⟩
  · have htea : Field.Representable 8 ⟨"Tea", [0x80, 0x20, 0xFF]⟩ := by
      constructor <;> decide +kernel
    constructor
    case method_known => intro verb; cases verb <;> decide +kernel
    case fields => exact List.forall_mem_singleton.2 htea
    case admissible =>
      constructor
      case same_length => exact ⟨0, by decide +kernel, by decide +kernel⟩
      all_goals decide +kernel
    all_goals decide +kernel
  · intro h
    have hrep := (accepts_canonical_append_iff receiver hroom split _).1 h
    have hvalue := (hrep.fields ⟨"a", Utf8.encode "b\r\nc: d"⟩ List.mem_cons_self).value_text
    exact absurd (hvalue Octet.cr (by decide +kernel)) (by decide)

/-- An accepted request is read back from its canonical form exactly if every field line is
still within its limit with a blank behind the colon. -/
theorem accepts_canonical_of_accepts_iff (first second : Receiver)
    (hsame : second.config = first.config) (input : Octets) (request : Request) (length : Nat)
    (h : first.Accepts input request length) :
    second.Accepts request.canonical request request.canonical.length ↔
      ∀ f ∈ request.fields.toList,
        (Utf8.encode f.name).length + 2 + f.value.length ≤ first.config.limits.fieldLine := by
  have hroom := hasRoom_of_accepts h
  have hroom' : second.HasRoom := by rw [HasRoom, hsame]; exact hroom
  rw [accepts_iff_parse_accepts hroom, Parse.accepts_ofInput_iff] at h
  obtain ⟨s, rest, -, hpermitted, rfl, -⟩ := h
  have hback := Parse.accepts_canonical_iff_representable first.config s.request []
  rw [List.append_nil] at hback
  rw [accepts_iff_parse_accepts hroom', hsame, hback, hpermitted.representable_iff]

theorem accepts_canonical_of_accepts_host :
    let first : Receiver := { config := { limits := { fieldLine := 7 } } }
    let second : Receiver := { first with status := .success }
    let request : Request := { target := "/", fields := ⟨#[⟨"Host", Utf8.encode "a"⟩]⟩ }
    second.config = first.config ∧
      first.Accepts (Utf8.encode "GET / HTTP/1.1\r\nHost:a\r\n\r\n") request 26 ∧
      second.Accepts request.canonical request request.canonical.length := by
  intro first second request
  have h : first.Accepts (Utf8.encode "GET / HTTP/1.1\r\nHost:a\r\n\r\n") request 26 := by
    constructor <;> decide +kernel
  refine ⟨rfl, h, (accepts_canonical_of_accepts_iff first second rfl _ _ _ h).2 ?_⟩
  exact List.forall_mem_singleton.2 (by decide +kernel)

/-- A line that fills its limit without a blank is accepted, and its canonical form is not. -/
theorem not_accepts_canonical_of_full_line :
    ¬∀ (first second : Receiver), second.config = first.config →
      ∀ (input : Octets) (request : Request) (length : Nat), first.Accepts input request length →
        second.Accepts request.canonical request request.canonical.length := by
  intro h
  let receiver : Receiver := { config := { limits := { fieldLine := 6 } } }
  let request : Request := { target := "/", fields := ⟨#[⟨"Host", Utf8.encode "a"⟩]⟩ }
  have haccepts : receiver.Accepts (Utf8.encode "GET / HTTP/1.1\r\nHost:a\r\n\r\n") request 26 := by
    constructor <;> decide +kernel
  have hback := (h receiver receiver rfl _ _ _ haccepts).1
  revert hback
  decide +kernel

end Receiver

end HttpHead
