import HttpHead.Proofs.Scan
import HttpHead.Proofs.Summary
import HttpHead.Request

/-! The grammar of request heads. A `Spelling` is one way to write a head down, and
`Spelling.Permitted` says which of them are heads under some settings. What does not
depend on the spelling is a property of the request, `Request.Admissible`. -/
namespace HttpHead

/-- A field line with the blanks around its value, without its end. -/
structure FieldLine where
  name : String
  before : Octets
  value : Octets
  after : Octets

namespace FieldLine

def octets (line : FieldLine) : Octets :=
  Utf8.encode line.name ++ [Octet.colon] ++ line.before ++ line.value ++ line.after

def field (line : FieldLine) : Field := ⟨line.name, line.value⟩

def full (line : FieldLine) : Octets := line.octets ++ Octets.crlf

structure WellFormed (limit : Nat) (line : FieldLine) : Prop where
  name_ne : Utf8.encode line.name ≠ []
  name_token : ∀ b ∈ Utf8.encode line.name, Octet.isToken b
  before_blank : ∀ b ∈ line.before, Octet.isBlank b
  value_text : ∀ b ∈ line.value, Octet.isFieldText b
  value_bare : line.value.Bare
  after_blank : ∀ b ∈ line.after, Octet.isBlank b
  length_le : line.octets.length ≤ limit

def text (line : FieldLine) : Octets := line.before ++ line.value ++ line.after

theorem octets_eq (line : FieldLine) :
    line.octets = Utf8.encode line.name ++ Octet.colon :: line.text := by
  simp [octets, text]

theorem length_octets (line : FieldLine) :
    line.octets.length = (Utf8.encode line.name).length + 1 + line.text.length := by
  rw [octets_eq, List.length_append, List.length_cons]
  omega

theorem WellFormed.trim_text {limit : Nat} {line : FieldLine} (h : line.WellFormed limit) :
    line.text.trim = line.value :=
  Octets.trim_eq_iff.2 ⟨h.value_bare, line.before, line.after, h.before_blank, h.after_blank, rfl⟩

theorem WellFormed.isFieldText_of_mem {limit : Nat} {line : FieldLine} (h : line.WellFormed limit)
    {b : UInt8} (hb : b ∈ line.text) : Octet.isFieldText b := by
  simp only [text, List.mem_append] at hb
  obtain (hb | hb) | hb := hb
  · exact Octet.isFieldText_of_isBlank (h.before_blank b hb)
  · exact h.value_text b hb
  · exact Octet.isFieldText_of_isBlank (h.after_blank b hb)

theorem exists_wellFormed {limit : Nat} {name : String} {text : Octets}
    (hne : Utf8.encode name ≠ []) (htoken : ∀ b ∈ Utf8.encode name, Octet.isToken b)
    (htext : ∀ b ∈ text, Octet.isFieldText b)
    (hlen : (Utf8.encode name).length + 1 + text.length ≤ limit) :
    ∃ line : FieldLine, line.name = name ∧ line.text = text ∧ line.field = ⟨name, text.trim⟩ ∧
      line.WellFormed limit := by
  obtain ⟨hbare, before, after, hbefore, hafter, heq⟩ := Octets.trim_eq_iff.1 (Eq.refl text.trim)
  let line : FieldLine := ⟨name, before, text.trim, after⟩
  have hline : line.text = text := heq.symm
  refine ⟨line, rfl, hline, rfl, hne, htoken, hbefore, ?_, hbare, hafter, ?_⟩
  · intro b hb
    have hmem : b ∈ before ++ text.trim ++ after :=
      List.mem_append_left _ (List.mem_append_right _ hb)
    rw [← heq] at hmem
    exact htext b hmem
  · rw [length_octets, hline]
    exact hlen

end FieldLine

namespace Request

/-- What is asked of a request apart from how it is spelled: not too many fields, one
body length that all Content-Length fields tell, and if the settings are strict a
registered method, no second Content-Length or Host, and a Host in HTTP/1.1. -/
structure Admissible (config : Config) (request : Request) : Prop where
  size_le : request.fields.toList.length ≤ config.limits.fieldCount
  same_length : ∃ n < 2 ^ 64, ∀ f ∈ request.fields.toList,
    f.isNamed KnownName.contentLength.text → Decimal.Denotes f.value n
  registered : config.isStrict → request.method.isExtension = false
  length_once : config.isStrict →
    request.fields.toList.countP (·.isNamed KnownName.contentLength.text) ≤ 1
  host_once : config.isStrict → request.fields.toList.countP (·.isNamed KnownName.host.text) ≤ 1
  host_given : config.isStrict → request.version = .http11 →
    ∃ f ∈ request.fields.toList, f.isNamed KnownName.host.text

end Request

/-- A head as it is spelled: empty lines, a request line, field lines, an empty line. -/
structure Spelling where
  emptyLines : Nat
  method : String
  target : String
  version : Version
  lines : List FieldLine

namespace Spelling

def octets (s : Spelling) : Octets :=
  Octets.emptyLines s.emptyLines ++ Utf8.encode s.method ++ [Octet.sp] ++ Utf8.encode s.target ++
    [Octet.sp] ++ Utf8.encode s.version.text ++ Octets.crlf ++ s.lines.flatMap FieldLine.full ++
    Octets.crlf

def request (s : Spelling) : Request where
  method := .ofText s.method
  target := s.target
  version := s.version
  fields := ⟨(s.lines.map FieldLine.field).toArray⟩

structure Permitted (config : Config) (s : Spelling) : Prop where
  method_ne : Utf8.encode s.method ≠ []
  method_token : ∀ b ∈ Utf8.encode s.method, Octet.isToken b
  method_le : (Utf8.encode s.method).length ≤ config.limits.method
  target_ne : Utf8.encode s.target ≠ []
  target_visible : ∀ b ∈ Utf8.encode s.target, Octet.isTarget b
  target_le : (Utf8.encode s.target).length ≤ config.limits.target
  lines : ∀ line ∈ s.lines, line.WellFormed config.limits.fieldLine
  admissible : s.request.Admissible config

theorem toList_fields_request (s : Spelling) :
    s.request.fields.toList = s.lines.map FieldLine.field := rfl

end Spelling

theorem Request.admissible_iff {config : Config} {request : Request} :
    request.Admissible config ↔
      request.fields.toList.length ≤ config.limits.fieldCount ∧
        Summary.Agree config.isStrict request.fields.toList ∧
        (config.isStrict → request.method.isExtension = false) ∧
        (config.isStrict → request.version = .http11 →
          (Summary.ofFields request.fields.toList).hosts ≠ 0) := by
  have hlength : (∃ n < 2 ^ 64, ∀ f ∈ request.fields.toList,
        f.isNamed KnownName.contentLength.text → Decimal.Denotes f.value n) ↔
      ∃ n, ∀ f ∈ request.fields.toList, f.isLength → Decimal.read? f.value = some n := by
    constructor
    · intro hsame
      obtain ⟨n, hn, h⟩ := hsame
      refine ⟨.ofNat n, fun f hf hl => Decimal.read?_eq_some_iff.2 ?_⟩
      rw [UInt64.toNat_ofNat_of_lt' hn]
      exact h f hf hl
    · intro hsame
      obtain ⟨n, h⟩ := hsame
      exact ⟨n.toNat, n.toNat_lt, fun f hf hl => Decimal.read?_eq_some_iff.1 (h f hf hl)⟩
  have hhost : (Summary.ofFields request.fields.toList).hosts ≠ 0 ↔
      ∃ f ∈ request.fields.toList, f.isNamed KnownName.host.text := by
    rw [Ne, Summary.hosts_eq_zero_iff]
    simp [Field.isHost]
  rw [hhost]
  constructor
  · intro h
    obtain ⟨hsize, hsame, hreg, hlo, hho, hgiven⟩ := h
    exact ⟨hsize, ⟨hlength.1 hsame, hlo, hho⟩, hreg, hgiven⟩
  · intro h
    obtain ⟨hsize, ⟨hsame, hlo, hho⟩, hreg, hgiven⟩ := h
    exact ⟨hsize, hlength.2 hsame, hreg, hlo, hho, hgiven⟩

end HttpHead
