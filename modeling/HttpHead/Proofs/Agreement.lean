import HttpHead.Proofs.Canonical
import HttpHead.Proofs.HeadEnd
import HttpHead.Proofs.Locality
import HttpHead.Proofs.Step

/-! A head that is read from a stream is parsed as the whole text would be. The reader has its
own rule for the end of a head, by lines that end with a LF; a parse that starts where the
reader started has such a line ahead of it until it has passed the head, so it never looks at
what the reader has left in the stream. -/
namespace HttpHead

namespace Octets

/-- The text ends with an empty line behind the end of a line. -/
def ClosesBehind (text : Octets) : Prop :=
  ∃ front line : Octets, text = front ++ Octet.lf :: (line ++ [Octet.lf]) ∧ isEmptyLine line

def Closes (text : Octets) : Prop :=
  text.ClosesBehind ∨ ∃ line : Octets, text = line ++ [Octet.lf] ∧ isEmptyLine line

variable {text rest : Octets}

theorem ClosesBehind.lf_mem (h : text.ClosesBehind) : Octet.lf ∈ text := by
  obtain ⟨front, line, htext, -⟩ := h
  simp [htext]

theorem Closes.lf_mem (h : text.Closes) : Octet.lf ∈ text := by
  cases h with
  | inl h => exact h.lf_mem
  | inr h =>
    obtain ⟨line, htext, -⟩ := h
    simp [htext]

theorem ClosesBehind.of_append (h : ClosesBehind (text ++ rest)) (hlf : Octet.lf ∉ text) :
    rest.ClosesBehind := by
  obtain ⟨front, line, heq, hline⟩ := h
  obtain ⟨between, -, hrest⟩ | ⟨between, htext, hrest⟩ := List.append_eq_append_iff.1 heq
  · exact ⟨between, line, hrest, hline⟩
  · cases between with
    | nil => exact ⟨[], line, hrest.symm, hline⟩
    | cons b between =>
      obtain ⟨hb, -⟩ := List.cons.inj hrest
      exact absurd (by simp [htext, hb]) hlf

theorem ClosesBehind.closes_of_crlf (h : ClosesBehind (Octet.cr :: Octet.lf :: rest)) :
    rest.Closes := by
  obtain ⟨front, line, heq, hline⟩ := h
  cases front with
  | nil => exact absurd (List.cons.inj heq).1 (by decide)
  | cons b front =>
    obtain ⟨-, heq⟩ := List.cons.inj heq
    cases front with
    | nil => exact .inr ⟨line, (List.cons.inj heq).2, hline⟩
    | cons b front => exact .inl ⟨front, line, (List.cons.inj heq).2, hline⟩

theorem Closes.behind_of_token {b : UInt8} (h : Closes (b :: rest)) (hb : Octet.isToken b) :
    ClosesBehind (b :: rest) := by
  cases h with
  | inl h => exact h
  | inr h =>
    obtain ⟨line, heq, hline⟩ := h
    cases line with
    | nil => exact absurd (List.cons.inj heq).1 (Octet.ne_of_class (by decide) hb)
    | cons a line =>
      obtain ⟨rfl, -⟩ := List.cons.inj heq
      have hcr : b = Octet.cr := by simp [isEmptyLine] at hline; exact hline.1
      exact absurd hcr (Octet.ne_of_class (by decide) hb)

theorem closesBehind_of_endsHead (h : endsHead text) : text.ClosesBehind := by
  cases htext : text using List.reverseRecOn with
  | nil => rw [htext] at h; cases h
  | append_singleton front b _ =>
    rw [htext] at h
    by_cases hb : b = Octet.lf
    · subst hb
      obtain ⟨lines, line, hsplit⟩ := exists_splitOn_eq front
      rw [endsHead_concat_lf hsplit, Bool.and_eq_true] at h
      obtain ⟨hline, hbefore⟩ := h
      have hlines : lines ≠ [] := by
        intro hnil
        rw [hnil] at hbefore
        cases hbefore
      obtain ⟨before, hfront⟩ := eq_append_lf_of_splitOn hsplit hlines
      exact ⟨before, line, by rw [hfront]; simp, hline⟩
    · rw [endsHead_concat hb] at h
      cases h

theorem endsHead_emptyLines_append (n : Nat) (text : Octets) :
    endsHead (emptyLines n ++ text) = endsHead text := by
  induction n with
  | zero => rfl
  | succ n ih => rw [← ih, ← endsHead_crlf_append (emptyLines n ++ text)]; rfl

end Octets

namespace Cursor

open Octets

/-- The end of the head is ahead, as far as the mode can tell. -/
def Covers (c : Cursor) : Prop :=
  match c.mode with
  | .method => endsHead c.rest
  | .fieldName => c.rest.Closes
  | .finished | .failed .. => True
  | _ => c.rest.ClosesBehind

variable {c c' : Cursor} {t : Token}

theorem endsHead_skipEmptyLines (h : endsHead c.rest) : endsHead c.skipEmptyLines.rest := by
  rw [eq_emptyLines_append c.rest, endsHead_emptyLines_append] at h
  exact h

theorem settled_of_covers (h : c.Covers) : c.Settled := by
  unfold Covers at h
  unfold Settled
  cases hm : c.mode with
  | method => rw [hm] at h; exact (closesBehind_of_endsHead (endsHead_skipEmptyLines h)).lf_mem
  | fieldName => rw [hm] at h; exact h.lf_mem
  | finished => trivial
  | failed violation offset => trivial
  | _ => rw [hm] at h; exact h.lf_mem

theorem closesBehind_behind {text rest : Octets} {p : UInt8 → Bool} {b : UInt8}
    (h : ClosesBehind (text ++ b :: rest)) (ht : ∀ b ∈ text, p b) (hp : p Octet.lf = false)
    (hb : b ≠ Octet.lf) : rest.ClosesBehind := by
  have hcons : text ++ b :: rest = (text ++ [b]) ++ rest := by simp
  rw [hcons] at h
  apply h.of_append
  intro hmem
  cases List.mem_append.1 hmem with
  | inl hmem => exact Octet.ne_of_class hp (ht _ hmem) rfl
  | inr hmem => exact hb (List.mem_singleton.1 hmem).symm

/-- A token takes a cursor no further than into the empty line that ends the head. -/
theorem covers_of_scans (h : c.Scans t c') (hc : c.Covers) : c'.Covers := by
  unfold Covers at hc
  cases h with
  | method n text rest mode input nonempty token fits =>
    rw [mode] at hc
    change endsHead c.rest at hc
    rw [input, endsHead_emptyLines_append] at hc
    exact closesBehind_behind (closesBehind_of_endsHead hc) token (by decide) (by decide)
  | target text rest mode input nonempty visible fits =>
    rw [mode, input] at hc
    exact closesBehind_behind hc visible (by decide) (by decide)
  | version text rest mode input version stops =>
    rw [mode, input] at hc
    obtain ⟨-, hvisible⟩ := length_and_visible_of_isVersion version
    apply hc.of_append
    intro hmem
    exact Octet.ne_of_class (by decide) (hvisible _ hmem) rfl
  | lineEnd rest mode input =>
    cases mode with
    | inl mode => rw [mode, input] at hc; exact hc.closes_of_crlf
    | inr mode => rw [mode, input] at hc; exact hc.closes_of_crlf
  | fieldName text rest mode input nonempty token fits =>
    -- A name is no empty line, so the end of the head is behind it.
    rw [mode, input] at hc
    obtain ⟨b, tail, rfl⟩ := List.exists_cons_of_ne_nil nonempty
    have hbehind := hc.behind_of_token (token b List.mem_cons_self)
    exact closesBehind_behind hbehind token (by decide) (by decide)
  | headEnd rest mode input => trivial
  | fieldValue text rest mode input field stops fits =>
    rw [mode, input] at hc
    apply hc.of_append
    intro hmem
    exact Octet.ne_of_class (by decide) (field _ hmem) rfl

end Cursor

namespace Parse

variable {p : Parse}

def WithinHead (p : Parse) : Prop := p.InOrder ∧ p.cursor.Covers

theorem withinHead_step (h : p.WithinHead) (hstep : p.step.stage.isFinal = false) :
    p.step.WithinHead := by
  obtain ⟨name, -, heq⟩ | ⟨-, t, c, hscan, heq⟩ := step_cases h.1 hstep
  · rw [heq]
    exact h
  · refine ⟨inOrder_step h.1 hstep, ?_⟩
    rw [heq, cursor_take]
    exact Cursor.covers_of_scans hscan h.2

theorem run_ofInput_append {head : Octets} (h : head.endsHead) (config : Config) (more : Octets) :
    (ofInput config (head ++ more)).run = (ofInput config head).run.extend more := by
  have hstart : (ofInput config (head ++ more)) = (ofInput config head).extend more := rfl
  rw [hstart]
  apply run_extend WithinHead
  · intro p hp _
    exact Cursor.settled_of_covers hp.2
  · intro p hp hstep
    exact withinHead_step hp hstep
  · exact ⟨Nat.le_refl _, h⟩

end Parse

namespace Spelling

open Octets

variable {config : Config} {s : Spelling}

theorem crlf_append_lines (lines : List FieldLine) :
    ∃ body, Octets.crlf ++ lines.flatMap FieldLine.full = body ++ Octets.crlf := by
  induction lines with
  | nil => exact ⟨[], rfl⟩
  | cons line lines ih =>
    obtain ⟨body, hbody⟩ := ih
    refine ⟨Octets.crlf ++ line.octets ++ body, ?_⟩
    rw [List.flatMap_cons, FieldLine.full, List.append_assoc line.octets, hbody]
    simp

theorem Permitted.endsHead_octets (h : s.Permitted config) : endsHead s.octets := by
  obtain ⟨body, hbody⟩ := crlf_append_lines s.lines
  obtain ⟨b, tail, hmethod⟩ := List.exists_cons_of_ne_nil h.method_ne
  have htoken : Octet.isToken b := h.method_token b (by simp [hmethod])
  -- The octets end with two line ends, and the method keeps the first line from being empty.
  obtain ⟨front, hoctets, hb⟩ : ∃ front, s.octets = front ++ Octet.lf :: [Octet.cr] ++ [Octet.lf] ∧
      b ∈ front := by
    refine ⟨Octets.emptyLines s.emptyLines ++ Utf8.encode s.method ++ [Octet.sp] ++
      Utf8.encode s.target ++ [Octet.sp] ++ Utf8.encode s.version.text ++ body ++ [Octet.cr],
      ?_, ?_⟩
    · have hlines := congrArg (· ++ Octets.crlf) hbody
      simp only [List.append_assoc] at hlines
      simp only [octets, List.append_assoc, hlines]
      rfl
    · simp [hmethod]
  have hsplit : (front ++ Octet.lf :: [Octet.cr]).splitOn Octet.lf =
      front.splitOn Octet.lf ++ [[Octet.cr]] := List.splitOn_append_cons_self front [Octet.cr]
  obtain ⟨line, hline, hmem⟩ := exists_mem_splitOn hb (Octet.ne_of_class (by decide) htoken)
  rw [hoctets, endsHead_concat_lf hsplit, Bool.and_eq_true]
  refine ⟨rfl, List.any_eq_true.2 ⟨line, hline, ?_⟩⟩
  have hcr : b ≠ Octet.cr := Octet.ne_of_class (by decide) htoken
  rw [Bool.not_eq_true', isEmptyLine, Bool.or_eq_false_iff, beq_eq_false_iff_ne,
    beq_eq_false_iff_ne]
  refine ⟨List.ne_nil_of_mem hmem, ?_⟩
  intro heq
  rw [heq] at hmem
  exact hcr (List.mem_singleton.1 hmem)

end Spelling

namespace Receiver

open Octets

variable {receiver : Receiver} {request : Request} {length : Nat}

theorem accepts_of_parse_eq_ok {input : Octets} (h : (receiver.parse input).1 = .ok request) :
    ∃ length, receiver.Accepts input request length := by
  by_cases hroom : receiver.HasRoom
  · rw [parse_of_hasRoom hroom] at h
    obtain ⟨length, haccepts⟩ := Parse.accepts_of_result_eq_ok h
    exact ⟨length, (accepts_iff_parse_accepts hroom).2 haccepts⟩
  · rw [parse_of_not_hasRoom hroom] at h
    cases h

/-- Only what is read as a head matters to a parse. -/
theorem parse_headOf (receiver : Receiver) (text : Octets) :
    (receiver.parse (headOf text)).1 = (receiver.parse text).1 ∧
      (receiver.parse (headOf text)).2.headLength? = (receiver.parse text).2.headLength? := by
  obtain ⟨rest, htext, hrest⟩ := eq_headOf_append text
  by_cases hroom : receiver.HasRoom
  · rw [parse_of_hasRoom hroom, parse_of_hasRoom hroom]
    cases hrest with
    | inl hnil =>
      rw [hnil, List.append_nil] at htext
      rw [← htext]
      exact ⟨rfl, rfl⟩
    | inr hends =>
      have hrun := Parse.run_ofInput_append hends receiver.config rest
      rw [← htext] at hrun
      simp only [hrun, Parse.result_extend]
      exact ⟨trivial, Parse.headLength?_extend.symm⟩
  · rw [parse_of_not_hasRoom hroom, parse_of_not_hasRoom hroom]
    exact ⟨rfl, rfl⟩

theorem length_headOf_of_accepts {text : Octets} (h : receiver.Accepts text request length) :
    length = (headOf text).length := by
  have hroom := hasRoom_of_accepts h
  obtain ⟨hresult, hlength⟩ := parse_headOf receiver text
  have hhead : receiver.Accepts (headOf text) request length :=
    ⟨hresult.trans h.1, hlength.trans h.2⟩
  rw [accepts_iff_parse_accepts hroom, Parse.accepts_ofInput_iff] at h hhead
  obtain ⟨s, rest, htext, hpermitted, -, hs⟩ := h
  obtain ⟨s', rest', htext', -, -, hs'⟩ := hhead
  have hle := length_headOf_le ⟨rest, htext.symm⟩ hpermitted.endsHead_octets
  have hge := congrArg List.length htext'
  rw [List.length_append] at hge
  omega

variable {chunks : List Octets}

theorem read_eq (receiver : Receiver) (waiting : Waiting) (stream : Stream) :
    receiver.read waiting stream =
      let (head, rest) := stream.readHead waiting receiver.config.limits.head
      (match head with
        | .error error => finish (.error error, { config := receiver.config })
        | .ok head => receiver.parse head.octets, rest) := by
  rw [read, teardown_eq]
  cases stream.readHead waiting receiver.config.limits.head with
  | mk head rest => cases head <;> rfl

theorem read_of_le (receiver : Receiver) (hlimit : receiver.config.limits.head < 2 ^ 64 - 1)
    (ends : Nat) (h : (headOf chunks.flatten).length ≤ receiver.config.limits.head) :
    let outcome := receiver.read .blocking (chunks.map .data ++ List.replicate ends .eof)
    outcome.1 = receiver.parse (headOf chunks.flatten) ∧
      outcome.2.octets = chunks.flatten.drop (headOf chunks.flatten).length := by
  obtain ⟨⟨head, hhead, hoctets⟩, hrest⟩ := Stream.readHead_of_le hlimit ends h
  refine ⟨?_, ?_⟩
  · rw [read_eq]
    simp only [hhead, hoctets]
  · rw [read_eq]
    exact hrest

theorem read_of_lt (receiver : Receiver) (hlimit : receiver.config.limits.head < 2 ^ 64 - 1)
    (ends : Nat) (h : receiver.config.limits.head < (headOf chunks.flatten).length) :
    (receiver.read .blocking (chunks.map .data ++ List.replicate ends .eof)).1 =
      finish (.error (.malformed .headerTooLarge receiver.config.limits.head),
        { config := receiver.config }) := by
  rw [read_eq]
  simp only [Stream.readHead_of_lt hlimit ends h]

/-- Reading a stream of chunks comes to the same as parsing all of its octets, as long as what
is read as a head is within its limit. -/
theorem read_chunks (receiver : Receiver) (hlimit : receiver.config.limits.head < 2 ^ 64 - 1)
    (chunks : List Octets) (ends : Nat) :
    let text := chunks.flatten
    let size := (headOf text).length
    let outcome := receiver.read .blocking (chunks.map .data ++ List.replicate ends .eof)
    (if size ≤ receiver.config.limits.head then
      outcome.1.1 = (receiver.parse text).1 ∧
        outcome.1.2.headLength? = (receiver.parse text).2.headLength?
    else outcome.1.1 = .error (.malformed .headerTooLarge receiver.config.limits.head)) ∧
      ∀ request, outcome.1.1 = .ok request →
        outcome.1.2.headLength? = some size ∧ outcome.2.octets = text.drop size := by
  intro text size outcome
  by_cases hsize : size ≤ receiver.config.limits.head
  · obtain ⟨hread, hrest⟩ := read_of_le receiver hlimit ends hsize
    obtain ⟨hresult, hlength⟩ := parse_headOf receiver text
    rw [if_pos hsize, hread]
    refine ⟨⟨hresult, hlength⟩, ?_⟩
    intro request hok
    obtain ⟨length, haccepts⟩ := accepts_of_parse_eq_ok (hresult.symm.trans hok)
    rw [hlength, haccepts.2, length_headOf_of_accepts haccepts]
    exact ⟨rfl, hrest⟩
  · have hread := read_of_lt receiver hlimit ends (Nat.not_le.1 hsize)
    rw [if_neg hsize, hread]
    refine ⟨rfl, ?_⟩
    intro request hok
    cases hok

/-- A chunk ends inside the CRLF of a line, the head is as long as its limit, and the last chunk
holds the body. -/
theorem read_chunks_split :
    let receiver : Receiver := { config := { limits := { head := 18 } } }
    let chunks := [Utf8.encode "GET / HTTP/1.0\r", [], Utf8.encode "\n\r\nbody"]
    let outcome := receiver.read .blocking (chunks.map .data ++ List.replicate 1 .eof)
    let request : Request := { target := "/", version := .http10 }
    receiver.config.limits.head < 2 ^ 64 - 1 ∧ outcome.1.1 = .ok request ∧
      outcome.1.2.headLength? = some 18 ∧ outcome.2.octets = Utf8.encode "body" := by
  intro receiver chunks outcome request
  have hlimit : receiver.config.limits.head < 2 ^ 64 - 1 := by decide
  have hsize : (headOf chunks.flatten).length = 18 := by decide +kernel
  have hfits : (headOf chunks.flatten).length ≤ receiver.config.limits.head := hsize.le
  have hparse : (receiver.parse chunks.flatten).1 = .ok request := by decide +kernel
  have hbody : chunks.flatten.drop 18 = Utf8.encode "body" := by decide +kernel
  obtain ⟨hagrees, haccepts⟩ := read_chunks receiver hlimit chunks 1
  rw [if_pos hfits, hparse] at hagrees
  obtain ⟨hlength, hleft⟩ := haccepts request hagrees.1
  rw [hsize] at hlength hleft
  rw [hbody] at hleft
  subst outcome
  exact ⟨hlimit, hagrees.1, hlength, hleft⟩

end Receiver

end HttpHead
