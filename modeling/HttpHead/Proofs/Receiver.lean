import HttpHead.Proofs.Accept
import HttpHead.Receiver

/-! What a receiver accepts. A parse by a receiver is a fresh parse with its settings, if
there is room for the fields, so it accepts exactly the heads that the grammar permits. -/
namespace HttpHead

instance (text : Octets) : Decidable text.Bare := inferInstanceAs (Decidable (_ ∧ _))

instance (text : Octets) (n : Nat) : Decidable (Decimal.Denotes text n) :=
  inferInstanceAs (Decidable (_ ∧ _ ∧ _))

namespace Receiver

variable {receiver : Receiver} {input : Octets} {request : Request} {length : Nat}

def HasRoom (receiver : Receiver) : Prop := Fields.empty.canReserve receiver.config.fieldCapacity

instance (receiver : Receiver) : Decidable receiver.HasRoom := inferInstanceAs (Decidable (_ = _))

/-- The receiver accepts the head of an input, with its request and its length. -/
def Accepts (receiver : Receiver) (input : Octets) (request : Request) (length : Nat) : Prop :=
  (receiver.parse input).1 = .ok request ∧ (receiver.parse input).2.headLength? = some length

theorem teardown_eq (receiver : Receiver) :
    receiver.teardown = { config := receiver.config } := by
  rw [teardown, Request.reset_eq]

theorem parse_of_hasRoom (h : receiver.HasRoom) (input : Octets) :
    receiver.parse input =
      let parse := (Parse.ofInput receiver.config input).run
      (parse.result, ⟨receiver.config, some parse, parse.request, .ofResult parse.result⟩) := by
  rw [parse, teardown_eq]
  exact congrArg finish (if_pos h)

theorem parse_of_not_hasRoom (h : ¬receiver.HasRoom) (input : Octets) :
    receiver.parse input = finish (.error .exhausted, { config := receiver.config }) := by
  rw [parse, teardown_eq]
  exact congrArg finish (if_neg h)

theorem accepts_iff_parse_accepts (h : receiver.HasRoom) :
    receiver.Accepts input request length ↔
      (Parse.ofInput receiver.config input).Accepts request length := by
  rw [Accepts, parse_of_hasRoom h, Parse.Accepts]
  rfl

theorem hasRoom_of_accepts (h : receiver.Accepts input request length) : receiver.HasRoom := by
  by_contra hroom
  rw [Accepts, parse_of_not_hasRoom hroom] at h
  cases h.1

/-- A receiver with room for the fields accepts exactly the heads of the grammar. -/
theorem accepts_iff_spelled (receiver : Receiver) (h : receiver.HasRoom) (input : Octets)
    (request : Request) (length : Nat) :
    receiver.Accepts input request length ↔ ∃ (s : Spelling) (rest : Octets),
      input = s.octets ++ rest ∧ s.Permitted receiver.config ∧ s.request = request ∧
        s.octets.length = length := by
  rw [accepts_iff_parse_accepts h, Parse.accepts_ofInput_iff]

/-- A head with an empty line in front, blanks around a value, and every limit reached. -/
theorem accepts_spelled_post :
    let receiver : Receiver := { config := ⟨.strict, ⟨4, 2, 18, 64, 2⟩, 16⟩ }
    receiver.HasRoom ∧ receiver.Accepts
      (Utf8.encode
        "\r\nPOST /a HTTP/1.1\r\nhost: \ta \r\nContent-Length:007\r\n\r\nbody")
      ⟨.registered .post, "/a", .http11,
        ⟨#[⟨"host", Utf8.encode "a"⟩, ⟨"Content-Length", Utf8.encode "007"⟩]⟩⟩ 53 := by
  intro receiver
  have hroom : receiver.HasRoom := by decide
  refine ⟨hroom, (accepts_iff_spelled receiver hroom _ _ _).2 ?_⟩
  let host : FieldLine := ⟨"host", [Octet.sp, Octet.htab], Utf8.encode "a", [Octet.sp]⟩
  let contentLength : FieldLine := ⟨"Content-Length", [], Utf8.encode "007", []⟩
  refine ⟨⟨1, "POST", "/a", .http11, [host, contentLength]⟩, Utf8.encode "body",
    by decide +kernel, ?_, by decide +kernel, by decide +kernel⟩
  have hhost : host.WellFormed 18 := by constructor <;> decide +kernel
  have hlength : contentLength.WellFormed 18 := by constructor <;> decide +kernel
  constructor
  case lines => exact List.forall_mem_cons.2 ⟨hhost, List.forall_mem_singleton.2 hlength⟩
  case admissible =>
    constructor
    case same_length => exact ⟨7, by decide +kernel, by decide +kernel⟩
    all_goals decide +kernel
  all_goals decide +kernel

end Receiver

end HttpHead
