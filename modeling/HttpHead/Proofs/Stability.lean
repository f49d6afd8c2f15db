import HttpHead.Proofs.Agreement

/-! Heads end by themselves. An accepted head is accepted whatever follows it, and no shorter part
of it is; a head that is rejected in front of a LF stays rejected whatever follows. -/
namespace HttpHead

namespace Cursor

variable {c : Cursor}

theorem settled_of_lf_mem_next (hc : c.lineStart ≤ c.position) (h : Octet.lf ∈ c.next.2.rest) :
    c.Settled := by
  unfold Settled
  cases hm : c.mode with
  | method =>
    rw [← next_skipEmptyLines hm] at h
    exact (reaches_next (Nat.le_refl _)).mem_rest h
  | finished => trivial
  | failed violation offset => trivial
  | _ => exact (reaches_next hc).mem_rest h

end Cursor

namespace Parse

/-- A run that ends with a LF still ahead does not depend on what stands behind its input. -/
theorem run_extend_of_lf_mem {p : Parse} (hp : p.InOrder) (h : Octet.lf ∈ p.run.cursor.rest)
    (more : Octets) : (p.extend more).run = p.run.extend more := by
  apply run_extend fun p => p.InOrder ∧ Octet.lf ∈ p.run.cursor.rest
  case settled =>
    intro p hinv hr
    obtain ⟨hp, h⟩ := hinv
    apply Cursor.settled_of_lf_mem_next hp
    rw [← cursor_step_of_reads hr]
    by_cases hfinal : p.step.stage.isFinal
    · rwa [← run_step, run_of_isFinal hfinal] at h
    · rw [← run_step] at h
      exact (reaches_run (inOrder_step hp (by simpa using hfinal))).mem_rest h
  case keeps =>
    intro p hinv hstep
    exact ⟨inOrder_step hinv.1 hstep, by rw [run_step]; exact hinv.2⟩
  case h => exact ⟨hp, h⟩

theorem rest_run_ofInput (config : Config) (input : Octets) :
    (ofInput config input).run.cursor.rest =
      input.drop (ofInput config input).run.cursor.position := by
  obtain ⟨n, -, hposition, hrest⟩ :=
    reaches_run (p := ofInput config input) (Nat.le_refl _)
  rw [hrest, hposition, ofInput, Cursor.start]
  simp

end Parse

namespace Receiver

variable {receiver : Receiver} {input : Octets} {request : Request} {length : Nat}

theorem accepts_inj {request' : Request} {length' : Nat}
    (h : receiver.Accepts input request length) (h' : receiver.Accepts input request' length') :
    request = request' ∧ length = length' := by
  obtain ⟨hresult, hlength⟩ := h
  obtain ⟨hresult', hlength'⟩ := h'
  rw [hresult] at hresult'
  rw [hlength] at hlength'
  exact ⟨Except.ok.inj hresult', Option.some.inj hlength'⟩

theorem accepts_take_append (h : receiver.Accepts input request length) (more : Octets) :
    receiver.Accepts (input.take length ++ more) request length := by
  have hroom := hasRoom_of_accepts h
  rw [accepts_iff_parse_accepts hroom, Parse.accepts_ofInput_iff] at h ⊢
  obtain ⟨s, rest, rfl, hpermitted, hrequest, rfl⟩ := h
  refine ⟨s, more, ?_, hpermitted, hrequest, rfl⟩
  rw [List.take_left]

theorem length_le_of_accepts (h : receiver.Accepts input request length) :
    length ≤ input.length := by
  rw [accepts_iff_parse_accepts (hasRoom_of_accepts h), Parse.accepts_ofInput_iff] at h
  obtain ⟨s, rest, rfl, -, -, rfl⟩ := h
  rw [List.length_append]
  exact Nat.le_add_right ..

theorem malformed_of_not_accepts (hroom : receiver.HasRoom)
    (h : ∀ request length, ¬receiver.Accepts input request length) :
    ∃ violation offset, (receiver.parse input).1 = .error (.malformed violation offset) := by
  have hresult : (receiver.parse input).1 = (Parse.ofInput receiver.config input).run.result := by
    rw [parse_of_hasRoom hroom]
  cases hr : (receiver.parse input).1 with
  | ok request =>
    obtain ⟨length, haccepts⟩ := accepts_of_parse_eq_ok hr
    exact absurd haccepts (h request length)
  | error error =>
    rw [hresult, Parse.result] at hr
    split at hr
    · exact ⟨_, _, hr.symm⟩
    · cases hr

theorem malformed_take_of_accepts (h : receiver.Accepts input request length) {n : Nat}
    (hn : n < length) :
    ∃ violation offset,
      (receiver.parse (input.take n)).1 = .error (.malformed violation offset) := by
  apply malformed_of_not_accepts (hasRoom_of_accepts h)
  intro request' length' h'
  have hle := length_le_of_accepts h'
  rw [List.length_take] at hle
  have hback := accepts_take_append h' (input.drop length')
  rw [List.take_take, Nat.min_eq_left (by omega), List.take_append_drop] at hback
  obtain ⟨-, hlength⟩ := accepts_inj h hback
  omega

theorem parse_append_of_malformed {violation : Violation} {offset : Nat} {parse : Parse}
    (h : (receiver.parse input).1 = .error (.malformed violation offset))
    (hparse : (receiver.parse input).2.parse? = some parse)
    (hlf : Octet.lf ∈ input.drop parse.cursor.position) (more : Octets) :
    (receiver.parse (input ++ more)).1 = .error (.malformed violation offset) := by
  have hroom : receiver.HasRoom := by
    by_contra hroom
    rw [parse_of_not_hasRoom hroom] at h
    cases h
  rw [parse_of_hasRoom hroom] at h hparse ⊢
  obtain rfl := Option.some.inj hparse
  rw [← Parse.rest_run_ofInput] at hlf
  have hrun := Parse.run_extend_of_lf_mem (Nat.le_refl _) hlf more
  rw [← h]
  exact (congrArg Parse.result hrun).trans Parse.result_extend

/-- The verdict on a head stands. Behind an accepted head anything may follow, and nothing shorter
is accepted; a head that is rejected with a LF still ahead is rejected in the same way whatever
follows. -/
theorem verdict_stable (receiver : Receiver) (input more : Octets) :
    (∀ request length, receiver.Accepts input request length →
      receiver.Accepts (input.take length ++ more) request length ∧
        ∀ n < length, ∃ violation offset,
          (receiver.parse (input.take n)).1 = .error (.malformed violation offset)) ∧
    ∀ violation offset parse, (receiver.parse input).1 = .error (.malformed violation offset) →
      (receiver.parse input).2.parse? = some parse →
      Octet.lf ∈ input.drop parse.cursor.position →
      (receiver.parse (input ++ more)).1 = .error (.malformed violation offset) := by
  refine ⟨?_, ?_⟩
  · intro request length h
    exact ⟨accepts_take_append h more, fun n hn => malformed_take_of_accepts h hn⟩
  · intro violation offset parse h hparse hlf
    exact parse_append_of_malformed h hparse hlf more

/-- A body that goes on like a head does not change the head, a head without its last octet is
none, and a name with a blank behind it stays wrong. -/
theorem verdict_stable_host :
    let receiver : Receiver := { config := {} }
    let head := Utf8.encode "GET / HTTP/1.1\r\nHost: a\r\n\r\n"
    let more := Utf8.encode "Host: b\r\n\r\n"
    let request : Request := { target := "/", fields := ⟨#[⟨"Host", Utf8.encode "a"⟩]⟩ }
    let blank := Utf8.encode "GET / HTTP/1.1\r\nHost : a\r\n"
    receiver.Accepts (head ++ Utf8.encode "body") request 27 ∧
      receiver.Accepts ((head ++ Utf8.encode "body").take 27 ++ more) request 27 ∧
      (∃ violation offset, (receiver.parse ((head ++ Utf8.encode "body").take 26)).1 =
        .error (.malformed violation offset)) ∧
      (receiver.parse blank).1 = .error (.malformed .blankBeforeColon 20) ∧
      (∃ parse, (receiver.parse blank).2.parse? = some parse ∧
        Octet.lf ∈ blank.drop parse.cursor.position) ∧
      (receiver.parse (blank ++ more)).1 = .error (.malformed .blankBeforeColon 20) := by
  intro receiver head more request blank
  have haccepts : receiver.Accepts (head ++ Utf8.encode "body") request 27 := by
    constructor <;> decide +kernel
  have hblank : (receiver.parse blank).1 = .error (.malformed .blankBeforeColon 20) := by
    decide +kernel
  let parse := (Parse.ofInput {} blank).run
  have hparse : (receiver.parse blank).2.parse? = some parse := by
    rw [parse_of_hasRoom (by decide)]
  have hlf : Octet.lf ∈ blank.drop parse.cursor.position := by decide +kernel
  obtain ⟨hfollowed, hcut⟩ := (verdict_stable receiver _ more).1 request 27 haccepts
  exact ⟨haccepts, hfollowed, hcut 26 (by decide), hblank, ⟨parse, hparse, hlf⟩,
    (verdict_stable receiver blank more).2 _ _ parse hblank hparse hlf⟩

end Receiver

end HttpHead
