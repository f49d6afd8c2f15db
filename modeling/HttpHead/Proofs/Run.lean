import HttpHead.Parse.Bound

/-! A whole run in terms of its steps: the fuel falls out of it (`run_step`), and what
holds of ended parses and goes back over a step holds of every parse (`run_induction`). -/
namespace HttpHead.Parse

theorem step_of_isFinal {p : Parse} (h : p.stage.isFinal) : p.step = p := by
  unfold step
  cases hs : p.stage <;> simp_all [Stage.isFinal]

theorem advance_of_isFinal {p : Parse} (h : p.stage.isFinal) (n : Nat) : p.advance n = p := by
  cases n with
  | zero => rfl
  | succ n => rw [advance, if_pos h]

theorem advance_succ (n : Nat) (p : Parse) : p.advance (n + 1) = p.step.advance n := by
  rw [advance]
  split
  · rename_i h
    rw [step_of_isFinal h, advance_of_isFinal h]
  · rfl

theorem advance_add (m n : Nat) (p : Parse) : p.advance (m + n) = (p.advance m).advance n := by
  induction m generalizing p with
  | zero => rw [Nat.zero_add, advance]
  | succ m ih => rw [Nat.succ_add, advance_succ, ih, advance_succ]

/-- Any number of steps that ends the parse ends it as `run` does. -/
theorem advance_eq_run {p : Parse} {n : Nat} (h : (p.advance n).stage.isFinal) :
    p.advance n = p.run := by
  have hrun := isFinal_run p
  rw [run] at hrun ⊢
  cases Nat.le_total n p.fuel with
  | inl hle =>
    obtain ⟨k, hk⟩ := Nat.exists_eq_add_of_le hle
    rw [hk, advance_add, advance_of_isFinal h]
  | inr hle =>
    obtain ⟨k, rfl⟩ := Nat.exists_eq_add_of_le hle
    rw [advance_add, advance_of_isFinal hrun]

theorem run_of_isFinal {p : Parse} (h : p.stage.isFinal) : p.run = p :=
  advance_of_isFinal h _

theorem run_step (p : Parse) : p.step.run = p.run := by
  have h : (p.advance (p.step.fuel + 1)).stage.isFinal := by
    rw [advance_succ]
    exact isFinal_run p.step
  rw [← advance_eq_run h, advance_succ, run]

theorem run_induction {motive : Parse → Prop} (final : ∀ p, p.stage.isFinal → motive p)
    (step : ∀ p, p.stage.isFinal = false → motive p.step → motive p) (p : Parse) : motive p := by
  induction hn : p.weight using Nat.strongRecOn generalizing p with
  | ind n ih =>
    by_cases hp : p.stage.isFinal
    · exact final p hp
    · rw [Bool.not_eq_true] at hp
      apply step p hp
      cases weight_step p hp with
      | inl hfinal => exact final _ hfinal
      | inr hlt => exact ih _ (hn ▸ hlt) _ rfl

def Accepts (p : Parse) (request : Request) (length : Nat) : Prop :=
  p.run.result = .ok request ∧ p.run.headLength? = some length

variable {p : Parse} {request : Request} {length : Nat}

theorem accepts_step : p.step.Accepts request length ↔ p.Accepts request length := by
  rw [Accepts, run_step, Accepts]

theorem accepts_iff_of_accepted (h : p.stage = .accepted) :
    p.Accepts request length ↔ p.request = request ∧ p.cursor.position = length := by
  rw [Accepts, run_of_isFinal (by simp [h, Stage.isFinal])]
  simp [result, headLength?, h]

theorem not_accepts_of_rejected {v : Violation} {offset : Nat} (h : p.stage = .rejected v offset) :
    ¬p.Accepts request length := by
  rw [Accepts, run_of_isFinal (by simp [h, Stage.isFinal])]
  simp [result, h]

theorem accepts_of_result_eq_ok (h : p.run.result = .ok request) :
    ∃ length, p.Accepts request length := by
  have hfinal := isFinal_run p
  cases hs : p.run.stage <;> simp_all [Stage.isFinal, result, Accepts, headLength?]

theorem result_eq_malformed_iff {violation : Violation} {offset : Nat} :
    p.result = .error (.malformed violation offset) ↔ p.stage = .rejected violation offset := by
  unfold result
  cases p.stage <;> simp

end HttpHead.Parse
