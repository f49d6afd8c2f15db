import HttpHead.Parse
import HttpHead.Token.Cost

/-! A parse comes to an end: `run` takes it to a final stage, from any state. Each
step uses up octets, or leads nearer to a stage whose token does. -/
namespace HttpHead

/-- How many steps more than octets a stage may still need. -/
def Stage.slack : Stage → Nat
  | .fieldName _ => 2
  | .requestLineEnd | .fieldColon _ | .fieldLineEnd => 1
  | _ => 0

namespace Parse

def weight (p : Parse) : Nat := p.cursor.rest.length + p.stage.slack

/-- The parse has ended, or left the cursor alone and come to a stage of less slack
than a bound. -/
def Settles (p q : Parse) (bound : Nat) : Prop :=
  q.stage.isFinal = true ∨ q.cursor = p.cursor ∧ q.stage.slack < bound

theorem settles_reject (p : Parse) (v : Violation) (offset bound : Nat) :
    p.Settles (p.reject v offset) bound := .inl rfl

theorem settles_takeMethod (p : Parse) (t : Token) : p.Settles (p.takeMethod t) 1 := by
  unfold takeMethod
  split
  · exact settles_reject ..
  · simp only
    split
    · exact settles_reject ..
    · exact .inr ⟨rfl, Nat.one_pos⟩

theorem settles_takeTarget (p : Parse) (t : Token) : p.Settles (p.takeTarget t) 1 := by
  unfold takeTarget
  split
  · exact settles_reject ..
  · exact .inr ⟨rfl, Nat.one_pos⟩

theorem settles_takeVersion (p : Parse) (t : Token) : p.Settles (p.takeVersion t) 1 := by
  unfold takeVersion
  split
  · exact settles_reject ..
  · exact .inr ⟨rfl, Nat.one_pos⟩

theorem settles_takeFieldName (p : Parse) (t : Token) : p.Settles (p.takeFieldName t) 3 := by
  unfold takeFieldName
  split
  · exact settles_reject ..
  · exact .inr ⟨rfl, Nat.lt_succ_self 2⟩

theorem settles_takeField (p : Parse) (name value : Token) :
    p.Settles (p.takeField name value) 1 := by
  unfold takeField
  split
  · exact settles_reject ..
  · simp only
    split
    · exact settles_reject ..
    · exact .inr ⟨rfl, Nat.one_pos⟩

theorem Settles.mono {p q : Parse} {m n : Nat} (h : p.Settles q m) (hmn : m ≤ n) :
    p.Settles q n :=
  h.imp_right fun ⟨hc, hs⟩ => ⟨hc, Nat.lt_of_lt_of_le hs hmn⟩

/-- A token that does not end the parse costs more than the slack that it brings. -/
theorem settles_take (p : Parse) (t : Token) :
    p.Settles (p.take t) (p.stage.slack + t.kind.cost) := by
  unfold take
  split <;> rename_i hs hk
  · exact settles_reject ..
  · exact (settles_takeMethod p t).mono (by simp [hs, hk, Stage.slack, TokenKind.cost])
  · exact (settles_takeTarget p t).mono (by simp [hs, hk, Stage.slack, TokenKind.cost])
  · exact (settles_takeVersion p t).mono (by simp [hs, hk, Stage.slack, TokenKind.cost])
  · exact .inr ⟨rfl, by simp [hs, hk, Stage.slack, TokenKind.cost]⟩
  · exact (settles_takeFieldName p t).mono (by simp [hs, hk, Stage.slack, TokenKind.cost])
  · exact (settles_takeFieldName p t).mono (by simp [hs, hk, Stage.slack, TokenKind.cost])
  · exact .inr ⟨rfl, by simp [hs, hk, Stage.slack, TokenKind.cost]⟩
  · exact .inr ⟨rfl, by simp [hs, hk, Stage.slack, TokenKind.cost]⟩
  · exact (settles_takeField p _ t).mono (by simp [hs, hk, Stage.slack, TokenKind.cost])
  · exact .inr ⟨rfl, by simp [hs, hk, Stage.slack, TokenKind.cost]⟩
  · unfold close
    split
    · exact settles_reject ..
    · exact .inl rfl
  · exact settles_reject ..
  · exact settles_reject ..

theorem weight_step (p : Parse) (hp : p.stage.isFinal = false) :
    p.step.stage.isFinal = true ∨ p.step.weight < p.weight := by
  unfold step
  split <;> rename_i hs
  · simp [hs, Stage.isFinal] at hp
  · simp [hs, Stage.isFinal] at hp
  · exact .inr (by simp [weight, hs, Stage.slack])
  · have hcost := Cursor.spends_next p.cursor
    refine (settles_take { p with cursor := p.cursor.next.2 } p.cursor.next.1).imp_right ?_
    intro ⟨hc, hlt⟩
    simp only [weight, Cursor.Spends, hc] at hcost hlt ⊢
    omega

theorem isFinal_advance (n : Nat) (p : Parse) (h : p.weight < n) :
    (p.advance n).stage.isFinal = true := by
  induction n generalizing p with
  | zero => exact absurd h (Nat.not_lt_zero _)
  | succ n ih =>
    unfold advance
    split
    · assumption
    · rename_i hp
      rcases weight_step p (by simpa using hp) with hs | hs
      · cases n with
        | zero => exact hs
        | succ n => rw [advance, if_pos hs]; exact hs
      · exact ih _ (by omega)

theorem isFinal_run (p : Parse) : p.run.stage.isFinal = true := by
  apply isFinal_advance
  have : p.stage.slack ≤ 2 := by cases p.stage <;> simp [Stage.slack]
  simp only [weight, fuel]
  omega

end Parse

end HttpHead
