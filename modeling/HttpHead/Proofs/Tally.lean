import HttpHead.Tally
import Mathlib.Algebra.BigOperators.Group.List.Basic
import Mathlib.Algebra.GroupWithZero.Nat

/-! What is counted of many outcomes. A count is the number of the outcomes of its kind
(`codes_recordAll`, `violations_recordAll`), so the order in which they are recorded does not
matter. -/
namespace HttpHead.Tally

variable {α : Type} {tally : Tally}

def violation? : Except Error α → Option Violation
  | .ok _ => none
  | .error error => error.violation?

def recordAll (tally : Tally) (results : List (Except Error α)) : Tally :=
  results.foldl record tally

@[simp] theorem codes_snapshot (tally : Tally) (code : Code) :
    tally.snapshot.codes code = .ofNat (tally.codes code) := rfl

@[simp] theorem violations_snapshot (tally : Tally) (violation : Violation) :
    tally.snapshot.violations violation = .ofNat (tally.violations violation) := rfl

theorem codes_record (tally : Tally) (result : Except Error α) (code : Code) :
    (tally.record result).codes code =
      tally.codes code + if Code.ofResult result = code then 1 else 0 := by
  by_cases h : Code.ofResult result = code
  · simp [record, bump, h]
  · simp [record, bump, h, Ne.symm h]

theorem violations_record (tally : Tally) (result : Except Error α) (violation : Violation) :
    (tally.record result).violations violation =
      tally.violations violation + if violation? result = some violation then 1 else 0 := by
  cases result with
  | ok value => rfl
  | error error =>
    cases error with
    | malformed broken offset =>
      by_cases h : broken = violation
      · simp [record, bump, violation?, Error.violation?, h]
      · simp [record, bump, violation?, Error.violation?, h, Ne.symm h]
    | exhausted => rfl
    | unreadable fault => rfl

theorem recordAll_append (tally : Tally) (results more : List (Except Error α)) :
    tally.recordAll (results ++ more) = (tally.recordAll results).recordAll more :=
  List.foldl_append

/-- A number that goes up by one with each outcome of a kind counts the outcomes of that kind. -/
theorem counts_recordAll (count : Tally → Nat) (p : Except Error α → Prop) [DecidablePred p]
    (hrecord : ∀ tally result,
      count (record tally result) = count tally + if p result then 1 else 0)
    (tally : Tally) (results : List (Except Error α)) :
    count (tally.recordAll results) = count tally + results.countP p := by
  induction results generalizing tally with
  | nil => rw [recordAll, List.foldl_nil, List.countP_nil, Nat.add_zero]
  | cons result results ih =>
    rw [recordAll, List.foldl_cons, ← recordAll, ih, hrecord, List.countP_cons]
    simp only [decide_eq_true_eq]
    omega

theorem codes_recordAll (tally : Tally) (results : List (Except Error α)) (code : Code) :
    (tally.recordAll results).codes code =
      tally.codes code + results.countP (Code.ofResult · = code) :=
  counts_recordAll (fun tally => tally.codes code) (Code.ofResult · = code)
    (fun tally result => codes_record tally result code) tally results

theorem violations_recordAll (tally : Tally) (results : List (Except Error α))
    (violation : Violation) :
    (tally.recordAll results).violations violation =
      tally.violations violation + results.countP (violation? · = some violation) :=
  counts_recordAll (fun tally => tally.violations violation) (violation? · = some violation)
    (fun tally result => violations_record tally result violation) tally results

theorem codes_recordAll_empty (results : List (Except Error α)) (code : Code) :
    (empty.recordAll results).codes code = results.countP (Code.ofResult · = code) := by
  rw [codes_recordAll, empty, Nat.zero_add]

theorem violations_recordAll_empty (results : List (Except Error α)) (violation : Violation) :
    (empty.recordAll results).violations violation =
      results.countP (violation? · = some violation) := by
  rw [violations_recordAll, empty, Nat.zero_add]

theorem recordAll_perm (tally : Tally) {results others : List (Except Error α)}
    (h : results.Perm others) : tally.recordAll results = tally.recordAll others := by
  have hcodes : (tally.recordAll results).codes = (tally.recordAll others).codes := by
    funext code
    rw [codes_recordAll, codes_recordAll, h.countP_eq]
  have hviolations : (tally.recordAll results).violations =
      (tally.recordAll others).violations := by
    funext violation
    rw [violations_recordAll, violations_recordAll, h.countP_eq]
  calc tally.recordAll results
      = ⟨(tally.recordAll results).codes, (tally.recordAll results).violations⟩ := rfl
    _ = ⟨(tally.recordAll others).codes, (tally.recordAll others).violations⟩ := by
        rw [hcodes, hviolations]

def broken (tally : Tally) : Nat := (Violation.all.map tally.violations).sum

end HttpHead.Tally
