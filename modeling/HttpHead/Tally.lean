import HttpHead.Error

/-! Counts of parse outcomes: one for each code, and one for each violation among
the syntax errors. -/
namespace HttpHead

structure Tally where
  codes : Code → Nat
  violations : Violation → Nat

namespace Tally

def empty : Tally := ⟨fun _ => 0, fun _ => 0⟩

def bump {α : Type} [DecidableEq α] (counts : α → Nat) (key : α) : α → Nat :=
  fun k => if k = key then counts k + 1 else counts k

def record {α : Type} (tally : Tally) (result : Except Error α) : Tally where
  codes := bump tally.codes (.ofResult result)
  violations :=
    match result with
    | .error (.malformed violation _) => bump tally.violations violation
    | _ => tally.violations

def total (tally : Tally) : Nat := Code.all.foldr (fun code n => tally.codes code + n) 0

end Tally

/-- The counts at one point in time, in words of 64 bits. -/
structure Snapshot where
  codes : Code → UInt64
  violations : Violation → UInt64

/-- The sum of the counts of all codes, as a word again. -/
def Snapshot.total (snapshot : Snapshot) : UInt64 :=
  Code.all.foldr (fun code n => snapshot.codes code + n) 0

/-- The counts as words. One that does not fit into a word begins again at zero. -/
def Tally.snapshot (tally : Tally) : Snapshot where
  codes code := .ofNat (tally.codes code)
  violations violation := .ofNat (tally.violations violation)

end HttpHead
