import HttpHead.Lock

/-! Scripts that acquire and release the lock of a list. The guards a script holds
form a stack, and the list is reached through the uppermost one. -/
namespace HttpHead.Lock

inductive Op where
  | lock
  | tryLock
  | unlock
  | drop
  | push (n : Int)
  | values
  deriving DecidableEq

inductive Response where
  | acquisition (outcome : Acquisition)
  | tried (acquired : Bool)
  | unlocked (guard : Bool)
  | dropped (guard : Bool)
  /-- The length of the list afterwards, or nothing without a guard. -/
  | pushed (length? : Option Nat)
  | values (list? : Option (List Int))
  deriving DecidableEq

/-- A guarded list, and how many guards of it the script holds. -/
structure Holder where
  guarded : Guarded (List Int)
  guards : Nat := 0
  deriving DecidableEq

namespace Holder

def gain (acquired : Bool) (guarded : Guarded (List Int)) (holder : Holder) : Holder :=
  ⟨guarded, if acquired then holder.guards + 1 else holder.guards⟩

def release (holder : Holder) : Holder :=
  if holder.guards = 0 then holder else ⟨holder.guarded.unlock, holder.guards - 1⟩

def step (holder : Holder) : Op → Response × Holder
  | .lock =>
    let (outcome, guarded) := holder.guarded.lock
    (.acquisition outcome, holder.gain (outcome == .granted) guarded)
  | .tryLock =>
    let (acquired, guarded) := holder.guarded.tryLock
    (.tried acquired, holder.gain acquired guarded)
  | .unlock => (.unlocked (holder.guards != 0), holder.release)
  | .drop => (.dropped (holder.guards != 0), holder.release)
  | .push n =>
    if holder.guards = 0 then (.pushed none, holder)
    else
      let list := holder.guarded.value ++ [n]
      (.pushed list.length, { holder with guarded := { holder.guarded with value := list } })
  | .values => (.values (if holder.guards = 0 then none else some holder.guarded.value), holder)

def releaseAll (holder : Holder) : Holder := holder.guards.repeat release holder

end Holder

end HttpHead.Lock
