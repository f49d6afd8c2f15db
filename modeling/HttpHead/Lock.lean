/-! Values that are reached only while their lock is held. One lock is a plain flag
for a single thread, where a second acquisition is a mistake; the other is a
mutex, where it has to wait. -/
namespace HttpHead

inductive LockKind where
  | noop
  | mutex
  deriving DecidableEq

structure Guarded (α : Type) where
  kind : LockKind
  held : Bool := false
  value : α
  deriving DecidableEq

inductive Acquisition where
  | granted
  /-- The caller holds the lock already. -/
  | refused
  /-- The caller waits until the lock is released. -/
  | blocked
  deriving DecidableEq

namespace Guarded

variable {α : Type}

def reentryText : String := "NoopLock acquired while already held"

def lock (g : Guarded α) : Acquisition × Guarded α :=
  match g.held, g.kind with
  | false, _ => (.granted, { g with held := true })
  | true, .noop => (.refused, { g with held := true })
  | true, .mutex => (.blocked, g)

def tryLock (g : Guarded α) : Bool × Guarded α := (!g.held, { g with held := true })

def unlock (g : Guarded α) : Guarded α := { g with held := false }

/-- Changes the value under the lock; the result is none where the lock is held. -/
def modify? (g : Guarded α) (f : α → α) : Option (Guarded α) :=
  match g.lock with
  | (.granted, g) => some { g with value := f g.value }.unlock
  | _ => none

end Guarded

end HttpHead
