import HttpHead.Lock
import HttpHead.Tally

/-! Threads that record outcomes in one tally behind a mutex. Recording takes four
steps: acquire the lock, read the counts, write the new counts, release the lock.
A schedule says whose turn it is; a thread that has to wait, or has nothing left to
do, lets its turn pass. -/
namespace HttpHead.Tally

inductive Phase where
  | outside
  | entered
  | loaded (counts : Tally)
  | stored

/-- A thread, and the outcomes that it has not yet written. -/
structure Thread where
  pending : List (Except Error Unit)
  phase : Phase := .outside

structure Threads where
  threads : List Thread
  shared : Guarded Tally

namespace Thread

def step? (thread : Thread) (shared : Guarded Tally) : Option (Thread × Guarded Tally) :=
  match thread.phase, thread.pending with
  | .outside, [] => none
  | .outside, _ :: _ =>
    match shared.lock with
    | (.granted, shared) => some ({ thread with phase := .entered }, shared)
    | _ => none
  | .entered, _ => some ({ thread with phase := .loaded shared.value }, shared)
  | .loaded counts, outcome :: rest =>
    some (⟨rest, .stored⟩, { shared with value := counts.record outcome })
  | .loaded _, [] => some ({ thread with phase := .stored }, shared)
  | .stored, _ => some ({ thread with phase := .outside }, shared.unlock)

def isDone (thread : Thread) : Bool :=
  match thread.phase, thread.pending with
  | .outside, [] => true
  | _, _ => false

end Thread

namespace Threads

def start (outcomes : List (List (Except Error Unit))) : Threads :=
  ⟨outcomes.map fun pending => { pending }, { kind := .mutex, value := .empty }⟩

def turn (threads : Threads) (i : Nat) : Threads :=
  match threads.threads[i]? with
  | none => threads
  | some thread =>
    match thread.step? threads.shared with
    | none => threads
    | some (thread, shared) => ⟨threads.threads.set i thread, shared⟩

def run (threads : Threads) (schedule : List Nat) : Threads := schedule.foldl turn threads

def isDone (threads : Threads) : Bool := threads.threads.all Thread.isDone

/-- The schedule by which the threads finish one after the other. -/
def oneByOne (threads : Threads) : List Nat :=
  threads.threads.zipIdx.flatMap fun (thread, i) => List.replicate (4 * thread.pending.length) i

end Threads

end HttpHead.Tally
