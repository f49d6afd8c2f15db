import HttpHead.Proofs.Tally
import HttpHead.Tally.Threads
import Mathlib.Data.List.Perm.Lattice

/-! Threads that record outcomes at the same time. Whatever the order of their turns, one of them at
most is between acquiring the lock and releasing it, and what is counted together with what is still
to be counted stays the same (`sound_turn`). So nothing is lost, and no thread waits for ever
(`exists_isDone`). -/
namespace HttpHead.Tally

def Phase.isInside : Phase → Bool
  | .outside => false
  | _ => true

namespace Thread

/-- The steps of a thread, and what they make of the shared tally. -/
inductive Steps : Thread → Guarded Tally → Thread → Guarded Tally → Prop where
  | acquire (pending : List (Except Error Unit)) (shared : Guarded Tally)
      (busy : pending ≠ []) (free : shared.held = false) :
      Steps ⟨pending, .outside⟩ shared ⟨pending, .entered⟩ { shared with held := true }
  | load (pending : List (Except Error Unit)) (shared : Guarded Tally) :
      Steps ⟨pending, .entered⟩ shared ⟨pending, .loaded shared.value⟩ shared
  | store (outcome : Except Error Unit) (rest : List (Except Error Unit)) (counts : Tally)
      (shared : Guarded Tally) :
      Steps ⟨outcome :: rest, .loaded counts⟩ shared ⟨rest, .stored⟩
        { shared with value := counts.record outcome }
  | pass (counts : Tally) (shared : Guarded Tally) :
      Steps ⟨[], .loaded counts⟩ shared ⟨[], .stored⟩ shared
  | release (pending : List (Except Error Unit)) (shared : Guarded Tally) :
      Steps ⟨pending, .stored⟩ shared ⟨pending, .outside⟩ shared.unlock

variable {thread next : Thread} {shared shared' : Guarded Tally}

theorem steps_of_step? (h : thread.step? shared = some (next, shared')) :
    thread.Steps shared next shared' := by
  obtain ⟨pending, phase⟩ := thread
  cases phase with
  | outside =>
    cases pending with
    | nil => cases h
    | cons outcome rest =>
      cases hheld : shared.held with
      | false =>
        simp only [step?, Guarded.lock, hheld, Option.some.injEq, Prod.mk.injEq] at h
        obtain ⟨rfl, rfl⟩ := h
        exact .acquire _ shared (List.cons_ne_nil _ _) hheld
      | true => cases hkind : shared.kind <;> simp [step?, Guarded.lock, hheld, hkind] at h
  | entered =>
    cases h
    exact .load pending shared
  | loaded counts =>
    cases pending with
    | nil =>
      cases h
      exact .pass counts shared
    | cons outcome rest =>
      cases h
      exact .store outcome rest counts shared
  | stored =>
    cases h
    exact .release pending shared

theorem isSome_step?_of_isInside (h : thread.phase.isInside) : (thread.step? shared).isSome := by
  obtain ⟨pending, phase⟩ := thread
  cases phase with
  | outside => cases h
  | entered => rfl
  | loaded counts => cases pending <;> rfl
  | stored => rfl

theorem isSome_step?_of_free (h : thread.isDone = false) (hfree : shared.held = false) :
    (thread.step? shared).isSome := by
  by_cases hinside : thread.phase.isInside
  · exact isSome_step?_of_isInside hinside
  obtain ⟨pending, phase⟩ := thread
  cases phase with
  | outside =>
    cases pending with
    | nil => cases h
    | cons outcome rest => simp [step?, Guarded.lock, hfree]
  | _ => exact absurd rfl hinside

/-- What a thread has read of the tally is still there, and it is about to record an outcome. -/
def IsCurrent (value : Tally) (thread : Thread) : Prop :=
  match thread.phase with
  | .entered => thread.pending ≠ []
  | .loaded counts => thread.pending ≠ [] ∧ counts = value
  | _ => True

def work (thread : Thread) : Nat :=
  match thread.phase with
  | .outside => 4 * thread.pending.length
  | .entered => 4 * thread.pending.length - 1
  | .loaded _ => 4 * thread.pending.length - 2
  | .stored => 4 * thread.pending.length + 1

theorem isCurrent_of_not_isInside {value : Tally} (h : ¬thread.phase.isInside) :
    thread.IsCurrent value := by
  obtain ⟨pending, phase⟩ := thread
  cases phase with
  | outside => trivial
  | _ => exact absurd rfl h

theorem work_lt_of_steps (h : thread.Steps shared next shared')
    (hcurrent : thread.IsCurrent shared.value) : next.work < thread.work := by
  cases h with
  | acquire pending shared busy free =>
    have hpos : 0 < pending.length := List.length_pos_iff.2 busy
    simp only [work]
    omega
  | load pending shared =>
    have hpos : 0 < pending.length := List.length_pos_iff.2 hcurrent
    simp only [work]
    omega
  | store outcome rest counts shared =>
    simp only [work, List.length_cons]
    omega
  | pass counts shared => exact absurd rfl hcurrent.1
  | release pending shared =>
    simp only [work]
    omega

end Thread

namespace Threads

variable {all : List (Except Error Unit)} {holder? newHolder? : Option Nat} {s : Threads} {i : Nat}
  {thread next : Thread} {shared' : Guarded Tally}

theorem perm_cons_eraseIdx {threads : List Thread} (h : threads[i]? = some thread) :
    threads.Perm (thread :: threads.eraseIdx i) := by
  obtain ⟨hlt, rfl⟩ := List.getElem?_eq_some_iff.1 h
  exact (List.getElem_cons_eraseIdx_perm hlt).symm

/-- The threads with the one that holds the lock, if any. It is the only one that is inside, and
what it has read is what is there; and what is counted so far will with the outcomes that are
pending be the tally of all. -/
structure Sound (all : List (Except Error Unit)) (holder? : Option Nat) (s : Threads) : Prop where
  held : s.shared.held = holder?.isSome
  lt_length : ∀ i, holder? = some i → i < s.threads.length
  inside : ∀ (i : Nat) (thread : Thread), s.threads[i]? = some thread →
    (thread.phase.isInside ↔ holder? = some i)
  current : ∀ (i : Nat) (thread : Thread), s.threads[i]? = some thread →
    thread.IsCurrent s.shared.value
  tallied : s.shared.value.recordAll (s.threads.flatMap (·.pending)) = Tally.empty.recordAll all

theorem recordAll_pending (tally : Tally) {threads : List Thread}
    (h : threads[i]? = some thread) :
    tally.recordAll (threads.flatMap (·.pending)) =
      (tally.recordAll thread.pending).recordAll ((threads.eraseIdx i).flatMap (·.pending)) := by
  rw [recordAll_perm tally ((perm_cons_eraseIdx h).flatMap_right _), List.flatMap_cons,
    recordAll_append]

theorem Sound.set (h : s.Sound all holder?) (hi : s.threads[i]? = some thread)
    (held : shared'.held = newHolder?.isSome) (inside : next.phase.isInside ↔ newHolder? = some i)
    (others : ∀ j, j ≠ i → (newHolder? = some j ↔ holder? = some j))
    (current : next.IsCurrent shared'.value)
    (value : shared'.value = s.shared.value ∨ holder? = some i)
    (tallied : shared'.value.recordAll next.pending = s.shared.value.recordAll thread.pending) :
    Sound all newHolder? ⟨s.threads.set i next, shared'⟩ := by
  obtain ⟨hlt, -⟩ := List.getElem?_eq_some_iff.1 hi
  have hset : (s.threads.set i next)[i]? = some next := List.getElem?_set_self hlt
  have hother (j : Nat) (hj : j ≠ i) : (s.threads.set i next)[j]? = s.threads[j]? :=
    List.getElem?_set_ne hj.symm
  refine ⟨held, ?_, ?_, ?_, ?_⟩
  · intro j hj
    rw [List.length_set]
    by_cases hji : j = i
    · rwa [hji]
    · exact h.lt_length j ((others j hji).1 hj)
  · intro j t ht
    by_cases hji : j = i
    · subst hji
      cases hset.symm.trans ht
      exact inside
    · rw [others j hji]
      exact h.inside j t ((hother j hji).symm.trans ht)
  · intro j t ht
    by_cases hji : j = i
    · subst hji
      cases hset.symm.trans ht
      exact current
    · have hj := (hother j hji).symm.trans ht
      -- Only a thread that is inside changes the tally, and then the others are outside.
      rcases value with hsame | hholder
      · rw [hsame]
        exact h.current j t hj
      · apply Thread.isCurrent_of_not_isInside
        rw [h.inside j t hj, hholder, Option.some.injEq]
        exact fun heq => hji heq.symm
  · rw [recordAll_pending shared'.value hset, tallied, List.eraseIdx_set_eq,
      ← recordAll_pending s.shared.value hi, h.tallied]

theorem sound_step (h : s.Sound all holder?) (hi : s.threads[i]? = some thread)
    (hsteps : thread.Steps s.shared next shared') :
    ∃ newHolder?, Sound all newHolder? ⟨s.threads.set i next, shared'⟩ := by
  obtain ⟨threads, shared⟩ := s
  have hinside := h.inside i thread hi
  have hcurrent := h.current i thread hi
  cases hsteps with
  | acquire pending shared busy free =>
    have hnone : holder? = none := by
      have hheld := h.held
      rw [free] at hheld
      exact Option.isNone_iff_eq_none.1 (Option.isSome_eq_false_iff.1 hheld.symm)
    refine ⟨some i, h.set hi rfl ?_ ?_ busy (.inl rfl) rfl⟩
    · simp [Phase.isInside]
    · intro j hj
      simp [hnone, hj.symm]
  | load pending shared =>
    have hholder := hinside.1 rfl
    exact ⟨_, h.set hi h.held ⟨fun _ => hholder, fun _ => rfl⟩ (fun _ _ => Iff.rfl)
      ⟨hcurrent, rfl⟩ (.inl rfl) rfl⟩
  | store outcome rest counts shared =>
    have hholder := hinside.1 rfl
    obtain ⟨-, rfl⟩ := hcurrent
    exact ⟨_, h.set hi h.held ⟨fun _ => hholder, fun _ => rfl⟩ (fun _ _ => Iff.rfl) trivial
      (.inr hholder) rfl⟩
  | pass counts shared => exact absurd rfl hcurrent.1
  | release pending shared =>
    have hholder := hinside.1 rfl
    refine ⟨none, h.set hi rfl ?_ ?_ trivial (.inl rfl) rfl⟩
    · simp [Phase.isInside]
    · intro j hj
      simp [hholder, hj.symm]

theorem turn_of_step? (hi : s.threads[i]? = some thread)
    (hstep : thread.step? s.shared = some (next, shared')) :
    s.turn i = ⟨s.threads.set i next, shared'⟩ := by
  simp only [turn, hi, hstep]

theorem sound_turn (h : s.Sound all holder?) (i : Nat) :
    ∃ newHolder?, (s.turn i).Sound all newHolder? := by
  cases hi : s.threads[i]? with
  | none => exact ⟨holder?, by simpa only [turn, hi] using h⟩
  | some thread =>
    cases hstep : thread.step? s.shared with
    | none => exact ⟨holder?, by simpa only [turn, hi, hstep] using h⟩
    | some stepped =>
      rw [turn_of_step? hi hstep]
      exact sound_step h hi (Thread.steps_of_step? hstep)

theorem sound_run (h : s.Sound all holder?) (schedule : List Nat) :
    ∃ newHolder?, (s.run schedule).Sound all newHolder? := by
  induction schedule generalizing s holder? with
  | nil => exact ⟨holder?, h⟩
  | cons i schedule ih =>
    obtain ⟨newHolder?, hturn⟩ := sound_turn h i
    exact ih hturn

theorem sound_start (outcomes : List (List (Except Error Unit))) :
    (start outcomes).Sound outcomes.flatten none := by
  have hthread (i : Nat) (thread : Thread) (h : (start outcomes).threads[i]? = some thread) :
      thread.phase = .outside := by
    obtain ⟨pending, -, rfl⟩ := Option.map_eq_some_iff.1 ((List.getElem?_map ..).symm.trans h)
    rfl
  refine ⟨rfl, nofun, ?_, ?_, ?_⟩
  · intro i thread hi
    simp [hthread i thread hi, Phase.isInside]
  · intro i thread hi
    apply Thread.isCurrent_of_not_isInside
    rw [hthread i thread hi]
    nofun
  · have hpending : (start outcomes).threads.flatMap (·.pending) = outcomes.flatten := by
      rw [start, List.flatMap_map]
      exact List.flatMap_id
    rw [hpending]
    rfl

theorem Sound.exclusive (h : s.Sound all holder?) {i j : Nat} {a b : Thread}
    (hi : s.threads[i]? = some a) (hj : s.threads[j]? = some b) (ha : a.phase.isInside)
    (hb : b.phase.isInside) : i = j :=
  Option.some.inj (((h.inside i a hi).1 ha).symm.trans ((h.inside j b hj).1 hb))

theorem Sound.value_eq (h : s.Sound all holder?) (hdone : s.isDone) :
    s.shared.value = Tally.empty.recordAll all := by
  have hnone : s.threads.flatMap (·.pending) = [] := by
    apply List.flatMap_eq_nil_iff.2
    intro thread hmem
    have hthread : thread.isDone := List.all_eq_true.1 hdone thread hmem
    obtain ⟨pending, phase⟩ := thread
    cases phase with
    | outside =>
      cases pending with
      | nil => rfl
      | cons outcome rest => cases hthread
    | _ => cases hthread
  rw [← h.tallied, hnone]
  rfl

def work (s : Threads) : Nat := (s.threads.map Thread.work).sum

theorem sum_work {threads : List Thread} (h : threads[i]? = some thread) :
    (threads.map Thread.work).sum = thread.work + ((threads.eraseIdx i).map Thread.work).sum := by
  rw [((perm_cons_eraseIdx h).map Thread.work).sum_eq, List.map_cons, List.sum_cons]

/-- As long as not all threads are done, there is one that can take a step: the one that holds the
lock or, where it is free, any that is not done. -/
theorem exists_isSome_step? (h : s.Sound all holder?) (hdone : s.isDone = false) :
    ∃ (i : Nat) (thread : Thread), s.threads[i]? = some thread ∧
      (thread.step? s.shared).isSome := by
  cases hholder : holder? with
  | some i =>
    have hlt : i < s.threads.length := h.lt_length i hholder
    have hi : s.threads[i]? = some s.threads[i] := List.getElem?_eq_getElem hlt
    exact ⟨i, _, hi, Thread.isSome_step?_of_isInside ((h.inside i _ hi).2 hholder)⟩
  | none =>
    obtain ⟨thread, hmem, hthread⟩ := List.all_eq_false.1 hdone
    obtain ⟨i, hi⟩ := List.getElem?_of_mem hmem
    have hfree : s.shared.held = false := by rw [h.held, hholder]; rfl
    exact ⟨i, thread, hi, Thread.isSome_step?_of_free (by simpa using hthread) hfree⟩

theorem exists_isDone (h : s.Sound all holder?) : ∃ schedule, (s.run schedule).isDone := by
  -- Some thread can always take its turn, which leaves less work.
  induction hwork : s.work using Nat.strongRecOn generalizing s holder? with
  | ind n ih =>
    by_cases hdone : s.isDone
    · exact ⟨[], hdone⟩
    · obtain ⟨i, thread, hi, hsome⟩ := exists_isSome_step? h (by simpa using hdone)
      obtain ⟨⟨next, shared'⟩, hstep⟩ := Option.isSome_iff_exists.1 hsome
      have hlt := Thread.work_lt_of_steps (Thread.steps_of_step? hstep) (h.current i thread hi)
      obtain ⟨hlength, -⟩ := List.getElem?_eq_some_iff.1 hi
      have hless : (s.turn i).work < n := by
        rw [← hwork, turn_of_step? hi hstep, work, work, sum_work hi,
          sum_work (List.getElem?_set_self hlength), List.eraseIdx_set_eq]
        exact Nat.add_lt_add_right hlt _
      obtain ⟨newHolder?, hturn⟩ := sound_turn h i
      obtain ⟨schedule, hrun⟩ := ih _ hless hturn rfl
      exact ⟨i :: schedule, hrun⟩

/-- Whatever turns the threads have had, at most one is inside, and they can all be brought to their
ends. Where they are, the tally is that of all outcomes together, in any order, so that it is the
same for all schedules. -/
theorem tally_of_schedule (outcomes : List (List (Except Error Unit))) (schedule : List Nat) :
    let reached := (start outcomes).run schedule
    (∀ (i j : Nat) (a b : Thread), reached.threads[i]? = some a → reached.threads[j]? = some b →
      a.phase.isInside → b.phase.isInside → i = j) ∧
    (reached.isDone → ∀ union, union.Perm outcomes.flatten →
      reached.shared.value = Tally.empty.recordAll union ∧
      (∀ code, reached.shared.value.snapshot.codes code =
        .ofNat (union.countP (Code.ofResult · = code))) ∧
      ∀ violation, reached.shared.value.snapshot.violations violation =
        .ofNat (union.countP (violation? · = some violation))) ∧
    ∃ rest, (reached.run rest).isDone := by
  intro reached
  obtain ⟨holder?, h⟩ := sound_run (sound_start outcomes) schedule
  refine ⟨fun i j a b => h.exclusive, ?_, exists_isDone h⟩
  intro hdone union hunion
  have hvalue : reached.shared.value = Tally.empty.recordAll union := by
    rw [h.value_eq hdone, recordAll_perm Tally.empty hunion]
  refine ⟨hvalue, fun code => ?_, fun violation => ?_⟩
  · rw [hvalue, codes_snapshot, codes_recordAll_empty]
  · rw [hvalue, violations_snapshot, violations_recordAll_empty]

/-- Of two threads that take turns, the second one has to wait for the first one twice. -/
theorem tally_of_schedule_two :
    let outcomes : List (List (Except Error Unit)) :=
      [[.ok ()], [.error (.malformed .emptyTarget 4), .error .exhausted]]
    let union : List (Except Error Unit) :=
      [.error .exhausted, .ok (), .error (.malformed .emptyTarget 4)]
    let schedule : List Nat := [0, 1, 0, 1, 0, 0, 1, 1, 0, 1, 1, 1, 1, 1, 1]
    ((start outcomes).run schedule).isDone ∧ union.Perm outcomes.flatten ∧
      ((start outcomes).run schedule).shared.value = Tally.empty.recordAll union ∧
      ((start outcomes).run schedule).shared.value.snapshot.violations .emptyTarget = 1 := by
  intro outcomes union schedule
  have hdone : ((start outcomes).run schedule).isDone := by decide
  have hunion : union.Perm outcomes.flatten :=
    (List.perm_append_comm : (union.take 1 ++ union.drop 1).Perm (union.drop 1 ++ union.take 1))
  obtain ⟨-, hcounts, -⟩ := tally_of_schedule outcomes schedule
  obtain ⟨hvalue, -, hviolations⟩ := hcounts hdone union hunion
  refine ⟨hdone, hunion, hvalue, ?_⟩
  rw [hviolations]
  decide

end Threads

end HttpHead.Tally
