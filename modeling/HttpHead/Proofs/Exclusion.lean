import HttpHead.Lock.Script

/-! Scripts on a guarded list. Whatever a script does, it has one guard at most, and the lock is
held exactly while it has one (`after_standing`). The two locks differ in one thing only: what
becomes of an acquisition by the one who holds the lock already (`answers_standing`,
`answers_unrefused`). -/
namespace HttpHead.Lock

def Response.grants : Response → Bool
  | acquisition outcome => outcome == .granted
  | tried acquired => acquired
  | _ => false

namespace Op

def acquires : Op → Bool
  | lock | tryLock => true
  | _ => false

def releases : Op → Bool
  | unlock | drop => true
  | _ => false

def payload : Op → List Int
  | push n => [n]
  | _ => []

def answer (kind : LockKind) (held : Bool) (list : List Int) : Op → Response
  | lock =>
    .acquisition (match held, kind with
      | false, _ => .granted
      | true, .noop => .refused
      | true, .mutex => .blocked)
  | tryLock => .tried (!held)
  | unlock => .unlocked held
  | drop => .dropped held
  | push _ => .pushed (if held then some (list.length + 1) else none)
  | values => .values (if held then some list else none)

variable {kind : LockKind} {held : Bool} {list : List Int} {op : Op}

theorem grants_answer_iff (h : op.acquires) :
    (op.answer kind held list).grants ↔ held = false := by
  cases op with
  | lock => cases held <;> cases kind <;> simp [answer, Response.grants]
  | tryLock => simp [answer, Response.grants]
  | _ => cases h

theorem answer_eq_refused_iff :
    op.answer kind held list = .acquisition .refused ↔ op = .lock ∧ kind = .noop ∧ held := by
  cases op with
  | lock => cases held <;> cases kind <;> simp [answer]
  | _ => simp [answer]

theorem answer_noop_eq (h : ¬(op = .lock ∧ held)) :
    op.answer .noop held list = op.answer .mutex held list := by
  cases op with
  | lock =>
    cases held with
    | false => rfl
    | true => exact absurd ⟨rfl, rfl⟩ h
  | _ => rfl

end Op

namespace Holder

def start (kind : LockKind) (list : List Int) : Holder := { guarded := { kind, value := list } }

def after (holder : Holder) (script : List Op) : Holder :=
  script.foldl (fun holder op => (holder.step op).2) holder

def answers (holder : Holder) : List Op → List Response
  | [] => []
  | op :: script => (holder.step op).1 :: (holder.step op).2.answers script

/-- Whether a step acquires a mutex that is held, so that it never ends. -/
def waits (holder : Holder) (op : Op) : Bool :=
  op == .lock && holder.guarded.kind == .mutex && holder.guarded.held

def goesThrough (holder : Holder) : List Op → Bool
  | [] => true
  | op :: script => !holder.waits op && (holder.step op).2.goesThrough script

def pushes (holder : Holder) : List Op → List Int
  | [] => []
  | op :: script =>
    (if holder.guards = 0 then [] else op.payload) ++ (holder.step op).2.pushes script

/-- A script without the acquisitions that are refused. -/
def unrefused (holder : Holder) : List Op → List Op
  | [] => []
  | op :: script =>
    if (holder.step op).1 = .acquisition .refused then (holder.step op).2.unrefused script
    else op :: (holder.step op).2.unrefused script

/-- A holder that has a guard exactly while its lock is held, and one only. -/
def standing (kind : LockKind) (held : Bool) (list : List Int) : Holder :=
  ⟨⟨kind, held, list⟩, held.toNat⟩

variable {kind : LockKind} {held : Bool} {list : List Int} {script : List Op} {op : Op}

theorem after_cons (holder : Holder) (op : Op) (script : List Op) :
    holder.after (op :: script) = (holder.step op).2.after script := List.foldl_cons ..

theorem goesThrough_append (holder : Holder) (done script : List Op) :
    holder.goesThrough (done ++ script) =
      (holder.goesThrough done && (holder.after done).goesThrough script) := by
  induction done generalizing holder with
  | nil => rfl
  | cons op done ih => simp only [List.cons_append, goesThrough, ih, after_cons, Bool.and_assoc]

theorem waits_eq_false {holder : Holder} {done : List Op} (h : holder.goesThrough script)
    (hop : done ++ [op] <+: script) : (holder.after done).waits op = false := by
  obtain ⟨rest, rfl⟩ := hop
  rw [goesThrough_append, goesThrough_append] at h
  simp only [goesThrough, Bool.and_eq_true, Bool.not_eq_true', and_true] at h
  exact h.1.2

/-- Behind a step there is a guard if it asked for one, or if there was one that it did not give
back; and the list is longer by what was pushed through it. -/
theorem step_standing (kind : LockKind) (held : Bool) (list : List Int) (op : Op) :
    (standing kind held list).step op =
      (op.answer kind held list, standing kind (op.acquires || held && !op.releases)
        (list ++ if held then op.payload else [])) := by
  cases held with
  | false =>
    cases op
    all_goals
      simp [step, standing, gain, release, Guarded.lock, Guarded.tryLock, Op.answer, Op.acquires,
        Op.releases]
  | true =>
    cases kind
    all_goals
      cases op
      all_goals
        simp [step, standing, gain, release, Guarded.lock, Guarded.tryLock, Guarded.unlock,
          Op.answer, Op.acquires, Op.releases, Op.payload]

theorem step_of_acquires (h : op.acquires) :
    ((standing kind held list).step op).2 = standing kind true list := by
  cases op with
  | lock | tryLock => simp [step_standing, Op.acquires, Op.payload]
  | _ => cases h

theorem step_of_releases (h : op.releases) :
    ((standing kind held list).step op).2 = standing kind false list := by
  cases op with
  | unlock | drop => simp [step_standing, Op.acquires, Op.releases, Op.payload]
  | _ => cases h

theorem waits_standing_iff :
    (standing kind held list).waits op ↔ op = .lock ∧ kind = .mutex ∧ held := by
  simp [waits, standing, and_assoc]

theorem acquire_standing (h : op.acquires) :
    let holder := standing kind held list
    let answer := (holder.step op).1
    let next := (holder.step op).2
    (answer.grants ↔ holder.guards = 0) ∧ next.guards = 1 ∧
      (answer.grants = false → next = holder) := by
  intro holder answer next
  have hnext : next = standing kind true list := step_of_acquires h
  have hgrants : answer.grants ↔ held = false := by
    rw [show answer = op.answer kind held list from congrArg Prod.fst (step_standing ..),
      Op.grants_answer_iff h]
  refine ⟨hgrants.trans Bool.toNat_eq_zero.symm, congrArg guards hnext, ?_⟩
  intro hrefused
  have hheld : held := by rwa [← Bool.not_eq_true, hgrants, Bool.not_eq_false] at hrefused
  rw [hnext, show holder = standing kind true list from congrArg (standing kind · list) hheld]

theorem lock_standing (hends : (standing kind held list).waits .lock = false) (hheld : held) :
    kind = .noop ∧ ((standing kind held list).step .lock).1 = .acquisition .refused := by
  have hkind : kind = .noop := by
    cases kind with
    | noop => rfl
    | mutex => exact absurd (waits_standing_iff.2 ⟨rfl, rfl, hheld⟩) (by rw [hends]; decide)
  refine ⟨hkind, ?_⟩
  rw [step_standing, Op.answer_eq_refused_iff]
  exact ⟨rfl, hkind, hheld⟩

theorem goesThrough_noop (held : Bool) (list : List Int) (script : List Op) :
    (standing .noop held list).goesThrough script := by
  induction script generalizing held list with
  | nil => rfl
  | cons op script ih =>
    have hends : (standing .noop held list).waits op = false := by
      rw [← Bool.not_eq_true, waits_standing_iff]
      simp
    rw [goesThrough, hends, step_standing]
    exact ih _ _

theorem after_standing (kind : LockKind) (held : Bool) (list : List Int) (script : List Op) :
    ∃ held', (standing kind held list).after script =
      standing kind held' (list ++ (standing kind held list).pushes script) := by
  induction script generalizing held list with
  | nil => exact ⟨held, by rw [pushes, List.append_nil]; rfl⟩
  | cons op script ih =>
    have hpayload : (if (standing kind held list).guards = 0 then [] else op.payload) =
        if held then op.payload else [] := by
      cases held <;> rfl
    rw [after_cons, pushes, hpayload, step_standing, ← List.append_assoc]
    exact ih _ _

theorem answers_standing (h : (standing .mutex held list).goesThrough script) :
    (standing .noop held list).answers script = (standing .mutex held list).answers script := by
  induction script generalizing held list with
  | nil => rfl
  | cons op script ih =>
    simp only [goesThrough, Bool.and_eq_true, Bool.not_eq_true', step_standing] at h
    obtain ⟨hop, hscript⟩ := h
    have hheld : ¬(op = .lock ∧ held) := by
      rintro ⟨rfl, rfl⟩
      cases hop
    simp only [answers, step_standing, Op.answer_noop_eq hheld, ih hscript]

theorem answers_unrefused (held : Bool) (list : List Int) (script : List Op) :
    let calm := (standing .noop held list).unrefused script
    (standing .mutex held list).goesThrough calm ∧
      (standing .mutex held list).answers calm =
        ((standing .noop held list).answers script).filter (· ≠ .acquisition .refused) ∧
      ∃ held' list', (standing .noop held list).after script = standing .noop held' list' ∧
        (standing .mutex held list).after calm = standing .mutex held' list' := by
  induction script generalizing held list with
  | nil => exact ⟨rfl, rfl, held, list, rfl, rfl⟩
  | cons op script ih =>
    simp only [unrefused, answers, after_cons, step_standing, Op.answer_eq_refused_iff, true_and]
    by_cases hagain : op = .lock ∧ held
    · -- The step is left out, and it changes nothing.
      obtain ⟨rfl, rfl⟩ := hagain
      have hlist : (list ++ if true then Op.lock.payload else []) = list := List.append_nil list
      rw [hlist, if_pos ⟨rfl, rfl⟩]
      exact ih true list
    · have hkept : op.answer .noop held list ≠ .acquisition .refused := by
        intro h
        exact hagain ⟨(Op.answer_eq_refused_iff.1 h).1, (Op.answer_eq_refused_iff.1 h).2.2⟩
      have hends : (standing .mutex held list).waits op = false := by
        rw [← Bool.not_eq_true, waits_standing_iff]
        exact fun h => hagain ⟨h.1, h.2.2⟩
      obtain ⟨hthrough, hanswers, held', list', hnoop, hmutex⟩ :=
        ih (op.acquires || held && !op.releases) (list ++ if held then op.payload else [])
      rw [if_neg hagain]
      refine ⟨?_, ?_, held', list', hnoop, ?_⟩
      · rw [goesThrough, hends, step_standing]
        exact hthrough
      · rw [List.filter_cons_of_pos (by simpa using hkept), ← hanswers, Op.answer_noop_eq hagain,
          answers, step_standing]
      · rw [after_cons, step_standing, hmutex]

/-- At every moment of a script that goes through, there is one guard at most, and the lock is held
exactly while there is one; the list is what it was at first and what was pushed since. A guard is
given exactly if there is none, and an acquisition that gets none changes nothing. The locks answer
alike, but for the acquisitions that the flag refuses. -/
theorem guards_exclusive (list : List Int) (script : List Op) :
    (start .noop list).goesThrough script ∧
    (∀ kind, (start kind list).goesThrough script → ∀ done, done <+: script →
      let holder := (start kind list).after done
      holder.guards ≤ 1 ∧ (holder.guarded.held ↔ holder.guards = 1) ∧
        holder.guarded.value = list ++ (start kind list).pushes done ∧
        ∀ op, done ++ [op] <+: script →
          let answer := (holder.step op).1
          let next := (holder.step op).2
          (op.acquires →
            (answer.grants ↔ holder.guards = 0) ∧ next.guards = 1 ∧
              (answer.grants = false → next = holder)) ∧
          (op = .lock → holder.guards = 1 → kind = .noop ∧ answer = .acquisition .refused) ∧
          (op.releases → next = ⟨{ holder.guarded with held := false }, 0⟩)) ∧
    ((start .mutex list).goesThrough script →
      (start .noop list).answers script = (start .mutex list).answers script) ∧
    let calm := (start .noop list).unrefused script
    (start .mutex list).goesThrough calm ∧
      (start .mutex list).answers calm =
        ((start .noop list).answers script).filter (· ≠ .acquisition .refused) ∧
      ((start .mutex list).after calm).guards = ((start .noop list).after script).guards ∧
      ((start .mutex list).after calm).guarded.value =
        ((start .noop list).after script).guarded.value := by
  refine ⟨goesThrough_noop false list script, ?_, answers_standing, ?_⟩
  · intro kind hthrough done hdone holder
    -- At any moment the holder stands with its lock held or with its lock free.
    obtain ⟨held, hafter⟩ := after_standing kind false list done
    have hholder : holder = standing kind held (list ++ (start kind list).pushes done) := hafter
    generalize list ++ (start kind list).pushes done = values at hholder
    have hends (op : Op) (hop : done ++ [op] <+: script) :
        (standing kind held values).waits op = false := by
      rw [← hholder]
      exact waits_eq_false hthrough hop
    rw [hholder]
    refine ⟨Bool.toNat_le held, Bool.toNat_eq_one.symm, rfl, fun op hop => ⟨?_, ?_, ?_⟩⟩
    · exact acquire_standing
    · rintro rfl hguards
      exact lock_standing (hends .lock hop) (Bool.toNat_eq_one.1 hguards)
    · exact step_of_releases
  · obtain ⟨hthrough, hanswers, held, values, hnoop, hmutex⟩ := answers_unrefused false list script
    exact ⟨hthrough, hanswers, (congrArg guards hmutex).trans (congrArg guards hnoop).symm,
      (congrArg (·.guarded.value) hmutex).trans (congrArg (·.guarded.value) hnoop).symm⟩

/-- The flag refuses a second acquisition in either way, and goes on as if it had not been asked. -/
theorem guards_exclusive_again :
    let script : List Op :=
      [.push 7, .lock, .push 1, .lock, .tryLock, .push 2, .unlock, .push 3, .tryLock, .values]
    let calm : List Op :=
      [.push 7, .lock, .push 1, .tryLock, .push 2, .unlock, .push 3, .tryLock, .values]
    let holder := (start .noop [5]).after (script.take 3)
    script.take 3 ++ [.lock] <+: script ∧ holder.guards = 1 ∧
      (holder.step .lock).1 = .acquisition .refused ∧ (holder.step .lock).2 = holder ∧
      ((start .noop [5]).after script).guarded.value = [5, 1, 2] ∧
      (start .mutex [5]).goesThrough calm ∧
      (start .mutex [5]).answers calm = [.pushed none, .acquisition .granted, .pushed (some 2),
        .tried false, .pushed (some 3), .unlocked true, .pushed none, .tried true,
        .values (some [5, 1, 2])] := by
  intro script calm holder
  have hagain : script.take 3 ++ [.lock] <+: script := List.take_prefix 4 script
  have hguards : holder.guards = 1 := rfl
  obtain ⟨hthrough, hmoments, -, hcalm, hanswers, -⟩ := guards_exclusive [5] script
  obtain ⟨-, -, -, hsteps⟩ := hmoments .noop hthrough (script.take 3) (List.take_prefix 3 script)
  obtain ⟨hacquires, hlock, -⟩ := hsteps .lock hagain
  obtain ⟨-, hrefused⟩ := hlock rfl hguards
  obtain ⟨-, -, hsame⟩ := hacquires rfl
  obtain ⟨-, -, hvalue, -⟩ := hmoments .noop hthrough script (List.prefix_refl script)
  exact ⟨hagain, hguards, hrefused, hsame (by rw [hrefused]; rfl), hvalue, hcalm, hanswers⟩

end Holder

end HttpHead.Lock
