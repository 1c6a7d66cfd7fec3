import Reeact.Fastsync.MutexLaws

/-!
# fastsync_mutex — the contended mark

Slow lockers and condition waiters write 3, and unlockers clear the two bits
one after the other. The mark is never left behind: the state is 2 only
between an unlocker's two clearings, so once nobody is inside an operation on
a free mutex its state is 0 again (`contended_mark`), and the next lock and
unlock need no futex call.
-/

namespace Reeact.Sync

open Transition

variable {Thr Mtx Cnd : Type} [DecidableEq Thr] [Fintype Thr] [DecidableEq Mtx]
  [DecidableEq Cnd]

/-! ## Positions -/

/-- Inside lock, trylock, unlock or wait on `m`, and not asleep on a
condition. -/
def Pc.Inside (m : Mtx) : Pc Mtx Cnd → Prop
  | .lockFor m' _ | .xchg m' | .mutexWait m' | .asleep (.mutex m') _ | .tryFor m' => m' = m
  | .unlockRead m' _ | .unlockCas m' _ | .unlockAnd m' _ | .unlockPoll m' _ _
  | .unlockClear m' _ | .unlockWake m' _ => m' = m
  | .waitMutex _ m' | .waitNull _ m' | .waitCas _ m' | .waitUseChild _ m'
  | .waitSetChild _ m' _ | .waitSeqLoad _ m' | .waitSeqStore _ m' _ | .waitRequeue _ m'
  | .waitClearChild _ m' | .waitCurSeq _ m' | .waitFutex _ m' _ => m' = m
  | _ => False

/-- At a futex call, or in one. -/
def Pc.Futex : Pc Mtx Cnd → Bool
  | .mutexWait _ | .asleep _ _ | .unlockWake _ _ | .waitRequeue _ _ | .waitFutex _ _ _
  | .signalWake _ | .broadcastRequeue _ => true
  | _ => false

/-- The positions of `t` along a schedule. -/
def positions (t : Thr) : State Thr Mtx Cnd → List (Act Thr Mtx Cnd) → List (Pc Mtx Cnd)
  | _, [] => []
  | s, a :: as =>
      match step s a with
      | some (s', _) => (s'.thr t).pc :: positions t s' as
      | none => []

def lockCall (t : Thr) (m : Mtx) : List (Act Thr Mtx Cnd) :=
  [.call t (.lock (some m)), .run t none, .run t none]

def unlockCall (t : Thr) (m : Mtx) : List (Act Thr Mtx Cnd) :=
  [.call t (.unlock (some m)), .run t none, .run t none, .run t none]

/-- `t` locks and unlocks, with nobody in between. -/
def lockUnlock (t : Thr) (m : Mtx) : List (Act Thr Mtx Cnd) :=
  [.call t (.lock (some m)), .run t none, .run t none, .call t (.unlock (some m)), .run t none,
    .run t none, .run t none]

/-- What `t` goes through where nobody contends: the lock at its first
attempt, the unlock by one compare-and-swap. -/
def uncontended (m : Mtx) : List (Pc Mtx Cnd) :=
  [.lockFor m 0, .ret 0, .idle, .unlockRead m none, .unlockCas m none, .ret 0, .idle]

omit [DecidableEq Mtx] [DecidableEq Cnd] in
theorem uncontended_no_futex (m : Mtx) : ∀ pc ∈ (uncontended m : List (Pc Mtx Cnd)),
    pc.Futex = false := by
  intro pc hpc
  simp only [uncontended, List.mem_cons, List.not_mem_nil, or_false] at hpc
  rcases hpc with rfl | rfl | rfl | rfl | rfl | rfl | rfl <;> rfl

section Mark

variable {m : Mtx} {s s₁ : State Thr Mtx Cnd} {t : Thr}

theorem positions_append {as bs : List (Act Thr Mtx Cnd)} {tr : List (Ev Thr Mtx Cnd)}
    (h : exec step s as = some (s₁, tr)) :
    positions t s (as ++ bs) = positions t s as ++ positions t s₁ bs := by
  induction as generalizing s tr with
  | nil =>
      simp only [exec, Option.some.injEq, Prod.mk.injEq] at h
      obtain ⟨rfl, rfl⟩ := h
      rfl
  | cons a as ih =>
      obtain ⟨s₂, es, es', hs, hr, rfl⟩ := exec_cons.mp h
      simp only [List.cons_append, positions, hs, ih hr]

/-- A lock of a free mutex, at the first attempt. -/
theorem lock_free (hw : (s.mutex m).state = 0) (ht : (s.thr t).pc = .idle) :
    exec step s (lockCall t m) =
        some ((s.setMutex m 1).setThr t { (s.thr t).take m with pc := .idle, call := none },
          [.call t (.lock (some m)), .acquire t m, .ret t (some (.lock (some m))) 0]) ∧
      positions t s (lockCall t m) = [.lockFor m 0, .ret 0, .idle] := by
  let s₁ := s.setThr t { s.thr t with pc := .lockFor m 0, call := some (.lock (some m)) }
  let s₂ := (s.setMutex m 1).setThr t
    { (s.thr t).take m with pc := .ret 0, call := some (.lock (some m)) }
  let s₃ := (s.setMutex m 1).setThr t { (s.thr t).take m with pc := .idle, call := none }
  have h₁ : step s (.call t (.lock (some m))) = some (s₁, [.call t (.lock (some m))]) := by
    simp [step, ht, Call.permitted, Call.entry, lockLoop, FASTSYNC_MUTEX_SPIN_LOCK_LOOPS, s₁]
  have h₂ : step s₁ (.run t none) = some (s₂, [.acquire t m]) := by
    simp [step, run, s₁, s₂, State.setThr, State.setMutex, hw, Thread.take, Thread.goto]
  have h₃ : step s₂ (.run t none) = some (s₃, [.ret t (some (.lock (some m))) 0]) := by
    simp [step, run, s₂, s₃, State.setThr, State.setMutex]
  constructor
  · simp only [lockCall, exec, h₁, h₂, h₃, Option.bind_eq_bind, Option.bind_some, Option.pure_def]
    rfl
  · simp only [lockCall, positions, h₁, h₂, h₃]
    simp only [s₁, s₂, s₃, State.setThr, Function.update_self]

/-- An unlock that meets nobody, by one compare-and-swap. -/
theorem unlock_alone (hw : (s.mutex m).state = 1) (ht : (s.thr t).pc = .idle)
    (hheld : (s.thr t).held m = true) :
    exec step s (unlockCall t m) =
        some ((s.setMutex m 0).setThr t { (s.thr t).drop m with pc := .idle, call := none },
          [.call t (.unlock (some m)), .release t m, .ret t (some (.unlock (some m))) 0]) ∧
      positions t s (unlockCall t m) = [.unlockRead m none, .unlockCas m none, .ret 0, .idle] := by
  let s₁ := s.setThr t { s.thr t with pc := .unlockRead m none, call := some (.unlock (some m)) }
  let s₂ := s.setThr t { s.thr t with pc := .unlockCas m none, call := some (.unlock (some m)) }
  let s₃ := (s.setMutex m 0).setThr t
    { (s.thr t).drop m with pc := .ret 0, call := some (.unlock (some m)) }
  let s₄ := (s.setMutex m 0).setThr t { (s.thr t).drop m with pc := .idle, call := none }
  have h₁ : step s (.call t (.unlock (some m))) = some (s₁, [.call t (.unlock (some m))]) := by
    simp [step, ht, hheld, Call.permitted, Call.entry, s₁]
  have h₂ : step s₁ (.run t none) = some (s₂, []) := by
    simp [step, run, s₁, s₂, State.setThr, State.goto, hw, Thread.goto]
  have h₃ : step s₂ (.run t none) = some (s₃, [.release t m]) := by
    simp [step, run, s₂, s₃, State.setThr, State.setMutex, hw, Thread.drop, Thread.unlocked,
      Thread.goto]
  have h₄ : step s₃ (.run t none) = some (s₄, [.ret t (some (.unlock (some m))) 0]) := by
    simp [step, run, s₃, s₄, State.setThr, State.setMutex]
  constructor
  · simp only [unlockCall, exec, h₁, h₂, h₃, h₄, Option.bind_eq_bind, Option.bind_some,
      Option.pure_def]
    rfl
  · simp only [unlockCall, positions, h₁, h₂, h₃, h₄]
    simp only [s₁, s₂, s₃, s₄, State.setThr, Function.update_self]

theorem positions_lockUnlock (hw : (s.mutex m).state = 0) (ht : (s.thr t).pc = .idle) :
    positions t s (lockUnlock t m) = uncontended m ∧
      ∃ s' tr, exec step s (lockUnlock t m) = some (s', tr) ∧ (s'.mutex m).state = 0 := by
  obtain ⟨hlock, hlockPos⟩ := lock_free hw ht
  obtain ⟨hunlock, hunlockPos⟩ := unlock_alone (t := t) (m := m)
    (s := (s.setMutex m 1).setThr t { (s.thr t).take m with pc := .idle, call := none })
    (by simp [State.setThr, State.setMutex]) (by simp [State.setThr])
    (by simp [State.setThr, Thread.take])
  constructor
  · rw [show lockUnlock t m = lockCall t m ++ unlockCall t m from rfl, positions_append hlock,
      hlockPos, hunlockPos]
    rfl
  · refine ⟨_, _, exec_append hlock hunlock, ?_⟩
    simp [State.setThr, State.setMutex]

omit [DecidableEq Thr] [Fintype Thr] [DecidableEq Cnd] in
/-- An unlocker between its two clearings is inside. -/
theorem inside_of_releasing (h : role m (s.thr t).pc = .releasing) : (s.thr t).pc.Inside m := by
  obtain ⟨k, ⟨i, hpc⟩ | hpc⟩ := role_eq_releasing.mp h
  · rw [hpc]
    exact rfl
  · rw [hpc]
    exact rfl

omit [DecidableEq Thr] [Fintype Thr] [DecidableEq Cnd] in
theorem state_eq_zero (h : FutexLock.Inv (view m s)) (hfree : ∀ t, (s.thr t).held m = false)
    (hout : ∀ t, ¬ (s.thr t).pc.Inside m) : (s.mutex m).state = 0 := by
  have hbit : (view m s).word &&& 1 = 0 := by
    by_contra hlocked
    obtain ⟨t, ht⟩ := h.locked.mp hlocked
    exact absurd (ht.symm.trans (hfree t)) (by decide)
  -- without the lock bit the state is 0 or 2, and 2 needs an unlocker in between
  rcases h.word_free hbit with hw | hw
  · exact hw
  · obtain ⟨u, hu⟩ := h.contended hw
    exact absurd (inside_of_releasing hu) (hout u)

end Mark

/-! ## The law -/

/-- **The contended mark never sticks.** The state is 2 only while an unlocker
has cleared the lock bit and is still to clear the other, or to return. When
nobody holds the mutex or is inside an operation on it, the state is 0, and
whoever comes next locks and unlocks it without a futex call. -/
theorem contended_mark (mem : Mtx → FastsyncMutex) (cond : Cnd → FastsyncCond Mtx Cnd)
    {tr : List (Ev Thr Mtx Cnd)} {s : State Thr Mtx Cnd} (h : Runs mem cond tr s) (m : Mtx) :
    ((s.mutex m).state = 2 → ∃ t k,
      (∃ i, (s.thr t).pc = .unlockPoll m k i) ∨ (s.thr t).pc = .unlockClear m k) ∧
    ((∀ t, (s.thr t).held m = false) → (∀ t, ¬ (s.thr t).pc.Inside m) →
      (s.mutex m).state = 0 ∧
      ∀ t, (s.thr t).pc = .idle →
        positions t s (lockUnlock t m) = uncontended m ∧
        (∀ pc ∈ (uncontended m : List (Pc Mtx Cnd)), pc.Futex = false) ∧
        ∃ s' tr', exec step s (lockUnlock t m) = some (s', tr') ∧ (s'.mutex m).state = 0) := by
  constructor
  · intro hw
    obtain ⟨t, ht⟩ := (h.lock m).contended hw
    obtain ⟨k, hk⟩ := role_eq_releasing.mp ht
    exact ⟨t, k, hk⟩
  · intro hfree hout
    have hw : (s.mutex m).state = 0 := state_eq_zero (h.lock m) hfree hout
    refine ⟨hw, fun t ht => ?_⟩
    obtain ⟨hpos, hrun⟩ := positions_lockUnlock hw ht
    exact ⟨hpos, uncontended_no_futex m, hrun⟩

/-- After thread 1 has gone to sleep, thread 0 unlocks and wakes it; thread 1
takes the mutex and unlocks it too. -/
def releaseSchedule : List (Act (Fin 2) Unit Unit) :=
  sleeperSchedule ++
  [.call 0 (.unlock (some ())), .run 0 none, .run 0 none, .run 0 none, .run 0 none,
    .run 0 (some 1), .run 0 none, .run 1 none, .run 1 none, .call 1 (.unlock (some ())),
    .run 1 none, .run 1 none, .run 1 none, .run 1 none, .run 1 none, .run 1 none]

theorem contended_mark_released : ∃ s : State (Fin 2) Unit Unit,
    ((s.mutex ()).state = 2 → ∃ t k,
      (∃ i, (s.thr t).pc = .unlockPoll () k i) ∨ (s.thr t).pc = .unlockClear () k) ∧
    (s.mutex ()).state = 0 := by
  have hout : (exec step (State.init oneMutex oneCond : State (Fin 2) Unit Unit)
      releaseSchedule).map (fun p => ((p.1.thr 0).pc, (p.1.thr 1).pc, (p.1.thr 0).held (),
        (p.1.thr 1).held ())) = some (.idle, .idle, false, false) := by decide
  obtain ⟨s, tr, hr, hv⟩ := run_of_outcome _ _ hout
  simp only [Prod.mk.injEq] at hv
  obtain ⟨h0, h1, hf0, hf1⟩ := hv
  have hmark := contended_mark oneMutex oneCond hr ()
  refine ⟨s, hmark.1, (hmark.2 (fun t => ?_) (fun t => ?_)).1⟩
  · match t with
    | 0 => exact hf0
    | 1 => exact hf1
  · match t with
    | 0 =>
        rw [h0]
        exact id
    | 1 =>
        rw [h1]
        exact id

end Reeact.Sync
