import Reeact.Fastsync.CondCall

/-!
# fastsync_mutex and fastsync_cond — the calls that never wait

Trylock, unlock, signal and broadcast contain no loop that another thread
could prolong and no sleep: once called, they return after a number of steps
of their own that no scheduling makes larger. So does the way out of
`fastsync_cond_wait`, from the acquisition of the mutex on, however many nodes
there are to release.
-/

namespace Reeact.Sync

open Transition

variable {Thr Mtx Cnd : Type} [DecidableEq Thr] [Fintype Thr] [DecidableEq Mtx]
  [DecidableEq Cnd]

/-- `lock` and `wait`, unless they refuse `NULL` at once. -/
def Call.waits : Call Mtx Cnd → Bool
  | .lock (some _) | .wait (some _) (some _) => true
  | _ => false

/-- From `leave` on: four steps for each node to release, and the return. -/
def leaveLeft (frames : List Cnd) : ℕ := 4 * frames.length + 1

/-- The most steps to the return, if there is such a number. -/
def Pc.left (frames : List Cnd) : Pc Mtx Cnd → Option ℕ
  | .ret _ => some 1
  | .tryFor _ | .unlockWake _ none | .signalWake _ | .broadcastRequeue _
  | .counterStore _ _ => some 2
  | .unlockClear _ none | .signalAdd _ | .broadcastMutex _ | .counterLoad _ => some 3
  | .broadcastAdd _ => some 4
  | .unlockPoll _ none i =>
      if i < FASTSYNC_MUTEX_SPIN_LOCK_LOOPS then some (3 + (FASTSYNC_MUTEX_SPIN_LOCK_LOOPS - i))
      else none
  | .unlockAnd _ none => some (4 + FASTSYNC_MUTEX_SPIN_LOCK_LOOPS)
  | .unlockCas _ none => some (5 + FASTSYNC_MUTEX_SPIN_LOCK_LOOPS)
  | .unlockRead _ none => some (6 + FASTSYNC_MUTEX_SPIN_LOCK_LOOPS)
  | .waitClearChild _ _ => some (1 + leaveLeft frames)
  | .waitRequeue _ _ => some (2 + leaveLeft frames)
  | .waitSeqStore _ _ _ => some (3 + leaveLeft frames)
  | .waitSeqLoad _ _ => some (4 + leaveLeft frames)
  | _ => none

def Thread.left (th : Thread Mtx Cnd) : Option ℕ := th.pc.left th.frames

section

omit [DecidableEq Mtx] [DecidableEq Cnd]

theorem left_leave (th : Thread Mtx Cnd) (m : Mtx) (v : Int) :
    (th.leave m v).left = some (leaveLeft th.frames) := by
  rcases th with ⟨call, pc, fs, held⟩
  cases fs with
  | nil => rfl
  | cons c fs =>
      show some (4 + leaveLeft fs) = some (leaveLeft (c :: fs))
      simp only [leaveLeft, List.length_cons, Option.some.injEq]
      omega

theorem left_pollLoop (m : Mtx) (frames : List Cnd) (i : ℕ) :
    ∃ n, (pollLoop m none i : Pc Mtx Cnd).left frames = some n ∧
      n ≤ 3 + (FASTSYNC_MUTEX_SPIN_LOCK_LOOPS - i) := by
  rw [pollLoop]
  split
  · rename_i hi
    exact ⟨_, if_pos hi, Nat.le_refl _⟩
  · exact ⟨3, rfl, by omega⟩

theorem left_pos {th : Thread Mtx Cnd} {n : ℕ} (hn : th.left = some n) : 0 < n := by
  rw [Thread.left] at hn
  cases hpc : th.pc with
  | unlockPoll m k i =>
      rw [hpc] at hn
      cases k with
      | some k => cases hn
      | none =>
          simp only [Pc.left, Option.ite_none_right_eq_some, Option.some.injEq] at hn
          omega
  | unlockRead m k | unlockCas m k | unlockAnd m k | unlockClear m k | unlockWake m k =>
      rw [hpc] at hn
      cases k with
      | some k => cases hn
      | none =>
          cases hn
          omega
  | _ =>
      rw [hpc] at hn
      cases hn <;> omega

/-- No call that does not wait takes more steps than unlock. -/
theorem left_entry {c : Call Mtx Cnd} (hc : c.waits = false) (frames : List Cnd) :
    ∃ n, c.entry.left frames = some n ∧ n ≤ 6 + FASTSYNC_MUTEX_SPIN_LOCK_LOOPS := by
  have hsmall : ∀ {n : ℕ}, n ≤ 6 → n ≤ 6 + FASTSYNC_MUTEX_SPIN_LOCK_LOOPS := by
    intro n hn
    omega
  cases c with
  | lock m =>
      cases m with
      | none => exact ⟨1, rfl, hsmall (by omega)⟩
      | some m => cases hc
  | trylock m =>
      cases m with
      | none => exact ⟨1, rfl, hsmall (by omega)⟩
      | some m => exact ⟨2, rfl, hsmall (by omega)⟩
  | unlock m =>
      cases m with
      | none => exact ⟨1, rfl, hsmall (by omega)⟩
      | some m => exact ⟨_, rfl, Nat.le_refl _⟩
  | wait c m =>
      cases c with
      | none => exact ⟨1, rfl, hsmall (by omega)⟩
      | some c =>
          cases m with
          | none => exact ⟨1, rfl, hsmall (by omega)⟩
          | some m => cases hc
  | signal c =>
      cases c with
      | none => exact ⟨1, rfl, hsmall (by omega)⟩
      | some c => exact ⟨3, rfl, hsmall (by omega)⟩
  | broadcast c =>
      cases c with
      | none => exact ⟨1, rfl, hsmall (by omega)⟩
      | some c => exact ⟨4, rfl, hsmall (by omega)⟩
  | increment m => exact ⟨3, rfl, hsmall (by omega)⟩

end

/-! ## One step -/

section Step

variable {s s' : State Thr Mtx Cnd} {t : Thr} {es : List (Ev Thr Mtx Cnd)} {pick : Option Thr}

/-- The kernel always finds somebody to wake, or nobody. -/
theorem wakeOne_enabled (s : State Thr Mtx Cnd) (q : Key Mtx Cnd) :
    ∃ pick s', s.wakeOne q pick = some s' := by
  by_cases hq : ∃ u, s.sleepsOn q u = true
  · obtain ⟨u, hu⟩ := hq
    exact ⟨some u, s.wake u, if_pos hu⟩
  · refine ⟨none, s, if_pos fun u => ?_⟩
    by_contra hu
    exact hq ⟨u, by simpa using hu⟩

/-- Nothing has to be waited for. -/
theorem run_enabled {n : ℕ} (hn : (s.thr t).left = some n) :
    ∃ pick s' es, run s t pick = some (s', es) := by
  rw [Thread.left] at hn
  cases hpc : (s.thr t).pc with
  | unlockWake m k =>
      obtain ⟨pick, s₁, h₁⟩ := wakeOne_enabled s (.mutex m)
      exact ⟨pick, _, _, by simp only [run, hpc, h₁, Option.map_some]; rfl⟩
  | signalWake c =>
      obtain ⟨pick, s₁, h₁⟩ := wakeOne_enabled s (.cond c)
      exact ⟨pick, _, _, by simp only [run, hpc, h₁, Option.map_some]; rfl⟩
  | waitRequeue c m =>
      obtain ⟨pick, s₁, h₁⟩ := wakeOne_enabled s (.cond c)
      exact ⟨pick, _, _, by simp only [run, hpc, State.requeue, h₁, Option.map_some]; rfl⟩
  | broadcastRequeue c =>
      cases hm : (s.cond c).mutex with
      | none => exact ⟨none, _, _, by simp only [run, hpc, hm]; rfl⟩
      | some m =>
          obtain ⟨pick, s₁, h₁⟩ := wakeOne_enabled s (.cond c)
          exact ⟨pick, _, _, by simp only [run, hpc, hm, State.requeue, h₁, Option.map_some]; rfl⟩
  | broadcastMutex c =>
      cases hm : (s.cond c).mutex with
      | none => exact ⟨none, _, _, by simp only [run, hpc, hm]; rfl⟩
      | some m => exact ⟨none, _, _, by simp only [run, hpc, hm]; rfl⟩
  | tryFor m | unlockRead m k | unlockCas m k | unlockPoll m k i =>
      refine ⟨none, ?_⟩
      simp only [run, hpc]
      split <;> exact ⟨_, _, rfl⟩
  | unlockAnd m k | unlockClear m k | waitSeqLoad c m | waitSeqStore c m v | waitClearChild c m
  | signalAdd c | broadcastAdd c | counterLoad m | counterStore m v | ret v =>
      simp only [run, hpc]
      exact ⟨none, _, _, rfl⟩
  | _ =>
      rw [hpc] at hn
      cases hn

/-- The way to the return gets shorter with every step on it. -/
theorem run_left {n : ℕ} (hn : (s.thr t).left = some n) (hs : run s t pick = some (s', es)) :
    (∃ v, .ret t (s.thr t).call v ∈ es) ∨
      ((s'.thr t).call = (s.thr t).call ∧ ∃ n', (s'.thr t).left = some n' ∧ n' < n) := by
  -- where the step leaves the thread `th`
  have hto : ∀ {s₁ : State Thr Mtx Cnd} {th : Thread Mtx Cnd} {n' : ℕ},
      s' = s₁.setThr t th → th.call = (s.thr t).call → th.left = some n' → n' < n →
      (s'.thr t).call = (s.thr t).call ∧ ∃ n', (s'.thr t).left = some n' ∧ n' < n := by
    intro s₁ th n' he hcall hleft hlt
    rw [he, setThr_thr]
    exact ⟨hcall, n', hleft, hlt⟩
  rw [Thread.left] at hn
  cases hpc : (s.thr t).pc with
  | ret v =>
      simp only [run, hpc] at hs
      cases hs
      exact .inl ⟨v, List.mem_singleton.mpr rfl⟩
  | tryFor m =>
      rw [hpc] at hn
      cases hn
      simp only [run, hpc] at hs
      right
      split at hs <;> cases hs <;> exact hto rfl rfl rfl (by omega)
  | unlockRead m k =>
      rw [hpc] at hn
      cases k with
      | some k => cases hn
      | none =>
          cases hn
          simp only [run, hpc] at hs
          right
          split at hs <;> cases hs <;> exact hto rfl rfl rfl (by omega)
  | unlockCas m k =>
      rw [hpc] at hn
      cases k with
      | some k => cases hn
      | none =>
          cases hn
          simp only [run, hpc] at hs
          right
          split at hs <;> cases hs <;> exact hto rfl rfl rfl (by omega)
  | unlockAnd m k =>
      rw [hpc] at hn
      cases k with
      | some k => cases hn
      | none =>
          cases hn
          simp only [run, hpc] at hs
          cases hs
          obtain ⟨n', hn', hle⟩ := left_pollLoop m (s.thr t).frames 0
          exact .inr (hto rfl rfl hn' (by omega))
  | unlockPoll m k i =>
      rw [hpc] at hn
      cases k with
      | some k => cases hn
      | none =>
          simp only [Pc.left, Option.ite_none_right_eq_some, Option.some.injEq] at hn
          obtain ⟨hi, rfl⟩ := hn
          simp only [run, hpc] at hs
          right
          split at hs <;> cases hs
          · obtain ⟨n', hn', hle⟩ := left_pollLoop m (s.thr t).frames (i + 1)
            exact hto rfl rfl hn' (by omega)
          · exact hto rfl rfl rfl (by omega)
  | unlockClear m k =>
      rw [hpc] at hn
      cases k with
      | some k => cases hn
      | none =>
          cases hn
          simp only [run, hpc] at hs
          cases hs
          exact .inr (hto rfl rfl rfl (by omega))
  | unlockWake m k =>
      rw [hpc] at hn
      cases k with
      | some k => cases hn
      | none =>
          cases hn
          simp only [run, hpc, Option.map_eq_some_iff] at hs
          obtain ⟨s₁, h₁, hs⟩ := hs
          cases hs
          exact .inr (hto rfl rfl rfl (by omega))
  | signalWake c =>
      rw [hpc] at hn
      cases hn
      simp only [run, hpc, Option.map_eq_some_iff] at hs
      obtain ⟨s₁, h₁, hs⟩ := hs
      cases hs
      have hself := wakeOne_thr_self h₁ (t := t) (by simp [hpc])
      exact .inr (hto rfl (by rw [hself]; rfl) rfl (by omega))
  | broadcastMutex c =>
      rw [hpc] at hn
      cases hn
      simp only [run, hpc] at hs
      right
      split at hs <;> cases hs <;> exact hto rfl rfl rfl (by omega)
  | broadcastRequeue c =>
      rw [hpc] at hn
      cases hn
      simp only [run, hpc] at hs
      right
      split at hs
      · simp only [Option.map_eq_some_iff] at hs
        obtain ⟨s₁, h₁, hs⟩ := hs
        cases hs
        have hself := requeue_thr_self h₁ (t := t) (by simp [hpc])
        exact hto rfl (by rw [hself]; rfl) rfl (by omega)
      · cases hs
        exact hto rfl rfl rfl (by omega)
  | waitRequeue c m =>
      rw [hpc] at hn
      cases hn
      simp only [run, hpc, Option.map_eq_some_iff] at hs
      obtain ⟨s₁, h₁, hs⟩ := hs
      cases hs
      have hself := requeue_thr_self h₁ (t := t) (by simp [hpc])
      exact .inr (hto rfl (by rw [hself]; rfl) (by rw [hself]; rfl)
        (Nat.add_lt_add_right (by omega) (leaveLeft (s.thr t).frames)))
  | waitClearChild c m =>
      rw [hpc] at hn
      cases hn
      simp only [run, hpc] at hs
      cases hs
      exact .inr (hto rfl (call_leave _ m 0) (left_leave _ m 0) (by omega))
  | waitSeqLoad c m | waitSeqStore c m v =>
      rw [hpc] at hn
      cases hn
      simp only [run, hpc] at hs
      cases hs
      exact .inr (hto rfl rfl rfl
        (Nat.add_lt_add_right (by omega) (leaveLeft (s.thr t).frames)))
  | signalAdd c | broadcastAdd c | counterLoad m | counterStore m v =>
      rw [hpc] at hn
      cases hn
      simp only [run, hpc] at hs
      cases hs
      exact .inr (hto rfl rfl rfl (by omega))
  | _ =>
      rw [hpc] at hn
      cases hn

omit [DecidableEq Mtx] [DecidableEq Cnd] in
/-- Nobody sleeps on it, -/
theorem left_awake {th : Thread Mtx Cnd} {n : ℕ} (hn : th.left = some n) :
    th.pc ≠ .idle ∧ ∀ q m, th.pc ≠ .asleep q m := by
  constructor
  · intro hpc
    rw [Thread.left, hpc] at hn
    cases hn
  · intro q m hpc
    rw [Thread.left, hpc] at hn
    cases hn

/-- so that nobody else's step matters. -/
theorem step_left {a : Act Thr Mtx Cnd} {n : ℕ} (hl : Local s) (hn : (s.thr t).left = some n)
    (ha : a.runs t = false) (hs : step s a = some (s', es)) : s'.thr t = s.thr t := by
  obtain ⟨hidle, hawake⟩ := left_awake hn
  have hm := step_moved hl hs ha hidle
  generalize s'.thr t = th at hm ⊢
  cases hm with
  | same => rfl
  | woken hpc => exact absurd hpc (hawake _ _)
  | requeued hpc _ => exact absurd hpc (hawake _ _)

end Step

/-! ## Whole schedules -/

/-- On the way to the return from its call `c`. -/
def Returning (t : Thr) (c : Call Mtx Cnd) (s : State Thr Mtx Cnd) : Prop :=
  Local s ∧ (s.thr t).call = some c ∧ (s.thr t).left.isSome

/-- Any schedule brings it there, or has not given it its steps yet. -/
theorem returning_exec {t : Thr} {c : Call Mtx Cnd} {as : List (Act Thr Mtx Cnd)}
    {s s' : State Thr Mtx Cnd} {tr : List (Ev Thr Mtx Cnd)} (h : Returning t c s)
    (he : exec step s as = some (s', tr)) :
    (∃ e ∈ tr, ∃ v, e = .ret t (some c) v) ∨
      (Returning t c s' ∧
        ((s'.thr t).left.getD 0) + as.countP (Act.runs t) ≤ (s.thr t).left.getD 0) := by
  refine exec_countdown (Returning t c) (fun s => (s.thr t).left.getD 0) (Act.runs t) ?_ ?_ he h
  · intro s a s' es ⟨hl, hcall, hsome⟩ ha hs
    obtain ⟨n, hn⟩ := Option.isSome_iff_exists.mp hsome
    cases a with
    | call u d => cases ha
    | spurious u => cases ha
    | run u pick =>
        obtain rfl : u = t := by simpa [Act.runs] using ha
        rcases run_left hn hs with ⟨v, hv⟩ | ⟨hcall', n', hn', hlt⟩
        · rw [hcall] at hv
          exact .inl ⟨_, hv, v, rfl⟩
        · refine .inr ⟨⟨hl.step hs, hcall'.trans hcall, by rw [hn']; rfl⟩, ?_⟩
          simpa only [hn, hn', Option.getD_some] using hlt
  · intro s a s' es ⟨hl, hcall, hsome⟩ ha hs
    obtain ⟨n, hn⟩ := Option.isSome_iff_exists.mp hsome
    have hsame := step_left hl hn ha hs
    refine ⟨⟨hl.step hs, ?_, ?_⟩, ?_⟩ <;> simp only [hsame]
    · exact hcall
    · exact hsome

/-- **Trylock, unlock, signal and broadcast do not wait.** Whatever the other
threads do after any of these calls (or after one that refuses `NULL`): the
caller has returned, or it has taken fewer than seven steps and can take its
next one at once. -/
theorem brief_calls_return (mem : Mtx → FastsyncMutex) (cond : Cnd → FastsyncCond Mtx Cnd)
    {tr₀ : List (Ev Thr Mtx Cnd)} {s₀ s₁ s₂ : State Thr Mtx Cnd} (h : Runs mem cond tr₀ s₀)
    {t : Thr} {c : Call Mtx Cnd} (hc : c.waits = false) {es tr : List (Ev Thr Mtx Cnd)}
    (hcall : step s₀ (.call t c) = some (s₁, es)) {as : List (Act Thr Mtx Cnd)}
    (he : exec step s₁ as = some (s₂, tr)) :
    (∃ v, .ret t (some c) v ∈ tr) ∨
      (as.countP (Act.runs t) < 6 + FASTSYNC_MUTEX_SPIN_LOCK_LOOPS ∧
        ∃ pick s₃ es', run s₂ t pick = some (s₃, es')) := by
  obtain ⟨-, rfl, -⟩ := step_call hcall
  obtain ⟨n, hn, hle⟩ := left_entry hc (s₀.thr t).frames
  have hleft : (((s₀.setThr t { s₀.thr t with pc := c.entry, call := some c }).thr t).left) =
      some n := by
    rw [setThr_thr]
    exact hn
  have hstart : Returning t c (s₀.setThr t { s₀.thr t with pc := c.entry, call := some c }) := by
    refine ⟨h.local.step hcall, ?_, by rw [hleft]; rfl⟩
    rw [setThr_thr]
  rcases returning_exec hstart he with ⟨e, hmem, v, rfl⟩ | ⟨⟨-, -, hsome⟩, hrank⟩
  · exact .inl ⟨v, hmem⟩
  · obtain ⟨n', hn'⟩ := Option.isSome_iff_exists.mp hsome
    rw [hleft, hn', Option.getD_some, Option.getD_some] at hrank
    have hpos := left_pos hn'
    exact .inr ⟨by omega, run_enabled hn'⟩

/-- Thread 0 unlocks the mutex thread 1 sleeps on, which wakes by itself
meanwhile. -/
def unlockSchedule : List (Act (Fin 2) Unit Unit) :=
  [.run 0 none, .spurious 1, .run 0 none, .run 1 none, .run 0 none]

theorem brief_calls_return_unlock : ∃ (s₂ : State (Fin 2) Unit Unit)
    (tr : List (Ev (Fin 2) Unit Unit)),
    (∃ v, .ret 0 (some (.unlock (some ()))) v ∈ tr) ∨
      (unlockSchedule.countP (Act.runs 0) < 6 + FASTSYNC_MUTEX_SPIN_LOCK_LOOPS ∧
        ∃ pick s₃ es', run s₂ 0 pick = some (s₃, es')) := by
  have hout : (exec step (State.init oneMutex oneCond : State (Fin 2) Unit Unit)
      sleeperSchedule).map (fun r => (step r.1 (.call 0 (.unlock (some ())))).bind (fun r₁ =>
        (exec step r₁.1 unlockSchedule).map (fun r₂ => r₂.2.length))) = some (some 2) := rfl
  obtain ⟨s₀, tr₀, hr, hv⟩ := run_of_outcome _ _ hout
  simp only [Option.bind_eq_some_iff, Option.map_eq_some_iff, Prod.exists] at hv
  obtain ⟨s₁, es, h₁, s₂, tr, h₂, -⟩ := hv
  exact ⟨s₂, tr, brief_calls_return oneMutex oneCond hr rfl h₁ h₂⟩

end Reeact.Sync
