import Reeact.Fastsync.MutexView

/-!
# fastsync_mutex — the laws

For every run: nobody asleep on a mutex is forgotten, at most one thread
holds a mutex, every return of `fastsync_cond_wait` is with the mutex held,
and counting in critical sections loses nothing.
-/

namespace Reeact.Sync

open Transition

variable {Thr Mtx Cnd : Type} [DecidableEq Thr] [Fintype Thr] [DecidableEq Mtx]
  [DecidableEq Cnd]

/-- Every mutex initialised over whatever memory it occupies; the conditions
as the memory `cond` has them; no thread has called anything yet. -/
def State.init (mem : Mtx → FastsyncMutex) (cond : Cnd → FastsyncCond Mtx Cnd) :
    State Thr Mtx Cnd where
  mutex m := fastsyncMutexInit (mem m)
  cond := cond
  counter _ := 0
  thr _ := ⟨none, .idle, [], fun _ => false⟩

/-- All interleavings of the threads' calls. -/
abbrev Runs (mem : Mtx → FastsyncMutex) (cond : Cnd → FastsyncCond Mtx Cnd) :
    List (Ev Thr Mtx Cnd) → State Thr Mtx Cnd → Prop :=
  Run (Does step) (State.init mem cond)

section Invariants

variable {mem : Mtx → FastsyncMutex} {cond : Cnd → FastsyncCond Mtx Cnd}
  {tr : List (Ev Thr Mtx Cnd)} {s : State Thr Mtx Cnd}

theorem Runs.local (h : Runs mem cond tr s) : Local s := by
  have h0 : Local (State.init mem cond : State Thr Mtx Cnd) := by
    intro t
    show ([] : List Cnd) = []
    rfl
  refine Run.invariant (P := fun _ s => Local s) h0 ?_ h
  intro tr s es s' _ hl hs
  obtain ⟨a, ha⟩ := hs
  exact hl.step ha

/-- Each mutex is the lock with a futex queue. -/
theorem Runs.lock (h : Runs mem cond tr s) (m : Mtx) : FutexLock.Inv (view m s) := by
  refine Run.invariant (P := fun _ s => FutexLock.Inv (view m s)) FutexLock.Inv.init ?_ h
  intro tr s es s' hr hi hs
  obtain ⟨a, ha⟩ := hs
  rcases simulates_step (m := m) (Runs.local hr) ha with hs | hs
  · exact hi.step hs
  · rw [hs]
    exact hi

end Invariants

/-! ## Two threads and one mutex -/

/-- A mutex and a condition without parent, over arbitrary memory. -/
def oneMutex : Unit → FastsyncMutex := fun _ => ⟨7⟩

def oneCond : Unit → FastsyncCond Unit Unit := fun _ => ⟨0, none, 0, none⟩

/-- Lets the schedules below call their threads 0 and 1. -/
scoped instance twoThreads : NeZero 2 := ⟨by decide⟩

/-- Thread 0 holds the mutex; thread 1 has marked it contended and sleeps. -/
def sleeperSchedule : List (Act (Fin 2) Unit Unit) :=
  [.call 0 (.lock (some ())), .run 0 none, .run 0 none, .call 1 (.lock (some ())),
    .run 1 none, .run 1 none, .run 1 none]

theorem sleeper_runs : ∃ (s : State (Fin 2) Unit Unit) (tr : List (Ev (Fin 2) Unit Unit)),
    Runs oneMutex oneCond tr s ∧ (s.thr 1).pc = .asleep (.mutex ()) () :=
  run_of_outcome (fun p : State (Fin 2) Unit Unit × List (Ev (Fin 2) Unit Unit) =>
    (p.1.thr 1).pc) sleeperSchedule (by decide)

/-! ## No lost wake-up -/

/-- **No sleeper is forgotten.** In every reachable state in which a thread
sleeps on the word of `m`, the state is 3 and the mutex has a holder, or
another thread owes a step: an unlocker that has left the state at 2 and will
clear the contended bit or see the mutex taken, one that will wake a
sleeper, or an awake thread that will exchange 3 into the state. -/
theorem mutex_no_lost_wakeup (mem : Mtx → FastsyncMutex) (cond : Cnd → FastsyncCond Mtx Cnd)
    {tr : List (Ev Thr Mtx Cnd)} {s : State Thr Mtx Cnd} (h : Runs mem cond tr s) {t : Thr}
    {m m' : Mtx} (ht : (s.thr t).pc = .asleep (.mutex m) m') :
    ((s.mutex m).state = 3 ∧ ∃ u, (s.thr u).held m = true) ∨
    ((s.mutex m).state = 2 ∧ ∃ u, u ≠ t ∧ ∃ k,
      (∃ i, (s.thr u).pc = .unlockPoll m k i) ∨ (s.thr u).pc = .unlockClear m k) ∨
    (∃ u, u ≠ t ∧ ∃ k, (s.thr u).pc = .unlockWake m k) ∨
    ∃ u, u ≠ t ∧ (s.thr u).pc = .xchg m := by
  have hpark : (view m s).role t = .parked := role_eq_parked.mpr ⟨m', ht⟩
  have hne : ∀ u, (s.thr u).pc ≠ .asleep (.mutex m) m' → u ≠ t := by
    intro u hu e
    subst e
    exact hu ht
  rcases (h.lock m).sleeper hpark with hheld | ⟨hw, u, hu⟩ | ⟨u, hu⟩ | ⟨u, hu⟩
  · exact .inl hheld
  · obtain ⟨k, hk⟩ := role_eq_releasing.mp hu
    refine .inr (.inl ⟨hw, u, hne u ?_, k, hk⟩)
    rcases hk with ⟨i, hk⟩ | hk <;> simp [hk]
  · obtain ⟨k, hk⟩ := role_eq_waking.mp hu
    exact .inr (.inr (.inl ⟨u, hne u (by simp [hk]), k, hk⟩))
  · have hk := role_eq_exchanging.mp hu
    exact .inr (.inr (.inr ⟨u, hne u (by simp [hk]), hk⟩))

theorem mutex_no_lost_wakeup_sleeper : ∃ s : State (Fin 2) Unit Unit,
    (s.thr 1).pc = .asleep (.mutex ()) () ∧
    (((s.mutex ()).state = 3 ∧ ∃ u, (s.thr u).held () = true) ∨
    ((s.mutex ()).state = 2 ∧ ∃ u, u ≠ 1 ∧ ∃ k,
      (∃ i, (s.thr u).pc = .unlockPoll () k i) ∨ (s.thr u).pc = .unlockClear () k) ∨
    (∃ u, u ≠ 1 ∧ ∃ k, (s.thr u).pc = .unlockWake () k) ∨
    ∃ u, u ≠ 1 ∧ (s.thr u).pc = .xchg ()) := by
  obtain ⟨s, tr, hr, ht⟩ := sleeper_runs
  exact ⟨s, ht, mutex_no_lost_wakeup oneMutex oneCond hr ht⟩

/-! ## What a step emits -/

/-- Events of `t` that neither end nor count in a critical section, nor tell
of a failed trylock. -/
def Ev.Quiet (t : Thr) : Ev Thr Mtx Cnd → Prop
  | .acquire u _ | .snap u _ | .bump u _ | .futexWait u _ | .ret u _ _ => u = t
  | _ => False

/-- Not about to store a counter, nor to report a busy mutex. -/
def Pc.Quiet : Pc Mtx Cnd → Prop
  | .counterStore _ _ => False
  | .ret v => v ≠ EBUSY
  | _ => True

/-- A step of `t` inside a call, by what it means to holders and counters. -/
inductive Emits (s : State Thr Mtx Cnd) (t : Thr) (s' : State Thr Mtx Cnd) :
    List (Ev Thr Mtx Cnd) → Prop
  | quiet {es : List (Ev Thr Mtx Cnd)} : (∀ e ∈ es, e.Quiet t) → s'.counter = s.counter →
      (∀ m, (s.thr t).held m = true → (s'.thr t).held m = true) → (s'.thr t).pc.Quiet →
      Emits s t s' es
  | busy {m : Mtx} : (s.thr t).pc = .tryFor m → (s.mutex m).state &&& 1 ≠ 0 →
      s' = (s.setMutex m ((s.mutex m).state ||| 1)).goto t (.ret EBUSY) →
      Emits s t s' [.busy t m]
  | release {m : Mtx} : (s.thr t).held m = true → s'.counter = s.counter →
      (s'.thr t).held = ((s.thr t).drop m).held → (s'.thr t).pc.Quiet →
      Emits s t s' [.release t m]
  | load {m : Mtx} : s' = s.goto t (.counterStore m (s.counter m)) → Emits s t s' []
  | increment {m : Mtx} {v : ℕ} : (s.thr t).pc = .counterStore m v →
      s' = (s.setCounter m (v + 1)).goto t (.ret 0) → Emits s t s' [.increment t m]

section

omit [DecidableEq Mtx] [DecidableEq Cnd]

theorem leave_quiet (th : Thread Mtx Cnd) (m : Mtx) {v : Int} (hv : v ≠ EBUSY) :
    (th.leave m v).pc.Quiet := by
  rw [Thread.leave]
  split
  · exact hv
  · exact trivial

theorem unlocked_quiet (th : Thread Mtx Cnd) (m : Mtx) (k : Option (Cnd × BitVec 32)) :
    (th.unlocked m k).pc.Quiet := by
  cases k with
  | none => exact (by decide : (0 : Int) ≠ EBUSY)
  | some k => exact trivial

theorem lockLoop_quiet (m : Mtx) (i : ℕ) : (lockLoop m i : Pc Mtx Cnd).Quiet := by
  rw [lockLoop]
  split <;> exact trivial

theorem pollLoop_quiet (m : Mtx) (k : Option (Cnd × BitVec 32)) (i : ℕ) :
    (pollLoop m k i).Quiet := by
  rw [pollLoop]
  split <;> exact trivial

end

section Emitted

variable {s s' : State Thr Mtx Cnd} {t : Thr} {es : List (Ev Thr Mtx Cnd)}

omit [Fintype Thr] [DecidableEq Cnd] in
theorem Emits.own {s₁ : State Thr Mtx Cnd} {th : Thread Mtx Cnd} (hes : ∀ e ∈ es, e.Quiet t)
    (hc : s₁.counter = s.counter)
    (hh : ∀ m, (s.thr t).held m = true → th.held m = true) (hpc : th.pc.Quiet) :
    Emits s t (s₁.setThr t th) es := by
  have hself : (s₁.setThr t th).thr t = th := Function.update_self ..
  refine .quiet hes hc ?_ ?_
  · rw [hself]
    exact hh
  · rw [hself]
    exact hpc

omit [Fintype Thr] [DecidableEq Cnd] in
theorem Emits.goto {s₁ : State Thr Mtx Cnd} {pc : Pc Mtx Cnd} (hes : ∀ e ∈ es, e.Quiet t)
    (hc : s₁.counter = s.counter) (hself : s₁.thr t = s.thr t) (hpc : pc.Quiet) :
    Emits s t (s₁.goto t pc) es := by
  refine .own hes hc (fun m hm => ?_) hpc
  show (s₁.thr t).held m = true
  rw [hself]
  exact hm

omit [DecidableEq Cnd] in
theorem held_take (th : Thread Mtx Cnd) (m m' : Mtx) (h : th.held m' = true) :
    (th.take m).held m' = true := by
  by_cases hm : m' = m
  · subst hm
    exact Function.update_self ..
  · rw [held_take_ne th (Ne.symm hm)]
    exact h

theorem run_emits {pick : Option Thr} (h : Local s) (hs : run s t pick = some (s', es)) :
    Emits s t s' es := by
  have hok := h t
  rw [ThreadOk] at hok
  have h0 : (0 : Int) ≠ EBUSY := by decide
  cases hpc : (s.thr t).pc with
  | idle => simp [run, hpc] at hs
  | asleep q m' => simp [run, hpc] at hs
  | lockFor m i =>
      simp only [run, hpc] at hs
      split at hs <;> cases hs
      · exact .own (by simp [Ev.Quiet]) rfl (held_take _ m) h0
      · exact .goto (by simp) rfl rfl (lockLoop_quiet m (i + 1))
  | xchg m =>
      simp only [run, hpc] at hs
      split at hs <;> cases hs
      · refine .own (by simp [Ev.Quiet]) rfl ?_ (leave_quiet _ m h0)
        rw [held_leave]
        exact held_take _ m
      · exact .goto (by simp) rfl rfl trivial
  | tryFor m =>
      simp only [run, hpc] at hs
      split at hs
      · cases hs
        exact .own (by simp [Ev.Quiet]) rfl (held_take _ m) h0
      · rename_i hbusy
        cases hs
        exact .busy hpc hbusy rfl
  | unlockCas m k =>
      rw [hpc] at hok
      simp only [run, hpc] at hs
      split at hs <;> cases hs
      · have hself : ((s.setMutex m 0).setThr t (((s.thr t).drop m).unlocked m k)).thr t =
            ((s.thr t).drop m).unlocked m k := Function.update_self ..
        refine .release hok.1 rfl ?_ ?_
        · rw [hself, held_unlocked]
        · rw [hself]
          exact unlocked_quiet _ m k
      · exact .goto (by simp) rfl rfl trivial
  | unlockAnd m k =>
      rw [hpc] at hok
      simp only [run, hpc] at hs
      cases hs
      have hself : ((s.setMutex m ((s.mutex m).state &&& 0xFFFFFFFE)).setThr t
          (((s.thr t).drop m).goto (pollLoop m k 0))).thr t =
            ((s.thr t).drop m).goto (pollLoop m k 0) := Function.update_self ..
      refine .release hok.1 rfl ?_ ?_
      · rw [hself]
        rfl
      · rw [hself]
        exact pollLoop_quiet m k 0
  | unlockPoll m k i =>
      simp only [run, hpc] at hs
      split at hs <;> cases hs
      · exact .goto (by simp) rfl rfl (pollLoop_quiet m k (i + 1))
      · refine .own (by simp) rfl ?_ (unlocked_quiet _ m k)
        rw [held_unlocked]
        exact fun _ => id
  | unlockWake m k =>
      simp only [run, hpc, Option.map_eq_some_iff] at hs
      obtain ⟨s₁, h₁, hs⟩ := hs
      cases hs
      refine .own (by simp) (wakeOne_counter h₁) ?_ (unlocked_quiet _ m k)
      rw [held_unlocked]
      exact fun _ => id
  | waitNull c m =>
      simp only [run, hpc] at hs
      split at hs <;> cases hs
      · exact .goto (by simp) rfl rfl trivial
      · refine .own (by simp) rfl ?_ (leave_quiet _ m (by decide))
        rw [held_leave]
        exact fun _ => id
  | waitCas c m =>
      simp only [run, hpc] at hs
      split at hs <;> cases hs
      · exact .goto (by simp) rfl rfl trivial
      · refine .own (by simp) rfl ?_ (leave_quiet _ m (by decide))
        rw [held_leave]
        exact fun _ => id
  | waitUseChild c m =>
      simp only [run, hpc] at hs
      split at hs
      · split at hs <;> cases hs <;> exact .goto (by simp) rfl rfl trivial
      · cases hs
        exact .goto (by simp) rfl rfl trivial
  | waitSetChild c m p =>
      simp only [run, hpc] at hs
      cases hs
      exact .own (by simp) rfl (fun _ => id) trivial
  | waitRequeue c m =>
      simp only [run, hpc, Option.map_eq_some_iff] at hs
      obtain ⟨s₁, h₁, hs⟩ := hs
      cases hs
      exact .goto (by simp) (requeue_counter h₁) (requeue_thr_self h₁ (by simp [hpc])) trivial
  | waitClearChild c m =>
      simp only [run, hpc] at hs
      cases hs
      refine .own (by simp) rfl ?_ (leave_quiet _ m h0)
      rw [held_leave]
      exact fun _ => id
  | signalWake c =>
      simp only [run, hpc, Option.map_eq_some_iff] at hs
      obtain ⟨s₁, h₁, hs⟩ := hs
      cases hs
      exact .goto (by simp) (wakeOne_counter h₁) (wakeOne_thr_self h₁ (by simp [hpc])) h0
  | broadcastMutex c =>
      simp only [run, hpc] at hs
      split at hs <;> cases hs
      · exact .goto (by simp) rfl rfl trivial
      · exact .goto (by simp) rfl rfl h0
  | broadcastRequeue c =>
      simp only [run, hpc] at hs
      split at hs
      · simp only [Option.map_eq_some_iff] at hs
        obtain ⟨s₁, h₁, hs⟩ := hs
        cases hs
        exact .goto (by simp) (requeue_counter h₁) (requeue_thr_self h₁ (by simp [hpc])) h0
      · cases hs
        exact .goto (by simp) rfl rfl h0
  | counterLoad m =>
      simp only [run, hpc] at hs
      cases hs
      exact .load rfl
  | counterStore m v =>
      simp only [run, hpc] at hs
      cases hs
      exact .increment hpc rfl
  | ret v =>
      simp only [run, hpc] at hs
      cases hs
      exact .own (by simp [Ev.Quiet]) rfl (fun _ => id) trivial
  | _ =>
      simp only [run, hpc] at hs
      first
        | (cases hs; exact .goto (by simp [Ev.Quiet]) rfl rfl trivial)
        | (split at hs <;> cases hs <;> exact .goto (by simp [Ev.Quiet]) rfl rfl trivial)

end Emitted

/-! ## Critical sections -/

/-- One event of the books of `m`: the increments in each critical section
that has ended, and in the one in progress. -/
def sectionsStep (m : Mtx) (acc : List ℕ × ℕ) : Ev Thr Mtx Cnd → List ℕ × ℕ
  | .increment _ m' => if m' = m then (acc.1, acc.2 + 1) else acc
  | .release _ m' => if m' = m then (acc.1 ++ [acc.2], 0) else acc
  | _ => acc

def sections (m : Mtx) (tr : List (Ev Thr Mtx Cnd)) : List ℕ × ℕ :=
  tr.foldl (sectionsStep m) ([], 0)

/-- The critical sections of `m` that have ended, by how often each counted. -/
def completed (m : Mtx) (tr : List (Ev Thr Mtx Cnd)) : List ℕ := (sections m tr).1

def inProgress (m : Mtx) (tr : List (Ev Thr Mtx Cnd)) : ℕ := (sections m tr).2

/-- The mutex that the last trylock of `t` has found locked. -/
def busyStep (t : Thr) (acc : Option Mtx) : Ev Thr Mtx Cnd → Option Mtx
  | .call u _ => if u = t then none else acc
  | .busy u m => if u = t then some m else acc
  | _ => acc

def lastBusy (t : Thr) (tr : List (Ev Thr Mtx Cnd)) : Option Mtx :=
  tr.foldl (busyStep t) none

omit [DecidableEq Thr] [Fintype Thr] [DecidableEq Mtx] [DecidableEq Cnd] in
theorem foldl_quiet {β : Type} {f : β → Ev Thr Mtx Cnd → β} {P : Ev Thr Mtx Cnd → Prop}
    (hf : ∀ acc e, P e → f acc e = acc) {es : List (Ev Thr Mtx Cnd)} (hes : ∀ e ∈ es, P e)
    (acc : β) : es.foldl f acc = acc := by
  induction es with
  | nil => rfl
  | cons e es ih =>
      rw [List.foldl_cons, hf acc e (hes e List.mem_cons_self)]
      exact ih (fun e' he' => hes e' (List.mem_cons_of_mem e he'))

omit [DecidableEq Thr] [Fintype Thr] [DecidableEq Cnd] in
theorem sections_append (m : Mtx) (tr es : List (Ev Thr Mtx Cnd)) :
    sections m (tr ++ es) = es.foldl (sectionsStep m) (sections m tr) := by
  rw [sections, List.foldl_append]
  rfl

omit [Fintype Thr] [DecidableEq Mtx] [DecidableEq Cnd] in
theorem lastBusy_append (t : Thr) (tr es : List (Ev Thr Mtx Cnd)) :
    lastBusy t (tr ++ es) = es.foldl (busyStep t) (lastBusy t tr) := by
  rw [lastBusy, List.foldl_append]
  rfl

omit [DecidableEq Thr] [Fintype Thr] [DecidableEq Cnd] in
theorem sections_quiet {t : Thr} {es : List (Ev Thr Mtx Cnd)} (hes : ∀ e ∈ es, e.Quiet t)
    (m : Mtx) (tr : List (Ev Thr Mtx Cnd)) : sections m (tr ++ es) = sections m tr := by
  rw [sections_append]
  refine foldl_quiet (fun acc e he => ?_) hes _
  cases e <;> first | rfl | exact he.elim

omit [Fintype Thr] [DecidableEq Mtx] [DecidableEq Cnd] in
theorem lastBusy_quiet {t : Thr} {es : List (Ev Thr Mtx Cnd)} (hes : ∀ e ∈ es, e.Quiet t)
    (u : Thr) (tr : List (Ev Thr Mtx Cnd)) : lastBusy u (tr ++ es) = lastBusy u tr := by
  rw [lastBusy_append]
  refine foldl_quiet (fun acc e he => ?_) hes _
  cases e <;> first | rfl | exact he.elim

/-- The counter against the events of the run. -/
structure CountOk (tr : List (Ev Thr Mtx Cnd)) (s : State Thr Mtx Cnd) : Prop where
  counter : ∀ m, s.counter m = (completed m tr).sum + inProgress m tr
  store : ∀ t m v, (s.thr t).pc = .counterStore m v → v = s.counter m
  idle : ∀ m, (∀ t, (s.thr t).held m = false) → inProgress m tr = 0
  busy : ∀ t m, (s.thr t).pc = .ret EBUSY → (s.thr t).call = some (.trylock (some m)) →
    lastBusy t tr = some m

section Count

variable {tr es : List (Ev Thr Mtx Cnd)} {s s' : State Thr Mtx Cnd} {t : Thr}

omit [Fintype Thr] [DecidableEq Cnd] in
/-- A step that neither ends nor counts in a critical section. -/
theorem CountOk.of_sections (h : CountOk tr s) (hsec : ∀ m, sections m (tr ++ es) = sections m tr)
    (hc : s'.counter = s.counter)
    (hheld : ∀ u m, (s.thr u).held m = true → (s'.thr u).held m = true)
    (hstore : ∀ u m v, (s'.thr u).pc = .counterStore m v → v = s.counter m)
    (hbusy : ∀ u m, (s'.thr u).pc = .ret EBUSY → (s'.thr u).call = some (.trylock (some m)) →
      lastBusy u (tr ++ es) = some m) : CountOk (tr ++ es) s' where
  counter m := by
    rw [hc, completed, inProgress, hsec m]
    exact h.counter m
  store u m v hu := by
    rw [hc]
    exact hstore u m v hu
  idle m hnone := by
    rw [inProgress, hsec m]
    refine h.idle m (fun u => ?_)
    cases hu : (s.thr u).held m with
    | false => rfl
    | true =>
        have hno := hnone u
        rw [hheld u m hu] at hno
        cases hno
  busy := hbusy

theorem CountOk.run {pick : Option Thr} (hl : Local s) (hx : ∀ m, FutexLock.Inv (view m s))
    (h : CountOk tr s) (hs : run s t pick = some (s', es)) : CountOk (tr ++ es) s' := by
  have hmoved : ∀ u, u ≠ t → Moved s.cond (s.thr u) (s'.thr u) := fun u hu => run_moved hl hs hu
  have hheld : ∀ u, u ≠ t → (s'.thr u).held = (s.thr u).held := fun u hu => (hmoved u hu).held
  have hstore : ∀ u, u ≠ t → ∀ m v, (s'.thr u).pc = .counterStore m v → v = s.counter m := by
    intro u hu m v hpc
    rw [(hmoved u hu).eq_of_pc hpc trivial] at hpc
    exact h.store u m v hpc
  have hret : ∀ u, u ≠ t → ∀ m, (s'.thr u).pc = .ret EBUSY →
      (s'.thr u).call = some (.trylock (some m)) → lastBusy u tr = some m := by
    intro u hu m hpc hcall
    have hsame := (hmoved u hu).eq_of_pc hpc trivial
    rw [hsame] at hpc hcall
    exact h.busy u m hpc hcall
  have hok := hl t
  rw [ThreadOk] at hok
  cases run_emits hl hs with
  | quiet hes hc hown hq =>
      refine h.of_sections (fun m => sections_quiet hes m tr) hc ?_ ?_ ?_
      · intro u m hu
        by_cases hut : u = t
        · subst hut
          exact hown m hu
        · rw [hheld u hut]
          exact hu
      · intro u m v hpc
        by_cases hut : u = t
        · subst hut
          rw [hpc] at hq
          exact hq.elim
        · exact hstore u hut m v hpc
      · intro u m hpc hcall
        rw [lastBusy_quiet hes]
        by_cases hut : u = t
        · subst hut
          rw [hpc] at hq
          exact absurd rfl hq
        · exact hret u hut m hpc hcall
  | @busy m hpc _ hs' =>
      rw [hpc] at hok
      subst hs'
      refine h.of_sections (fun m' => by rw [sections_append]; rfl) rfl ?_ ?_ ?_
      · intro u m' hu
        by_cases hut : u = t
        · subst hut
          simpa [State.goto, State.setThr, State.setMutex, Thread.goto] using hu
        · rw [hheld u hut]
          exact hu
      · intro u m' v hpcu
        by_cases hut : u = t
        · subst hut
          simp [State.goto, State.setThr, Thread.goto] at hpcu
        · exact hstore u hut m' v hpcu
      · intro u m' hpcu hcall
        rw [lastBusy_append]
        by_cases hut : u = t
        · subst hut
          have hcall' : (s.thr u).call = some (.trylock (some m')) := by
            simpa [State.goto, State.setThr, State.setMutex, Thread.goto] using hcall
          rw [hok.2] at hcall'
          cases hcall'
          simp [busyStep]
        · simp only [List.foldl_cons, List.foldl_nil, busyStep, if_neg (Ne.symm hut)]
          exact hret u hut m' hpcu hcall
  | @release m hm hc hown hq =>
      have hsec : ∀ m', sections m' (tr ++ [.release t m]) =
          if m = m' then (completed m' tr ++ [inProgress m' tr], 0) else sections m' tr := by
        intro m'
        rw [sections_append]
        rfl
      refine ⟨?_, ?_, ?_, ?_⟩
      · intro m'
        rw [hc, h.counter m']
        show _ = (sections m' (tr ++ [.release t m])).1.sum +
          (sections m' (tr ++ [.release t m])).2
        rw [hsec m']
        by_cases hmm : m = m'
        · rw [if_pos hmm, List.sum_append, List.sum_singleton]
          rfl
        · rw [if_neg hmm]
          rfl
      · intro u m' v hpc
        rw [hc]
        by_cases hut : u = t
        · subst hut
          rw [hpc] at hq
          exact hq.elim
        · exact hstore u hut m' v hpc
      · intro m' hnone
        rw [inProgress, hsec m']
        by_cases hmm : m = m'
        · rw [if_pos hmm]
        · rw [if_neg hmm]
          refine h.idle m' (fun u => ?_)
          by_cases hut : u = t
          · subst hut
            rw [← held_drop_ne (s.thr u) hmm, ← hown]
            exact hnone u
          · rw [← hheld u hut]
            exact hnone u
      · intro u m' hpc hcall
        rw [lastBusy_append]
        by_cases hut : u = t
        · subst hut
          rw [hpc] at hq
          exact absurd rfl hq
        · exact hret u hut m' hpc hcall
  | @load m hs' =>
      subst hs'
      rw [List.append_nil]
      have h' : CountOk (tr ++ []) (s.goto t (.counterStore m (s.counter m))) := by
        refine h.of_sections (fun m' => by rw [List.append_nil]) rfl ?_ ?_ ?_
        · intro u m' hu
          by_cases hut : u = t
          · subst hut
            simpa [State.goto, State.setThr, Thread.goto] using hu
          · rw [hheld u hut]
            exact hu
        · intro u m' v hpcu
          by_cases hut : u = t
          · subst hut
            simp only [State.goto, State.setThr, Function.update_self, Thread.goto] at hpcu
            cases hpcu
            rfl
          · exact hstore u hut m' v hpcu
        · intro u m' hpcu hcall
          rw [List.append_nil]
          by_cases hut : u = t
          · subst hut
            simp [State.goto, State.setThr, Thread.goto] at hpcu
          · exact hret u hut m' hpcu hcall
      simpa using h'
  | @increment m v hpc hs' =>
      rw [hpc] at hok
      have hv : v = s.counter m := h.store t m v hpc
      have hcounter : s'.counter = Function.update s.counter m (v + 1) := by rw [hs']; rfl
      have hself := thr_of_setThr hs'
      have hsec : ∀ m', sections m' (tr ++ [.increment t m]) =
          if m = m' then (completed m' tr, inProgress m' tr + 1) else sections m' tr := by
        intro m'
        rw [sections_append]
        rfl
      refine ⟨?_, ?_, ?_, ?_⟩
      · intro m'
        rw [hcounter, completed, inProgress, hsec m']
        by_cases hmm : m = m'
        · subst hmm
          rw [if_pos rfl, Function.update_self, hv, h.counter m]
          exact Nat.add_assoc ..
        · rw [if_neg hmm, Function.update_of_ne (Ne.symm hmm)]
          exact h.counter m'
      · -- nobody else holds the mutex, so nobody else is about to store
        intro u m' v' hpcu
        by_cases hut : u = t
        · subst hut
          rw [hself] at hpcu
          cases hpcu
        · have hv' := hstore u hut m' v' hpcu
          have hmm : m' ≠ m := by
            intro e
            subst e
            rw [(hmoved u hut).eq_of_pc hpcu trivial] at hpcu
            have hoku := hl u
            rw [ThreadOk, hpcu] at hoku
            exact hut ((hx m').unique u t hoku.1 hok.1)
          rw [hcounter, Function.update_of_ne hmm]
          exact hv'
      · intro m' hnone
        rw [inProgress, hsec m']
        by_cases hmm : m = m'
        · subst hmm
          have hno := hnone t
          rw [hself] at hno
          exact absurd (hok.1.symm.trans hno) (by decide)
        · rw [if_neg hmm]
          refine h.idle m' (fun u => ?_)
          by_cases hut : u = t
          · subst hut
            have hno := hnone u
            rw [hself] at hno
            exact hno
          · rw [← hheld u hut]
            exact hnone u
      · intro u m' hpcu hcall
        rw [lastBusy_append]
        by_cases hut : u = t
        · subst hut
          rw [hself] at hpcu
          cases hpcu
        · exact hret u hut m' hpcu hcall

omit [DecidableEq Mtx] [DecidableEq Cnd] in
theorem entry_quiet (c : Call Mtx Cnd) : c.entry.Quiet := by
  have h1 : (1 : Int) ≠ EBUSY := by decide
  cases c with
  | increment m => exact trivial
  | lock m =>
      cases m with
      | none => exact h1
      | some m => exact lockLoop_quiet m 0
  | trylock m => cases m <;> first | exact h1 | exact trivial
  | unlock m => cases m <;> first | exact h1 | exact trivial
  | wait c m => cases c <;> cases m <;> first | exact h1 | exact trivial
  | signal c => cases c <;> first | exact h1 | exact trivial
  | broadcast c => cases c <;> first | exact h1 | exact trivial

omit [Fintype Thr] [DecidableEq Cnd] in
theorem CountOk.call {c : Call Mtx Cnd} (h : CountOk tr s) :
    CountOk (tr ++ [.call t c]) (s.setThr t { s.thr t with pc := c.entry, call := some c }) := by
  refine h.of_sections (fun m => by rw [sections_append]; rfl) rfl ?_ ?_ ?_
  · intro u m hu
    by_cases hut : u = t
    · subst hut
      simpa [State.setThr] using hu
    · simpa only [State.setThr, Function.update_of_ne hut] using hu
  · intro u m v hpc
    by_cases hut : u = t
    · subst hut
      have hq : c.entry.Quiet := entry_quiet c
      have hentry : c.entry = .counterStore m v := by simpa [State.setThr] using hpc
      rw [hentry] at hq
      exact hq.elim
    · simp only [State.setThr, Function.update_of_ne hut] at hpc
      exact h.store u m v hpc
  · intro u m hpc hcall
    rw [lastBusy_append]
    by_cases hut : u = t
    · subst hut
      have hq : c.entry.Quiet := entry_quiet c
      have hentry : c.entry = .ret EBUSY := by simpa [State.setThr] using hpc
      rw [hentry] at hq
      exact absurd rfl hq
    · simp only [State.setThr, Function.update_of_ne hut] at hpc hcall
      simp only [List.foldl_cons, List.foldl_nil, busyStep, if_neg (Ne.symm hut)]
      exact h.busy u m hpc hcall

omit [Fintype Thr] [DecidableEq Cnd] in
theorem CountOk.spurious (h : CountOk tr s) : CountOk (tr ++ []) (s.wake t) := by
  have hmoved : ∀ u, Moved s.cond (s.thr u) ((s.wake t).thr u) := fun u => wake_thr s t u
  refine h.of_sections (fun m => by rw [List.append_nil]) ?_ ?_ ?_ ?_
  · simp only [State.wake]
    split <;> rfl
  · intro u m hu
    rw [(hmoved u).held]
    exact hu
  · intro u m v hpc
    have hsame := (hmoved u).eq_of_pc hpc trivial
    rw [hsame] at hpc
    exact h.store u m v hpc
  · intro u m hpc hcall
    have hsame := (hmoved u).eq_of_pc hpc trivial
    rw [hsame] at hpc hcall
    rw [List.append_nil]
    exact h.busy u m hpc hcall

theorem CountOk.step {a : Act Thr Mtx Cnd} (hl : Local s)
    (hx : ∀ m, FutexLock.Inv (view m s)) (h : CountOk tr s)
    (hs : step s a = some (s', es)) : CountOk (tr ++ es) s' := by
  cases a with
  | call t c =>
      obtain ⟨-, rfl, rfl⟩ := step_call hs
      exact h.call
  | run t pick => exact h.run hl hx hs
  | spurious t =>
      obtain ⟨-, rfl, rfl⟩ := step_spurious hs
      exact h.spurious

theorem Runs.countOk {mem : Mtx → FastsyncMutex} {cond : Cnd → FastsyncCond Mtx Cnd}
    (h : Runs mem cond tr s) : CountOk tr s := by
  have h0 : CountOk [] (State.init mem cond : State Thr Mtx Cnd) := by
    refine ⟨fun _ => rfl, ?_, fun _ _ => rfl, ?_⟩
    · intro t m v hpc
      cases hpc
    · intro t m hpc
      cases hpc
  refine Run.invariant (P := CountOk) h0 ?_ h
  intro tr s es s' hr hc hs
  obtain ⟨a, ha⟩ := hs
  exact hc.step (Runs.local hr) (Runs.lock hr) ha

end Count

/-! ## Mutual exclusion -/

/-- What the mutex promises after the events `tr`, in state `s`. -/
structure MutualExclusion (m : Mtx) (tr : List (Ev Thr Mtx Cnd)) (s : State Thr Mtx Cnd) :
    Prop where
  state : (s.mutex m).state = 0 ∨ (s.mutex m).state = 1 ∨ (s.mutex m).state = 2 ∨
    (s.mutex m).state = 3
  /-- bit 0 is set exactly when some thread holds the mutex -/
  locked : (s.mutex m).state &&& 1 ≠ 0 ↔ ∃ t, (s.thr t).held m = true
  unique : ∀ t u, (s.thr t).held m = true → (s.thr u).held m = true → t = u
  /-- lock and trylock that return 0, and every return of wait, hold the mutex -/
  returns : ∀ t c v, (s.thr t).pc = .ret v → (s.thr t).call = some c →
    c.acquires v = some m → (s.thr t).held m = true
  /-- a trylock that fails has found a holder, and changes nothing -/
  busy : ∀ t pick s' es, run s t pick = some (s', es) → .busy t m ∈ es →
    ((s.thr t).held m = true ∨ ∃ u, u ≠ t ∧ (s.thr u).held m = true) ∧ s'.mutex m = s.mutex m
  /-- `EBUSY` is only returned by a trylock that has failed so -/
  ebusy : ∀ t, (s.thr t).pc = .ret EBUSY → (s.thr t).call = some (.trylock (some m)) →
    lastBusy t tr = some m
  /-- no increment is lost -/
  counter : s.counter m = (completed m tr).sum + inProgress m tr
  counted : (∀ n ∈ completed m tr, n = 1) → (∀ t, (s.thr t).held m = false) →
    s.counter m = (completed m tr).length

/-- The fetch-or of a locked mutex writes what was there. -/
theorem or_one_of_locked {w : BitVec 32} (hw : w = 0 ∨ w = 1 ∨ w = 2 ∨ w = 3)
    (hl : w &&& 1 ≠ 0) : w ||| 1 = w := by
  rcases hw with rfl | rfl | rfl | rfl
  · exact absurd rfl hl
  · rfl
  · exact absurd rfl hl
  · rfl

theorem busy_holder {m : Mtx} {s s' : State Thr Mtx Cnd} {t : Thr} {pick : Option Thr}
    {es : List (Ev Thr Mtx Cnd)} (hl : Local s) (hx : FutexLock.Inv (view m s))
    (hs : run s t pick = some (s', es)) (hb : .busy t m ∈ es) :
    ((s.thr t).held m = true ∨ ∃ u, u ≠ t ∧ (s.thr u).held m = true) ∧
      s'.mutex m = s.mutex m := by
  cases run_emits hl hs with
  | quiet hes => exact absurd (hes _ hb) id
  | @busy m' hpc hlocked hs' =>
      have hm : m = m' := by simpa using hb
      subst hm
      obtain ⟨u, hu⟩ := hx.locked.mp hlocked
      have hword : (s.mutex m).state ||| 1 = (s.mutex m).state := or_one_of_locked hx.word hlocked
      constructor
      · by_cases hut : u = t
        · subst hut
          exact .inl hu
        · exact .inr ⟨u, hut, hu⟩
      · rw [hs', hword]
        exact Function.update_self ..
  | release => cases hb with | tail _ hb => cases hb
  | load => cases hb
  | increment => cases hb with | tail _ hb => cases hb

/-- **Mutual exclusion.** For every run, on every mutex: the state word says
whether the mutex is held, by at most one thread; every return that promises
the mutex keeps the promise; a failed trylock has met a holder; no increment
made in a critical section is lost. -/
theorem mutual_exclusion (mem : Mtx → FastsyncMutex) (cond : Cnd → FastsyncCond Mtx Cnd)
    {tr : List (Ev Thr Mtx Cnd)} {s : State Thr Mtx Cnd} (h : Runs mem cond tr s) (m : Mtx) :
    MutualExclusion m tr s where
  state := (h.lock m).word
  locked := (h.lock m).locked
  unique := (h.lock m).unique
  returns t c v hpc hcall hacq := by
    have hok := h.local t
    rw [ThreadOk, hpc] at hok
    exact hok.2 c m hcall hacq
  busy t pick s' es hs hb := busy_holder h.local (h.lock m) hs hb
  ebusy t := h.countOk.busy t m
  counter := h.countOk.counter m
  counted hone hnone := by
    rw [h.countOk.counter m, h.countOk.idle m hnone, List.eq_replicate_of_mem hone,
      List.sum_replicate_nat, List.length_replicate, Nat.mul_one, Nat.add_zero]

theorem mutual_exclusion_sleeper : ∃ (s : State (Fin 2) Unit Unit)
    (tr : List (Ev (Fin 2) Unit Unit)), MutualExclusion () tr s := by
  obtain ⟨s, tr, hr, -⟩ := sleeper_runs
  exact ⟨s, tr, mutual_exclusion oneMutex oneCond hr ()⟩

/-- Thread 0 locks the mutex, and is about to try it again. -/
def selfTrylock : List (Act (Fin 2) Unit Unit) :=
  [.call 0 (.lock (some ())), .run 0 none, .run 0 none, .call 0 (.trylock (some ()))]

/-- `EBUSY` does not tell of another thread: the caller itself may be the
holder. -/
theorem trylock_busy_by_itself :
    ¬ ∀ (tr : List (Ev (Fin 2) Unit Unit)) (s s' : State (Fin 2) Unit Unit) (t : Fin 2)
        (pick : Option (Fin 2)) (es : List (Ev (Fin 2) Unit Unit)),
      Runs oneMutex oneCond tr s → run s t pick = some (s', es) → .busy t () ∈ es →
      ∃ u, u ≠ t ∧ (s.thr u).held () = true := by
  intro h
  have hout : (exec step (State.init oneMutex oneCond : State (Fin 2) Unit Unit) selfTrylock).map
      (fun p => ((run p.1 0 none).map Prod.snd, (p.1.thr 1).held ())) =
        some (some [.busy 0 ()], false) := by decide
  obtain ⟨s, tr, hr, hv⟩ := run_of_outcome _ _ hout
  simp only [Prod.mk.injEq, Option.map_eq_some_iff] at hv
  obtain ⟨⟨⟨s', es⟩, hs, rfl⟩, hfree⟩ := hv
  obtain ⟨u, hu, hheld⟩ := h tr s s' 0 none _ hr hs List.mem_cons_self
  have hu1 : u = 1 := by omega
  rw [hu1, hfree] at hheld
  cases hheld

end Reeact.Sync
