import Reeact.Fastsync.CondRelease
import Reeact.Fastsync.MutexLive
import Reeact.Fastsync.SyncBound

/-!
# fastsync_cond — whoever is signalled returns

The waiters a broadcast or a signal on the root releases do return from
`fastsync_cond_wait`, under a scheduler that does not put off an awake thread
for ever, if nobody waits for the mutex for ever. A leader that is out
acquires the mutex and releases the nodes of its path on the way to its own
return, so that returns spread down the tree, from leader to led.
-/

namespace Reeact.Sync

open Transition

variable {Thr Mtx Cnd : Type} [DecidableEq Thr] [Fintype Thr] [DecidableEq Mtx]
  [DecidableEq Cnd]

/-! ## A call in progress -/

/-- Inside the call `c`. -/
def Calling (t : Thr) (c : Call Mtx Cnd) (s : State Thr Mtx Cnd) : Prop :=
  (s.thr t).pc ≠ .idle ∧ (s.thr t).call = some c

section Step

variable {s s' : State Thr Mtx Cnd} {t u : Thr} {es : List (Ev Thr Mtx Cnd)} {c : Call Mtx Cnd}
  {a : Act Thr Mtx Cnd}

section

omit [DecidableEq Mtx] [DecidableEq Cnd]

theorem leave_ne_idle (th : Thread Mtx Cnd) (m : Mtx) (v : Int) : (th.leave m v).pc ≠ .idle := by
  rw [Thread.leave]
  split <;> simp

theorem unlocked_ne_idle (th : Thread Mtx Cnd) (m : Mtx) (k : Option (Cnd × BitVec 32)) :
    (th.unlocked m k).pc ≠ .idle := by
  cases k <;> simp [Thread.unlocked, Thread.goto]

theorem lockLoop_ne_idle (m : Mtx) (i : ℕ) : (lockLoop m i : Pc Mtx Cnd) ≠ .idle := by
  rw [lockLoop]
  split <;> simp

theorem pollLoop_ne_idle (m : Mtx) (k : Option (Cnd × BitVec 32)) (i : ℕ) :
    pollLoop m k i ≠ .idle := by
  rw [pollLoop]
  split <;> simp

end

/-- A call ends at its return only. -/
theorem run_stays {pick : Option Thr} (hs : run s t pick = some (s', es))
    (hret : ∀ v, (s.thr t).pc ≠ .ret v) :
    (s'.thr t).pc ≠ .idle ∧ (s'.thr t).call = (s.thr t).call ∧ ∀ d v, .ret t d v ∉ es := by
  have hself : ∀ {s₁ : State Thr Mtx Cnd} {th : Thread Mtx Cnd}, th.pc ≠ .idle →
      th.call = (s.thr t).call → (∀ d v, .ret t d v ∉ es) →
      ((s₁.setThr t th).thr t).pc ≠ .idle ∧ ((s₁.setThr t th).thr t).call = (s.thr t).call ∧
        ∀ d v, .ret t d v ∉ es := by
    intro s₁ th hpc hcall hes
    rw [setThr_thr]
    exact ⟨hpc, hcall, hes⟩
  have hgoto : ∀ {s₁ : State Thr Mtx Cnd} {pc : Pc Mtx Cnd}, s₁.thr t = s.thr t → pc ≠ .idle →
      (∀ d v, .ret t d v ∉ es) → ((s₁.goto t pc).thr t).pc ≠ .idle ∧
        ((s₁.goto t pc).thr t).call = (s.thr t).call ∧ ∀ d v, .ret t d v ∉ es := by
    intro s₁ pc hthr hpc hes
    exact hself hpc (by rw [hthr]; rfl) hes
  cases hpc : (s.thr t).pc with
  | idle => simp [run, hpc] at hs
  | asleep q m => simp [run, hpc] at hs
  | ret v => exact absurd hpc (hret v)
  | lockFor m i =>
      simp only [run, hpc] at hs
      split at hs <;> cases hs
      · exact hself (by simp [Thread.goto]) rfl (by simp)
      · exact hgoto rfl (lockLoop_ne_idle m (i + 1)) (by simp)
  | xchg m =>
      simp only [run, hpc] at hs
      split at hs <;> cases hs
      · exact hself (leave_ne_idle _ m 0) (call_leave _ m 0) (by simp)
      · exact hgoto rfl (by simp) (by simp)
  | unlockCas m k =>
      simp only [run, hpc] at hs
      split at hs <;> cases hs
      · exact hself (unlocked_ne_idle _ m k) (call_unlocked _ m k) (by simp)
      · exact hgoto rfl (by simp) (by simp)
  | unlockAnd m k =>
      simp only [run, hpc] at hs
      cases hs
      exact hself (pollLoop_ne_idle m k 0) rfl (by simp)
  | unlockPoll m k i =>
      simp only [run, hpc] at hs
      split at hs <;> cases hs
      · exact hgoto rfl (pollLoop_ne_idle m k (i + 1)) (by simp)
      · exact hself (unlocked_ne_idle _ m k) (call_unlocked _ m k) (by simp)
  | unlockWake m k =>
      simp only [run, hpc, Option.map_eq_some_iff] at hs
      obtain ⟨s₁, h₁, hs⟩ := hs
      cases hs
      exact hself (unlocked_ne_idle _ m k) (call_unlocked _ m k) (by simp)
  | waitNull d m | waitCas d m =>
      simp only [run, hpc] at hs
      split at hs <;> cases hs
      · exact hgoto rfl (by simp) (by simp)
      · exact hself (leave_ne_idle _ m 2) (call_leave _ m 2) (by simp)
  | waitClearChild d m =>
      simp only [run, hpc] at hs
      cases hs
      exact hself (leave_ne_idle _ m 0) (call_leave _ m 0) (by simp)
  | waitRequeue d m =>
      simp only [run, hpc, Option.map_eq_some_iff] at hs
      obtain ⟨s₁, h₁, hs⟩ := hs
      cases hs
      exact hgoto (requeue_thr_self h₁ (by simp [hpc])) (by simp) (by simp)
  | signalWake d =>
      simp only [run, hpc, Option.map_eq_some_iff] at hs
      obtain ⟨s₁, h₁, hs⟩ := hs
      cases hs
      exact hgoto (wakeOne_thr_self h₁ (by simp [hpc])) (by simp) (by simp)
  | broadcastRequeue d =>
      simp only [run, hpc] at hs
      split at hs
      · simp only [Option.map_eq_some_iff] at hs
        obtain ⟨s₁, h₁, hs⟩ := hs
        cases hs
        exact hgoto (requeue_thr_self h₁ (by simp [hpc])) (by simp) (by simp)
      · cases hs
        exact hgoto rfl (by simp) (by simp)
  | _ =>
      simp only [run, hpc] at hs
      repeat' split at hs
      all_goals
        cases hs
        exact hself (by simp [Thread.goto]) rfl (by simp)

/-- Nobody else ends it. -/
theorem Calling.step (hl : Local s) (h : Calling t c s) (hs : step s a = some (s', es))
    (hret : ∀ v, (s.thr t).pc ≠ .ret v) : Calling t c s' := by
  cases hown : a.runs t with
  | true =>
      cases a with
      | call v d => cases hown
      | spurious v => cases hown
      | run v pick =>
          obtain rfl : v = t := by simpa [Act.runs] using hown
          obtain ⟨hpc, hcall, -⟩ := run_stays hs hret
          exact ⟨hpc, hcall.trans h.2⟩
  | false =>
      have hm := step_moved hl hs hown h.1
      refine ⟨?_, hm.call.trans h.2⟩
      generalize s'.thr t = th at hm ⊢
      cases hm with
      | same => exact h.1
      | woken _ => simp [Thread.goto]
      | requeued _ _ => simp [Thread.goto]

/-- Whoever is out of the queues during a call stays out. -/
theorem step_outside (hl : Local s) (hs : step s a = some (s', es)) (hin : (s.thr t).pc ≠ .idle)
    (ho : (s.thr t).pc.Outside) : (s'.thr t).pc.Outside := by
  cases hown : a.runs t with
  | true =>
      cases a with
      | call v d => cases hown
      | spurious v => cases hown
      | run v pick =>
          obtain rfl : v = t := by simpa [Act.runs] using hown
          exact outside_run hs ho
  | false => exact (step_moved hl hs hown hin).outside ho

end Step

/-! ## Which call it is -/

section Local

variable {cond : Cnd → FastsyncCond Mtx Cnd} {th : Thread Mtx Cnd} {m : Mtx} {d : Option Cnd}

omit [DecidableEq Mtx] [DecidableEq Cnd] in
/-- Out of the queues of the conditions, a call of `fastsync_cond_wait` wants
the mutex, or nothing stands in the way of its return. -/
theorem wants_or_left (hok : ThreadOk cond th) (hin : th.pc ≠ .idle)
    (hcall : th.call = some (.wait d (some m))) (ho : th.pc.Outside) :
    th.pc.Wants m ∨ ∃ n, th.left = some n := by
  have hplain : ∀ {c : Call Mtx Cnd}, Plain th c → c = .wait d (some m) := by
    intro c hp
    exact Option.some.inj (hp.2.symm.trans hcall)
  have hlocking : ∀ {m'}, Locking cond th m' → m' = m := by
    rintro m' (hp | ⟨⟨e, he⟩, -⟩)
    · cases hplain hp
    · cases he.symm.trans hcall
      rfl
  have hunlock : ∀ {m'} {k : Option (Cnd × BitVec 32)}, Unlocking cond th m' k → k ≠ none := by
    rintro m' k hu rfl
    cases hplain hu
  rw [ThreadOk] at hok
  rw [Thread.left]
  cases hpc : th.pc with
  | idle => exact absurd hpc hin
  | lockFor m' i =>
      rw [hpc] at hok
      cases hplain hok
  | xchg m' | mutexWait m' =>
      rw [hpc] at hok
      exact .inl (hlocking hok)
  | asleep q m' =>
      rw [hpc] at hok ho
      cases q with
      | mutex m'' => exact .inl (hok.1.trans (hlocking hok.2))
      | cond c => cases ho.1
  | unlockRead m' k | unlockCas m' k | unlockAnd m' k =>
      rw [hpc] at hok ho
      cases k with
      | none => exact absurd rfl (hunlock hok.2)
      | some k => cases ho.2
  | unlockPoll m' k i =>
      rw [hpc] at hok ho
      cases k with
      | none => exact absurd rfl (hunlock hok)
      | some k => cases ho.1
  | unlockClear m' k | unlockWake m' k =>
      rw [hpc] at hok ho
      cases k with
      | none => exact absurd rfl (hunlock hok)
      | some k => cases ho.1
  | waitMutex c m' | waitNull c m' | waitCas c m' | waitUseChild c m' | waitCurSeq c m' =>
      rw [hpc] at ho
      cases ho.2
  | waitSetChild c m' q =>
      rw [hpc] at ho
      cases ho.2
  | waitFutex c m' cur =>
      rw [hpc] at ho
      cases ho.1
  | _ => exact .inr ⟨_, rfl⟩

omit [DecidableEq Mtx] [DecidableEq Cnd] in
/-- Whoever waits on a condition, or leads one, is in `fastsync_cond_wait`. -/
theorem inWait_of_tree (hok : ThreadOk cond th)
    (h : th.frames ≠ [] ∨ th.pc.blockedOn ≠ none ∨ th.pc.releasing ≠ none) :
    th.pc ≠ .idle ∧ ∃ m, InWait cond th m := by
  have hno : th.frames = [] → th.pc.blockedOn = none → th.pc.releasing = none → False := by
    intro hf hb hr
    rcases h with h | h | h
    · exact h hf
    · exact h hb
    · exact h hr
  rw [ThreadOk] at hok
  constructor
  · intro hpc
    rw [hpc] at hok hno
    exact hno hok rfl rfl
  cases hpc : th.pc with
  | idle =>
      rw [hpc] at hok hno
      exact (hno hok rfl rfl).elim
  | ret v =>
      rw [hpc] at hok hno
      exact (hno hok.1 rfl rfl).elim
  | lockFor m i | tryFor m | signalAdd c | signalWake c | broadcastAdd c | broadcastMutex c
  | broadcastRequeue c =>
      rw [hpc] at hok hno
      exact (hno hok.1 rfl rfl).elim
  | counterLoad m | counterStore m v =>
      rw [hpc] at hok hno
      exact (hno hok.2.1 rfl rfl).elim
  | xchg m | mutexWait m =>
      rw [hpc] at hok hno
      rcases hok with hp | hw
      · exact (hno hp.1 rfl rfl).elim
      · exact ⟨m, hw⟩
  | asleep q m =>
      rw [hpc] at hok hno
      cases q with
      | cond c => exact ⟨m, hok.1⟩
      | mutex m' =>
          rcases hok.2 with hp | hw
          · exact (hno hp.1 rfl rfl).elim
          · exact ⟨m, hw⟩
  | unlockRead m k | unlockCas m k | unlockAnd m k =>
      rw [hpc] at hok hno
      cases k with
      | none => exact (hno hok.2.1 rfl rfl).elim
      | some k => exact ⟨m, hok.2.1⟩
  | unlockClear m k | unlockWake m k =>
      rw [hpc] at hok hno
      cases k with
      | none => exact (hno hok.1 rfl rfl).elim
      | some k => exact ⟨m, hok.1⟩
  | unlockPoll m k i =>
      rw [hpc] at hok hno
      cases k with
      | none => exact (hno hok.1 rfl rfl).elim
      | some k => exact ⟨m, hok.1⟩
  | waitMutex c m | waitNull c m | waitCas c m =>
      rw [hpc] at hok
      exact ⟨m, hok.2⟩
  | waitUseChild c m | waitSeqLoad c m | waitRequeue c m | waitClearChild c m | waitCurSeq c m =>
      rw [hpc] at hok
      exact ⟨m, hok.2.1⟩
  | waitSeqStore c m v =>
      rw [hpc] at hok
      exact ⟨m, hok.2.1⟩
  | waitSetChild c m q =>
      rw [hpc] at hok
      exact ⟨m, hok.2.1⟩
  | waitFutex c m cur =>
      rw [hpc] at hok
      exact ⟨m, hok.1⟩

end Local

/-! ## The way out -/

section Paths

variable {mem : Mtx → FastsyncMutex} {cond : Cnd → FastsyncCond Mtx Cnd} {p : Paths Thr mem cond}
  {t : Thr} {c : Call Mtx Cnd} {i : ℕ}

/-- The call `c` that `t` is in comes to its return. -/
def Paths.Returns (p : Paths Thr mem cond) (i : ℕ) (t : Thr) (c : Call Mtx Cnd) : Prop :=
  ∃ j v, i ≤ j ∧ Calling t c (p.state j) ∧ ((p.state j).thr t).pc = .ret v

theorem Paths.Returns.mono {j : ℕ} (hij : i ≤ j) (h : p.Returns j t c) : p.Returns i t c := by
  obtain ⟨l, v, hjl, hin, hpc⟩ := h
  exact ⟨l, v, Nat.le_trans hij hjl, hin, hpc⟩

/-- A call goes on until it comes to its return, -/
theorem Paths.stays (p : Paths Thr mem cond) {j : ℕ} (hij : i ≤ j) (h : Calling t c (p.state i)) :
    p.Returns i t c ∨ Calling t c (p.state j) := by
  have hstep : ∀ l, Calling t c (p.state l) →
      ¬ (Calling t c (p.state l) ∧ ∃ v, ((p.state l).thr t).pc = .ret v) →
      Calling t c (p.state (l + 1)) ∨
        Calling t c (p.state (l + 1)) ∧ ∃ v, ((p.state (l + 1)).thr t).pc = .ret v := by
    intro l hin hret
    left
    cases ha : p.act l with
    | none =>
        rw [(p.pass l ha).1]
        exact hin
    | some a =>
        obtain ⟨es, hs, -⟩ := p.take l a ha
        exact hin.step (p.local l) hs (fun v hv => hret ⟨hin, v, hv⟩)
  rcases holds_unless hstep hij h with ⟨l, hil, -, hin, v, hpc⟩ | hin
  · exact .inl ⟨l, v, hil, hin, hpc⟩
  · exact .inr hin

/-- out of the queues if it was so before. -/
theorem Paths.stays_outside (p : Paths Thr mem cond) {j : ℕ} (hij : i ≤ j)
    (h : Calling t c (p.state i)) (ho : ((p.state i).thr t).pc.Outside) :
    p.Returns i t c ∨ Calling t c (p.state j) ∧ ((p.state j).thr t).pc.Outside := by
  induction j, hij using Nat.le_induction with
  | base => exact .inr ⟨h, ho⟩
  | succ j hij ih =>
      rcases ih with hr | ⟨hin, ho⟩
      · exact .inl hr
      · refine (p.stays (Nat.le_succ_of_le hij) h).imp_right fun hin' => ⟨hin', ?_⟩
        cases ha : p.act j with
        | none =>
            rw [(p.pass j ha).1]
            exact ho
        | some a =>
            obtain ⟨es, hs, -⟩ := p.take j a ha
            exact step_outside (p.local j) hs hin.1 ho

/-- On the way to its return, it comes there. -/
theorem FairRun.returns_of_left (hf : FairRun p) {n : ℕ} (h : Calling t c (p.state i))
    (hn : ((p.state i).thr t).left = some n) : p.Returns i t c := by
  induction n using Nat.strongRecOn generalizing i with
  | _ n ih =>
      by_cases hret : ∃ v, ((p.state i).thr t).pc = .ret v
      · obtain ⟨v, hv⟩ := hret
        exact ⟨i, v, Nat.le_refl i, h, hv⟩
      · obtain ⟨hidle, hawake⟩ := left_awake hn
        obtain ⟨j, pick, es, hij, hj, hs, -⟩ := hf.moves rfl hidle hawake
        have hstays := run_stays hs (fun v hv => hret ⟨v, by rw [← hj]; exact hv⟩)
        rcases run_left (by rw [hj]; exact hn) hs with ⟨v, hv⟩ | ⟨hcall, n', hn', hlt⟩
        · exact absurd hv (hstays.2.2 _ v)
        · rw [hj] at hcall
          exact (ih n' hlt ⟨hstays.1, hcall.trans h.2⟩ hn').mono (by omega)

/-- Out of the queues, a call of `fastsync_cond_wait` returns, if its thread
does not wait for the mutex for ever. -/
theorem FairRun.returns_of_outside (hf : FairRun p) {m : Mtx} {d : Option Cnd}
    (hlock : ∀ i, ((p.state i).thr t).pc.Wants m → ∃ j, i ≤ j ∧ ¬ ((p.state j).thr t).pc.Wants m)
    (h : Calling t (.wait d (some m)) (p.state i)) (ho : ((p.state i).thr t).pc.Outside) :
    p.Returns i t (.wait d (some m)) := by
  rcases wants_or_left (p.local i t) h.1 h.2 ho with hwants | ⟨n, hn⟩
  · obtain ⟨j, hij, hj⟩ := hlock i hwants
    rcases p.stays_outside hij h ho with hr | ⟨hin, ho'⟩
    · exact hr
    · obtain ⟨n, hn⟩ := (wants_or_left (p.local j t) hin.1 hin.2 ho').resolve_left hj
      exact (hf.returns_of_left hin hn).mono hij
  · exact hf.returns_of_left h hn

/-- What has come to its return does return. -/
theorem FairRun.event_of_returns (hf : FairRun p) (h : p.Returns i t c) :
    ∃ j v, i ≤ j ∧ p.trace (j + 1) = p.trace j ++ [.ret t (some c) v] := by
  obtain ⟨j, v, hij, hin, hpc⟩ := h
  obtain ⟨l, pick, es, hjl, hl, hs, ht⟩ := hf.moves (rfl : _ = (p.state j).thr t) hin.1
    (by simp [hpc])
  simp only [run, hl, hpc, hin.2, Option.some.injEq, Prod.mk.injEq] at hs
  rw [← hs.2] at ht
  exact ⟨l, v, by omega, ht⟩

end Paths

/-! ## A tree -/

/-- The infinite runs of threads that use the tree `T` with `M`. -/
abbrev TreePaths (Thr : Type) {Mtx Cnd : Type} [DecidableEq Thr] [Fintype Thr] [DecidableEq Mtx]
    [DecidableEq Cnd] (T : LeaderTree.Tree Cnd) (M : Mtx) (mem : Mtx → FastsyncMutex) :=
  Path (treeStep M) (State.init mem (treeCond T) : State Thr Mtx Cnd)

section Tree

variable {T : LeaderTree.Tree Cnd} {M : Mtx} {mem : Mtx → FastsyncMutex}
  {p : TreePaths Thr T M mem} {i j : ℕ} {t u : Thr} {d : Option Cnd}

def TreePaths.path (p : TreePaths Thr T M mem) : Paths Thr mem (treeCond T) :=
  p.mono (fun _ _ _ h => (treeStep_step h).2)

def TreePaths.view (p : TreePaths Thr T M mem) (i : ℕ) : LeaderTree.State Thr Cnd :=
  treeView (p.trace i) (p.state i)

/-- What the waiters have to rely on. -/
structure FairTree (p : TreePaths Thr T M mem) : Prop where
  /-- no thread that stays awake inside a call is put off for ever, -/
  sched : FairRun p.path
  /-- no thread waits for the mutex for ever, -/
  lock : ∀ i t, ((p.state i).thr t).pc.Wants M →
    ∃ j, i ≤ j ∧ ¬ ((p.state j).thr t).pc.Wants M
  /-- and no sequence number comes round while a thread is on its way to sleep -/
  noWrap : ∀ i, NoWrap (p.trace i)

theorem FairTree.inv (hf : FairTree p) (i : ℕ) : LeaderTree.Inv T (p.view i) :=
  (TreeRuns.inv (p.run i)).tree (hf.noWrap i)

theorem TreePaths.local (p : TreePaths Thr T M mem) (i : ℕ) : Local (p.state i) :=
  p.path.local i

theorem FairTree.moves (hf : FairTree p) {th : Thread Mtx Cnd} (hi : (p.state i).thr t = th)
    (hin : th.pc ≠ .idle) (hawake : ∀ q m, th.pc ≠ .asleep q m) :
    ∃ j pick es, i ≤ j ∧ (p.state j).thr t = th ∧
      run (p.state j) t pick = some (p.state (j + 1), es) ∧ p.trace (j + 1) = p.trace j ++ es :=
  hf.sched.moves hi hin hawake

/-- Each instant is a step in the tree of queues, or nothing. -/
theorem FairTree.sim (hf : FairTree p) (i : ℕ) : TreeSim T (p.view i) (p.view (i + 1)) := by
  cases ha : p.act i with
  | none =>
      obtain ⟨hs, ht⟩ := p.pass i ha
      left
      rw [TreePaths.view, TreePaths.view, hs, ht]
  | some a =>
      obtain ⟨es, hs, ht⟩ := p.take i a ha
      have hinv := TreeRuns.inv (p.run i)
      have hw := hf.noWrap (i + 1)
      rw [ht] at hw
      rw [TreePaths.view, TreePaths.view, ht]
      exact tree_step (p.local i) hinv.ok hinv.seq hw (treeStep_step hs).2

/-- What every step in the tree of queues hands on, unless something else has
come about, holds until it has. -/
theorem FairTree.unless (hf : FairTree p) {R Q : LeaderTree.State Thr Cnd → Prop}
    (hstep : ∀ v v', LeaderTree.Inv T v → LeaderTree.Step T v v' → R v → ¬ Q v → R v' ∨ Q v')
    (hij : i ≤ j) (h : R (p.view i)) : (∃ l, i ≤ l ∧ l ≤ j ∧ Q (p.view l)) ∨ R (p.view j) := by
  refine holds_unless (R := fun l => R (p.view l)) (Q := fun l => Q (p.view l)) ?_ hij h
  intro l hR hQ
  rcases hf.sim l with he | hs
  · left
    rw [he]
    exact hR
  · exact hstep _ _ (hf.inv l) hs hR hQ

/-- Whoever waits in the tree, or leads, waits with the one mutex. -/
theorem TreePaths.calling (p : TreePaths Thr T M mem) (i : ℕ) {t : Thr}
    (h : ((p.state i).thr t).frames ≠ [] ∨ ((p.state i).thr t).pc.blockedOn ≠ none ∨
      ((p.state i).thr t).pc.releasing ≠ none) :
    ∃ d, Calling t (.wait d (some M)) (p.state i) := by
  obtain ⟨hpc, m, hw⟩ := inWait_of_tree (p.local i t) h
  obtain rfl : m = M := (TreeRuns.inv (p.run i)).ok.wait hw
  obtain ⟨⟨d, hd⟩, -⟩ := hw
  exact ⟨d, hpc, hd⟩

/-- Whoever has got out of the queues during a call returns from it. -/
theorem FairTree.returns_of_done (hf : FairTree p) (hij : i ≤ j)
    (hin : Calling u (.wait d (some M)) (p.state i)) (hd : ((p.view j).thr u).Done) :
    p.path.Returns i u (.wait d (some M)) := by
  rcases p.path.stays hij hin with hr | hin'
  · exact hr
  · have ho : ((p.state j).thr u).pc.Outside := (outside_iff (p.trace j)).mpr hd
    exact (hf.sched.returns_of_outside (fun l hl => hf.lock l u hl) hin' ho).mono hij

/-! ## A sleep in vain -/

/-- How far it is to the `FUTEX_WAIT` of a condition. -/
def Pc.untilSleep : Pc Mtx Cnd → ℕ
  | .unlockPoll _ _ i => 3 + (FASTSYNC_MUTEX_SPIN_LOCK_LOOPS - i)
  | .unlockClear _ _ => 2
  | .unlockWake _ _ => 1
  | _ => 0

theorem run_untilSleep {s s' : State Thr Mtx Cnd} {pick : Option Thr}
    {es : List (Ev Thr Mtx Cnd)} {k : Cnd × BitVec 32} (hw : (s.thr t).pc.window = some k)
    (hb : (s.thr t).pc.blockedOn ≠ none) (hs : run s t pick = some (s', es)) :
    (s'.thr t).pc.window = none ∨ (s'.thr t).pc.untilSleep < (s.thr t).pc.untilSleep := by
  cases hpc : (s.thr t).pc with
  | unlockRead m k' | unlockCas m k' | unlockAnd m k' =>
      rw [hpc] at hb
      exact absurd rfl hb
  | unlockPoll m k' n =>
      rw [hpc] at hw
      obtain rfl : k' = some k := hw
      simp only [run, hpc] at hs
      right
      split at hs <;> cases hs
      · rw [State.goto, setThr_thr]
        show (pollLoop m (some k) (n + 1)).untilSleep < 3 + (FASTSYNC_MUTEX_SPIN_LOCK_LOOPS - n)
        rw [pollLoop]
        split
        · show 3 + (FASTSYNC_MUTEX_SPIN_LOCK_LOOPS - (n + 1)) < _
          omega
        · show 2 < _
          omega
      · rw [setThr_thr]
        show 0 < 3 + (FASTSYNC_MUTEX_SPIN_LOCK_LOOPS - n)
        omega
  | unlockClear m k' =>
      simp only [run, hpc] at hs
      cases hs
      right
      rw [State.goto, setThr_thr]
      exact Nat.lt_succ_self 1
  | unlockWake m k' =>
      rw [hpc] at hw
      obtain rfl : k' = some k := hw
      simp only [run, hpc, Option.map_eq_some_iff] at hs
      obtain ⟨s₁, -, hs⟩ := hs
      cases hs
      right
      rw [setThr_thr]
      exact Nat.lt_succ_self 0
  | waitFutex c m cur =>
      simp only [run, hpc] at hs
      left
      split at hs <;> cases hs <;> (rw [State.goto, setThr_thr]; rfl)
  | _ =>
      rw [hpc] at hw
      cases hw

/-- A thread that is on its way to sleep in vain gets out of the queues. -/
theorem FairTree.done_of_stale (hf : FairTree p) (h : ((p.view i).thr u).Stale) :
    ∃ j, i ≤ j ∧ ((p.view j).thr u).Done := by
  induction hn : ((p.state i).thr u).pc.untilSleep using Nat.strongRecOn generalizing i with
  | _ n ih =>
      obtain ⟨c, cur, hw, hb, -⟩ := (phase_stale _ _ _).mp h
      have hidle : ((p.state i).thr u).pc ≠ .idle := by
        intro e
        rw [e] at hw
        cases hw
      have hawake : ∀ q m, ((p.state i).thr u).pc ≠ .asleep q m := by
        intro q m e
        rw [e] at hw
        cases hw
      obtain ⟨j, pick, es, hij, hj, hs, -⟩ := hf.moves rfl hidle hawake
      rcases hf.unless (R := fun v => (v.thr u).Stale) (Q := fun v => (v.thr u).Done)
        (fun v v' _ hst hv _ => (hst.evolves u).of_stale hv) (Nat.le_succ_of_le hij) h with
        ⟨l, hil, -, hd⟩ | hst
      · exact ⟨l, hil, hd⟩
      · -- it has come nearer to its `FUTEX_WAIT`, and not yet got there
        obtain ⟨c', cur', hw', -, -⟩ := (phase_stale _ _ _).mp hst
        rcases run_untilSleep (by rw [hj]; exact hw) (by rw [hj, hb]; simp) hs with
          hnone | hlt
        · exact absurd (hnone.symm.trans hw') (by simp)
        · rw [hj, hn] at hlt
          obtain ⟨l, hjl, hd⟩ := ih _ hlt hst rfl
          exact ⟨l, by omega, hd⟩

/-! ## From leader to led -/

/-- **Whoever is released returns.** By the way its release is owed to it: a
leader that returns has left its branch, and so left nobody behind. -/
theorem FairTree.returns_of_owed (hf : FairTree p)
    (ho : LeaderTree.Owed (fun _ => False) (p.view i) u)
    (hin : Calling u (.wait d (some M)) (p.state i)) :
    p.path.Returns i u (.wait d (some M)) := by
  have hstale : ∀ {u : Thr} {d : Option Cnd} {l : ℕ}, i ≤ l →
      Calling u (.wait d (some M)) (p.state i) → ((p.view l).thr u).Stale →
      p.path.Returns i u (.wait d (some M)) := by
    intro u d l hil hin hst
    obtain ⟨j, hlj, hd⟩ := hf.done_of_stale hst
    exact hf.returns_of_done (Nat.le_trans hil hlj) hin hd
  induction ho generalizing d with
  | base hF => exact hF.elim
  | done hd => exact hf.returns_of_done (Nat.le_refl i) hin hd
  | stale hst => exact hstale (Nat.le_refl i) hin hst
  | @led t u n hw hb _ ih =>
      have hlead : Leads (p.state i) t n := (leads_iff (p.trace i)).mpr hb
      obtain ⟨d', hint⟩ : ∃ d', Calling t (.wait d' (some M)) (p.state i) := by
        apply p.calling i
        rcases hlead with hm | hr
        · exact .inl (List.ne_nil_of_mem hm)
        · exact .inr (.inr (by rw [hr]; simp))
      obtain ⟨j, v, hij, -, hpc⟩ := ih hint
      rcases hf.unless (R := fun v => (v.thr u).WaitsAt n ∧ (v.thr t).Branch n)
        (Q := fun v => (v.thr u).Stale ∨ (v.thr u).Done)
        (fun v v' hv hs h _ => hs.led hv h.1 h.2) hij ⟨hw, hb⟩ with
        ⟨l, hil, -, hst | hd⟩ | ⟨-, hb'⟩
      · exact hstale hil hin hst
      · exact hf.returns_of_done hil hin hd
      · -- nobody leads at the return
        have hlead' : Leads (p.state j) t n := (leads_iff (p.trace j)).mpr hb'
        have hok := p.local j t
        rw [ThreadOk, show ((p.state j).thr t).pc = .ret v from hpc] at hok
        rcases hlead' with hm | hr
        · rw [hok.1] at hm
          cases hm
        · rw [show ((p.state j).thr t).pc = .ret v from hpc] at hr
          cases hr

/-! ## A broadcast, a signal -/

/-- From the increment of the root's `seq` on, whoever waits is owed a release
by the sleepers at the root, and the root is bound. -/
theorem FairTree.owed_of_add (hf : FairTree p) {b w : Thr} {c : Cnd} {pc pc' : Pc Mtx Cnd}
    (hb : ((p.state i).thr b).pc = pc)
    (hpc : pc = .broadcastAdd T.root ∧ pc' = .broadcastMutex T.root ∨
      pc = .signalAdd T.root ∧ pc' = .signalWake T.root)
    (hw : Blocked (p.state i) w c) (hin : Calling w (.wait d (some M)) (p.state i)) :
    p.path.Returns i w (.wait d (some M)) ∨
      ∃ j, i ≤ j ∧ ((p.state j).thr b).pc = pc' ∧ ((p.state j).cond T.root).mutex ≠ none ∧
        LeaderTree.Owed (LeaderTree.AtRoot T) (p.view j) w := by
  have hphase : ∀ fresh, phase fresh pc = .free ∧ phase fresh pc' = .free := by
    intro fresh
    rcases hpc with ⟨rfl, rfl⟩ | ⟨rfl, rfl⟩ <;> exact ⟨rfl, rfl⟩
  obtain ⟨j, pick, es, hij, hj, hs, ht⟩ := hf.moves rfl
    (by rw [hb]; rcases hpc with ⟨rfl, -⟩ | ⟨rfl, -⟩ <;> simp)
    (by rw [hb]; rcases hpc with ⟨rfl, -⟩ | ⟨rfl, -⟩ <;> simp)
  have hbj : ((p.state j).thr b).pc = pc := by
    rw [hj]
    exact hb
  rcases hf.unless (R := fun v => (v.thr w).WaitsAt c) (Q := fun v => (v.thr w).Done)
    (fun v v' _ hst hv _ => (hst.evolves w).of_waitsAt hv) hij ((blocked_iff _).mp hw) with
    ⟨l, hil, -, hd⟩ | hwait
  · exact .inl (hf.returns_of_done hil hin hd)
  have hblk : Blocked (p.state j) w c := (blocked_iff (p.trace j)).mpr hwait
  have hbound := bound_of_blocked (p.run j) (hf.noWrap j) hblk
  have howed := owed_add (p.run j) (hf.noWrap j) hbj (fun f => (hphase f).1)
    (fun f => (hphase f).2) hblk
  have hadd : p.state (j + 1) = ((p.state j).setCond T.root
      { (p.state j).cond T.root with seq := ((p.state j).cond T.root).seq + 1 }).goto b pc' ∧
      es = [.bump b T.root] := by
    rcases hpc with ⟨rfl, rfl⟩ | ⟨rfl, rfl⟩ <;>
      simp only [run, hbj, Option.some.injEq, Prod.mk.injEq] at hs <;>
      exact ⟨hs.1.symm, hs.2.symm⟩
  refine .inr ⟨j + 1, by omega, ?_, step_bound (a := .run b pick) hs hbound, ?_⟩
  · rw [hadd.1, State.goto, setThr_thr]
    rfl
  · rw [TreePaths.view, ht, hadd.1, hadd.2]
    exact howed

/-- It is owed until it is out. -/
theorem FairTree.owed_on (hf : FairTree p) {w : Thr} (hij : i ≤ j)
    (ho : LeaderTree.Owed (LeaderTree.AtRoot T) (p.view i) w) :
    (∃ l, i ≤ l ∧ l ≤ j ∧ ((p.view l).thr w).Done) ∨
      LeaderTree.Owed (LeaderTree.AtRoot T) (p.view j) w := by
  refine hf.unless (R := fun v => LeaderTree.Owed (LeaderTree.AtRoot T) v w)
    (Q := fun v => (v.thr w).Done) ?_ hij ho
  intro v v' hv hs ho hd
  have hatRoot : ∀ t, LeaderTree.AtRoot T (v.thr t) →
      LeaderTree.AtRoot T (v'.thr t) ∨ (v'.thr t).Done := fun t => (hs.evolves t).of_atRoot
  rcases ho.step hv hs hatRoot with ho' | ⟨hfree, -⟩
  · exact .inl ho'
  · rw [hfree] at hd
    exact absurd trivial hd

end Tree

/-- **Every waiter returns from a broadcast on the root.** Let `b` be about to
increment the root's `seq` in `fastsync_cond_broadcast`. Whoever waits
anywhere in the tree then, asleep or on the way to its sleep, returns from its
`fastsync_cond_wait`. -/
theorem broadcast_waiters_return (T : LeaderTree.Tree Cnd) (M : Mtx) (mem : Mtx → FastsyncMutex)
    (p : TreePaths Thr T M mem) (hf : FairTree p) (i : ℕ) (b : Thr)
    (hb : ((p.state i).thr b).pc = .broadcastAdd T.root) (w : Thr) (c : Cnd)
    (hw : Blocked (p.state i) w c) :
    ∃ j d v, i ≤ j ∧ p.trace (j + 1) = p.trace j ++ [.ret w (some (.wait d (some M))) v] := by
  obtain ⟨d, hin⟩ : ∃ d, Calling w (.wait d (some M)) (p.state i) := by
    apply p.calling i
    right
    left
    rw [show ((p.state i).thr w).pc.blockedOn = some c from hw]
    exact Option.some_ne_none c
  have hreturns : p.path.Returns i w (.wait d (some M)) := by
    rcases hf.owed_of_add hb (.inl ⟨rfl, rfl⟩) hw hin with hr | ⟨j, hij, hbj, hbound, howed⟩
    · exact hr
    -- the broadcast finds the root bound, and requeues
    obtain ⟨k, pick, es, hjk, hk, hs, -⟩ := hf.moves rfl (by rw [hbj]; simp)
      (by rw [hbj]; simp)
    have hboundAt : ∀ l, j ≤ l → ((p.state l).cond T.root).mutex ≠ none := by
      intro l hjl
      obtain ⟨tr, -, hlater⟩ := p.later hjl
      exact bound_later hlater hbound
    have hbk : ((p.state (k + 1)).thr b).pc = .broadcastRequeue T.root := by
      obtain ⟨m, hm⟩ := Option.ne_none_iff_exists'.mp (hboundAt k hjk)
      rw [← hk] at hbj
      simp only [run, hbj, hm, Option.some.injEq, Prod.mk.injEq] at hs
      rw [← hs.1, State.goto, setThr_thr]
      rfl
    obtain ⟨l, pick', es', hkl, hl, hs', ht'⟩ := hf.moves rfl
      (by rw [hbk]; simp) (by rw [hbk]; simp)
    obtain ⟨rfl, hview⟩ := run_broadcastRequeue (p.trace l) (by rw [hl]; exact hbk)
      (hboundAt l (by omega)) hs'
    rcases hf.owed_on (by omega : j ≤ l) howed with ⟨l', hjl', -, hd⟩ | howed'
    · exact hf.returns_of_done (by omega) hin hd
    have hall : LeaderTree.Owed (fun _ => False) (p.view (l + 1)) w := by
      rw [TreePaths.view, ht', List.append_nil, hview]
      exact (hf.inv l).owed_wakeAll howed'
    rcases p.path.stays (by omega : i ≤ l + 1) hin with hr | hin'
    · exact hr
    · exact (hf.returns_of_owed hall hin').mono (by omega)
  obtain ⟨j, v, hij, ht⟩ := hf.sched.event_of_returns hreturns
  exact ⟨j, d, v, hij, ht⟩

/-- A short schedule at whose end nobody is in a call meets the conditions. -/
theorem fairTree_ofExec {T : LeaderTree.Tree Cnd} {M : Mtx} {mem : Mtx → FastsyncMutex}
    {as : List (Act Thr Mtx Cnd)} {s : State Thr Mtx Cnd} {tr : List (Ev Thr Mtx Cnd)}
    (he : exec (treeStep M) (State.init mem (treeCond T)) as = some (s, tr))
    (hidle : ∀ t, (s.thr t).pc = .idle) (hlen : tr.length < 2 ^ 32) :
    FairTree (Path.ofExec as he) where
  sched t := by
    have hfair : (Path.ofExec as he).Fair (Awake t) (fun a => a.runs t = true) :=
      Path.ofExec_fair (fun hr => hr.1 (hidle t))
    exact hfair
  lock i t _ := by
    refine ⟨max i as.length, Nat.le_max_left _ _, ?_⟩
    rw [(Path.ofExec_end (h := he) (Nat.le_max_right _ _)).1, hidle t]
    exact id
  noWrap i := by
    have hprefix := Path.trace_prefix (Path.ofExec as he) (Nat.le_max_left i as.length)
    rw [(Path.ofExec_end (h := he) (Nat.le_max_right _ _)).2] at hprefix
    exact .of_length (Nat.lt_of_le_of_lt hprefix.length_le hlen)

/-- The same, once its outcome has been computed. -/
theorem fairTree_of_outcome (T : LeaderTree.Tree Cnd) (M : Mtx) (mem : Mtx → FastsyncMutex)
    (as : List (Act Thr Mtx Cnd))
    (h : (exec (treeStep M) (State.init mem (treeCond T)) as).map (fun r =>
      (decide (∀ t, (r.1.thr t).pc = .idle), decide (r.2.length < 2 ^ 32))) = some (true, true)) :
    ∃ p : TreePaths Thr T M mem, FairTree p ∧
      ∀ n r, exec (treeStep M) (State.init mem (treeCond T)) (as.take n) = some r →
        p.state n = r.1 := by
  obtain ⟨⟨s, tr⟩, he, hv⟩ := Option.map_eq_some_iff.mp h
  simp only [Prod.mk.injEq, decide_eq_true_eq] at hv
  exact ⟨Path.ofExec as he, fairTree_ofExec he hv.1 hv.2, fun n r hr => Path.ofExec_state hr⟩

/-- Thread 0 sleeps at the root, as the leader of node 1; thread 1 broadcasts
on the root, and thread 0 returns. -/
def broadcastSchedule : List (Act (Fin 2) Unit (Fin 2)) :=
  goWait 1 13 ++ [.call 1 (.broadcast (some 0)), .run 1 none, .run 1 none, .run 1 (some 0),
    .run 1 none] ++ List.replicate 6 (.run 0 none)

theorem broadcast_waiters_return_leader : ∃ p : TreePaths (Fin 2) twoNodes () oneMutex,
    FairTree p ∧ ∃ j d v, 18 ≤ j ∧
      p.trace (j + 1) = p.trace j ++ [.ret 0 (some (.wait d (some ()))) v] := by
  obtain ⟨p, hf, hat⟩ := fairTree_of_outcome twoNodes () oneMutex broadcastSchedule (by decide)
  have hwhen : (exec (treeStep ()) (State.init oneMutex (treeCond twoNodes) :
      State (Fin 2) Unit (Fin 2)) (broadcastSchedule.take 18)).map (fun r =>
        ((r.1.thr 0).pc, (r.1.thr 1).pc)) =
      some (.asleep (.cond 0) (), .broadcastAdd 0) := by decide
  obtain ⟨r, hr, hpc⟩ := Option.map_eq_some_iff.mp hwhen
  simp only [Prod.mk.injEq] at hpc
  have hstate : p.state 18 = r.1 := hat 18 r hr
  have hblk : Blocked (p.state 18) 0 0 := by
    rw [hstate, Blocked, hpc.1]
    rfl
  exact ⟨p, hf, broadcast_waiters_return twoNodes () oneMutex p hf 18 1
    (by rw [hstate]; exact hpc.2) 0 0 hblk⟩

/-- **A signal on the root makes a waiter return.** If somebody waits anywhere
in the tree when `b` is about to increment the root's `seq` in
`fastsync_cond_signal`, then somebody who waits then, or later, returns from
its `fastsync_cond_wait`. -/
theorem signal_waiter_returns (T : LeaderTree.Tree Cnd) (M : Mtx) (mem : Mtx → FastsyncMutex)
    (p : TreePaths Thr T M mem) (hf : FairTree p) (i : ℕ) (b : Thr)
    (hb : ((p.state i).thr b).pc = .signalAdd T.root) (w : Thr) (c : Cnd)
    (hw : Blocked (p.state i) w c) :
    ∃ k u n j d v, i ≤ k ∧ Blocked (p.state k) u n ∧ k ≤ j ∧
      p.trace (j + 1) = p.trace j ++ [.ret u (some (.wait d (some M))) v] := by
  have hcalling : ∀ {k u n}, Blocked (p.state k) u n →
      ∃ d, Calling u (.wait d (some M)) (p.state k) := by
    intro k u n hu
    apply p.calling k
    right
    left
    rw [show ((p.state k).thr u).pc.blockedOn = some n from hu]
    exact Option.some_ne_none n
  obtain ⟨d, hin⟩ := hcalling hw
  obtain ⟨k, u, n, d', hik, hu, hreturns⟩ : ∃ k u n d', i ≤ k ∧ Blocked (p.state k) u n ∧
      p.path.Returns k u (.wait d' (some M)) := by
    rcases hf.owed_of_add hb (.inr ⟨rfl, rfl⟩) hw hin with hr | ⟨j, hij, hbj, -, howed⟩
    · exact ⟨i, w, c, d, Nat.le_refl i, hw, hr⟩
    obtain ⟨l, pick, es, hjl, hl, hs, -⟩ := hf.moves rfl (by rw [hbj]; simp)
      (by rw [hbj]; simp)
    rw [← hl] at hbj
    simp only [run, hbj, Option.map_eq_some_iff, Prod.mk.injEq] at hs
    obtain ⟨s₁, hone, hs, -⟩ := hs
    rcases hf.owed_on hjl howed with ⟨l', hjl', -, hd⟩ | howed'
    · exact ⟨i, w, c, d, Nat.le_refl i, hw, hf.returns_of_done (by omega) hin hd⟩
    rcases wakeOne_cases hone with ⟨u, m, hu, rfl⟩ | ⟨hempty, rfl⟩
    · -- the one that is woken
      have hblk : Blocked (p.state l) u T.root := by
        rw [Blocked, hu]
        rfl
      have hub : u ≠ b := by
        intro e
        rw [← e, hu] at hbj
        cases hbj
      have hout : ((p.state (l + 1)).thr u).pc.Outside := by
        rw [← hs]
        simp only [State.goto, State.setThr, Function.update_of_ne hub, Function.update_self]
        exact ⟨rfl, rfl⟩
      obtain ⟨d', hinu⟩ := hcalling hblk
      exact ⟨l, u, T.root, d', by omega, hblk, hf.returns_of_done (Nat.le_succ l) hinu
        ((outside_iff (p.trace (l + 1))).mp hout)⟩
    · -- nobody sleeps at the root: a release is on its way already
      have hnone : ∀ t, ¬ LeaderTree.AtRoot T ((p.view l).thr t) := by
        intro t ht
        obtain ⟨m, hm⟩ := phase_eq_asleep ht
        exact hempty t m hm
      refine ⟨i, w, c, d, Nat.le_refl i, hw, ?_⟩
      rcases p.path.stays (by omega : i ≤ l) hin with hr | hin'
      · exact hr
      · exact (hf.returns_of_owed (howed'.of_none hnone) hin').mono (by omega)
  obtain ⟨j, v, hkj, ht⟩ := hf.sched.event_of_returns hreturns
  exact ⟨k, u, n, j, d', v, hik, hu, hkj, ht⟩

/-- The same with a signal. -/
def signalSchedule : List (Act (Fin 2) Unit (Fin 2)) :=
  goWait 1 13 ++ [.call 1 (.signal (some 0)), .run 1 none, .run 1 (some 0), .run 1 none] ++
    List.replicate 6 (.run 0 none)

theorem signal_waiter_returns_leader : ∃ p : TreePaths (Fin 2) twoNodes () oneMutex,
    FairTree p ∧ ∃ k u n j d v, 18 ≤ k ∧ Blocked (p.state k) u n ∧ k ≤ j ∧
      p.trace (j + 1) = p.trace j ++ [.ret u (some (.wait d (some ()))) v] := by
  obtain ⟨p, hf, hat⟩ := fairTree_of_outcome twoNodes () oneMutex signalSchedule (by decide)
  have hwhen : (exec (treeStep ()) (State.init oneMutex (treeCond twoNodes) :
      State (Fin 2) Unit (Fin 2)) (signalSchedule.take 18)).map (fun r =>
        ((r.1.thr 0).pc, (r.1.thr 1).pc)) =
      some (.asleep (.cond 0) (), .signalAdd 0) := by decide
  obtain ⟨r, hr, hpc⟩ := Option.map_eq_some_iff.mp hwhen
  simp only [Prod.mk.injEq] at hpc
  have hstate : p.state 18 = r.1 := hat 18 r hr
  have hblk : Blocked (p.state 18) 0 0 := by
    rw [hstate, Blocked, hpc.1]
    rfl
  exact ⟨p, hf, signal_waiter_returns twoNodes () oneMutex p hf 18 1
    (by rw [hstate]; exact hpc.2) 0 0 hblk⟩

end Reeact.Sync
