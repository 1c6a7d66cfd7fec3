import Reeact.Fastsync.CondBranch
import Reeact.Fastsync.CondLive

/-!
# fastsync_cond — nobody returns unless signalled

As long as nobody signals a condition or one above it, nobody who waits on it
gets out: its `seq` stays as it is, and so does everyone in its queue, be it
the leader of a node below. Only a futex wait that returns by itself is a
reason besides.
-/

namespace Reeact.Sync

open Transition

variable {Thr Mtx Cnd : Type} [DecidableEq Thr] [Fintype Thr] [DecidableEq Mtx]
  [DecidableEq Cnd]

/-! ## The client -/

/-- A step of the threads that use the tree with `M`; no futex wait returns by
itself. -/
def exactStep (M : Mtx) (s : State Thr Mtx Cnd) :
    Act Thr Mtx Cnd → Option (State Thr Mtx Cnd × List (Ev Thr Mtx Cnd))
  | .spurious _ => none
  | a => treeStep M s a

/-- All interleavings of threads that use the tree with `M`, under a kernel
that wakes nobody without need. -/
abbrev ExactRuns (T : LeaderTree.Tree Cnd) (M : Mtx) (mem : Mtx → FastsyncMutex) :
    List (Ev Thr Mtx Cnd) → State Thr Mtx Cnd → Prop :=
  Run (Does (exactStep M)) (State.init mem (treeCond T))

/-- Signals a condition of `U`, or broadcasts on one. -/
def Call.Signals (U : Cnd → Prop) : Call Mtx Cnd → Prop
  | .signal (some n) | .broadcast (some n) => U n
  | _ => False

/-- The condition a call of `fastsync_cond_wait` is at, until it is out. -/
def Pc.node : Pc Mtx Cnd → Option Cnd
  | .waitMutex c _ | .waitNull c _ | .waitCas c _ | .waitUseChild c _ | .waitSetChild c _ _
  | .waitCurSeq c _ | .waitFutex c _ _ => some c
  | .unlockRead _ k | .unlockCas _ k | .unlockAnd _ k | .unlockPoll _ k _ | .unlockClear _ k
  | .unlockWake _ k => k.map Prod.fst
  | .asleep (.cond c) _ => some c
  | _ => none

/-- Waiting on a condition of `U`, or leading one. -/
def Thread.Involved (U : Cnd → Prop) (th : Thread Mtx Cnd) : Prop :=
  (th.pc ≠ .idle ∧ ∃ d m, U d ∧ th.call = some (.wait (some d) (some m))) ∨
    ∃ n, U n ∧ th.InBranch n

/-- Nothing has happened to the conditions of `U`: nobody signals them, and
everyone involved is still at one of them. -/
structure Dormant (U : Cnd → Prop) (s : State Thr Mtx Cnd) : Prop where
  call : ∀ t c, (s.thr t).call = some c → ¬ c.Signals U
  seq : ∀ n, U n → (s.cond n).seq = 0
  snap : ∀ t n cur, (s.thr t).pc.window = some (n, cur) → U n → cur = 0
  node : ∀ t, (s.thr t).Involved U → ∃ n, U n ∧ (s.thr t).pc.node = some n

section Step

variable {T : LeaderTree.Tree Cnd} {M : Mtx} {U : Cnd → Prop} {s s' : State Thr Mtx Cnd}
  {t u : Thr} {es : List (Ev Thr Mtx Cnd)} {pick : Option Thr} {n : Cnd} {m : Mtx}

/-- Whoever is at a condition of `U` is so after its next step: it goes up, or
it sleeps. -/
theorem run_node (hl : Local s) (hT : TreeOk T M s) (hd : Dormant U s)
    (hup : ∀ n p, U n → T.parent n = some p → U p) (hs : run s t pick = some (s', es))
    (hn : (s.thr t).pc.node = some n) (hU : U n) :
    ∃ n', U n' ∧ (s'.thr t).pc.node = some n' := by
  have hto : ∀ {s₁ : State Thr Mtx Cnd} {th : Thread Mtx Cnd} {n' : Cnd}, U n' →
      th.pc.node = some n' → ∃ n', U n' ∧ ((s₁.setThr t th).thr t).pc.node = some n' := by
    intro s₁ th n' hn' hth
    rw [setThr_thr]
    exact ⟨n', hn', hth⟩
  have hword : (s.cond n).word = 0 := by
    rw [FastsyncCond.word, hd.seq n hU]
    rfl
  have hok := hl t
  rw [ThreadOk] at hok
  cases hpc : (s.thr t).pc with
  | waitMutex c m =>
      rw [hpc] at hn
      cases hn
      simp only [run, hpc] at hs
      split at hs <;> cases hs <;> exact hto hU rfl
  | waitNull c m =>
      rw [hpc] at hn
      cases hn
      have hnull := hT.null t n m (.inl hpc)
      simp only [run, hpc, if_pos hnull] at hs
      cases hs
      exact hto hU rfl
  | waitCas c m =>
      rw [hpc] at hn
      cases hn
      have hnull := hT.null t n m (.inr hpc)
      simp only [run, hpc, if_pos hnull] at hs
      cases hs
      exact hto hU rfl
  | waitUseChild c m =>
      rw [hpc] at hn
      cases hn
      simp only [run, hpc] at hs
      split at hs
      · split at hs <;> cases hs <;> exact hto hU rfl
      · cases hs
        exact hto hU rfl
  | waitSetChild c m q =>
      rw [hpc] at hn hok
      cases hn
      have hq : T.parent n = some q := (hT.parent n).symm.trans hok.2.2.2
      simp only [run, hpc] at hs
      cases hs
      exact hto (hup n q hU hq) rfl
  | waitCurSeq c m =>
      rw [hpc] at hn
      cases hn
      simp only [run, hpc] at hs
      cases hs
      exact hto hU rfl
  | waitFutex c m cur =>
      rw [hpc] at hn
      cases hn
      have hcur : cur = 0 := hd.snap t n cur (by rw [hpc]; rfl) hU
      simp only [run, hpc, hcur, if_pos hword] at hs
      cases hs
      exact hto hU rfl
  | unlockRead m k =>
      rw [hpc] at hn
      simp only [run, hpc] at hs
      split at hs <;> cases hs <;> exact hto hU hn
  | unlockCas m k =>
      rw [hpc] at hn
      simp only [run, hpc] at hs
      split at hs <;> cases hs
      · refine hto hU ?_
        cases k with
        | none => cases hn
        | some k => exact hn
      · exact hto hU hn
  | unlockAnd m k =>
      rw [hpc] at hn
      simp only [run, hpc] at hs
      cases hs
      refine hto hU ?_
      show (pollLoop m k 0).node = some n
      rw [pollLoop]
      split <;> exact hn
  | unlockPoll m k i =>
      rw [hpc] at hn
      simp only [run, hpc] at hs
      split at hs <;> cases hs
      · refine hto hU ?_
        show (pollLoop m k (i + 1)).node = some n
        rw [pollLoop]
        split <;> exact hn
      · refine hto hU ?_
        cases k with
        | none => cases hn
        | some k => exact hn
  | unlockClear m k =>
      rw [hpc] at hn
      simp only [run, hpc] at hs
      cases hs
      exact hto hU hn
  | unlockWake m k =>
      rw [hpc] at hn
      simp only [run, hpc, Option.map_eq_some_iff] at hs
      obtain ⟨s₁, -, hs⟩ := hs
      cases hs
      refine hto hU ?_
      cases k with
      | none => cases hn
      | some k => exact hn
  | asleep q m' => simp [run, hpc] at hs
  | _ =>
      rw [hpc] at hn
      cases hn

theorem wakeOne_other {q : Key Mtx Cnd} (h : s.wakeOne q pick = some s')
    (hu : (s.thr u).pc = .asleep (.cond n) m) (hq : q ≠ .cond n) : s'.thr u = s.thr u := by
  rcases wakeOne_cases h with ⟨v, m', hv, rfl⟩ | ⟨-, rfl⟩
  · have huv : u ≠ v := by
      rintro rfl
      rw [hu] at hv
      cases hv
      exact hq rfl
    simp only [State.goto, State.setThr, Function.update_of_ne huv]
  · rfl

theorem requeue_other {c : Cnd} {m' : Mtx} (h : s.requeue c m' pick = some s')
    (hu : (s.thr u).pc = .asleep (.cond n) m) (hc : c ≠ n) : s'.thr u = s.thr u := by
  simp only [State.requeue, Option.map_eq_some_iff] at h
  obtain ⟨s₁, h₁, rfl⟩ := h
  have hsame : s₁.thr u = s.thr u := wakeOne_other h₁ hu (fun e => hc (Key.cond.inj e))
  rw [moveAll_other, hsame]
  intro m'' hpc
  rw [hsame, hu] at hpc
  cases hpc
  exact hc rfl

/-- Only a wake on its condition takes a sleeper out of the queue. -/
theorem run_asleep (hs : run s t pick = some (s', es)) (hut : u ≠ t)
    (hu : (s.thr u).pc = .asleep (.cond n) m) :
    s'.thr u = s.thr u ∨ (s.thr t).pc = .signalWake n ∨ (s.thr t).pc = .broadcastRequeue n ∨
      ∃ m', (s.thr t).pc = .waitRequeue n m' := by
  have hset : ∀ (s₁ : State Thr Mtx Cnd) (th : Thread Mtx Cnd),
      (s₁.setThr t th).thr u = s₁.thr u := by
    intro s₁ th
    simp only [State.setThr, Function.update_of_ne hut]
  cases hpc : (s.thr t).pc with
  | unlockWake m' k =>
      simp only [run, hpc, Option.map_eq_some_iff] at hs
      obtain ⟨s₁, h₁, hs⟩ := hs
      cases hs
      exact .inl ((hset _ _).trans (wakeOne_other h₁ hu (fun e => by cases e)))
  | signalWake c =>
      by_cases hc : c = n
      · exact .inr (.inl (by rw [hc]))
      · simp only [run, hpc, Option.map_eq_some_iff] at hs
        obtain ⟨s₁, h₁, hs⟩ := hs
        cases hs
        exact .inl ((hset _ _).trans (wakeOne_other h₁ hu (fun e => hc (Key.cond.inj e))))
  | waitRequeue c m' =>
      by_cases hc : c = n
      · exact .inr (.inr (.inr ⟨m', by rw [hc]⟩))
      · simp only [run, hpc, Option.map_eq_some_iff] at hs
        obtain ⟨s₁, h₁, hs⟩ := hs
        cases hs
        exact .inl ((hset _ _).trans (requeue_other h₁ hu hc))
  | broadcastRequeue c =>
      by_cases hc : c = n
      · exact .inr (.inr (.inl (by rw [hc])))
      · simp only [run, hpc] at hs
        split at hs
        · simp only [Option.map_eq_some_iff] at hs
          obtain ⟨s₁, h₁, hs⟩ := hs
          cases hs
          exact .inl ((hset _ _).trans (requeue_other h₁ hu hc))
        · cases hs
          exact .inl (hset _ _)
  | idle => simp [run, hpc] at hs
  | asleep q m' => simp [run, hpc] at hs
  | _ =>
      left
      simp only [run, hpc] at hs
      repeat' split at hs
      all_goals
        cases hs
        exact hset _ _

/-- Whoever becomes involved by a step of its own was at a condition of `U`. -/
theorem run_involved (hs : run s t pick = some (s', es)) (hi : (s'.thr t).Involved U) :
    (s.thr t).Involved U ∨ ∃ n, U n ∧ (s.thr t).pc.node = some n := by
  rcases hi with ⟨-, d, m, hU, hcall⟩ | ⟨n, hU, hb⟩
  · left
    left
    refine ⟨?_, d, m, hU, ?_⟩
    · intro e
      simp [run, e] at hs
    · rcases run_call hs with hsame | hnone
      · exact hsame ▸ hcall
      · rw [hnone] at hcall
        cases hcall
  · rcases run_inBranch hs hb with hb' | ⟨m, q, hpc, -⟩
    · exact .inl (.inr ⟨n, hU, hb'⟩)
    · exact .inr ⟨n, hU, by rw [hpc]; rfl⟩

omit [DecidableEq Mtx] [DecidableEq Cnd] in
/-- A thread that is moved by others was involved before. -/
theorem Moved.involved {cond : Cnd → FastsyncCond Mtx Cnd} {th th' : Thread Mtx Cnd}
    (h : Moved cond th th') (hi : th'.Involved U) : th.Involved U := by
  rcases hi with ⟨hpc, d, m, hU, hcall⟩ | ⟨n, hU, hb⟩
  · refine .inl ⟨?_, d, m, hU, h.call ▸ hcall⟩
    cases h with
    | same => exact hpc
    | woken h' => simp [h']
    | requeued h' _ => simp [h']
  · exact .inr ⟨n, hU, h.inBranch hb⟩

omit [DecidableEq Thr] [Fintype Thr] [DecidableEq Mtx] [DecidableEq Cnd] in
/-- Nobody in a position that wakes the sleepers of `n` if they are dormant. -/
theorem Dormant.not_waking (hl : Local s) (hd : Dormant U s) (hU : U n) (t : Thr) :
    (s.thr t).pc ≠ .signalWake n ∧ (s.thr t).pc ≠ .broadcastRequeue n ∧
      ∀ m, (s.thr t).pc ≠ .waitRequeue n m := by
  have hok := hl t
  rw [ThreadOk] at hok
  refine ⟨fun hpc => ?_, fun hpc => ?_, fun m hpc => ?_⟩
  · rw [hpc] at hok
    exact hd.call t _ hok.2 hU
  · rw [hpc] at hok
    exact hd.call t _ hok.2 hU
  · obtain ⟨n', -, hn'⟩ := hd.node t (.inr ⟨n, hU, .inr (by rw [hpc]; rfl)⟩)
    rw [hpc] at hn'
    cases hn'

omit [Fintype Thr] [DecidableEq Mtx] in
/-- `seq` moves under a signal, a broadcast, or the leader. -/
theorem Dormant.seq_same (hl : Local s) (hd : Dormant U s) (heff : CondEffect s t s' es)
    (hU : U n) : (s'.cond n).seq = (s.cond n).seq := by
  have hother : ∀ {c : Cnd} {v : FastsyncCond Mtx Cnd}, (c = n → v.seq = (s.cond n).seq) →
      (Function.update s.cond c v n).seq = (s.cond n).seq := by
    intro c v hv
    by_cases hc : n = c
    · rw [hc, Function.update_self, hv hc.symm, hc]
    · rw [Function.update_of_ne hc]
  have hok := hl t
  rw [ThreadOk] at hok
  cases heff with
  | quiet _ hc _ _ => rw [hc]
  | bind _ _ hs =>
      subst hs
      exact hother (fun e => by rw [e])
  | mark _ hs =>
      subst hs
      exact hother (fun e => by rw [e])
  | snap _ hs | load _ hs =>
      subst hs
      rfl
  | clear _ hs =>
      subst hs
      exact hother (fun e => by rw [e])
  | @store c m v hpc hs =>
      subst hs
      refine hother (fun e => ?_)
      subst e
      obtain ⟨n', -, hn'⟩ := hd.node t (.inr ⟨c, hU, .inr (by rw [hpc]; rfl)⟩)
      rw [hpc] at hn'
      cases hn'
  | @add c pc hor hs =>
      subst hs
      refine hother (fun e => ?_)
      subst e
      rcases hor with ⟨hpc, -⟩ | ⟨hpc, -⟩ <;> rw [hpc] at hok <;>
        exact absurd hU (hd.call t _ hok.2)

omit [Fintype Thr] [DecidableEq Mtx] in
/-- A thread on its way to sleep has read its word just now, or before. -/
theorem CondEffect.window (heff : CondEffect s t s' es) :
    (s'.thr t).pc.window = none ∨ (s'.thr t).pc.window = (s.thr t).pc.window ∨
      ∃ c, (s'.thr t).pc.window = some (c, (s.cond c).word) := by
  have hnone : ∀ {s₁ : State Thr Mtx Cnd} {th : Thread Mtx Cnd}, s' = s₁.setThr t th →
      th.pc.window = none → (s'.thr t).pc.window = none := by
    intro s₁ th hs hth
    rw [thr_of_setThr hs]
    exact hth
  cases heff with
  | quiet _ _ hw _ =>
      rcases hw with hw | hw
      · exact .inl hw
      · exact .inr (.inl hw)
  | bind _ _ hs => exact .inl (hnone hs rfl)
  | mark _ hs => exact .inl (hnone hs rfl)
  | @snap c m _ hs =>
      refine .inr (.inr ⟨c, ?_⟩)
      rw [thr_of_setThr hs]
      rfl
  | load _ hs => exact .inl (hnone hs rfl)
  | store _ hs => exact .inl (hnone hs rfl)
  | @clear c m _ hs => exact .inl (hnone hs (plain_leave _ m 0).1)
  | @add c pc hor hs =>
      left
      rcases hor with ⟨-, rfl⟩ | ⟨-, rfl⟩ <;> exact hnone hs rfl

/-- **A step of a thread inside a call leaves dormant what is dormant.** -/
theorem Dormant.run (hl : Local s) (hT : TreeOk T M s) (hd : Dormant U s)
    (hup : ∀ n p, U n → T.parent n = some p → U p) (hs : run s t pick = some (s', es)) :
    Dormant U s' where
  call u c hc := by
    by_cases hut : u = t
    · subst hut
      rcases run_call hs with hsame | hnone
      · exact hd.call u c (hsame ▸ hc)
      · rw [hnone] at hc
        cases hc
    · rw [(run_moved hl hs hut).call] at hc
      exact hd.call u c hc
  seq n hU := by
    rw [hd.seq_same hl (run_cond hs) hU]
    exact hd.seq n hU
  snap u n cur hw hU := by
    by_cases hut : u = t
    · subst hut
      rcases (run_cond hs).window with hnone | hsame | ⟨c, hword⟩
      · rw [hnone] at hw
        cases hw
      · exact hd.snap u n cur (hsame ▸ hw) hU
      · rw [hword] at hw
        cases hw
        rw [FastsyncCond.word, hd.seq n hU]
        rfl
    · rw [(run_moved hl hs hut).window] at hw
      exact hd.snap u n cur hw hU
  node u hi := by
    by_cases hut : u = t
    · subst hut
      obtain ⟨n, hU, hn⟩ : ∃ n, U n ∧ (s.thr u).pc.node = some n := by
        rcases run_involved hs hi with hi' | hat
        · exact hd.node u hi'
        · exact hat
      exact run_node hl hT hd hup hs hn hU
    · have hm := run_moved hl hs hut
      obtain ⟨n, hU, hn⟩ := hd.node u (hm.involved hi)
      -- whoever waits where nobody signals is left alone
      have hasleep : ∀ {q : Key Mtx Cnd} {m : Mtx}, (s.thr u).pc = .asleep q m →
          s'.thr u = s.thr u := by
        intro q m hpc
        rw [hpc] at hn
        cases q with
        | mutex m' => cases hn
        | cond c =>
            cases hn
            obtain ⟨hsig, hbro, hreq⟩ := hd.not_waking hl hU t
            rcases run_asleep hs hut hpc with hsame | h | h | ⟨m', h⟩
            · exact hsame
            · exact absurd h hsig
            · exact absurd h hbro
            · exact absurd h (hreq m')
      have hsame : s'.thr u = s.thr u := by
        generalize hth : s'.thr u = th at hm
        cases hm with
        | same => rfl
        | woken hpc => exact hth.symm.trans (hasleep hpc)
        | requeued hpc _ => exact hth.symm.trans (hasleep hpc)
      rw [hsame]
      exact ⟨n, hU, hn⟩

/-- So does a call that signals none of it. -/
theorem Dormant.enter (hl : Local s) (hd : Dormant U s) {c : Call Mtx Cnd}
    (hs : step s (.call t c) = some (s', es)) (hc : ¬ c.Signals U) : Dormant U s' := by
  obtain ⟨⟨hidle, -⟩, rfl, -⟩ := step_call hs
  have hother : ∀ {u}, u ≠ t →
      (s.setThr t { s.thr t with pc := c.entry, call := some c }).thr u = s.thr u := by
    intro u hut
    simp only [State.setThr, Function.update_of_ne hut]
  refine ⟨fun u d hd' => ?_, hd.seq, fun u n cur hw hU => ?_, fun u hi => ?_⟩
  · by_cases hut : u = t
    · subst hut
      rw [setThr_thr] at hd'
      cases hd'
      exact hc
    · rw [hother hut] at hd'
      exact hd.call u d hd'
  · by_cases hut : u = t
    · subst hut
      rw [setThr_thr, show ({ s.thr u with pc := c.entry, call := some c } :
        Thread Mtx Cnd).pc.window = none from (plain_entry c).1] at hw
      cases hw
    · rw [hother hut] at hw
      exact hd.snap u n cur hw hU
  · by_cases hut : u = t
    · subst hut
      rw [setThr_thr] at hi ⊢
      rcases hi with ⟨-, d, m, hU, hcall⟩ | ⟨n, -, hf | hb⟩
      · cases hcall
        exact ⟨d, hU, rfl⟩
      · have hok := hl u
        rw [ThreadOk, hidle] at hok
        rw [show (s.thr u).frames = [] from hok] at hf
        cases hf
      · rw [show ({ s.thr u with pc := c.entry, call := some c } : Thread Mtx Cnd).pc.branch =
          none from branch_entry c] at hb
        cases hb
    · rw [hother hut] at hi ⊢
      exact hd.node u hi

omit [DecidableEq Thr] [Fintype Thr] [DecidableEq Mtx] [DecidableEq Cnd] in
theorem Dormant.init {mem : Mtx → FastsyncMutex} :
    Dormant U (State.init mem (treeCond T) : State Thr Mtx Cnd) where
  call t c hc := by cases hc
  seq n _ := rfl
  snap t n cur hw := by cases hw
  node t hi := by
    rcases hi with ⟨hpc, -⟩ | ⟨n, -, hf | hb⟩
    · exact absurd rfl hpc
    · cases hf
    · cases hb

end Step

/-! ## Whole runs -/

section Runs

variable {T : LeaderTree.Tree Cnd} {M : Mtx} {mem : Mtx → FastsyncMutex} {U : Cnd → Prop}
  {tr es : List (Ev Thr Mtx Cnd)} {s s' : State Thr Mtx Cnd} {t : Thr}

theorem exactStep_treeStep {a : Act Thr Mtx Cnd} (h : exactStep M s a = some (s', es)) :
    treeStep M s a = some (s', es) := by
  cases a with
  | spurious t => cases h
  | call t c => exact h
  | run t pick => exact h

theorem ExactRuns.tree (h : ExactRuns T M mem tr s) : TreeRuns T M mem tr s := by
  apply Run.mono _ h
  rintro s es s' ⟨a, ha⟩
  exact ⟨a, exactStep_treeStep ha⟩

end Runs

end Reeact.Sync
