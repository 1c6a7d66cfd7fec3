import Reeact.Fastsync.BarrierLaws

/-!
# fastsync_barrier — the build without futexes

Where `_FUTEX_BARRIER_` is not defined, `fastsync_barrier_wait` gives up the
processor in its wait loop instead of sleeping, and there is nobody to wake
after a reset. The rest of the file is the same in both builds. The two builds
have the same runs, but for the wake-ups: whatever is known of the calls,
arrivals, resets and returns of one is known of the other.
-/

namespace Reeact.Barrier

open Transition BarrierTree

variable {Node Thr : Type} [Fintype Node] [DecidableEq Node] [Fintype Thr]
  [DecidableEq Thr] {T : BarrierTree Node Thr}

/-! ## The code -/

/-- One iteration of the wait loop: `sched_yield()` at the base level,
`spinlock_hint()` at the others, and around again. -/
def spinYield (bar : FastsyncBarrier Node) (b : Node) (curSeq : BitVec 32)
    (frames : List Node) : Thread Node :=
  if curSeq = bar.seq then ⟨.spin b curSeq, frames⟩ else leave frames 0

/-- One step in this build. There is no futex call to be at. -/
def yieldStep (home : Thr → Node) (s : State Node Thr) :
    Act Thr → Option (State Node Thr × List (Ev Node Thr))
  | .spurious _ => none
  | .run t =>
      let frames := (s.thr t).frames
      match (s.thr t).pc with
      | .spin b curSeq => some (s.setThr t (spinYield (s.bar b) b curSeq frames), [])
      | .storeReset b v =>
          some ((s.setBar b ((s.bar b).storeReset v)).setThr t
            (leave frames PTHREAD_BARRIER_SERIAL_THREAD), [.reset t b])
      | .futexWait _ _ | .asleep _ _ | .futexWake _ => none
      | .out | .readSeq _ _ | .addWaiting _ _ _ | .loadSeq _ | .ret _ => step home s (.run t)

/-! ## From the futex build -/

/-- What a thread of the futex build is doing, in the terms of the other: a
sleeper waits in the loop, and who is about to wake is about to return. -/
def Thread.awake (th : Thread Node) : Thread Node :=
  match th.pc with
  | .futexWait b curSeq | .asleep b curSeq => ⟨.spin b curSeq, th.frames⟩
  | .futexWake _ => ⟨.ret PTHREAD_BARRIER_SERIAL_THREAD, []⟩
  | _ => th

def State.awake (s : State Node Thr) : State Node Thr := ⟨s.bar, fun t => (s.thr t).awake⟩

/-- Everything but the wake-ups. -/
def Ev.visible : Ev Node Thr → Bool
  | .wake _ _ => false
  | _ => true

omit [Fintype Node] [DecidableEq Node] [Fintype Thr] in
theorem setThr_thr_self (s : State Node Thr) (t : Thr) (th : Thread Node) :
    (s.setThr t th).thr t = th := Function.update_self ..

omit [Fintype Node] [DecidableEq Node] [Fintype Thr] [DecidableEq Thr] in
@[simp] theorem awake_bar (s : State Node Thr) : s.awake.bar = s.bar := rfl

omit [Fintype Node] [DecidableEq Node] [Fintype Thr] in
@[simp] theorem awake_setThr (s : State Node Thr) (t : Thr) (th : Thread Node) :
    (s.setThr t th).awake = s.awake.setThr t th.awake := by
  simp only [State.awake, State.setThr, State.mk.injEq, true_and]
  funext u
  by_cases hu : u = t
  · subst hu
    rw [Function.update_self, Function.update_self]
  · rw [Function.update_of_ne hu, Function.update_of_ne hu]

omit [Fintype Node] [Fintype Thr] [DecidableEq Thr] in
@[simp] theorem awake_setBar (s : State Node Thr) (b : Node) (bar : FastsyncBarrier Node) :
    (s.setBar b bar).awake = s.awake.setBar b bar := rfl

omit [Fintype Node] [Fintype Thr] [DecidableEq Thr] in
@[simp] theorem awake_wakeAll (s : State Node Thr) (b : Node) : (s.wakeAll b).awake = s.awake := by
  simp only [State.awake, State.wakeAll, State.mk.injEq, true_and]
  funext u
  rcases hth : s.thr u with ⟨pc, fs⟩
  cases pc with
  | asleep b' curSeq =>
      by_cases hb : b' = b
      · simp [hb, Thread.awake]
      · simp [hb]
  | _ => rfl

section

omit [Fintype Node] [DecidableEq Node]

@[simp] theorem leave_awake (fs : List Node) (v : Int) : (leave fs v).awake = leave fs v := by
  cases fs <;> rfl

@[simp] theorem afterAdd_awake (bar : FastsyncBarrier Node) (b : Node) (count curSeq : BitVec 32)
    (fs : List Node) : (afterAdd bar b count curSeq fs).awake = afterAdd bar b count curSeq fs := by
  unfold afterAdd climb
  split
  · split <;> rfl
  · split
    · rfl
    · exact leave_awake fs 1

@[simp] theorem spinStep_awake (bar : FastsyncBarrier Node) (b : Node) (curSeq : BitVec 32)
    (fs : List Node) : (spinStep bar b curSeq fs).awake = spinYield bar b curSeq fs := by
  unfold spinStep spinYield
  split
  · cases fs <;> rfl
  · exact leave_awake fs 0

@[simp] theorem afterReset_awake (bar : FastsyncBarrier Node) (b : Node) (fs : List Node) :
    (afterReset bar b fs).awake = leave fs PTHREAD_BARRIER_SERIAL_THREAD := by
  cases fs with
  | nil =>
      simp only [afterReset]
      split <;> rfl
  | cons c fs => rfl

end

omit [Fintype Node] [DecidableEq Node] [Fintype Thr] in
/-- Nothing has happened to a thread that is still where it was. -/
theorem setThr_awake_self {s : State Node Thr} {t : Thr} {th : Thread Node}
    (h : th.awake = (s.thr t).awake) : (s.setThr t th).awake = s.awake := by
  rw [awake_setThr, h]
  simp only [State.awake, State.setThr, State.mk.injEq, true_and]
  exact Function.update_eq_self t _

omit [Fintype Node] [Fintype Thr] in
/-- **A step of the futex build** is one of the other, or none at all. -/
theorem step_awake {home : Thr → Node} {s s' : State Node Thr} {es : List (Ev Node Thr)}
    (hs : Does (step home) s es s') :
    ∃ es', Run (Does (yieldStep home)) s.awake es' s'.awake ∧
      es'.filter Ev.visible = es.filter Ev.visible := by
  obtain ⟨a, ha⟩ := hs
  cases a with
  | spurious t =>
      obtain ⟨b, curSeq, hpc, rfl, rfl⟩ := step_spurious ha
      rw [setThr_awake_self (by simp [Thread.awake, hpc])]
      exact ⟨[], .nil, rfl⟩
  | run t =>
      rcases hth : s.thr t with ⟨pc, fs⟩
      have hawake : s.awake.thr t = (⟨pc, fs⟩ : Thread Node).awake := congrArg Thread.awake hth
      -- the thread goes on waiting in the loop
      have hquiet : ∀ {th : Thread Node}, th.awake = (s.thr t).awake →
          ∃ es', Run (Does (yieldStep home)) s.awake es' (s.setThr t th).awake ∧
            es'.filter Ev.visible = [] := by
        intro th h
        rw [setThr_awake_self h]
        exact ⟨[], .nil, rfl⟩
      -- the same step
      have hsame : yieldStep home s.awake (.run t) = some (s'.awake, es) →
          ∃ es', Run (Does (yieldStep home)) s.awake es' s'.awake ∧
            es'.filter Ev.visible = es.filter Ev.visible :=
        fun h => ⟨es, .single ⟨_, h⟩, rfl⟩
      simp only [step, hth] at ha
      cases pc with
      | out =>
          cases ha
          apply hsame
          simp only [yieldStep, step, hawake, awake_setThr]
          rfl
      | readSeq b inc =>
          cases ha
          apply hsame
          simp only [yieldStep, step, hawake, awake_setThr]
          rfl
      | addWaiting b inc curSeq =>
          cases ha
          apply hsame
          simp only [yieldStep, step, hawake, awake_setThr, awake_setBar, afterAdd_awake]
          rfl
      | spin b curSeq =>
          cases ha
          apply hsame
          simp only [yieldStep, hawake, awake_setThr, spinStep_awake]
          rfl
      | futexWait b curSeq =>
          simp only at ha
          split at ha
          · cases ha
            exact hquiet (by rw [hth]; rfl)
          · cases ha
            exact hquiet (by rw [hth]; rfl)
      | asleep b curSeq => cases ha
      | loadSeq b =>
          cases ha
          apply hsame
          simp only [yieldStep, step, hawake, awake_setThr]
          rfl
      | storeReset b v =>
          cases ha
          apply hsame
          simp only [yieldStep, hawake, awake_setThr, awake_setBar, afterReset_awake]
          rfl
      | futexWake b =>
          cases ha
          rw [awake_setThr, awake_wakeAll, ← awake_setThr, setThr_awake_self (by rw [hth]; rfl)]
          exact ⟨[], .nil, rfl⟩
      | ret v =>
          cases ha
          apply hsame
          simp only [yieldStep, step, hawake, awake_setThr]
          rfl

/-! ## To the futex build -/

/-- No thread is at a futex call. -/
def NoFutex (s : State Node Thr) : Prop := s.awake = s

omit [Fintype Node] [DecidableEq Node] [Fintype Thr] [DecidableEq Thr] in
theorem NoFutex.thr {s : State Node Thr} (h : NoFutex s) (t : Thr) :
    (s.thr t).awake = s.thr t := congrFun (congrArg State.thr h) t

omit [Fintype Node] [DecidableEq Node] [Fintype Thr] in
theorem NoFutex.setThr {s : State Node Thr} (h : NoFutex s) (t : Thr) {th : Thread Node}
    (hth : th.awake = th) : NoFutex (s.setThr t th) := by
  unfold NoFutex
  rw [awake_setThr, h, hth]

omit [Fintype Node] [Fintype Thr] [DecidableEq Thr] in
theorem NoFutex.setBar {s : State Node Thr} (h : NoFutex s) (b : Node)
    (bar : FastsyncBarrier Node) : NoFutex (s.setBar b bar) := by
  unfold NoFutex
  rw [awake_setBar, h]

omit [Fintype Node] [Fintype Thr] in
/-- With nobody in the queue, the wake-up after the reset changes nothing. -/
theorem NoFutex.wakeAll {s : State Node Thr} (h : NoFutex s) (t : Thr) (b : Node)
    (th th' : Thread Node) : ((s.setThr t th).wakeAll b).setThr t th' = s.setThr t th' := by
  simp only [State.setThr, State.wakeAll, State.mk.injEq, true_and]
  funext u
  by_cases hu : u = t
  · subst hu
    rw [Function.update_self, Function.update_self]
  · rw [Function.update_of_ne hu, Function.update_of_ne hu, Function.update_of_ne hu]
    have hawake := h.thr u
    rcases hpc : s.thr u with ⟨pc, fs⟩
    rw [hpc] at hawake
    cases pc with
    | asleep b' curSeq => cases hawake
    | _ => rfl

omit [Fintype Node] [Fintype Thr] in
/-- **A step of the build without futexes** is a run of the other. -/
theorem yieldStep_awake {home : Thr → Node} {s s' : State Node Thr} {es : List (Ev Node Thr)}
    (h : NoFutex s) (hs : Does (yieldStep home) s es s') :
    NoFutex s' ∧ es.filter Ev.visible = es ∧
      ∃ es', Run (Does (step home)) s es' s' ∧ es'.filter Ev.visible = es.filter Ev.visible := by
  obtain ⟨a, ha⟩ := hs
  cases a with
  | spurious t => cases ha
  | run t =>
      rcases hth : s.thr t with ⟨pc, fs⟩
      simp only [yieldStep, hth] at ha
      -- the same step
      have hsame : step home s (.run t) = some (s', es) →
          ∃ es', Run (Does (step home)) s es' s' ∧ es'.filter Ev.visible = es.filter Ev.visible :=
        fun h => ⟨es, .single ⟨_, h⟩, rfl⟩
      cases pc with
      | out =>
          simp only at ha
          have hrun := hsame ha
          simp only [step, hth] at ha
          cases ha
          exact ⟨h.setThr t rfl, rfl, hrun⟩
      | readSeq b inc =>
          simp only at ha
          have hrun := hsame ha
          simp only [step, hth] at ha
          cases ha
          exact ⟨h.setThr t rfl, rfl, hrun⟩
      | addWaiting b inc curSeq =>
          simp only at ha
          have hrun := hsame ha
          simp only [step, hth] at ha
          cases ha
          refine ⟨(h.setBar b _).setThr t (afterAdd_awake ..), ?_, hrun⟩
          split <;> rfl
      | loadSeq b =>
          simp only at ha
          have hrun := hsame ha
          simp only [step, hth] at ha
          cases ha
          exact ⟨h.setThr t rfl, rfl, hrun⟩
      | ret v =>
          simp only at ha
          have hrun := hsame ha
          simp only [step, hth] at ha
          cases ha
          exact ⟨h.setThr t rfl, rfl, hrun⟩
      | spin b curSeq =>
          cases ha
          by_cases hseq : curSeq = (s.bar b).seq
          · -- around the loop: the other build need not go to sleep
            have hstay : s.setThr t (spinYield (s.bar b) b curSeq fs) = s := by
              simp only [spinYield, if_pos hseq, State.setThr, ← hth, Function.update_eq_self]
            rw [hstay]
            exact ⟨h, rfl, [], .nil, rfl⟩
          · refine ⟨h.setThr t ?_, rfl, hsame ?_⟩
            · simp only [spinYield, if_neg hseq, leave_awake]
            · simp only [step, hth, spinStep, spinYield, if_neg hseq]
      | storeReset b v =>
          cases ha
          refine ⟨(h.setBar b _).setThr t (leave_awake ..), rfl, ?_⟩
          have hreset : step home s (.run t) = some ((s.setBar b ((s.bar b).storeReset v)).setThr t
              (afterReset (s.bar b) b fs), [.reset t b]) := by
            simp only [step, hth]
          cases fs with
          | cons c fs => exact ⟨[.reset t b], .single ⟨_, hreset⟩, rfl⟩
          | nil =>
              by_cases htotal : 1 < (s.bar b).totalCount
              · -- it also wakes a queue in which nobody is
                simp only [afterReset, if_pos htotal] at hreset
                have hwake := (h.setBar b ((s.bar b).storeReset v)).wakeAll t b ⟨.futexWake b, []⟩
                  ⟨.ret PTHREAD_BARRIER_SERIAL_THREAD, []⟩
                have hnext : step home ((s.setBar b ((s.bar b).storeReset v)).setThr t
                    ⟨.futexWake b, []⟩) (.run t)
                      = some ((s.setBar b ((s.bar b).storeReset v)).setThr t
                          ⟨.ret PTHREAD_BARRIER_SERIAL_THREAD, []⟩, [.wake t b]) := by
                  simp only [step, setThr_thr_self, hwake]
                exact ⟨[.reset t b] ++ [.wake t b],
                  (Run.single ⟨_, hreset⟩).append (.single ⟨_, hnext⟩), rfl⟩
              · simp only [afterReset, if_neg htotal] at hreset
                exact ⟨[.reset t b], .single ⟨_, hreset⟩, rfl⟩
      | futexWait b curSeq => cases ha
      | asleep b curSeq => cases ha
      | futexWake b => cases ha

/-! ## The law -/

/-- The runs of a tree in the build without futexes. -/
abbrev YieldRuns (T : BarrierTree Node Thr) (mem : Node → FastsyncBarrier Node) :
    List (Ev Node Thr) → State Node Thr → Prop :=
  Run (Does (yieldStep T.home)) (State.init T mem)

theorem noFutex_init (T : BarrierTree Node Thr) (mem : Node → FastsyncBarrier Node) :
    NoFutex (State.init T mem) := rfl

theorem YieldRuns.noFutex {mem : Node → FastsyncBarrier Node} {tr : List (Ev Node Thr)}
    {s : State Node Thr} (h : YieldRuns T mem tr s) :
    NoFutex s ∧ tr.filter Ev.visible = tr := by
  refine Run.invariant (P := fun tr s => NoFutex s ∧ tr.filter Ev.visible = tr)
    ⟨noFutex_init T mem, rfl⟩ ?_ h
  intro tr s es s' _ hs hstep
  obtain ⟨hs', hes, -⟩ := yieldStep_awake hs.1 hstep
  exact ⟨hs', by rw [List.filter_append, hs.2, hes]⟩

/-- **The two builds agree.** For every tree, what the build without futexes
can do is what the futex build can do, but for the wake-ups: the same calls,
arrivals, resets and returns, in the same orders, with the same results. -/
theorem builds_agree (T : BarrierTree Node Thr) (mem : Node → FastsyncBarrier Node)
    (vs : List (Ev Node Thr)) :
    (∃ s, YieldRuns T mem vs s) ↔ ∃ tr s, Runs T mem tr s ∧ tr.filter Ev.visible = vs := by
  constructor
  · rintro ⟨s, h⟩
    obtain ⟨tr, s', hr, -, hvis⟩ := Run.simulation (Does (step T.home)) Ev.visible
      (fun s r => r = s ∧ NoFutex s) (by
        rintro s es s' r ⟨rfl, hr⟩ hs
        obtain ⟨hs', -, es', hrun, hvis⟩ := yieldStep_awake hr hs
        exact ⟨es', s', hrun, ⟨rfl, hs'⟩, hvis⟩) ⟨rfl, noFutex_init T mem⟩ h
    exact ⟨tr, s', hr, hvis.trans h.noFutex.2⟩
  · rintro ⟨tr, s, h, rfl⟩
    obtain ⟨tr', s', hr, -, hvis⟩ := Run.simulation (Does (yieldStep T.home)) Ev.visible
      (fun s r => r = s.awake) (by
        rintro s es s' r rfl hs
        obtain ⟨es', hrun, hvis⟩ := step_awake hs
        exact ⟨es', _, hrun, rfl, hvis⟩)
      (rfl : State.init T mem = (State.init T mem).awake) h
    have hr' : YieldRuns T mem tr' s' := hr
    rw [hr'.noFutex.2] at hvis
    exact ⟨s', hvis ▸ hr⟩

end Reeact.Barrier
