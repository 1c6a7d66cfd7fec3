import Reeact.Fastsync.BarrierLaws

/-!
# fastsync_barrier — no lost wake-up, no deadlock

A sleeper whose barrier has moved on is still owed the wake of the thread
that reset the barrier. And when every thread is inside, some thread is
neither asleep nor in a loop that cannot end: going up the tree, each barrier
is either incomplete because of such a thread, or complete and led by one.
-/

namespace Reeact.Barrier

open Transition BarrierTree

variable {Node Thr : Type} [Fintype Node] [DecidableEq Node] [Fintype Thr]
  [DecidableEq Thr] {T : BarrierTree Node Thr}

/-! ## The wake that is owed -/

/-- The thread that made the last reset of `n`. -/
def lastReset (n : Node) (tr : List (Ev Node Thr)) : Option Thr :=
  tr.foldl (fun acc e =>
    match e with
    | .reset t b => if b = n then some t else acc
    | _ => acc) none

omit [Fintype Node] [Fintype Thr] [DecidableEq Thr] in
theorem lastReset_append (n : Node) (tr : List (Ev Node Thr)) (e : Ev Node Thr) :
    lastReset n (tr ++ [e]) =
      match e with
      | .reset t b => if b = n then some t else lastReset n tr
      | _ => lastReset n tr := by
  simp only [lastReset, List.foldl_append, List.foldl_cons, List.foldl_nil]

/-- Whoever is about to wake the sleepers of a barrier is the thread that
reset it last, and a sleeper whose `seq` has moved has one to wake it. -/
structure WakeOk (tr : List (Ev Node Thr)) (s : State Node Thr) : Prop where
  waker : ∀ u b, (s.thr u).pc = .futexWake b → lastReset b tr = some u
  sleeper : ∀ t b curSeq, (s.thr t).pc = .asleep b curSeq → (s.bar b).seq ≠ curSeq →
    ∃ u, (s.thr u).pc = .futexWake b

omit [Fintype Node] [Fintype Thr] in
/-- A step of a thread that neither resets nor wakes. -/
theorem WakeOk.own {tr tr' : List (Ev Node Thr)} {s s' : State Node Thr} {t : Thr}
    {th : Thread Node} (h : WakeOk tr s) (hl : ∀ b, lastReset b tr' = lastReset b tr)
    (hseq : ∀ b, (s'.bar b).seq = (s.bar b).seq) (hthr : s'.thr = Function.update s.thr t th)
    (hold : ∀ b, (s.thr t).pc ≠ .futexWake b) (hnew : ∀ b, th.pc ≠ .futexWake b)
    (hsleep : ∀ b curSeq, th.pc = .asleep b curSeq → (s.bar b).seq = curSeq) :
    WakeOk tr' s' where
  waker u b hu := by
    rw [hl b]
    rw [hthr] at hu
    by_cases hut : u = t
    · subst hut
      rw [Function.update_self] at hu
      exact absurd hu (hnew b)
    · rw [Function.update_of_ne hut] at hu
      exact h.waker u b hu
  sleeper u b curSeq hu hne := by
    rw [hseq b] at hne
    have hu' : (s.thr u).pc = .asleep b curSeq := by
      rw [hthr] at hu
      by_cases hut : u = t
      · subst hut
        rw [Function.update_self] at hu
        exact absurd (hsleep b curSeq hu) hne
      · rwa [Function.update_of_ne hut] at hu
    obtain ⟨w, hw⟩ := h.sleeper u b curSeq hu' hne
    have hwt : w ≠ t := by
      intro e
      subst e
      exact hold b hw
    refine ⟨w, ?_⟩
    rw [hthr, Function.update_of_ne hwt]
    exact hw

omit [Fintype Node] [Fintype Thr] in
theorem WakeOk.underway {tr : List (Ev Node Thr)} {s : State Node Thr} {t : Thr}
    {th : Thread Node} (h : WakeOk tr s) (hold : ∀ b, (s.thr t).pc ≠ .futexWake b)
    (hnew : th.pc.Underway) : WakeOk tr (s.setThr t th) := by
  refine h.own (fun _ => rfl) (fun _ => rfl) rfl hold ?_ ?_
  · intro b e
    rw [e] at hnew
    exact hnew
  · intro b curSeq e
    rw [e] at hnew
    exact hnew.elim

/-- The resetting thread of a leaf with sleepers goes on to wake them. -/
theorem Inv.afterReset_wakes {tr : List (Ev Node Thr)} {s : State Node Thr} (h : Inv T tr s)
    {t u : Thr} {b : Node} {v : BitVec 64} {curSeq : BitVec 32} {fs : List Node}
    (hth : s.thr t = ⟨.storeReset b v, fs⟩) (hu : (s.thr u).pc = .asleep b curSeq) :
    afterReset (s.bar b) b fs = ⟨.futexWake b, []⟩ := by
  have hut : u ≠ t := by
    intro e
    subst e
    rw [hth] at hu
    cases hu
  have hok := (h.thread t).pc
  rw [hth] at hok
  have hpath : OnPath T t b fs := hok.1
  have hoku := (h.thread u).pc
  rw [hu] at hoku
  have hhome : T.home u = b := by
    have hpathu := hoku.2.1
    rw [hoku.1] at hpathu
    exact hpathu
  have hfs : fs = [] := by
    cases fs with
    | nil => rfl
    | cons c fs => exact absurd (hhome ▸ hpath.1) (T.home_leaf u c)
  subst hfs
  have hleaf : ∀ c, T.parentBar c ≠ some b := fun c => hhome ▸ T.home_leaf u c
  have hcard : 1 < (Finset.univ.filter (fun w => T.home w = b)).card := by
    rw [Finset.one_lt_card]
    have hhome' : T.home t = b := hpath
    exact ⟨u, by simp [hhome], t, by simp [hhome'], hut⟩
  rw [← T.leaf_total b hleaf] at hcard
  have h1 : 1 < (s.bar b).totalCount := by
    rw [h.totalCount b, BitVec.lt_def]
    exact hcard
  simp only [afterReset, if_pos h1]

/-- While a barrier is led, nobody is still to wake its last round. -/
theorem Inv.not_waking {tr : List (Ev Node Thr)} {s : State Node Thr} (h : Inv T tr s)
    {t u : Thr} {b : Node} (hl : Leads (s.thr t) b) : (s.thr u).pc ≠ .futexWake b := by
  intro hu
  have hok := (h.thread u).pc
  rw [hu] at hok
  obtain ⟨-, hhome, harr, hdone⟩ := hok
  have hf := h.leads_full t b hl (.inl u) hhome
  have harr' : (counts tr).arrived (.inl u) = (counts tr).done (.inl u) + 1 := harr
  omega

theorem WakeOk.reset {tr : List (Ev Node Thr)} {s : State Node Thr} {t : Thr} {b : Node}
    {v : BitVec 64} {fs : List Node} (hi : Inv T tr s) (h : WakeOk tr s)
    (hth : s.thr t = ⟨.storeReset b v, fs⟩) :
    WakeOk (tr ++ [.reset t b])
      ((s.setBar b ((s.bar b).storeReset v)).setThr t (afterReset (s.bar b) b fs)) where
  waker u b' hu := by
    rw [lastReset_append]
    have hl : Leads (s.thr t) b := by rw [hth]; exact .inr (.inr ⟨v, rfl⟩)
    by_cases hut : u = t
    · subst hut
      simp only [State.setThr, Function.update_self] at hu
      have hb : b = b' := by
        cases fs with
        | nil =>
            simp only [afterReset] at hu
            split at hu
            · exact Pc.futexWake.inj hu
            · cases hu
        | cons c fs => cases hu
      simp only [if_pos hb]
    · simp only [State.setThr, State.setBar, Function.update_of_ne hut] at hu
      have hb : b ≠ b' := by
        intro e
        subst e
        exact hi.not_waking hl hu
      simp only [if_neg hb]
      exact h.waker u b' hu
  sleeper u b' curSeq hu hne := by
    have hut : u ≠ t := by
      intro e
      subst e
      simp only [State.setThr, Function.update_self] at hu
      cases fs with
      | nil =>
          simp only [afterReset] at hu
          split at hu <;> cases hu
      | cons c fs => cases hu
    simp only [State.setThr, State.setBar, Function.update_of_ne hut] at hu hne
    by_cases hb : b' = b
    · subst hb
      refine ⟨t, ?_⟩
      simp only [State.setThr, Function.update_self, hi.afterReset_wakes hth hu]
    · rw [Function.update_of_ne hb] at hne
      obtain ⟨w, hw⟩ := h.sleeper u b' curSeq hu hne
      have hwt : w ≠ t := by
        intro e
        subst e
        rw [hth] at hw
        cases hw
      refine ⟨w, ?_⟩
      simp only [State.setThr, State.setBar, Function.update_of_ne hwt]
      exact hw

omit [Fintype Node] [Fintype Thr] in
theorem WakeOk.wake {tr : List (Ev Node Thr)} {s : State Node Thr} {t : Thr} {b : Node}
    (h : WakeOk tr s) (hpc : (s.thr t).pc = .futexWake b) :
    WakeOk (tr ++ [.wake t b])
      ((s.wakeAll b).setThr t ⟨.ret PTHREAD_BARRIER_SERIAL_THREAD, []⟩) where
  waker u b' hu := by
    rw [lastReset_append]
    by_cases hut : u = t
    · subst hut
      simp [State.setThr] at hu
    · simp only [State.setThr, Function.update_of_ne hut] at hu
      rcases wakeAll_thr s b u with hw | ⟨curSeq, -, hw⟩
      · rw [hw] at hu
        exact h.waker u b' hu
      · simp [hw] at hu
  sleeper u b' curSeq hu hne := by
    have hut : u ≠ t := by
      intro e
      subst e
      simp [State.setThr] at hu
    simp only [State.setThr, Function.update_of_ne hut] at hu
    rcases wakeAll_thr s b u with hw | ⟨curSeq', -, hw⟩
    · -- `u` was left asleep, so it is not at `b`
      have hb : b' ≠ b := by
        intro e
        subst e
        rw [hw] at hu
        simp [State.wakeAll, hu] at hw
        rw [← hw] at hu
        cases hu
      rw [hw] at hu
      obtain ⟨w, hw⟩ := h.sleeper u b' curSeq hu hne
      have hwt : w ≠ t := by
        intro e
        subst e
        rw [hpc] at hw
        exact hb (Pc.futexWake.inj hw).symm
      refine ⟨w, ?_⟩
      simp only [State.setThr, Function.update_of_ne hwt]
      rcases wakeAll_thr s b w with hw' | ⟨_, hpc', -⟩
      · rw [hw']
        exact hw
      · rw [hpc'] at hw
        cases hw
    · simp [hw] at hu

theorem WakeOk.step {tr es : List (Ev Node Thr)} {s s' : State Node Thr} (hi : Inv T tr s)
    (h : WakeOk tr s) (hs : Does (Barrier.step T.home) s es s') : WakeOk (tr ++ es) s' := by
  obtain ⟨a, ha⟩ := hs
  cases a with
  | spurious t =>
      obtain ⟨b, curSeq, hpc, rfl, rfl⟩ := step_spurious ha
      rw [List.append_nil]
      exact h.underway (by simp [hpc]) trivial
  | run t =>
      rcases hth : s.thr t with ⟨pc, fs⟩
      have hpc : (s.thr t).pc = pc := by rw [hth]
      simp only [Barrier.step, hth] at ha
      cases pc with
      | out =>
          cases ha
          exact h.own (fun b => lastReset_append b tr _) (fun _ => rfl) rfl (by simp [hpc])
            (by simp) (by simp)
      | addWaiting b inc curSeq =>
          have hle := (hi.add_cases hth).1
          simp only [FastsyncBarrier.addWaiting_waiting,
            FastsyncBarrier.addWaiting_totalCount, hi.totalCount b, if_pos hle] at ha
          cases ha
          have hu := afterAdd_underway ((s.bar b).addWaiting inc) b ((s.bar b).waiting + inc)
            curSeq fs
          refine h.own (fun b => lastReset_append b tr _) ?_ rfl (by simp [hpc]) ?_ ?_
          · intro b'
            by_cases hb : b' = b
            · subst hb
              simp [State.setThr, State.setBar]
            · simp [State.setThr, State.setBar, hb]
          · intro b' e
            rw [e] at hu
            exact hu
          · intro b' c e
            rw [e] at hu
            exact hu.elim
      | futexWait b curSeq =>
          simp only at ha
          split at ha
          · rename_i heq
            cases ha
            refine h.own (fun _ => by rw [List.append_nil]) (fun _ => rfl) rfl (by simp [hpc])
              (by simp) ?_
            intro b' c e
            cases e
            exact heq
          · cases ha
            rw [List.append_nil]
            exact h.underway (by simp [hpc]) trivial
      | storeReset b v =>
          cases ha
          exact h.reset hi hth
      | futexWake b =>
          cases ha
          exact h.wake hpc
      | ret v =>
          cases ha
          exact h.own (fun b => lastReset_append b tr _) (fun _ => rfl) rfl (by simp [hpc])
            (by simp) (by simp)
      | asleep b curSeq => cases ha
      | readSeq b inc =>
          cases ha
          rw [List.append_nil]
          exact h.underway (by simp [hpc]) trivial
      | spin b curSeq =>
          cases ha
          rw [List.append_nil]
          exact h.underway (by simp [hpc]) (spinStep_underway _ b curSeq fs)
      | loadSeq b =>
          cases ha
          rw [List.append_nil]
          exact h.underway (by simp [hpc]) trivial

theorem Runs.wakeOk {mem : Node → FastsyncBarrier Node} {tr : List (Ev Node Thr)}
    {s : State Node Thr} (h : Runs T mem tr s) : WakeOk tr s := by
  refine Run.invariant ⟨?_, ?_⟩ ?_ h
  · intro u b hu
    cases hu
  · intro u b curSeq hu
    cases hu
  · intro tr s es s' hr hw hs
    exact hw.step (Runs.inv hr) hs

/-! ## Not everyone is stuck -/

/-- Asleep, or in the wait loop with `cur_seq == barrier->seq`. -/
def Blocked (s : State Node Thr) (t : Thr) : Prop :=
  match (s.thr t).pc with
  | .asleep _ _ => True
  | .spin b curSeq | .futexWait b curSeq => curSeq = (s.bar b).seq
  | _ => False

/-- What is known of a stuck thread when nobody is about to wake one: it has
arrived at its barrier, which is still in the thread's round. -/
theorem Inv.of_blocked {tr : List (Ev Node Thr)} {s : State Node Thr} (h : Inv T tr s)
    (hw : WakeOk tr s) (hall : ∀ t, Blocked s t) (t : Thr) :
    ∃ b, OnPath T t b (s.thr t).frames ∧ Arrived (counts tr) (party t (s.thr t).frames) ∧
      (counts tr).done (.inr b) = (counts tr).done (party t (s.thr t).frames) ∧
      ∀ n, Leads (s.thr t) n ↔ n ∈ (s.thr t).frames := by
  have same : ∀ b curSeq, OnPath T t b (s.thr t).frames →
      Arrived (counts tr) (party t (s.thr t).frames) →
      curSeq = BitVec.ofNat 32 ((counts tr).done (party t (s.thr t).frames)) →
      curSeq = (s.bar b).seq →
      (counts tr).done (.inr b) = (counts tr).done (party t (s.thr t).frames) := by
    intro b curSeq hpath harr hcur heq
    rcases h.rounds.done_cases hpath.sub harr with hd | hd
    · exact hd
    · exact absurd heq ((h.seq_moved hpath.sub harr hcur).mpr hd)
  have hok := (h.thread t).pc
  have hb := hall t
  simp only [Blocked] at hb
  split at hb
  · rename_i b curSeq hpc
    rw [hpc] at hok
    obtain ⟨-, hpath, harr, hcur⟩ := hok
    refine ⟨b, hpath, harr, same b curSeq hpath harr hcur ?_, fun n => by simp [Leads, hpc]⟩
    by_contra hne
    obtain ⟨u, hu⟩ := hw.sleeper t b curSeq hpc (Ne.symm hne)
    have := hall u
    simp [Blocked, hu] at this
  · rename_i b curSeq hpc
    rw [hpc] at hok
    obtain ⟨hpath, harr, hcur⟩ := hok
    exact ⟨b, hpath, harr, same b curSeq hpath harr hcur hb, fun n => by simp [Leads, hpc]⟩
  · rename_i b curSeq hpc
    rw [hpc] at hok
    obtain ⟨-, hpath, harr, hcur⟩ := hok
    exact ⟨b, hpath, harr, same b curSeq hpath harr hcur hb, fun n => by simp [Leads, hpc]⟩
  · exact hb.elim

section Stuck

variable {tr : List (Ev Node Thr)} {s : State Node Thr}

/-- If everyone is stuck, every thread has arrived at its leaf. -/
theorem Inv.stuck_leaf (h : Inv T tr s) (hw : WakeOk tr s) (hall : ∀ t, Blocked s t) (t : Thr) :
    (counts tr).arrived (.inl t) = (counts tr).done (.inr (T.home t)) + 1 := by
  obtain ⟨b, hpath, harr, hdone, hl⟩ := h.of_blocked hw hall t
  rcases hpath.home_mem with hm | ⟨hb, hfs⟩
  · exact h.leads_full t _ ((hl _).mpr hm) (.inl t) rfl
  · rw [hfs] at harr hdone
    rw [hb, hdone]
    exact harr

/-- If everyone is stuck, every barrier is complete, and led by a thread that
is stuck further up. -/
theorem Inv.stuck_full (h : Inv T tr s) (hw : WakeOk tr s) (hall : ∀ t, Blocked s t) (n : Node) :
    Rounds.Full T.Sub (counts tr) (.inr n) := by
  refine upward_induction (T := T)
    (P := fun n => Rounds.Full T.Sub (counts tr) (.inr n)) (fun n ih => ?_) n
  intro y hy
  cases y with
  | inl t =>
      have hn : T.home t = n := hy
      exact hn ▸ h.stuck_leaf hw hall t
  | inr c =>
      have hc : ∃ y, T.Sub y (.inr c) := by
        by_contra hno
        have hw0 := totalCount_eq (T := T) c
        have hempty : T.parties c = ∅ := by
          apply Finset.eq_empty_of_forall_notMem
          intro y hy
          exact hno ⟨y, mem_parties.mp hy⟩
        rw [hempty, Finset.sum_empty] at hw0
        have := hy.2
        omega
      obtain ⟨t, ht⟩ := h.full_led c hc (ih c hy.1)
      obtain ⟨b, hpath, harr, hdone, hl⟩ := h.of_blocked hw hall t
      obtain ⟨p, hp, hmem⟩ := hpath.parent_mem ((hl c).mp ht)
      have hpn : p = n := Option.some.inj (hp.symm.trans hy.1)
      subst hpn
      rcases hmem with hmem | ⟨rfl, hparty⟩
      · exact h.leads_full t p ((hl p).mpr hmem) (.inr c) hy
      · rw [hparty] at harr hdone
        rw [hdone]
        exact harr

/-- **No deadlock.** The thread that leads the root has nothing to wait for. -/
theorem Inv.exists_not_blocked [Nonempty Thr] (h : Inv T tr s) (hw : WakeOk tr s) :
    ∃ t, ¬ Blocked s t := by
  by_contra hno
  have hall : ∀ t, Blocked s t := by
    intro t
    by_contra ht
    exact hno ⟨t, ht⟩
  obtain ⟨t₀⟩ := ‹Nonempty Thr›
  obtain ⟨y, -, hy⟩ := Relation.TransGen.tail'_iff.mp (thread_below_root (T := T) t₀)
  obtain ⟨t, ht⟩ := h.full_led T.root ⟨y, hy⟩ (h.stuck_full hw hall T.root)
  obtain ⟨b, hpath, -, -, hl⟩ := h.of_blocked hw hall t
  obtain ⟨p, hp, -⟩ := hpath.parent_mem ((hl T.root).mp ht)
  rw [(T.parentBar_eq_none T.root).mpr rfl] at hp
  cases hp

end Stuck

/-! ## Progress -/

/-- The thread's next step changes a barrier, or returns from the call. -/
def Acts (T : BarrierTree Node Thr) (t : Thr) (s : State Node Thr) : Prop :=
  ∃ s' es, step T.home s (.run t) = some (s', es) ∧ (s'.bar ≠ s.bar ∨ ∃ v, .ret t v ∈ es)

/-- One of the thread's next `k` steps, taken alone, acts. -/
def ActsWithin (T : BarrierTree Node Thr) (t : Thr) : ℕ → State Node Thr → Prop
  | 0, _ => False
  | k + 1, s => Acts T t s ∨
      ∃ s' es, step T.home s (.run t) = some (s', es) ∧ ActsWithin T t k s'

theorem ActsWithin.now {t : Thr} {s : State Node Thr} (h : Acts T t s) (k : ℕ) :
    ActsWithin T t (k + 1) s := .inl h

theorem ActsWithin.later {t : Thr} {s s' : State Node Thr} {es : List (Ev Node Thr)} {k : ℕ}
    (hs : step T.home s (.run t) = some (s', es)) (h : ActsWithin T t k s') :
    ActsWithin T t (k + 1) s := .inr ⟨s', es, hs, h⟩

section Acting

variable {s : State Node Thr} {t : Thr} {b : Node} {fs : List Node}

theorem acts_addWaiting {inc curSeq : BitVec 32} (hth : s.thr t = ⟨.addWaiting b inc curSeq, fs⟩)
    (hinc : inc ≠ 0) : Acts T t s := by
  simp only [Acts, step, hth]
  refine ⟨_, _, rfl, .inl ?_⟩
  intro h
  have hb := congrArg FastsyncBarrier.waiting (congrFun h b)
  simp only [State.setThr, State.setBar, Function.update_self,
    FastsyncBarrier.addWaiting_waiting] at hb
  exact hinc (by simpa using hb)

theorem acts_storeReset {v : BitVec 64} (hth : s.thr t = ⟨.storeReset b v, fs⟩)
    (hv : v = ((s.bar b).seq + 1).setWidth 64) : Acts T t s := by
  simp only [Acts, step, hth]
  refine ⟨_, _, rfl, .inl ?_⟩
  intro h
  have hb := congrArg FastsyncBarrier.seq (congrFun h b)
  simp only [State.setThr, State.setBar, Function.update_self, hv,
    FastsyncBarrier.storeReset_seq] at hb
  simp at hb

theorem acts_ret {v : Int} (hth : s.thr t = ⟨.ret v, fs⟩) : Acts T t s := by
  simp only [Acts, step, hth]
  exact ⟨_, _, rfl, .inr ⟨v, List.mem_singleton.mpr rfl⟩⟩

theorem actsWithin_loadSeq (hth : s.thr t = ⟨.loadSeq b, fs⟩) : ActsWithin T t 2 s := by
  have hs : step T.home s (.run t) =
      some (s.setThr t ⟨.storeReset b (((s.bar b).seq + 1).setWidth 64), fs⟩, []) := by
    simp only [step, hth]
  exact .later hs (.now (acts_storeReset (Function.update_self ..) rfl) 0)

/-- A thread that leaves a wait loop returns, or goes on to reset the barrier
it leads. -/
theorem actsWithin_leave {v : Int} (hth : s.thr t = leave fs v) : ActsWithin T t 2 s := by
  cases fs with
  | nil => exact .now (acts_ret hth) 1
  | cons c fs => exact actsWithin_loadSeq hth

theorem actsWithin_spin {curSeq : BitVec 32} (hth : s.thr t = ⟨.spin b curSeq, fs⟩)
    (hne : curSeq ≠ (s.bar b).seq) : ActsWithin T t 3 s := by
  have hs : step T.home s (.run t) = some (s.setThr t (leave fs 0), []) := by
    simp only [step, hth, spinStep, if_neg hne]
  exact .later hs (actsWithin_leave (Function.update_self ..))

end Acting

/-- **A thread that is not stuck acts within three steps of its own.** -/
theorem Inv.actsWithin {tr : List (Ev Node Thr)} {s : State Node Thr} (h : Inv T tr s) {t : Thr}
    (hin : (s.thr t).pc ≠ .out) (hb : ¬ Blocked s t) : ActsWithin T t 3 s := by
  have hok := (h.thread t).pc
  rcases hth : s.thr t with ⟨pc, fs⟩
  rw [hth] at hok hin
  simp only [Blocked, hth] at hb
  have inc_ne : ∀ {b : Node} {inc : BitVec 32}, OnPath T t b fs →
      inc.toNat = T.weight (party t fs) → inc ≠ 0 := by
    intro b inc hpath hinc e
    have := weight_pos hpath.sub
    rw [← hinc, e] at this
    exact absurd this (by decide)
  cases pc with
  | out => exact absurd rfl hin
  | readSeq b inc =>
      have hs : Barrier.step T.home s (.run t) =
          some (s.setThr t ⟨.addWaiting b inc (s.bar b).seq, fs⟩, []) := by
        simp only [Barrier.step, hth]
      exact .later hs (.now (acts_addWaiting (Function.update_self ..)
        (inc_ne hok.1 hok.2.2)) 1)
  | addWaiting b inc curSeq => exact .now (acts_addWaiting hth (inc_ne hok.1 hok.2.2.1)) 2
  | spin b curSeq => exact actsWithin_spin hth hb
  | futexWait b curSeq =>
      -- the futex call fails, the loop condition is false, the call returns
      have hfs : fs = [] := hok.1
      subst hfs
      have hne : curSeq ≠ (s.bar b).seq := hb
      have hs : Barrier.step T.home s (.run t) = some (s.setThr t ⟨.spin b curSeq, []⟩, []) := by
        simp only [Barrier.step, hth, if_neg hne.symm]
      have hs' : Barrier.step T.home (s.setThr t ⟨.spin b curSeq, []⟩) (.run t) =
          some ((s.setThr t ⟨.spin b curSeq, []⟩).setThr t ⟨.ret 0, []⟩, []) := by
        simp [Barrier.step, State.setThr, spinStep, hne, leave]
      exact .later hs (.later hs' (.now (acts_ret (Function.update_self ..)) 0))
  | asleep b curSeq => exact absurd trivial hb
  | loadSeq b =>
      have hs : Barrier.step T.home s (.run t) =
          some (s.setThr t ⟨.storeReset b (((s.bar b).seq + 1).setWidth 64), fs⟩, []) := by
        simp only [Barrier.step, hth]
      exact .later hs (.now (acts_storeReset (Function.update_self ..) rfl) 1)
  | storeReset b v =>
      refine .now (acts_storeReset hth ?_) 2
      rw [h.seq b]
      exact hok.2.2.2
  | futexWake b =>
      have hs : Barrier.step T.home s (.run t) =
          some ((s.wakeAll b).setThr t ⟨.ret PTHREAD_BARRIER_SERIAL_THREAD, []⟩,
            [.wake t b]) := by
        simp only [Barrier.step, hth]
      exact .later hs (.now (acts_ret (Function.update_self ..)) 1)
  | ret v => exact .now (acts_ret hth) 2

/-- What keeps a reachable state of the barrier from being a dead end. -/
structure NeverStuck (T : BarrierTree Node Thr) (tr : List (Ev Node Thr)) (s : State Node Thr) :
    Prop where
  /-- A sleeper whose `seq` has moved will still be woken, by the thread that
  reset its barrier. -/
  wake_owed : ∀ t b curSeq, (s.thr t).pc = .asleep b curSeq → (s.bar b).seq ≠ curSeq →
    ∃ u, lastReset b tr = some u ∧ (s.thr u).pc = .futexWake b
  /-- Not every thread is asleep or spinning in vain, -/
  not_all_blocked : ∃ t, ¬ Blocked s t
  /-- and when all are inside, one of them goes on by its own steps. -/
  progress : (∀ t, (s.thr t).pc ≠ .out) → ∃ t, ¬ Blocked s t ∧ ActsWithin T t 3 s

/-- **The barrier never gets stuck.** In every reachable state of every tree,
for any number of rounds, no wake-up has been lost and some thread can go on. -/
theorem barrier_never_stuck [Nonempty Thr] (T : BarrierTree Node Thr)
    (mem : Node → FastsyncBarrier Node) {tr : List (Ev Node Thr)} {s : State Node Thr}
    (h : Runs T mem tr s) : NeverStuck T tr s where
  wake_owed t b curSeq ht hne := by
    obtain ⟨u, hu⟩ := h.wakeOk.sleeper t b curSeq ht hne
    exact ⟨u, h.wakeOk.waker u b hu, hu⟩
  not_all_blocked := h.inv.exists_not_blocked h.wakeOk
  progress hin := by
    obtain ⟨t, ht⟩ := h.inv.exists_not_blocked h.wakeOk
    exact ⟨t, ht, h.inv.actsWithin (hin t) ht⟩

/-- Thread 0 sleeps although its leaf has been reset; the wake-up is owed. -/
theorem barrier_never_stuck_shared : ∃ tr s, Runs sharedTree (fun _ => zeroBar _) tr s ∧
    (s.thr 0).pc = .asleep 1 0 ∧ (s.bar 1).seq = 1 ∧ NeverStuck sharedTree tr s := by
  have hout : (exec (step sharedTree.home) (State.init sharedTree (fun _ => zeroBar _))
      sleeperSchedule).map (fun r => ((r.1.thr 0).pc, (r.1.bar 1).seq)) =
      some (.asleep 1 0, 1) := by decide
  obtain ⟨s, tr, hr, hs⟩ := run_of_outcome _ _ hout
  rw [Prod.mk.injEq] at hs
  exact ⟨tr, s, hr, hs.1, hs.2, barrier_never_stuck sharedTree (fun _ => zeroBar _) hr⟩

end Reeact.Barrier
