import Reeact.Fastsync.BarrierProgress
import Reeact.Lib.Fair

/-!
# fastsync_barrier — every call returns

Under a scheduler that does not put off an awake thread for ever, a round that
every thread has entered is left by every thread. The arrivals go up the tree:
a barrier whose parties arrive is led by its last arrival, which arrives at the
parent. The resets come down: once the parent is reset, the leader that spins
there sees it, and resets its own barrier. Counts only grow, so "some day" is
all that has to be shown of each of them.
-/

namespace Reeact.Barrier

open Transition BarrierTree

variable {Node Thr : Type} [Fintype Node] [DecidableEq Node] [Fintype Thr]
  [DecidableEq Thr] {T : BarrierTree Node Thr} {mem : Node → FastsyncBarrier Node}

/-- The infinite runs of a tree. -/
abbrev Paths (T : BarrierTree Node Thr) (mem : Node → FastsyncBarrier Node) :=
  Path (step T.home) (State.init T mem)

/-- Inside `fastsync_barrier_wait`, and not in a futex queue. -/
def Awake (t : Thr) (s : State Node Thr) : Prop :=
  (s.thr t).pc ≠ .out ∧ ∀ b curSeq, (s.thr t).pc ≠ .asleep b curSeq

/-- No thread that stays awake inside is put off for ever. Nothing is asked
for threads outside, which need not call again, and for sleepers, which only a
wake-up can help. -/
def FairRun (p : Paths T mem) : Prop := ∀ t, p.Fair (Awake t) (· = .run t)

/-! ## The next step of a thread -/

omit [Fintype Node] [Fintype Thr] in
/-- Only its own steps move an awake thread. -/
theorem step_keeps {home : Thr → Node} {s s' : State Node Thr} {a : Act Thr}
    {es : List (Ev Node Thr)} {t : Thr} (hs : step home s a = some (s', es)) (ha : a ≠ .run t)
    (hawake : ∀ b curSeq, (s.thr t).pc ≠ .asleep b curSeq) : s'.thr t = s.thr t := by
  cases a with
  | spurious u =>
      obtain ⟨b, curSeq, hpc, rfl, -⟩ := step_spurious hs
      have hut : t ≠ u := by
        rintro rfl
        exact hawake b curSeq hpc
      exact Function.update_of_ne hut ..
  | run u =>
      have hut : t ≠ u := fun e => ha (by rw [e])
      have hother : ∀ (r : State Node Thr) (th : Thread Node), (r.setThr u th).thr t = r.thr t :=
        fun r th => Function.update_of_ne hut ..
      simp only [step] at hs
      split at hs
      case h_5 =>
          -- the futex wait, whichever way it goes
          split at hs <;>
            (cases hs; exact hother _ _)
      case h_6 => cases hs
      case h_9 =>
          cases hs
          rw [hother]
          rcases wakeAll_thr s _ t with hw | ⟨curSeq, hpc, -⟩
          · exact hw
          · exact absurd hpc (hawake _ _)
      all_goals
          cases hs
          exact hother _ _

section Moves

variable {p : Paths T mem}

/-- **An awake thread takes its next step** from the very position it is in. -/
theorem FairRun.moves (hf : FairRun p) {t : Thr} {i : ℕ} {th : Thread Node}
    (hi : (p.state i).thr t = th) (hin : th.pc ≠ .out)
    (hawake : ∀ b curSeq, th.pc ≠ .asleep b curSeq) :
    ∃ j es, i ≤ j ∧ (p.state j).thr t = th ∧
      step T.home (p.state j) (.run t) = some (p.state (j + 1), es) ∧
      p.trace (j + 1) = p.trace j ++ es := by
  obtain ⟨j, a, hij, hj, ha, rfl⟩ := (hf t).moves_from (fun s => s.thr t) (v := th)
    (fun s hs => ⟨by rw [hs]; exact hin, by rw [hs]; exact hawake⟩)
    (by
      intro j a es ha hs hth
      rw [step_keeps hs ha (by rw [hth]; exact hawake), hth]) hi
  obtain ⟨es, hs, ht⟩ := p.take j _ ha
  exact ⟨j, es, hij, hj, hs, ht⟩

theorem Paths.inv (p : Paths T mem) (i : ℕ) : Inv T (p.trace i) (p.state i) := Runs.inv (p.run i)

theorem arrived_mono (p : Paths T mem) {i j : ℕ} (h : i ≤ j) (x : Party Node Thr) :
    (counts (p.trace i)).arrived x ≤ (counts (p.trace j)).arrived x :=
  (p.trace_prefix h).sublist.countP_le

theorem done_mono (p : Paths T mem) {i j : ℕ} (h : i ≤ j) (x : Party Node Thr) :
    (counts (p.trace i)).done x ≤ (counts (p.trace j)).done x :=
  (p.trace_prefix h).sublist.countP_le

/-- A thread about to arrive arrives. -/
theorem FairRun.arrives (hf : FairRun p) {t : Thr} {i : ℕ} {b : Node} {inc : BitVec 32}
    {fs : List Node}
    (hth : (p.state i).thr t = ⟨.readSeq b inc, fs⟩ ∨
      ∃ curSeq, (p.state i).thr t = ⟨.addWaiting b inc curSeq, fs⟩) :
    ∃ j, (counts (p.trace i)).arrived (party t fs) + 1 ≤
      (counts (p.trace j)).arrived (party t fs) := by
  have hadd : ∀ {i : ℕ} {curSeq : BitVec 32}, (p.state i).thr t = ⟨.addWaiting b inc curSeq, fs⟩ →
      ∃ j, (counts (p.trace i)).arrived (party t fs) + 1 ≤
        (counts (p.trace j)).arrived (party t fs) := by
    intro i curSeq hi
    obtain ⟨j, es, hij, hj, hs, ht⟩ := hf.moves hi (by simp) (by simp)
    simp only [step, hj, Option.some.injEq, Prod.mk.injEq] at hs
    refine ⟨j + 1, Nat.le_trans (Nat.succ_le_succ (arrived_mono p hij _)) ?_⟩
    rw [ht, ← hs.2]
    simp only [counts, List.countP_append, List.countP_cons, arrives?_arrive, decide_true, if_true]
    omega
  rcases hth with hi | ⟨curSeq, hi⟩
  · obtain ⟨j, es, hij, hj, hs, -⟩ := hf.moves hi (by simp) (by simp)
    simp only [step, hj, Option.some.injEq, Prod.mk.injEq] at hs
    have hnext : (p.state (j + 1)).thr t = ⟨.addWaiting b inc ((p.state j).bar b).seq, fs⟩ := by
      rw [← hs.1]
      exact Function.update_self ..
    obtain ⟨k, hk⟩ := hadd hnext
    exact ⟨k, Nat.le_trans (Nat.succ_le_succ (arrived_mono p (Nat.le_succ_of_le hij) _)) hk⟩
  · exact hadd hi

/-- A thread about to reset a barrier resets it. -/
theorem FairRun.resets (hf : FairRun p) {t : Thr} {i : ℕ} {b : Node} {fs : List Node}
    (hth : (p.state i).thr t = ⟨.loadSeq b, fs⟩ ∨
      ∃ v, (p.state i).thr t = ⟨.storeReset b v, fs⟩) :
    ∃ j, (counts (p.trace i)).done (.inr b) + 1 ≤ (counts (p.trace j)).done (.inr b) := by
  have hstore : ∀ {i : ℕ} {v : BitVec 64}, (p.state i).thr t = ⟨.storeReset b v, fs⟩ →
      ∃ j, (counts (p.trace i)).done (.inr b) + 1 ≤ (counts (p.trace j)).done (.inr b) := by
    intro i v hi
    obtain ⟨j, es, hij, hj, hs, ht⟩ := hf.moves hi (by simp) (by simp)
    simp only [step, hj, Option.some.injEq, Prod.mk.injEq] at hs
    refine ⟨j + 1, Nat.le_trans (Nat.succ_le_succ (done_mono p hij _)) ?_⟩
    rw [ht, ← hs.2, counts_append_completes _ rfl rfl, Rounds.Counts.complete_self]
  rcases hth with hi | ⟨v, hi⟩
  · obtain ⟨j, es, hij, hj, hs, -⟩ := hf.moves hi (by simp) (by simp)
    simp only [step, hj, Option.some.injEq, Prod.mk.injEq] at hs
    have hnext : (p.state (j + 1)).thr t =
        ⟨.storeReset b ((((p.state j).bar b).seq + 1).setWidth 64), fs⟩ := by
      rw [← hs.1]
      exact Function.update_self ..
    obtain ⟨k, hk⟩ := hstore hnext
    exact ⟨k, Nat.le_trans (Nat.succ_le_succ (done_mono p (Nat.le_succ_of_le hij) _)) hk⟩
  · exact hstore hi

/-- A thread about to return returns. -/
theorem FairRun.returns_ret (hf : FairRun p) {t : Thr} {i : ℕ} {v : Int} {fs : List Node}
    (hi : (p.state i).thr t = ⟨.ret v, fs⟩) :
    ∃ j, (counts (p.trace i)).done (.inl t) + 1 ≤ (counts (p.trace j)).done (.inl t) := by
  obtain ⟨j, es, hij, hj, hs, ht⟩ := hf.moves hi (by simp) (by simp)
  simp only [step, hj, Option.some.injEq, Prod.mk.injEq] at hs
  refine ⟨j + 1, Nat.le_trans (Nat.succ_le_succ (done_mono p hij _)) ?_⟩
  rw [ht, ← hs.2, counts_append_completes _ rfl rfl, Rounds.Counts.complete_self]

end Moves

/-! ## Where the leader of a barrier is -/

/-- The leader of `n` is about to reset it, leads the parent as well, or is at
the parent on behalf of `n`. -/
inductive LeaderAt (T : BarrierTree Node Thr) (th : Thread Node) (n : Node) : Prop
  | resetting (fs : List Node) :
      th = ⟨.loadSeq n, fs⟩ ∨ (∃ v, th = ⟨.storeReset n v, fs⟩) → LeaderAt T th n
  | above (q : Node) : T.parentBar n = some q → Leads th q → LeaderAt T th n
  | arriving (q : Node) (inc : BitVec 32) (fs : List Node) : T.parentBar n = some q →
      th = ⟨.readSeq q inc, n :: fs⟩ ∨ (∃ curSeq, th = ⟨.addWaiting q inc curSeq, n :: fs⟩) →
      LeaderAt T th n
  | spinning (q : Node) (curSeq : BitVec 32) (fs : List Node) : T.parentBar n = some q →
      th = ⟨.spin q curSeq, n :: fs⟩ → LeaderAt T th n

section Leaders

variable {tr : List (Ev Node Thr)} {s : State Node Thr} {t : Thr} {n : Node}

/-- A suspended barrier, seen from the barrier its thread is at. -/
theorem BarrierTree.OnPath.frame {b : Node} {fs : List Node} (h : OnPath T t b fs) (hn : n ∈ fs) :
    ∃ q, T.parentBar n = some q ∧ (q ∈ fs ∨ q = b ∧ ∃ fs', fs = n :: fs') := by
  obtain ⟨q, hq, hmem | ⟨hqb, hparty⟩⟩ := h.parent_mem hn
  · exact ⟨q, hq, .inl hmem⟩
  · refine ⟨q, hq, .inr ⟨hqb, ?_⟩⟩
    cases fs with
    | nil => cases hn
    | cons c fs =>
        cases hparty
        exact ⟨fs, rfl⟩

theorem Inv.leaderAt (h : Inv T tr s) (hl : Leads (s.thr t) n) : LeaderAt T (s.thr t) n := by
  have hpc := (h.thread t).pc
  rcases hth : s.thr t with ⟨pc, fs⟩
  rw [hth] at hl hpc
  rcases hl with hmem | rfl | ⟨v, rfl⟩
  · -- suspended: at the parent, or further up
    have hframes : fs ≠ [] := List.ne_nil_of_mem hmem
    cases pc with
    | readSeq b inc =>
        obtain ⟨q, hq, hup | ⟨rfl, fs', rfl⟩⟩ := hpc.1.frame hmem
        · exact .above q hq (.inl hup)
        · exact .arriving q inc fs' hq (.inl rfl)
    | addWaiting b inc curSeq =>
        obtain ⟨q, hq, hup | ⟨rfl, fs', rfl⟩⟩ := hpc.1.frame hmem
        · exact .above q hq (.inl hup)
        · exact .arriving q inc fs' hq (.inr ⟨curSeq, rfl⟩)
    | spin b curSeq =>
        obtain ⟨q, hq, hup | ⟨rfl, fs', rfl⟩⟩ := hpc.1.frame hmem
        · exact .above q hq (.inl hup)
        · exact .spinning q curSeq fs' hq rfl
    | loadSeq b =>
        obtain ⟨q, hq, hup | ⟨rfl, -⟩⟩ := hpc.1.frame hmem
        · exact .above q hq (.inl hup)
        · exact .above q hq (.inr (.inl rfl))
    | storeReset b v =>
        obtain ⟨q, hq, hup | ⟨rfl, -⟩⟩ := hpc.1.frame hmem
        · exact .above q hq (.inl hup)
        · exact .above q hq (.inr (.inr ⟨v, rfl⟩))
    | out => exact absurd hpc.1 hframes
    | futexWait b curSeq => exact absurd hpc.1 hframes
    | asleep b curSeq => exact absurd hpc.1 hframes
    | futexWake b => exact absurd hpc.1 hframes
    | ret v => exact absurd hpc.1 hframes
  · exact .resetting fs (.inl rfl)
  · exact .resetting fs (.inr ⟨v, rfl⟩)

end Leaders

/-! ## Arrivals go up -/

section Rounds

variable {p : Paths T mem} {k : ℕ}

/-- Some day the party has arrived `k` times. -/
def Arrives (p : Paths T mem) (k : ℕ) (y : Party Node Thr) : Prop :=
  ∃ i, k ≤ (counts (p.trace i)).arrived y

/-- Some day the party has completed `k` rounds. -/
def Completes (p : Paths T mem) (k : ℕ) (y : Party Node Thr) : Prop :=
  ∃ i, k ≤ (counts (p.trace i)).done y

/-- Once the parties of a barrier have all arrived `k` times, the barrier has
completed the round, or is full in it. -/
theorem Inv.full_of_arrived {tr : List (Ev Node Thr)} {s : State Node Thr} (h : Inv T tr s)
    {n : Node} (hall : ∀ y, T.Sub y (.inr n) → k ≤ (counts tr).arrived y)
    (hdone : (counts tr).done (.inr n) < k) (hsome : ∃ y, T.Sub y (.inr n)) :
    (counts tr).done (.inr n) + 1 = k ∧ Rounds.Full T.Sub (counts tr) (.inr n) := by
  have hround : ∀ y, T.Sub y (.inr n) → (counts tr).arrived y ≤ (counts tr).done (.inr n) + 1 := by
    intro y hy
    exact Nat.le_trans (h.rounds.arrived_le y) (Nat.succ_le_succ (h.rounds.done_le y _ hy))
  obtain ⟨y, hy⟩ := hsome
  have hk : (counts tr).done (.inr n) + 1 = k := by
    have := hall y hy
    have := hround y hy
    omega
  refine ⟨hk, fun z hz => ?_⟩
  have := hall z hz
  have := hround z hz
  omega

/-- Finitely many parties that arrive some day have all arrived some day. -/
theorem exists_all_arrived (n : Node) (hall : ∀ y, T.Sub y (.inr n) → Arrives p k y) :
    ∃ i, ∀ y, T.Sub y (.inr n) → k ≤ (counts (p.trace i)).arrived y := by
  choose! day hday using hall
  refine ⟨Finset.univ.sup day, fun y hy => Nat.le_trans (hday y hy) (arrived_mono p ?_ y)⟩
  exact Finset.le_sup (f := day) (Finset.mem_univ y)

/-- **Up.** A barrier whose parties arrive is itself a party that arrives. -/
theorem FairRun.arrives_up (hf : FairRun p) {n q : Node} (hq : T.parentBar n = some q)
    (hsome : ∃ y, T.Sub y (.inr n)) (hall : ∀ y, T.Sub y (.inr n) → Arrives p k y) :
    Arrives p k (.inr n) := by
  obtain ⟨i, hi⟩ := exists_all_arrived n hall
  have hinv := p.inv i
  obtain ⟨y, hy⟩ := hsome
  have hsub : T.Sub (.inr n) (.inr q) := sub_parent hy hq
  have hle : (counts (p.trace i)).done (.inr n) ≤ (counts (p.trace i)).arrived (.inr n) :=
    Nat.le_trans (hinv.rounds.done_le _ _ hsub) (hinv.rounds.le_arrived _ _ hsub)
  by_cases hdone : k ≤ (counts (p.trace i)).done (.inr n)
  · exact ⟨i, Nat.le_trans hdone hle⟩
  · obtain ⟨hk, hfull⟩ := hinv.full_of_arrived hi (by omega) ⟨y, hy⟩
    obtain ⟨t, ht⟩ := hinv.full_led n ⟨y, hy⟩ hfull
    have hpc := (hinv.thread t).pc
    cases hinv.leaderAt ht with
    | resetting fs hth =>
        -- released by the parent: it has arrived there
        refine ⟨i, ?_⟩
        rcases hth with hth | ⟨v, hth⟩
        · rw [hth] at hpc
          have := (hpc.2.2 q hq).1
          simp only [Arrived] at this
          omega
        · rw [hth] at hpc
          have := (hpc.2.2.1 q hq).1
          simp only [Arrived] at this
          omega
    | above q' hq' hl =>
        refine ⟨i, ?_⟩
        have hqq : q' = q := Option.some.inj (hq'.symm.trans hq)
        subst hqq
        have := hinv.leads_full t _ hl (.inr n) hsub
        have := hinv.rounds.done_le _ _ hsub
        omega
    | arriving q' inc fs hq' hth =>
        obtain ⟨j, hj⟩ := hf.arrives hth
        refine ⟨j, ?_⟩
        have hj' : (counts (p.trace i)).arrived (.inr n) + 1 ≤
          (counts (p.trace j)).arrived (.inr n) := hj
        omega
    | spinning q' curSeq fs hq' hth =>
        refine ⟨i, ?_⟩
        rw [hth] at hpc
        have : (counts (p.trace i)).arrived (.inr n) = (counts (p.trace i)).done (.inr n) + 1 :=
          hpc.2.1
        omega

/-- The root is reset when its parties have arrived. -/
theorem FairRun.completes_root (hf : FairRun p) (hsome : ∃ y, T.Sub y (.inr T.root))
    (hall : ∀ y, T.Sub y (.inr T.root) → Arrives p k y) : Completes p k (.inr T.root) := by
  obtain ⟨i, hi⟩ := exists_all_arrived T.root hall
  have hinv := p.inv i
  by_cases hdone : k ≤ (counts (p.trace i)).done (.inr T.root)
  · exact ⟨i, hdone⟩
  · obtain ⟨hk, hfull⟩ := hinv.full_of_arrived hi (by omega) hsome
    obtain ⟨t, ht⟩ := hinv.full_led T.root hsome hfull
    have hnone : T.parentBar T.root = none := (T.parentBar_eq_none _).mpr rfl
    cases hinv.leaderAt ht with
    | resetting fs hth =>
        obtain ⟨j, hj⟩ := hf.resets hth
        exact ⟨j, by omega⟩
    | above q hq => exact absurd (hnone.symm.trans hq) nofun
    | arriving q inc fs hq => exact absurd (hnone.symm.trans hq) nofun
    | spinning q curSeq fs hq => exact absurd (hnone.symm.trans hq) nofun

/-! ## Resets come down -/

section Released

variable {tr : List (Ev Node Thr)} {s : State Node Thr} {n q : Node}

/-- Whoever spins in a round that its barrier has left sees `seq` moved. -/
theorem Inv.spin_moved (h : Inv T tr s) {y : Party Node Thr} {curSeq : BitVec 32}
    (hsub : T.Sub y (.inr n)) (harr : Arrived (counts tr) y)
    (hcur : curSeq = BitVec.ofNat 32 ((counts tr).done y)) (hup : k ≤ (counts tr).done (.inr n))
    (hdone : (counts tr).done y < k) : curSeq ≠ (s.bar n).seq := by
  refine (h.seq_moved hsub harr hcur).mpr ?_
  rcases h.rounds.done_cases hsub harr with hd | hd
  · omega
  · exact hd

/-- A full barrier whose parent has been reset is led by a thread that is about
to reset it, or is still at the parent. -/
theorem Inv.leader_released (h : Inv T tr s) (hq : T.parentBar n = some q)
    (hsub : T.Sub (.inr n) (.inr q)) (hn : k ≤ (counts tr).arrived (.inr n))
    (hup : k ≤ (counts tr).done (.inr q)) (hdone : (counts tr).done (.inr n) < k) {t : Thr}
    (hl : Leads (s.thr t) n) :
    ∃ fs, (s.thr t = ⟨.loadSeq n, fs⟩ ∨ ∃ v, s.thr t = ⟨.storeReset n v, fs⟩) ∨
      ∃ curSeq, s.thr t = ⟨.spin q curSeq, n :: fs⟩ := by
  have hpc := (h.thread t).pc
  have harr := h.rounds.arrived_le (.inr n)
  cases h.leaderAt hl with
  | resetting fs hth => exact ⟨fs, .inl hth⟩
  | above q' hq' hl' =>
      -- the parent would be full, in a round that `n` has not arrived for
      have hqq : q' = q := Option.some.inj (hq'.symm.trans hq)
      subst hqq
      have := h.leads_full t q' hl' (.inr n) hsub
      omega
  | arriving q' inc fs hq' hth =>
      have hidle : (counts tr).arrived (.inr n) = (counts tr).done (.inr n) := by
        rcases hth with hth | ⟨curSeq, hth⟩
        · rw [hth] at hpc
          exact hpc.2.1
        · rw [hth] at hpc
          exact hpc.2.1
      omega
  | spinning q' curSeq fs hq' hth =>
      have hqq : q' = q := Option.some.inj (hq'.symm.trans hq)
      exact ⟨fs, .inr ⟨curSeq, hqq ▸ hth⟩⟩

/-- Where a thread is that has still to leave a round its leaf has left. -/
def LeavingAt (T : BarrierTree Node Thr) (s : State Node Thr) (t : Thr) (th : Thread Node) : Prop :=
  th.frames = [] ∧
    match th.pc with
    | .ret _ => True
    | .futexWake b => b = T.home t
    | .spin b curSeq | .futexWait b curSeq | .asleep b curSeq =>
        b = T.home t ∧ curSeq ≠ (s.bar b).seq
    | _ => False

theorem Inv.leavingAt (h : Inv T tr s) {t : Thr} (ht : k ≤ (counts tr).arrived (.inl t))
    (hup : k ≤ (counts tr).done (.inr (T.home t))) (hdone : (counts tr).done (.inl t) < k) :
    LeavingAt T s t (s.thr t) := by
  have hpc := (h.thread t).pc
  have harr := h.rounds.arrived_le (.inl t)
  -- it does not lead its leaf, which is past the round
  have hnot : ¬ Leads (s.thr t) (T.home t) := by
    intro hl
    have := h.leads_full t _ hl (.inl t) sub_inl
    omega
  rcases hth : s.thr t with ⟨pc, fs⟩
  rw [hth] at hpc hnot
  have hleaf : ∀ {b : Node}, OnPath T t b fs → fs = [] ∧ b = T.home t := by
    intro b hpath
    rcases hpath.home_mem with hm | ⟨hb, hfs⟩
    · exact absurd (.inl hm) hnot
    · exact ⟨hfs, hb.symm⟩
  have hidle : ¬ Idle (counts tr) (.inl t) := by
    simp only [Idle]
    omega
  have hmoved : ∀ {b : Node} {curSeq : BitVec 32}, fs = [] → b = T.home t →
      Arrived (counts tr) (party t fs) →
      curSeq = BitVec.ofNat 32 ((counts tr).done (party t fs)) → curSeq ≠ (s.bar b).seq := by
    rintro b curSeq rfl rfl harr hcur
    exact h.spin_moved sub_inl harr hcur hup hdone
  cases pc with
  | out => exact absurd hpc.2 hidle
  | readSeq b inc =>
      obtain ⟨rfl, -⟩ := hleaf hpc.1
      exact absurd hpc.2.1 hidle
  | addWaiting b inc curSeq =>
      obtain ⟨rfl, -⟩ := hleaf hpc.1
      exact absurd hpc.2.1 hidle
  | spin b curSeq =>
      obtain ⟨hfs, hb⟩ := hleaf hpc.1
      exact ⟨hfs, hb, hmoved hfs hb hpc.2.1 hpc.2.2⟩
  | futexWait b curSeq =>
      obtain ⟨hfs, hpath, harr, hcur⟩ := hpc
      exact ⟨hfs, (hleaf hpath).2, hmoved hfs (hleaf hpath).2 harr hcur⟩
  | asleep b curSeq =>
      obtain ⟨hfs, hpath, harr, hcur⟩ := hpc
      exact ⟨hfs, (hleaf hpath).2, hmoved hfs (hleaf hpath).2 harr hcur⟩
  | loadSeq b =>
      obtain ⟨-, rfl⟩ := hleaf hpc.1
      exact absurd (.inr (.inl rfl)) hnot
  | storeReset b v =>
      obtain ⟨-, rfl⟩ := hleaf hpc.1
      exact absurd (.inr (.inr ⟨v, rfl⟩)) hnot
  | futexWake b => exact ⟨hpc.1, hpc.2.1.symm⟩
  | ret v => exact ⟨hpc.1, trivial⟩

/-- The thread that will wake a sleeper whose leaf has been reset. -/
theorem Inv.waker_of_asleep (h : Inv T tr s) (hw : WakeOk tr s) {t : Thr} {b : Node}
    {curSeq : BitVec 32} {fs : List Node} (ht : s.thr t = ⟨.asleep b curSeq, fs⟩)
    (hmoved : curSeq ≠ (s.bar b).seq) : ∃ u, s.thr u = ⟨.futexWake b, []⟩ := by
  obtain ⟨u, hu⟩ := hw.sleeper t b curSeq (by rw [ht]) (Ne.symm hmoved)
  have hpc := (h.thread u).pc
  rw [hu] at hpc
  exact ⟨u, by rw [← hu, ← hpc.1]⟩

end Released

/-- **Down.** A barrier that has arrived at its parent is reset once the parent
has been. -/
theorem FairRun.completes_down (hf : FairRun p) {n q : Node} (hq : T.parentBar n = some q)
    (hsome : ∃ y, T.Sub y (.inr n)) (hall : ∀ y, T.Sub y (.inr n) → Arrives p k y)
    (harrives : Arrives p k (.inr n)) (hup : Completes p k (.inr q)) : Completes p k (.inr n) := by
  obtain ⟨i₁, h₁⟩ := harrives
  obtain ⟨i₂, h₂⟩ := exists_all_arrived n hall
  obtain ⟨i₃, h₃⟩ := hup
  obtain ⟨y, hy⟩ := hsome
  have hsub : T.Sub (.inr n) (.inr q) := sub_parent hy hq
  -- from here on
  set i := max i₁ (max i₂ i₃) with hi
  have hn := Nat.le_trans h₁ (arrived_mono p (show i₁ ≤ i by omega) (.inr n))
  have hdq := Nat.le_trans h₃ (done_mono p (show i₃ ≤ i by omega) (.inr q))
  by_cases hdone : k ≤ (counts (p.trace i)).done (.inr n)
  · exact ⟨i, hdone⟩
  · obtain ⟨hk, hfull⟩ := (p.inv i).full_of_arrived
      (fun z hz => Nat.le_trans (h₂ z hz) (arrived_mono p (by omega) z)) (by omega) ⟨y, hy⟩
    obtain ⟨t, ht⟩ := (p.inv i).full_led n ⟨y, hy⟩ hfull
    obtain ⟨fs, hth | ⟨curSeq, hth⟩⟩ := (p.inv i).leader_released hq hsub hn hdq (by omega) ht
    · obtain ⟨j, hj⟩ := hf.resets hth
      exact ⟨j, by omega⟩
    · obtain ⟨j, es, hij, hj, hs, -⟩ := hf.moves hth (by simp) (by simp)
      by_cases hdone' : k ≤ (counts (p.trace j)).done (.inr n)
      · exact ⟨j, hdone'⟩
      · have hpc := ((p.inv j).thread t).pc
        rw [hj] at hpc
        have hmoved := (p.inv j).spin_moved hsub hpc.2.1 hpc.2.2
          (Nat.le_trans hdq (done_mono p hij _)) (by omega)
        simp only [step, hj, spinStep, if_neg hmoved, Option.some.injEq, Prod.mk.injEq] at hs
        have hnext : (p.state (j + 1)).thr t = ⟨.loadSeq n, fs⟩ := by
          rw [← hs.1]
          exact Function.update_self ..
        obtain ⟨l, hl⟩ := hf.resets (.inl hnext)
        have := done_mono p (show i ≤ j + 1 by omega) (.inr n)
        exact ⟨l, by omega⟩

/-- **Out.** A thread whose leaf has been reset returns. -/
theorem FairRun.completes_thread (hf : FairRun p) {t : Thr} (harrives : Arrives p k (.inl t))
    (hup : Completes p k (.inr (T.home t))) : Completes p k (.inl t) := by
  obtain ⟨i₁, h₁⟩ := harrives
  obtain ⟨i₂, h₂⟩ := hup
  set i₀ := max i₁ i₂ with hi₀
  have hleaving : ∀ i, i₀ ≤ i → k ≤ (counts (p.trace i)).done (.inl t) ∨
      LeavingAt T (p.state i) t ((p.state i).thr t) := by
    intro i hi
    by_cases hdone : k ≤ (counts (p.trace i)).done (.inl t)
    · exact .inl hdone
    · exact .inr ((p.inv i).leavingAt (Nat.le_trans h₁ (arrived_mono p (by omega) _))
        (Nat.le_trans h₂ (done_mono p (by omega) _)) (by omega))
  have hret : ∀ i v, i₀ ≤ i → (p.state i).thr t = ⟨.ret v, []⟩ → Completes p k (.inl t) := by
    intro i v hi hth
    obtain ⟨j, hj⟩ := hf.returns_ret hth
    have := Nat.le_trans h₁ (arrived_mono p (show i₁ ≤ i by omega) _)
    have := (p.inv i).rounds.arrived_le (.inl t)
    exact ⟨j, by omega⟩
  have hspin : ∀ i b curSeq, i₀ ≤ i → (p.state i).thr t = ⟨.spin b curSeq, []⟩ →
      Completes p k (.inl t) := by
    intro i b curSeq hi hth
    obtain ⟨j, es, hij, hj, hs, -⟩ := hf.moves hth (by simp) (by simp)
    rcases hleaving j (by omega) with hdone | hat
    · exact ⟨j, hdone⟩
    · rw [hj] at hat
      simp only [step, hj, spinStep, if_neg hat.2.2, Option.some.injEq,
        Prod.mk.injEq] at hs
      refine hret (j + 1) 0 (by omega) ?_
      rw [← hs.1]
      exact Function.update_self ..
  -- awake, it returns by its own steps
  have hawake : ∀ i, i₀ ≤ i → (∀ b curSeq, ((p.state i).thr t).pc ≠ .asleep b curSeq) →
      Completes p k (.inl t) := by
    intro i hi hna
    rcases hleaving i hi with hdone | hat
    · exact ⟨i, hdone⟩
    · rcases hth : (p.state i).thr t with ⟨pc, fs⟩
      rw [hth] at hat hna
      obtain ⟨hfs, hat⟩ := hat
      change fs = [] at hfs
      subst hfs
      cases pc with
      | ret v => exact hret i v hi hth
      | futexWake b =>
          obtain ⟨j, es, hij, hj, hs, -⟩ := hf.moves hth (by simp) (by simp)
          simp only [step, hj, Option.some.injEq, Prod.mk.injEq] at hs
          refine hret (j + 1) PTHREAD_BARRIER_SERIAL_THREAD (by omega) ?_
          rw [← hs.1]
          exact Function.update_self ..
      | spin b curSeq => exact hspin i b curSeq hi hth
      | futexWait b curSeq =>
          obtain ⟨j, es, hij, hj, hs, -⟩ := hf.moves hth (by simp) (by simp)
          rcases hleaving j (by omega) with hdone | hat
          · exact ⟨j, hdone⟩
          · rw [hj] at hat
            simp only [step, hj, if_neg (Ne.symm hat.2.2), Option.some.injEq,
              Prod.mk.injEq] at hs
            refine hspin (j + 1) b curSeq (by omega) ?_
            rw [← hs.1]
            exact Function.update_self ..
      | asleep b curSeq => exact absurd rfl (hna b curSeq)
      | out => exact hat.elim
      | readSeq b inc => exact hat.elim
      | addWaiting b inc curSeq => exact hat.elim
      | loadSeq b => exact hat.elim
      | storeReset b v => exact hat.elim
  by_cases hna : ∀ b curSeq, ((p.state i₀).thr t).pc ≠ .asleep b curSeq
  · exact hawake i₀ (Nat.le_refl _) hna
  · push Not at hna
    obtain ⟨b, curSeq, hpc⟩ := hna
    rcases hleaving i₀ (Nat.le_refl _) with hdone | hat
    · exact ⟨i₀, hdone⟩
    · -- it is woken by the thread that reset the leaf, if not before
      have hth : (p.state i₀).thr t = ⟨.asleep b curSeq, []⟩ := by
        rw [← hpc, ← hat.1]
      rw [hth] at hat
      obtain ⟨rfl, hmoved⟩ := hat.2
      obtain ⟨u, hu⟩ := (p.inv i₀).waker_of_asleep (Runs.wakeOk (p.run i₀)) hth hmoved
      obtain ⟨j, es, hij, hj, hs, -⟩ := hf.moves hu (by simp) (by simp)
      by_cases hna : ∀ b curSeq, ((p.state j).thr t).pc ≠ .asleep b curSeq
      · exact hawake j hij hna
      · push Not at hna
        obtain ⟨b', curSeq', hpc'⟩ := hna
        rcases hleaving j hij with hdone | hat
        · exact ⟨j, hdone⟩
        · have hth' : (p.state j).thr t = ⟨.asleep b' curSeq', []⟩ := by
            rw [← hpc', ← hat.1]
          rw [hth'] at hat
          obtain ⟨rfl, -⟩ := hat.2
          have hut : t ≠ u := by
            rintro rfl
            rw [hj] at hth'
            cases hth'
          simp only [step, hj, Option.some.injEq, Prod.mk.injEq] at hs
          refine hspin (j + 1) (T.home t) curSeq' (by omega) ?_
          rw [← hs.1]
          simp [State.setThr, State.wakeAll, Function.update_of_ne hut, hth']

/-! ## The law -/

/-- A thread that has started its `k`-th call arrives. -/
theorem FairRun.arrives_thread (hf : FairRun p) {t : Thr} {i : ℕ} (h : k ≤ calls (p.trace i) t) :
    Arrives p k (.inl t) := by
  have hinv := p.inv i
  have hcalls : CallsOk (p.trace i) (p.state i) t := Runs.callsOk (p.run i) t
  have hle : (counts (p.trace i)).done (.inl t) ≤ (counts (p.trace i)).arrived (.inl t) :=
    Nat.le_trans (hinv.rounds.done_le _ _ sub_inl) (hinv.rounds.le_arrived _ _ sub_inl)
  have hle' := hinv.rounds.arrived_le (.inl t)
  have hpc := (hinv.thread t).pc
  have hbelow := (hinv.thread t).below
  simp only [CallsOk] at hcalls
  by_cases harr : Arrived (counts (p.trace i)) (.inl t)
  · refine ⟨i, ?_⟩
    simp only [Arrived] at harr
    split at hcalls <;> omega
  · -- at the very beginning of the call
    have hidle : (counts (p.trace i)).arrived (.inl t) = (counts (p.trace i)).done (.inl t) := by
      simp only [Arrived] at harr
      omega
    by_cases hout : ((p.state i).thr t).pc = .out
    · rw [if_pos hout] at hcalls
      exact ⟨i, by omega⟩
    · rw [if_neg hout] at hcalls
      rcases hth : (p.state i).thr t with ⟨pc, fs⟩
      rw [hth] at hpc hbelow hout
      have hfs : fs = [] := by
        cases fs with
        | nil => rfl
        | cons c fs => exact absurd (hbelow _ (mem_standsFor.mpr (.inl rfl))) harr
      subst hfs
      have hgo : ∃ j, (counts (p.trace i)).arrived (.inl t) + 1 ≤
          (counts (p.trace j)).arrived (.inl t) := by
        cases pc with
        | out => exact absurd rfl hout
        | readSeq b inc =>
            obtain ⟨j, hj⟩ := hf.arrives (.inl hth)
            exact ⟨j, hj⟩
        | addWaiting b inc curSeq =>
            obtain ⟨j, hj⟩ := hf.arrives (.inr ⟨curSeq, hth⟩)
            exact ⟨j, hj⟩
        | spin b curSeq => exact absurd hpc.2.1 harr
        | futexWait b curSeq => exact absurd hpc.2.2.1 harr
        | asleep b curSeq => exact absurd hpc.2.2.1 harr
        | loadSeq b => exact absurd hpc.2.1 harr
        | storeReset b v => exact absurd hpc.2.1 harr
        | futexWake b => exact absurd hpc.2.2.1 harr
        | ret v => exact absurd hpc.2.1 harr
      obtain ⟨j, hj⟩ := hgo
      exact ⟨j, by omega⟩

/-- A barrier that counts someone has a party. -/
theorem exists_party {n : Node} (h : 0 < (T.totalCount n).toNat) : ∃ y, T.Sub y (.inr n) := by
  by_contra hno
  have hempty : T.parties n = ∅ := by
    apply Finset.eq_empty_of_forall_notMem
    intro y hy
    exact hno ⟨y, mem_parties.mp hy⟩
  rw [totalCount_eq, hempty, Finset.sum_empty] at h
  exact Nat.lt_irrefl 0 h

/-- All parties of all barriers arrive, from the leaves up. -/
theorem FairRun.arrives_all (hf : FairRun p) (hcall : ∀ t, ∃ i, k ≤ calls (p.trace i) t)
    (n : Node) : ∀ y, T.Sub y (.inr n) → Arrives p k y := by
  refine upward_induction (T := T) (P := fun n => ∀ y, T.Sub y (.inr n) → Arrives p k y) ?_ n
  intro n ih y hy
  cases y with
  | inl t =>
      obtain ⟨i, hi⟩ := hcall t
      exact hf.arrives_thread hi
  | inr c => exact hf.arrives_up hy.1 (exists_party hy.2) (ih c hy.1)

/-- All barriers are reset, from the root down. -/
theorem FairRun.completes_all (hf : FairRun p) (hcall : ∀ t, ∃ i, k ≤ calls (p.trace i) t)
    {n : Node} (hsome : ∃ y, T.Sub y (.inr n)) : Completes p k (.inr n) := by
  induction hd : T.depth n using Nat.strongRecOn generalizing n with
  | _ d ih =>
    obtain ⟨y, hy⟩ := hsome
    cases hq : T.parentBar n with
    | none =>
        obtain rfl := (T.parentBar_eq_none n).mp hq
        exact hf.completes_root ⟨y, hy⟩ (hf.arrives_all hcall T.root)
    | some q =>
        have hlt : T.depth q < d := by
          have := T.depth_parentBar n q hq
          omega
        have hsub : T.Sub (.inr n) (.inr q) := sub_parent hy hq
        exact hf.completes_down hq ⟨y, hy⟩ (hf.arrives_all hcall n)
          (hf.arrives_all hcall q _ hsub) (ih _ hlt ⟨_, hsub⟩ rfl)

end Rounds

/-- **Every call returns.** In every infinite run of every tree under a fair
scheduler: if every thread starts its `k`-th call of `fastsync_barrier_wait`
some day, then some day it has returned from it. -/
theorem barrier_calls_return (T : BarrierTree Node Thr) (mem : Node → FastsyncBarrier Node)
    (p : Paths T mem) (hf : FairRun p) (k : ℕ) (hcall : ∀ t, ∃ i, k ≤ calls (p.trace i) t)
    (t : Thr) : ∃ i, k ≤ returns (p.trace i) t := by
  obtain ⟨i, hi⟩ := hcall t
  exact hf.completes_thread (hf.arrives_thread hi) (hf.completes_all hcall ⟨.inl t, sub_inl⟩)

/-- Both threads of the small tree go through a round: the thread that called
first sees the reset, and returns. -/
def roundSchedule : List (Act (Fin 2)) := pairSchedule ++ pairSchedule.take 4

theorem barrier_calls_return_pair : ∃ p : Paths pairTree (fun _ => zeroBar _), FairRun p ∧
    ∀ t, ∃ i, 1 ≤ returns (p.trace i) t := by
  have hout : (exec (step pairTree.home) (State.init pairTree (fun _ => zeroBar _))
      roundSchedule).map (fun r =>
        (decide (∀ t, (r.1.thr t).pc = .out), decide (∀ t, 1 ≤ calls r.2 t))) =
      some (true, true) := by decide
  obtain ⟨⟨s, tr⟩, he, hv⟩ := Option.map_eq_some_iff.mp hout
  simp only [Prod.mk.injEq, decide_eq_true_eq] at hv
  have hf : FairRun (Path.ofExec _ he) := fun t => Path.ofExec_fair (fun hr => hr.1 (hv.1 t))
  have hcall : ∀ t, ∃ i, 1 ≤ calls ((Path.ofExec _ he).trace i) t := by
    intro t
    refine ⟨roundSchedule.length, ?_⟩
    rw [(Path.ofExec_end (h := he) (Nat.le_refl _)).2]
    exact hv.2 t
  exact ⟨Path.ofExec _ he, hf, barrier_calls_return pairTree _ _ hf 1 hcall⟩

end Reeact.Barrier
