import Reeact.Fastsync.BarrierStep

/-!
# fastsync_barrier — separation and accounting

What the invariant gives for every run of every tree: no thread leaves a
round that another has not entered, and the packed counter of each barrier is
exactly the arrivals of its current round.
-/

namespace Reeact.Barrier

open Transition BarrierTree

variable {Node Thr : Type} [Fintype Node] [DecidableEq Node] [Fintype Thr]
  [DecidableEq Thr] {T : BarrierTree Node Thr}

/-- Every barrier initialised over whatever memory `mem` it occupies, then
linked to its parent by the user; no thread has called anything yet. -/
def State.init (T : BarrierTree Node Thr) (mem : Node → FastsyncBarrier Node) :
    State Node Thr where
  bar n := { fastsyncBarrierInit (mem n) (T.totalCount n) with parentBar := T.parentBar n }
  thr _ := ⟨.out, []⟩

/-- The runs of a tree: all interleavings of its threads' calls. -/
abbrev Runs (T : BarrierTree Node Thr) (mem : Node → FastsyncBarrier Node) :
    List (Ev Node Thr) → State Node Thr → Prop :=
  Run (Does (step T.home)) (State.init T mem)

theorem Runs.inv {mem : Node → FastsyncBarrier Node} {tr : List (Ev Node Thr)}
    {s : State Node Thr} (h : Runs T mem tr s) : Inv T tr s :=
  Run.invariant (Inv.init T _ (fun _ => rfl) (fun _ => rfl) (fun _ => rfl))
    (fun _ _ _ _ _ hi hs => hi.step hs) h

/-! ## A small tree -/

/-- A root over two leaves of one thread each. -/
def pairTree : BarrierTree (Fin 3) (Fin 2) where
  parentBar n := if n = 0 then none else some 0
  totalCount n := if n = 0 then 2 else 1
  home t := if t = 0 then 1 else 2
  root := 0
  depth n := if n = 0 then 0 else 1
  parentBar_eq_none := by decide
  depth_parentBar := by decide
  home_leaf := by decide
  leaf_total := by decide
  inner_total := by decide

def zeroBar (Node : Type) : FastsyncBarrier Node := ⟨0, 0, none⟩

/-- Thread 0 climbs to the root and spins there; thread 1 follows, resets the
root and its leaf, and returns. -/
def pairSchedule : List (Act (Fin 2)) :=
  List.replicate 5 (.run 0) ++ List.replicate 10 (.run 1)

def pairTrace : List (Ev (Fin 3) (Fin 2)) :=
  [.call 0, .arrive 0 1 none 1, .arrive 0 0 (some 1) 1,
    .call 1, .arrive 1 2 none 1, .arrive 1 0 (some 2) 1,
    .reset 1 0, .reset 1 2, .ret 1 PTHREAD_BARRIER_SERIAL_THREAD]

theorem pair_runs : ∃ s, Runs pairTree (fun _ => zeroBar _) pairTrace s :=
  run_of_trace pairSchedule (by decide)

/-- A root over a leaf of two threads and one of a single thread. -/
def sharedTree : BarrierTree (Fin 3) (Fin 3) where
  parentBar n := if n = 0 then none else some 0
  totalCount n := if n = 0 then 3 else if n = 1 then 2 else 1
  home t := if t = 2 then 2 else 1
  root := 0
  depth n := if n = 0 then 0 else 1
  parentBar_eq_none := by decide
  depth_parentBar := by decide
  home_leaf := by decide
  leaf_total := by decide
  inner_total := by decide

/-- Thread 0 falls asleep on the first leaf, thread 2 spins at the root, and
thread 1 resets the root and the first leaf: it is about to wake thread 0. -/
def sleeperSchedule : List (Act (Fin 3)) :=
  List.replicate 5 (.run 0) ++ List.replicate 5 (.run 2) ++ List.replicate 9 (.run 1)

/-- Then everybody returns. -/
def sharedSchedule : List (Act (Fin 3)) :=
  sleeperSchedule ++ List.replicate 2 (.run 1) ++ List.replicate 2 (.run 0) ++
    List.replicate 4 (.run 2)

/-! ## What a step emits -/

/-- Every thread is inside `fastsync_barrier_wait` or outside as before. -/
def Stays (s s' : State Node Thr) : Prop :=
  ∀ u, (s'.thr u).pc = .out ↔ (s.thr u).pc = .out

/-- The events of a step, with the position of the thread that emits them and
who enters or leaves `fastsync_barrier_wait`. The fall-through is not among
them. -/
inductive Emits (s s' : State Node Thr) : List (Ev Node Thr) → Prop
  | silent : Stays s s' → Emits s s' []
  | call {t : Thr} : (s.thr t).pc = .out → (s'.thr t).pc ≠ .out →
      (∀ u, u ≠ t → ((s'.thr u).pc = .out ↔ (s.thr u).pc = .out)) → Emits s s' [.call t]
  | arrive {t : Thr} {b : Node} {inc curSeq : BitVec 32} {fs : List Node} :
      s.thr t = ⟨.addWaiting b inc curSeq, fs⟩ → Stays s s' →
      Emits s s' [.arrive t b fs.head? inc]
  | reset {t : Thr} {b : Node} {v : BitVec 64} {fs : List Node} :
      s.thr t = ⟨.storeReset b v, fs⟩ → Stays s s' → Emits s s' [.reset t b]
  | wake {t : Thr} {b : Node} : (s.thr t).pc = .futexWake b → Stays s s' →
      Emits s s' [.wake t b]
  | ret {t : Thr} {v : Int} {fs : List Node} :
      s.thr t = ⟨.ret v, fs⟩ → (s'.thr t).pc = .out →
      (∀ u, u ≠ t → ((s'.thr u).pc = .out ↔ (s.thr u).pc = .out)) → Emits s s' [.ret t v]

/-- Inside the call, and neither in a futex queue nor about to wake one. -/
def Pc.Underway : Pc Node → Prop
  | .out | .asleep _ _ | .futexWake _ => False
  | _ => True

section

omit [Fintype Node] [DecidableEq Node]

theorem Pc.Underway.ne_out {pc : Pc Node} (h : pc.Underway) : pc ≠ .out := by
  intro e
  rw [e] at h
  exact h

theorem leave_underway (fs : List Node) (r : Int) : (leave fs r).pc.Underway := by
  cases fs <;> exact trivial

theorem afterAdd_underway (bar : FastsyncBarrier Node) (b : Node) (count curSeq : BitVec 32)
    (fs : List Node) : (afterAdd bar b count curSeq fs).pc.Underway := by
  simp only [afterAdd, climb]
  split
  · split <;> exact trivial
  · split
    · exact trivial
    · exact leave_underway fs 1

theorem spinStep_underway (bar : FastsyncBarrier Node) (b : Node) (curSeq : BitVec 32)
    (fs : List Node) : (spinStep bar b curSeq fs).pc.Underway := by
  simp only [spinStep]
  split
  · cases fs <;> exact trivial
  · exact leave_underway fs 0

theorem afterReset_ne_out (bar : FastsyncBarrier Node) (b : Node) (fs : List Node) :
    (afterReset bar b fs).pc ≠ .out := by
  cases fs with
  | nil =>
      simp only [afterReset]
      split <;> simp
  | cons c fs => exact (leave_underway (c :: fs) 0).ne_out

end

omit [Fintype Node] [DecidableEq Node] [Fintype Thr] in
theorem setThr_pc_other (s : State Node Thr) {t u : Thr} (th : Thread Node) (hu : u ≠ t) :
    ((s.setThr t th).thr u).pc = .out ↔ (s.thr u).pc = .out := by
  simp only [State.setThr, Function.update_of_ne hu]

omit [Fintype Node] [DecidableEq Node] [Fintype Thr] in
theorem stays_setThr {s : State Node Thr} {t : Thr} {th : Thread Node}
    (h : (s.thr t).pc ≠ .out) (h' : th.pc ≠ .out) : Stays s (s.setThr t th) := by
  intro u
  by_cases hu : u = t
  · subst hu
    simp [State.setThr, h, h']
  · exact setThr_pc_other s th hu

omit [Fintype Node] [Fintype Thr] [DecidableEq Thr] in
theorem stays_wakeAll (s : State Node Thr) (b : Node) : Stays s (s.wakeAll b) := by
  intro u
  rcases wakeAll_thr s b u with hw | ⟨curSeq, hpc, hw⟩
  · rw [hw]
  · simp [hw, hpc]

omit [Fintype Node] [DecidableEq Node] [Fintype Thr] [DecidableEq Thr] in
theorem Stays.trans {s s' s'' : State Node Thr} (h : Stays s s') (h' : Stays s' s'') :
    Stays s s'' := fun u => (h' u).trans (h u)

theorem Inv.emits {tr es : List (Ev Node Thr)} {s s' : State Node Thr} (h : Inv T tr s)
    (hs : Does (Barrier.step T.home) s es s') : Emits s s' es := by
  obtain ⟨a, ha⟩ := hs
  cases a with
  | spurious t =>
      obtain ⟨b, curSeq, hpc, rfl, rfl⟩ := step_spurious ha
      exact .silent (stays_setThr (by simp [hpc]) (by simp))
  | run t =>
      rcases hth : s.thr t with ⟨pc, fs⟩
      have hpc : (s.thr t).pc = pc := by rw [hth]
      simp only [Barrier.step, hth] at ha
      cases pc with
      | addWaiting b inc curSeq =>
          have hle := (h.add_cases hth).1
          simp only [FastsyncBarrier.addWaiting_waiting,
            FastsyncBarrier.addWaiting_totalCount, h.totalCount b, if_pos hle] at ha
          cases ha
          exact .arrive hth (stays_setThr (s := s.setBar b _) (by simp [State.setBar, hpc])
            (afterAdd_underway _ b _ curSeq fs).ne_out)
      | futexWait b curSeq =>
          simp only at ha
          split at ha <;>
            (cases ha; exact .silent (stays_setThr (by simp [hpc]) (by simp)))
      | out =>
          cases ha
          exact .call hpc (by simp [State.setThr]) (fun u hu => setThr_pc_other s _ hu)
      | storeReset b v =>
          cases ha
          exact .reset hth (stays_setThr (s := s.setBar b _) (by simp [State.setBar, hpc])
            (afterReset_ne_out _ b fs))
      | futexWake b =>
          cases ha
          refine .wake hpc ((stays_wakeAll s b).trans (stays_setThr ?_ (by simp)))
          intro hout
          have := (stays_wakeAll s b t).mp hout
          simp [hpc] at this
      | ret v =>
          cases ha
          exact .ret hth (by simp [State.setThr]) (fun u hu => setThr_pc_other s _ hu)
      | spin b curSeq =>
          cases ha
          exact .silent (stays_setThr (by simp [hpc]) (spinStep_underway _ b curSeq fs).ne_out)
      | asleep b curSeq => cases ha
      | readSeq b inc =>
          cases ha
          exact .silent (stays_setThr (by simp [hpc]) (by simp))
      | loadSeq b =>
          cases ha
          exact .silent (stays_setThr (by simp [hpc]) (by simp))

/-- The fall-through exits are never taken. -/
theorem Runs.no_fallThrough {mem : Node → FastsyncBarrier Node} {tr : List (Ev Node Thr)}
    {s : State Node Thr} (h : Runs T mem tr s) (t : Thr) (n : Node) :
    Ev.fallThrough t n ∉ tr := by
  refine Run.invariant (P := fun tr _ => Ev.fallThrough t n ∉ tr) (by simp) ?_ h
  intro tr s es s' hr hno hs hmem
  rcases List.mem_append.mp hmem with hmem | hmem
  · exact hno hmem
  · cases (Runs.inv hr).emits hs <;> simp at hmem

/-! ## Separation -/

/-- A thread has started one call more than have returned to it while it is
inside, and as many otherwise. -/
def CallsOk (tr : List (Ev Node Thr)) (s : State Node Thr) (t : Thr) : Prop :=
  calls tr t = (counts tr).done (.inl t) + if (s.thr t).pc = .out then 0 else 1

omit [Fintype Node] [Fintype Thr] in
theorem CallsOk.step {tr es : List (Ev Node Thr)} {s s' : State Node Thr}
    (h : ∀ t, CallsOk tr s t) (hs : Emits s s' es) (u : Thr) : CallsOk (tr ++ es) s' u := by
  have hu := h u
  simp only [CallsOk, calls, counts, List.countP_append] at hu ⊢
  rw [hu]
  cases hs with
  | silent hst => simp [hst u]
  | @arrive t b inc curSeq fs _ hst =>
      cases fs <;> simp [hst u, Ev.completes?]
  | reset _ hst => simp [hst u, Ev.completes?]
  | wake _ hst => simp [hst u, Ev.completes?]
  | @call t hpc hpc' hother =>
      by_cases hut : u = t
      · subst hut; simp [hpc, hpc', Ev.completes?]
      · simp [hother u hut, Ev.completes?, Ne.symm hut]
  | @ret t v fs hth hpc' hother =>
      by_cases hut : u = t
      · subst hut; simp [hth, hpc', Ev.completes?]
      · simp [hother u hut, Ev.completes?, Ne.symm hut]

theorem Runs.callsOk {mem : Node → FastsyncBarrier Node} {tr : List (Ev Node Thr)}
    {s : State Node Thr} (h : Runs T mem tr s) (t : Thr) : CallsOk tr s t := by
  refine Run.invariant (P := fun tr s => ∀ t, CallsOk tr s t) ?_ ?_ h t
  · intro t
    simp [CallsOk, calls, counts, State.init]
  · intro tr s es s' hr hc hs u
    exact CallsOk.step hc ((Runs.inv hr).emits hs) u

theorem Runs.arrived_le_calls {mem : Node → FastsyncBarrier Node} {tr : List (Ev Node Thr)}
    {s : State Node Thr} (h : Runs T mem tr s) (t : Thr) :
    (counts tr).arrived (.inl t) ≤ calls tr t := by
  have hc := h.callsOk t
  have hok := (h.inv.thread t).pc
  have harr := h.inv.rounds.arrived_le (.inl t)
  rw [CallsOk] at hc
  by_cases hout : (s.thr t).pc = .out
  · rw [hout] at hok
    have : (counts tr).arrived (.inl t) = (counts tr).done (.inl t) := hok.2
    omega
  · rw [if_neg hout] at hc
    omega

/-- **Barrier separation.** In every run of every tree, whatever the number of
rounds: when a thread has returned from `k` calls of `fastsync_barrier_wait`,
every thread of the tree has started its `k`-th. -/
theorem barrier_separation (T : BarrierTree Node Thr) (mem : Node → FastsyncBarrier Node)
    {tr : List (Ev Node Thr)} {s : State Node Thr} (h : Runs T mem tr s) (t u : Thr)
    {k : ℕ} (hk : k ≤ returns tr t) : k ≤ calls tr u :=
  calc k ≤ returns tr t := hk
    _ ≤ (counts tr).arrived (.inl u) :=
        h.inv.rounds.separation (thread_below_root t) (thread_below_root u)
    _ ≤ calls tr u := h.arrived_le_calls u

theorem barrier_separation_pair : 1 ≤ calls pairTrace 0 := by
  obtain ⟨s, hs⟩ := pair_runs
  exact barrier_separation pairTree (fun _ => zeroBar _) hs 1 0 (by decide)

/-! ## Accounting -/

/-- The arrivals at `n` since its last reset, each with its increment. -/
def pending (n : Node) (tr : List (Ev Node Thr)) : List (Party Node Thr × BitVec 32) :=
  tr.foldl (fun acc e =>
    match e with
    | .arrive t b via inc =>
        if b = n then acc ++ [(via.elim (.inl t) .inr, inc)] else acc
    | .reset _ b => if b = n then [] else acc
    | _ => acc) []

/-- How often a party has arrived at its barrier. -/
def arrivals (tr : List (Ev Node Thr)) (y : Party Node Thr) : ℕ :=
  tr.countP (fun e => e.arrives? = some y)

omit [Fintype Node] [Fintype Thr] [DecidableEq Thr] in
theorem pending_append (n : Node) (tr : List (Ev Node Thr)) (e : Ev Node Thr) :
    pending n (tr ++ [e]) =
      match e with
      | .arrive t b via inc =>
          if b = n then pending n tr ++ [(via.elim (.inl t) .inr, inc)] else pending n tr
      | .reset _ b => if b = n then [] else pending n tr
      | _ => pending n tr := by
  simp only [pending, List.foldl_append, List.foldl_cons, List.foldl_nil]

omit [Fintype Node] [DecidableEq Node] [Fintype Thr] [DecidableEq Thr] in
theorem elim_head? (t : Thr) (fs : List Node) :
    (fs.head?.elim (.inl t) .inr : Party Node Thr) = party t fs := by
  cases fs <;> rfl

/-- The pending arrivals at `n` are its parties that have arrived in the
current round, once each, with their own increment. -/
structure PendingOk (T : BarrierTree Node Thr) (tr : List (Ev Node Thr)) (n : Node) : Prop where
  nodup : ((pending n tr).map Prod.fst).Nodup
  mem : ∀ y, y ∈ (pending n tr).map Prod.fst ↔
    T.Sub y (.inr n) ∧ (counts tr).arrived y = (counts tr).done (.inr n) + 1
  inc : ∀ a ∈ pending n tr, a.2.toNat = T.weight a.1

theorem PendingOk.of_eq {tr tr' : List (Ev Node Thr)} {n : Node} (h : PendingOk T tr n)
    (hp : pending n tr' = pending n tr)
    (harr : ∀ y, T.Sub y (.inr n) → (counts tr').arrived y = (counts tr).arrived y)
    (hdone : (counts tr').done (.inr n) = (counts tr).done (.inr n)) : PendingOk T tr' n where
  nodup := by rw [hp]; exact h.nodup
  inc := by rw [hp]; exact h.inc
  mem y := by
    rw [hp, h.mem y, hdone]
    constructor
    · intro hy
      exact ⟨hy.1, (harr y hy.1).trans hy.2⟩
    · intro hy
      exact ⟨hy.1, (harr y hy.1).symm.trans hy.2⟩

theorem PendingOk.arrive {tr : List (Ev Node Thr)} {s : State Node Thr} {t : Thr} {b : Node}
    {inc curSeq : BitVec 32} {fs : List Node} {n : Node} (hi : Inv T tr s)
    (hth : s.thr t = ⟨.addWaiting b inc curSeq, fs⟩) (h : PendingOk T tr n) :
    PendingOk T (tr ++ [.arrive t b fs.head? inc]) n := by
  have hok := (hi.thread t).pc
  rw [hth] at hok
  have hpath : OnPath T t b fs := hok.1
  have hidle : (counts tr).arrived (party t fs) = (counts tr).done (party t fs) := hok.2.1
  have hinc : inc.toNat = T.weight (party t fs) := hok.2.2.1
  have hc := counts_append_arrives tr (e := .arrive t b fs.head? inc)
    (arrives?_arrive t b fs inc) rfl
  have hp := pending_append n tr (.arrive t b fs.head? inc)
  simp only [elim_head?] at hp
  by_cases hb : b = n
  · subst hb
    rw [if_pos rfl] at hp
    have hdone := hi.rounds.done_eq_of_idle hpath.sub hidle
    have hnew : party t fs ∉ (pending b tr).map Prod.fst := by
      intro hmem
      have := ((h.mem _).mp hmem).2
      omega
    constructor
    · rw [hp, List.map_append, List.nodup_append]
      refine ⟨h.nodup, by simp, ?_⟩
      intro y hy z hz e
      have hz' : z = party t fs := List.mem_singleton.mp hz
      subst e
      subst hz'
      exact hnew hy
    · intro y
      rw [hp, List.map_append, List.mem_append, h.mem y, hc, Rounds.Counts.arrive_done]
      by_cases hyx : y = party t fs
      · subst hyx
        rw [Rounds.Counts.arrive_self, hidle, hdone]
        simp [hpath.sub]
      · rw [Rounds.Counts.arrive_ne _ hyx]
        simp [hyx]
    · intro a ha
      rw [hp] at ha
      rcases List.mem_append.mp ha with ha | ha
      · exact h.inc a ha
      · rw [List.mem_singleton.mp ha]
        exact hinc
  · rw [if_neg hb] at hp
    refine h.of_eq hp (fun y hy => ?_) (by rw [hc, Rounds.Counts.arrive_done])
    have hyx : y ≠ party t fs := by
      intro e
      subst e
      exact hb (sub_unique hpath.sub hy)
    rw [hc, Rounds.Counts.arrive_ne _ hyx]

theorem PendingOk.reset {tr : List (Ev Node Thr)} {s : State Node Thr} {t : Thr} {b : Node}
    {v : BitVec 64} {fs : List Node} {n : Node} (hi : Inv T tr s)
    (hth : s.thr t = ⟨.storeReset b v, fs⟩) (h : PendingOk T tr n) :
    PendingOk T (tr ++ [.reset t b]) n := by
  have hf := hi.leads_full t b (by rw [hth]; exact .inr (.inr ⟨v, rfl⟩))
  have hc := counts_append_completes tr (e := .reset t b) (x := .inr b) rfl rfl
  have hp := pending_append n tr (.reset t b)
  by_cases hb : b = n
  · subst hb
    simp only [if_true] at hp
    constructor
    · rw [hp]; simp
    · intro y
      rw [hp, hc, Rounds.Counts.complete_self, Rounds.Counts.complete_arrived]
      constructor
      · intro hy
        simp at hy
      · intro hy
        -- every party arrived exactly once in the round that was reset
        have := hf y hy.1
        omega
    · intro a ha
      rw [hp] at ha
      cases ha
  · simp only [if_neg hb] at hp
    have hne : (Sum.inr n : Party Node Thr) ≠ .inr b := fun e => hb (Sum.inr.inj e).symm
    refine h.of_eq hp (fun y _ => by rw [hc, Rounds.Counts.complete_arrived]) ?_
    rw [hc, Rounds.Counts.complete_ne _ hne]

theorem Runs.pendingOk {mem : Node → FastsyncBarrier Node} {tr : List (Ev Node Thr)}
    {s : State Node Thr} (h : Runs T mem tr s) (n : Node) : PendingOk T tr n := by
  refine Run.invariant (P := fun tr _ => PendingOk T tr n) ?_ ?_ h
  · constructor
    · simp [pending]
    · intro y
      simp [pending, counts]
    · intro a ha
      cases ha
  · intro tr s es s' hr hp hs
    have hi := Runs.inv hr
    cases hi.emits hs with
    | silent _ => simpa using hp
    | arrive hth _ => exact hp.arrive hi hth
    | reset hth _ => exact hp.reset hi hth
    | @call t _ _ _ =>
        have hc := counts_append_quiet tr (e := .call t) rfl rfl
        exact hp.of_eq (pending_append n tr _) (fun y _ => by rw [hc]) (by rw [hc])
    | @wake t b _ _ =>
        have hc := counts_append_quiet tr (e := .wake t b) rfl rfl
        exact hp.of_eq (pending_append n tr _) (fun y _ => by rw [hc]) (by rw [hc])
    | @ret t v fs hth _ _ =>
        have hc := counts_append_completes tr (e := .ret t v) (x := .inl t) rfl rfl
        have hne : (Sum.inr n : Party Node Thr) ≠ .inl t := fun e => by cases e
        exact hp.of_eq (pending_append n tr _)
          (fun y _ => by rw [hc, Rounds.Counts.complete_arrived])
          (by rw [hc, Rounds.Counts.complete_ne _ hne])

/-- The weight of the arrivals of the current round is the sum of the pending
increments. -/
theorem PendingOk.sum_eq {tr : List (Ev Node Thr)} {n : Node} (h : PendingOk T tr n)
    (hr : Rounds.Inv T.Sub (counts tr)) :
    load T (counts tr) n = ((pending n tr).map (fun a => a.2.toNat)).sum := by
  have hw : (pending n tr).map (fun a => a.2.toNat) =
      ((pending n tr).map Prod.fst).map T.weight := by
    rw [List.map_map]
    exact List.map_congr_left (fun a ha => h.inc a ha)
  have hsub : ((pending n tr).map Prod.fst).toFinset ⊆ T.parties n := by
    intro y hy
    exact mem_parties.mpr ((h.mem y).mp (List.mem_toFinset.mp hy)).1
  rw [hw, ← List.sum_toFinset T.weight h.nodup, load, ← Finset.sum_subset hsub]
  · refine Finset.sum_congr rfl (fun y hy => ?_)
    rw [((h.mem y).mp (List.mem_toFinset.mp hy)).2]
    simp
  · intro y hy hn
    have hy' := mem_parties.mp hy
    have h1 := hr.le_arrived y _ hy'
    have h2 := hr.done_le y _ hy'
    have h3 := hr.arrived_le y
    have h4 : (counts tr).arrived y ≠ (counts tr).done (.inr n) + 1 :=
      fun e => hn (List.mem_toFinset.mpr ((h.mem y).mpr ⟨hy', e⟩))
    have h5 : (counts tr).arrived y - (counts tr).done (.inr n) = 0 := by omega
    rw [h5, Nat.zero_mul]

theorem PendingOk.countP_of_mem {tr : List (Ev Node Thr)} {n : Node} {y : Party Node Thr}
    (h : PendingOk T tr n) (hy : y ∈ (pending n tr).map Prod.fst) :
    (pending n tr).countP (fun a => a.1 = y) = 1 := by
  have h1 : (pending n tr).countP (fun a => a.1 = y) =
      ((pending n tr).map Prod.fst).countP (fun x => x = y) := by
    rw [List.countP_map]
    rfl
  rw [h1]
  let _ : BEq (Party Node Thr) := instBEqOfDecidableEq
  exact List.count_eq_one_of_mem h.nodup hy

theorem PendingOk.countP_of_not_mem {tr : List (Ev Node Thr)} {n : Node} {y : Party Node Thr}
    (_ : PendingOk T tr n) (hy : y ∉ (pending n tr).map Prod.fst) :
    (pending n tr).countP (fun a => a.1 = y) = 0 := by
  rw [List.countP_eq_zero]
  intro a ha
  simp only [decide_eq_true_eq]
  intro e
  exact hy (e ▸ List.mem_map_of_mem ha)

/-- The books of one barrier: what its packed word says, against the events of
the run. -/
structure Accounted (T : BarrierTree Node Thr) (tr : List (Ev Node Thr)) (s : State Node Thr)
    (n : Node) : Prop where
  /-- `waiting` is the sum of the increments of the round not yet reset, -/
  waiting_eq : (s.bar n).waiting.toNat = ((pending n tr).map (fun a => a.2.toNat)).sum
  /-- each 1 for a thread and the child's count for a child, -/
  increments : ∀ a ∈ pending n tr, T.Sub a.1 (.inr n) ∧ a.2.toNat = T.weight a.1
  /-- at most one per party. -/
  once : ((pending n tr).map Prod.fst).Nodup
  /-- Every arrival is in exactly one round: one per reset, plus the pending one. -/
  no_loss : ∀ y, T.Sub y (.inr n) →
    arrivals tr y = resets tr n + (pending n tr).countP (fun a => a.1 = y)
  bounded : (s.bar n).waiting ≤ (s.bar n).totalCount
  seq_eq : (s.bar n).seq.toNat = resets tr n % 2 ^ 32
  /-- A reset is stored over a complete round, and carries nothing into `waiting`. -/
  no_carry : ∀ t v fs, s.thr t = ⟨.storeReset n v, fs⟩ →
    (s.bar n).waiting = (s.bar n).totalCount ∧ Packed.lo v = (s.bar n).seq + 1 ∧ Packed.hi v = 0
  no_fallThrough : ∀ t, Ev.fallThrough t n ∉ tr

/-- **Arrival accounting.** In every reachable state of every tree, for any
number of rounds, the books of every barrier balance. -/
theorem barrier_accounting (T : BarrierTree Node Thr) (mem : Node → FastsyncBarrier Node)
    {tr : List (Ev Node Thr)} {s : State Node Thr} (h : Runs T mem tr s) (n : Node) :
    Accounted T tr s n := by
  have hi := h.inv
  have hp := h.pendingOk n
  have hw : (s.bar n).waiting.toNat = load T (counts tr) n := hi.waiting n
  constructor
  · rw [hw]
    exact hp.sum_eq hi.rounds
  · intro a ha
    exact ⟨((hp.mem a.1).mp (List.mem_map_of_mem ha)).1, hp.inc a ha⟩
  · exact hp.nodup
  · intro y hy
    show (counts tr).arrived y = (counts tr).done (.inr n) + _
    have h1 := hi.rounds.le_arrived y _ hy
    have h2 := hi.rounds.done_le y _ hy
    have h3 := hi.rounds.arrived_le y
    by_cases hmem : y ∈ (pending n tr).map Prod.fst
    · rw [((hp.mem y).mp hmem).2, hp.countP_of_mem hmem]
    · rw [hp.countP_of_not_mem hmem]
      have : (counts tr).arrived y ≠ (counts tr).done (.inr n) + 1 :=
        fun e => hmem ((hp.mem y).mpr ⟨hy, e⟩)
      omega
  · rw [hi.totalCount n, BitVec.le_def, hw]
    exact load_le hi.rounds n
  · rw [hi.seq n, BitVec.toNat_ofNat]
    rfl
  · intro t v fs hth
    have hok := (hi.thread t).pc
    rw [hth] at hok
    have hf := hi.leads_full t n (by rw [hth]; exact .inr (.inr ⟨v, rfl⟩))
    refine ⟨?_, ?_, ?_⟩
    · apply BitVec.eq_of_toNat_eq
      rw [hw, hi.totalCount n]
      exact (load_eq_iff hi.rounds n).mpr hf
    · rw [hok.2.2.2, hi.seq n]
      exact Packed.lo_setWidth _
    · rw [hok.2.2.2]
      exact Packed.hi_setWidth _
  · exact fun t => h.no_fallThrough t n

theorem barrier_accounting_pair : ∃ s, Accounted pairTree pairTrace s 0 := by
  obtain ⟨s, hs⟩ := pair_runs
  exact ⟨s, barrier_accounting pairTree (fun _ => zeroBar _) hs 0⟩

end Reeact.Barrier
