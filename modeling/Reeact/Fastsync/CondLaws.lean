import Reeact.Fastsync.CondView

/-!
# fastsync_cond — the leaders of the tree

For every run of threads that use a tree of conditions with one mutex, as
long as no sequence number comes round between a waiter's reading and its
sleep: each flagged node has one leader, and from every sleeper the leaders
lead up to the root.
-/

namespace Reeact.Sync

open Transition

variable {Thr Mtx Cnd : Type} [DecidableEq Thr] [Fintype Thr] [DecidableEq Mtx]
  [DecidableEq Cnd]

/-! ## The invariant of a run -/

structure TreeInv (T : LeaderTree.Tree Cnd) (M : Mtx) (tr : List (Ev Thr Mtx Cnd))
    (s : State Thr Mtx Cnd) : Prop where
  ok : TreeOk T M s
  seq : SeqOk tr s
  tree : NoWrap tr → LeaderTree.Inv T (treeView tr s)
  /-- once somebody has settled in the tree, a broadcast on the root requeues -/
  bound : NoWrap tr → (∃ t, ((treeView tr s).thr t).Settled) → (s.cond T.root).mutex ≠ none

section Invariant

variable {T : LeaderTree.Tree Cnd} {M : Mtx} {mem : Mtx → FastsyncMutex}
  {tr tr' es : List (Ev Thr Mtx Cnd)} {s s' : State Thr Mtx Cnd} {t u : Thr}

omit [Fintype Thr] [DecidableEq Mtx] in
theorem CondEffect.bound (h : CondEffect s t s' es) {c : Cnd} (hc : (s.cond c).mutex ≠ none) :
    (s'.cond c).mutex ≠ none := by
  rcases h.cond with he | ⟨d, v, he, -, -, hv⟩
  · rw [he]
    exact hc
  · rw [he]
    by_cases hd : c = d
    · subst hd
      rw [Function.update_self]
      rcases hv with hv | ⟨m, -, hv⟩
      · rw [hv]
        exact hc
      · rw [hv]
        exact Option.some_ne_none m
    · rw [Function.update_of_ne hd]
      exact hc

/-- A condition once used stays bound. -/
theorem step_bound {a : Act Thr Mtx Cnd} (hs : step s a = some (s', es)) {c : Cnd}
    (hc : (s.cond c).mutex ≠ none) : (s'.cond c).mutex ≠ none := by
  cases a with
  | run t pick => exact (run_cond hs).bound hc
  | call t d =>
      obtain ⟨-, rfl, rfl⟩ := step_call hs
      exact hc
  | spurious t =>
      obtain ⟨-, rfl, rfl⟩ := step_spurious hs
      rw [wake_cond]
      exact hc

omit [DecidableEq Cnd] in
theorem unlockPhase_ne_snap {fresh : Cnd → Bool} {r : Bool} {k : Option (Cnd × BitVec 32)}
    {c : Cnd} : unlockPhase fresh r k ≠ .snap c := by
  cases k <;> exact fun e => by cases e

omit [DecidableEq Mtx] [DecidableEq Cnd] in
theorem phase_eq_snap {fresh : Cnd → Bool} {pc : Pc Mtx Cnd} {c : Cnd}
    (h : phase fresh pc = .snap c) : ∃ m, pc = .waitCurSeq c m := by
  cases pc with
  | waitCurSeq d m =>
      cases h
      exact ⟨m, rfl⟩
  | asleep q m => cases q <;> cases h
  | unlockRead m k | unlockCas m k | unlockAnd m k | unlockClear m k | unlockWake m k =>
      exact absurd h unlockPhase_ne_snap
  | unlockPoll m k i => exact absurd h unlockPhase_ne_snap
  | _ => cases h

theorem TreeInv.step {a : Act Thr Mtx Cnd} (hl : Local s) (hx : FutexLock.Inv (view M s))
    (h : TreeInv T M tr s) (hs : treeStep M s a = some (s', es)) : TreeInv T M (tr ++ es) s' := by
  have hstep := (treeStep_step hs).2
  have hexcl : LeaderTree.Excl (treeView tr s) := treeView_excl hl hx h.ok
  refine ⟨h.ok.step hl hx hs, h.seq.step hl hx h.ok hstep, ?_, ?_⟩
  · intro hw
    rcases tree_step (T := T) hl h.ok h.seq hw hstep with he | hst
    · rw [he]
      exact h.tree hw.of_append
    · exact (h.tree hw.of_append).step hexcl hst
  · rintro hw ⟨u, hu⟩
    have hbefore : (∃ v, ((treeView tr s).thr v).Settled) →
        (s'.cond T.root).mutex ≠ none :=
      fun hv => step_bound hstep (h.bound hw.of_append hv)
    rcases tree_step (T := T) hl h.ok h.seq hw hstep with he | hst
    · rw [he] at hu
      exact hbefore ⟨u, hu⟩
    · rcases hst.settled hu with hu | ⟨c, ds, hsnap⟩
      · exact hbefore ⟨u, hu⟩
      · -- the one that has just settled has found the root, or a leader before it
        by_cases hc : T.parent c = none
        · obtain ⟨m, hpc⟩ := phase_eq_snap (congrArg LeaderTree.Thread.phase hsnap)
          have hok := hl u
          rw [ThreadOk, hpc] at hok
          have hroot : (s.cond c).mutex = some m := hok.2.2
          apply step_bound hstep
          rw [← (T.parent_eq_none c).mp hc, hroot]
          exact Option.some_ne_none m
        · exact hbefore ((h.tree hw.of_append).settled_of_snap hexcl hsnap hc)

omit [Fintype Thr] [DecidableEq Mtx] in
theorem TreeInv.init : TreeInv T M [] (State.init mem (treeCond T) : State Thr Mtx Cnd) where
  ok := by
    refine ⟨?_, fun _ => rfl, fun _ => .inl rfl, ?_, ?_⟩
    · intro t c m h
      cases h
    · intro c m h
      cases h
    · rintro t c m (h | h) <;> cases h
  seq := by
    constructor
    · intro t c cur h
      cases h
    · intro t c cur u m v h
      cases h
  tree _ := by
    have hview : treeView [] (State.init mem (treeCond T) : State Thr Mtx Cnd) =
        ⟨fun _ => false, fun _ => ⟨.free, []⟩⟩ := rfl
    rw [hview]
    exact LeaderTree.Inv.init T
  bound := by
    rintro - ⟨t, ht⟩
    exact absurd rfl ht

theorem TreeRuns.inv (h : TreeRuns T M mem tr s) : TreeInv T M tr s := by
  refine Run.invariant (P := TreeInv T M) .init ?_ h
  intro tr s es s' hr hi hs
  obtain ⟨a, ha⟩ := hs
  have hruns := TreeRuns.runs hr
  exact hi.step hruns.local (hruns.lock M) ha

end Invariant

/-! ## Who waits, who leads -/

/-- The condition a thread waits on: it has released the mutex inside
`fastsync_cond_wait` and is not released from the condition. -/
def Pc.blockedOn : Pc Mtx Cnd → Option Cnd
  | .unlockPoll _ k _ | .unlockClear _ k | .unlockWake _ k => k.map Prod.fst
  | .waitFutex c _ _ => some c
  | .asleep (.cond c) _ => some c
  | _ => none

/-- The node a released leader is about to release. -/
def Pc.releasing : Pc Mtx Cnd → Option Cnd
  | .waitSeqLoad c _ | .waitSeqStore c _ _ | .waitRequeue c _ | .waitClearChild c _ => some c
  | _ => none

/-- In `fastsync_cond_wait`, the mutex not released yet. -/
def Pc.entering : Pc Mtx Cnd → Bool
  | .waitMutex _ _ | .waitNull _ _ | .waitCas _ _ | .waitUseChild _ _ | .waitSetChild _ _ _
  | .waitCurSeq _ _ => true
  | .unlockRead _ k | .unlockCas _ k | .unlockAnd _ k => k.isSome
  | _ => false

def Blocked (s : State Thr Mtx Cnd) (t : Thr) (c : Cnd) : Prop :=
  (s.thr t).pc.blockedOn = some c

/-- `t` executes the parent branch of `fastsync_cond_wait` on `n`, the flag
set and not yet cleared. -/
def Leads (s : State Thr Mtx Cnd) (t : Thr) (n : Cnd) : Prop :=
  n ∈ (s.thr t).frames ∨ (s.thr t).pc.releasing = some n

/-- `t` is out of the queues of the conditions, be it on the mutex; or its
`FUTEX_WAIT` is still to come, and `seq` has moved since it was read. -/
def Out (tr : List (Ev Thr Mtx Cnd)) (s : State Thr Mtx Cnd) (t : Thr) : Prop :=
  ((s.thr t).pc.blockedOn = none ∧ (s.thr t).pc.entering = false) ∨
    ∃ c cur, (s.thr t).pc.window = some (c, cur) ∧ Blocked s t c ∧ 0 < missed t c tr

/-- From `n` leader upon leader waits nearer the root: up to the root, or to
one that is released. -/
inductive LeaderChain (T : LeaderTree.Tree Cnd) (tr : List (Ev Thr Mtx Cnd))
    (s : State Thr Mtx Cnd) : Cnd → Prop
  | root : LeaderChain T tr s T.root
  | released {t : Thr} {n : Cnd} : Leads s t n → Out tr s t → LeaderChain T tr s n
  | up {t : Thr} {n c : Cnd} : Leads s t n → Blocked s t c → T.depth c < T.depth n →
      LeaderChain T tr s c → LeaderChain T tr s n

/-- No further signal is needed for `t`: it is out, or the leaders from its
node upward end in one that is. -/
inductive Released (tr : List (Ev Thr Mtx Cnd)) (s : State Thr Mtx Cnd) : Thr → Prop
  | out {t : Thr} : Out tr s t → Released tr s t
  | led {t u : Thr} {n : Cnd} : Blocked s u n → Leads s t n → Released tr s t → Released tr s u

section Seen

variable {tr : List (Ev Thr Mtx Cnd)} {s : State Thr Mtx Cnd} {t u : Thr} {c n : Cnd}

section

omit [DecidableEq Mtx] [DecidableEq Cnd]

theorem phase_waitsAt (fresh : Cnd → Bool) (pc : Pc Mtx Cnd) (ds : List Cnd) :
    (⟨phase fresh pc, ds⟩ : LeaderTree.Thread Cnd).WaitsAt c ↔ pc.blockedOn = some c := by
  have hunlock : ∀ r k, (⟨unlockPhase fresh r k, ds⟩ : LeaderTree.Thread Cnd).WaitsAt c ↔
      r = true ∧ k.map Prod.fst = some c := by
    intro r k
    cases k <;> cases r <;> simp [unlockPhase, LeaderTree.Thread.WaitsAt]
  cases pc with
  | unlockRead m k | unlockCas m k | unlockAnd m k =>
      rw [phase, hunlock]
      simp [Pc.blockedOn]
  | unlockPoll m k i =>
      rw [phase, hunlock]
      simp [Pc.blockedOn]
  | unlockClear m k | unlockWake m k =>
      rw [phase, hunlock]
      simp [Pc.blockedOn]
  | asleep q m => cases q <;> simp [Pc.blockedOn, phase, LeaderTree.Thread.WaitsAt]
  | _ => simp [Pc.blockedOn, phase, LeaderTree.Thread.WaitsAt]

theorem phase_branch (fresh : Cnd → Bool) (pc : Pc Mtx Cnd) (ds : List Cnd) :
    (⟨phase fresh pc, ds⟩ : LeaderTree.Thread Cnd).Branch n ↔
      n ∈ ds ∨ pc.releasing = some n := by
  have hunlock : ∀ r k, (⟨unlockPhase fresh r k, ds⟩ : LeaderTree.Thread Cnd).Branch n ↔
      n ∈ ds := by
    intro r k
    cases k <;> simp [unlockPhase, LeaderTree.Thread.Branch]
  cases pc with
  | unlockRead m k | unlockCas m k | unlockAnd m k | unlockClear m k | unlockWake m k =>
      rw [phase, hunlock]
      simp [Pc.releasing]
  | unlockPoll m k i =>
      rw [phase, hunlock]
      simp [Pc.releasing]
  | asleep q m => cases q <;> simp [Pc.releasing, phase, LeaderTree.Thread.Branch]
  | _ => simp [Pc.releasing, phase, LeaderTree.Thread.Branch]

theorem phase_done (fresh : Cnd → Bool) (pc : Pc Mtx Cnd) (ds : List Cnd) :
    (⟨phase fresh pc, ds⟩ : LeaderTree.Thread Cnd).Done ↔
      pc.blockedOn = none ∧ pc.entering = false := by
  have hunlock : ∀ r k, (⟨unlockPhase fresh r k, ds⟩ : LeaderTree.Thread Cnd).Done ↔
      k = none := by
    intro r k
    cases k <;> simp [unlockPhase, LeaderTree.Thread.Done]
  cases pc with
  | unlockRead m k | unlockCas m k | unlockAnd m k | unlockClear m k | unlockWake m k =>
      rw [phase, hunlock]
      simp [Pc.blockedOn, Pc.entering]
  | unlockPoll m k i =>
      rw [phase, hunlock]
      simp [Pc.blockedOn, Pc.entering]
  | asleep q m => cases q <;> simp [Pc.blockedOn, Pc.entering, phase, LeaderTree.Thread.Done]
  | _ => simp [Pc.blockedOn, Pc.entering, phase, LeaderTree.Thread.Done]

theorem phase_stale (fresh : Cnd → Bool) (pc : Pc Mtx Cnd) (ds : List Cnd) :
    (⟨phase fresh pc, ds⟩ : LeaderTree.Thread Cnd).Stale ↔
      ∃ c cur, pc.window = some (c, cur) ∧ pc.blockedOn = some c ∧ fresh c = false := by
  have hwindow : ∀ d b, (⟨.window d true b, ds⟩ : LeaderTree.Thread Cnd).Stale ↔ b = false := by
    intro d b
    cases b <;> simp [LeaderTree.Thread.Stale]
  have hunlock : ∀ k, (⟨unlockPhase fresh true k, ds⟩ : LeaderTree.Thread Cnd).Stale ↔
      ∃ c cur, k = some (c, cur) ∧ k.map Prod.fst = some c ∧ fresh c = false := by
    intro k
    cases k with
    | none => simp [unlockPhase, LeaderTree.Thread.Stale]
    | some k =>
        show (⟨.window k.1 true (fresh k.1), ds⟩ : LeaderTree.Thread Cnd).Stale ↔ _
        rw [hwindow]
        constructor
        · exact fun hf => ⟨k.1, k.2, rfl, rfl, hf⟩
        · rintro ⟨c, cur, hk, -, hf⟩
          cases hk
          exact hf
  have hclosed : ∀ k, ¬ (⟨unlockPhase fresh false k, ds⟩ : LeaderTree.Thread Cnd).Stale := by
    intro k
    cases k <;> exact id
  cases pc with
  | unlockRead m k | unlockCas m k | unlockAnd m k =>
      simp [phase, hclosed, Pc.blockedOn]
  | unlockPoll m k i =>
      rw [phase, hunlock]
      rfl
  | unlockClear m k | unlockWake m k =>
      rw [phase, hunlock]
      rfl
  | waitFutex d m cur =>
      rw [phase, hwindow]
      simp [Pc.window, Pc.blockedOn]
  | asleep q m => cases q <;> simp [Pc.window, phase, LeaderTree.Thread.Stale]
  | _ => simp [Pc.window, phase, LeaderTree.Thread.Stale]

end

section

omit [Fintype Thr] [DecidableEq Mtx]

theorem blocked_iff (tr : List (Ev Thr Mtx Cnd)) :
    Blocked s t c ↔ ((treeView tr s).thr t).WaitsAt c :=
  (phase_waitsAt _ _ _).symm

theorem leads_iff (tr : List (Ev Thr Mtx Cnd)) :
    Leads s t n ↔ ((treeView tr s).thr t).Branch n :=
  (phase_branch _ _ _).symm

theorem out_iff : Out tr s t ↔
    ((treeView tr s).thr t).Done ∨ ((treeView tr s).thr t).Stale := by
  have hmoved : ∀ c, unmoved t tr c = false ↔ 0 < missed t c tr := by
    intro c
    rw [unmoved, decide_eq_false_iff_not, Nat.pos_iff_ne_zero]
  show _ ↔ LeaderTree.Thread.Done ⟨phase (unmoved t tr) (s.thr t).pc, (s.thr t).frames⟩ ∨
    LeaderTree.Thread.Stale ⟨phase (unmoved t tr) (s.thr t).pc, (s.thr t).frames⟩
  rw [phase_done, phase_stale]
  simp only [hmoved]
  rfl

/-- What the tree of queues owes, in the words of the code. -/
theorem released_iff : Released tr s u ↔
    LeaderTree.Owed (fun _ => False) (treeView tr s) u := by
  constructor
  · intro h
    induction h with
    | out ho =>
        rcases out_iff.mp ho with hd | hs
        · exact .done hd
        · exact .stale hs
    | led hw hl _ ih => exact .led ((blocked_iff tr).mp hw) ((leads_iff tr).mp hl) ih
  · intro h
    induction h with
    | base hf => exact hf.elim
    | done hd => exact .out (out_iff.mpr (.inl hd))
    | stale hs => exact .out (out_iff.mpr (.inr hs))
    | led hw hb _ ih => exact .led ((blocked_iff tr).mpr hw) ((leads_iff tr).mpr hb) ih

/-- Whoever is released and still waits is led by somebody who is out. -/
theorem Released.leader (h : Released tr s u) : Out tr s u ∨ ∃ t n, Leads s t n ∧ Out tr s t := by
  induction h with
  | out ho => exact .inl ho
  | @led t u n _ hl _ ih =>
      rcases ih with ho | ht
      · exact .inr ⟨t, n, hl, ho⟩
      · exact .inr ht

theorem not_out_of_asleep {m : Mtx} (hpc : (s.thr t).pc = .asleep (.cond n) m) :
    ¬ Out tr s t := by
  rintro (⟨hb, -⟩ | ⟨c, cur, hw, -⟩)
  · rw [hpc] at hb
    cases hb
  · rw [hpc] at hw
    cases hw

theorem chain_iff {T : LeaderTree.Tree Cnd}
    (h : LeaderTree.Chain T (treeView tr s) n) : LeaderChain T tr s n := by
  induction h with
  | root => exact .root
  | released hb ho => exact .released ((leads_iff tr).mpr hb) (out_iff.mpr ho)
  | up hb hw hlt _ ih =>
      exact .up ((leads_iff tr).mpr hb) ((blocked_iff tr).mpr hw) hlt ih

theorem treeView_fresh {m : Mtx} (hpc : (s.thr t).pc = .asleep (.cond n) m) :
    ((treeView tr s).thr t).Fresh n := by
  rw [treeView_thr hpc]
  exact rfl

end

end Seen

/-! ## Two small trees -/

/-- One condition. -/
def oneNode : LeaderTree.Tree Unit where
  parent _ := none
  root := ()
  depth _ := 0
  parent_eq_none _ := ⟨fun _ => rfl, fun _ => rfl⟩
  depth_parent _ _ h := by cases h

/-- Condition 1 below condition 0. -/
def twoNodes : LeaderTree.Tree (Fin 2) where
  parent c := if c = 1 then some 0 else none
  root := 0
  depth c := c
  parent_eq_none := by decide
  depth_parent := by decide

/-- Thread `t` locks the mutex, calls `fastsync_cond_wait` on `c` and takes `n`
steps in it. -/
def lockAndWait {Thr Cnd : Type} (t : Thr) (c : Cnd) (n : ℕ) : List (Act Thr Unit Cnd) :=
  [.call t (.lock (some ())), .run t none, .run t none, .call t (.wait (some c) (some ()))] ++
    List.replicate n (.run t none)

/-- So does thread 0 of two. -/
def goWait {Cnd : Type} (c : Cnd) (n : ℕ) : List (Act (Fin 2) Unit Cnd) := lockAndWait 0 c n

scoped instance threeThreads : NeZero 3 := ⟨by decide⟩

/-- Thread 0 sleeps at the root, and leads condition 1, where thread 2 sleeps. -/
def leaderAndLed : List (Act (Fin 3) Unit (Fin 2)) := lockAndWait 0 1 13 ++ lockAndWait 2 1 6

/-! ## One leader a node -/

/-- The discipline of the leaders in state `s`, after the events `tr`. -/
structure LeaderDiscipline (T : LeaderTree.Tree Cnd) (tr : List (Ev Thr Mtx Cnd))
    (s : State Thr Mtx Cnd) : Prop where
  /-- a node is flagged exactly when some thread leads it, -/
  flag_iff : ∀ n, T.parent n ≠ none → ((s.cond n).useChild = 1 ↔ ∃ t, Leads s t n)
  /-- which is one thread only -/
  unique : ∀ n t u, Leads s t n → Leads s u n → t = u
  /-- nobody sleeps at a node that is not flagged -/
  flagged : ∀ t n m, T.parent n ≠ none → (s.thr t).pc = .asleep (.cond n) m →
    (s.cond n).useChild = 1
  /-- from every sleeper the leaders lead up to the root -/
  chain : ∀ t n m, (s.thr t).pc = .asleep (.cond n) m → LeaderChain T tr s n

/-- **One leader a node, no orphan waiter**, in every state reached as long as
no sequence number comes round. -/
theorem leader_discipline (T : LeaderTree.Tree Cnd) (M : Mtx) (mem : Mtx → FastsyncMutex)
    {tr : List (Ev Thr Mtx Cnd)} {s : State Thr Mtx Cnd} (h : TreeRuns T M mem tr s)
    (hw : NoWrap tr) : LeaderDiscipline T tr s := by
  have hinv : LeaderTree.Inv T (treeView tr s) := h.inv.tree hw
  have hflag : ∀ n, (s.cond n).useChild = 1 ↔ ∃ t, Leads s t n := by
    intro n
    have hn := hinv.flag_iff n
    simp only [treeView, decide_eq_true_eq] at hn
    rw [hn]
    exact exists_congr (fun t => (leads_iff tr).symm)
  refine ⟨fun n _ => hflag n, ?_, ?_, ?_⟩
  · intro n t u ht hu
    exact hinv.unique n t u ((leads_iff tr).mp ht) ((leads_iff tr).mp hu)
  · intro t n m hn hpc
    obtain ⟨u, hu⟩ := hinv.cover t n (treeView_fresh hpc) hn
    exact (hflag n).mpr ⟨u, (leads_iff tr).mpr hu.branch⟩
  · intro t n m hpc
    exact chain_iff (hinv.chain (treeView_fresh hpc))

theorem leader_discipline_two : ∃ (tr : List (Ev (Fin 2) Unit (Fin 2)))
    (s : State (Fin 2) Unit (Fin 2)), (s.thr 0).pc = .asleep (.cond 0) () ∧ Leads s 0 1 ∧
      LeaderDiscipline twoNodes tr s := by
  have hout : (exec (treeStep ()) (State.init oneMutex (treeCond twoNodes) :
      State (Fin 2) Unit (Fin 2)) (goWait 1 13)).map
        (fun p => ((p.1.thr 0).pc, (p.1.thr 0).frames, decide (p.2.length < 2 ^ 32))) =
      some (.asleep (.cond 0) (), [1], true) := by decide
  obtain ⟨s, tr, hr, hv⟩ := run_of_outcome _ _ hout
  simp only [Prod.mk.injEq, decide_eq_true_eq] at hv
  obtain ⟨hpc, hframes, hlen⟩ := hv
  refine ⟨tr, s, hpc, .inl ?_, leader_discipline twoNodes () oneMutex hr (.of_length hlen)⟩
  rw [hframes]
  exact List.mem_cons_self

end Reeact.Sync
