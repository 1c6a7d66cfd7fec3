import Reeact.Fastsync.CondBranch
import Reeact.Fastsync.CondLive

/-!
# fastsync_cond — what the mutex protects

"There is no need to do atomic checks and updates as a mutex should be
acquired at this point", says `fastsync_cond_wait` of `use_child`, and does
the same with `seq++`. That is so for `use_child`, however deep in the tree
the mutex has been released and taken again. For `seq` it is so between
waiters; signals and broadcasts add to it without the mutex, which loses an
increment only on a condition that has a parent.
-/

namespace Reeact.Sync

open Transition

variable {Thr Mtx Cnd : Type} [DecidableEq Thr] [Fintype Thr] [DecidableEq Mtx]
  [DecidableEq Cnd]

/-! ## Accesses -/

/-- The fields of a condition that are written after its initialisation. -/
inductive Field where
  | useChild
  | mutex
  | seq
deriving DecidableEq, Repr

structure Access (Cnd : Type) where
  cond : Cnd
  field : Field
  write : Bool
  atomic : Bool
deriving DecidableEq, Repr

/-- What the next step of a thread does to a condition. The comparison of
`FUTEX_WAIT` is the kernel's, hence atomic. -/
def Pc.access : Pc Mtx Cnd → Option (Access Cnd)
  | .waitMutex c _ | .waitNull c _ | .broadcastMutex c | .broadcastRequeue c =>
      some ⟨c, .mutex, false, false⟩
  | .waitCas c _ => some ⟨c, .mutex, true, true⟩
  | .waitUseChild c _ => some ⟨c, .useChild, false, false⟩
  | .waitSetChild c _ _ | .waitClearChild c _ => some ⟨c, .useChild, true, false⟩
  | .waitCurSeq c _ | .waitSeqLoad c _ => some ⟨c, .seq, false, false⟩
  | .waitSeqStore c _ _ => some ⟨c, .seq, true, false⟩
  | .waitFutex c _ _ => some ⟨c, .seq, false, true⟩
  | .signalAdd c | .broadcastAdd c => some ⟨c, .seq, true, true⟩
  | _ => none

/-- Accesses that race when nothing orders them. -/
structure Access.Conflict (a b : Access Cnd) : Prop where
  cond : a.cond = b.cond
  field : a.field = b.field
  write : a.write = true ∨ b.write = true
  plain : ¬ (a.atomic = true ∧ b.atomic = true)

/-- The races there are, the first thread being the one that writes. -/
inductive KnownRace : Pc Mtx Cnd → Pc Mtx Cnd → Prop
  /-- `seq` is added to while a waiter reads it, or increments it -/
  | add {c : Cnd} {m : Mtx} {pc pc' : Pc Mtx Cnd} : pc = .signalAdd c ∨ pc = .broadcastAdd c →
      pc' = .waitCurSeq c m ∨ pc' = .waitSeqLoad c m ∨ (∃ v, pc' = .waitSeqStore c m v) →
      KnownRace pc pc'
  /-- `seq` is incremented while a waiter compares it on its way to sleep -/
  | compare {c : Cnd} {m m' : Mtx} {v : BitVec 64} {cur : BitVec 32} :
      KnownRace (.waitSeqStore c m v) (.waitFutex c m' cur)
  /-- `mutex` is set while a broadcast, or a waiter with another mutex, reads it -/
  | bind {c : Cnd} {m : Mtx} {pc' : Pc Mtx Cnd} :
      pc' = .broadcastMutex c ∨ pc' = .broadcastRequeue c ∨
        (∃ m', m' ≠ m ∧ (pc' = .waitMutex c m' ∨ pc' = .waitNull c m')) →
      KnownRace (.waitCas c m) pc'

/-- In `fastsync_cond_wait`, past the checks of the mutex and with it held. -/
def Pc.inside : Pc Mtx Cnd → Option (Cnd × Mtx)
  | .waitUseChild c m | .waitSetChild c m _ | .waitSeqLoad c m | .waitSeqStore c m _
  | .waitRequeue c m | .waitClearChild c m | .waitCurSeq c m => some (c, m)
  | _ => none

section Accesses

variable {pc : Pc Mtx Cnd} {a : Access Cnd}

omit [DecidableEq Mtx] [DecidableEq Cnd]

theorem access_useChild (h : pc.access = some a) (hf : a.field = .useChild) :
    ∃ m, pc.inside = some (a.cond, m) := by
  cases pc with
  | waitUseChild c m | waitSetChild c m _ | waitClearChild c m =>
      cases h
      exact ⟨m, rfl⟩
  | _ => cases h <;> cases hf

/-- Who accesses `seq`. -/
inductive SeqAccess (a : Access Cnd) (pc : Pc Mtx Cnd) : Prop
  | read (m : Mtx) : pc = .waitCurSeq a.cond m ∨ pc = .waitSeqLoad a.cond m →
      a.write = false → SeqAccess a pc
  | store (m : Mtx) (v : BitVec 64) : pc = .waitSeqStore a.cond m v → SeqAccess a pc
  | compare (m : Mtx) (cur : BitVec 32) : pc = .waitFutex a.cond m cur → a.write = false →
      a.atomic = true → SeqAccess a pc
  | add : pc = .signalAdd a.cond ∨ pc = .broadcastAdd a.cond → a.atomic = true →
      SeqAccess a pc

theorem access_seq (h : pc.access = some a) (hf : a.field = .seq) : SeqAccess a pc := by
  cases pc with
  | waitCurSeq c m =>
      cases h
      exact .read m (.inl rfl) rfl
  | waitSeqLoad c m =>
      cases h
      exact .read m (.inr rfl) rfl
  | waitSeqStore c m v =>
      cases h
      exact .store m v rfl
  | waitFutex c m cur =>
      cases h
      exact .compare m cur rfl rfl rfl
  | signalAdd c =>
      cases h
      exact .add (.inl rfl) rfl
  | broadcastAdd c =>
      cases h
      exact .add (.inr rfl) rfl
  | _ => cases h <;> cases hf

/-- Who accesses `mutex`. -/
inductive MutexAccess (a : Access Cnd) (pc : Pc Mtx Cnd) : Prop
  | read (m : Mtx) : pc = .waitMutex a.cond m ∨ pc = .waitNull a.cond m → a.write = false →
      MutexAccess a pc
  | look : pc = .broadcastMutex a.cond ∨ pc = .broadcastRequeue a.cond → a.write = false →
      MutexAccess a pc
  | bind (m : Mtx) : pc = .waitCas a.cond m → a.atomic = true → MutexAccess a pc

theorem access_mutex (h : pc.access = some a) (hf : a.field = .mutex) : MutexAccess a pc := by
  cases pc with
  | waitMutex c m =>
      cases h
      exact .read m (.inl rfl) rfl
  | waitNull c m =>
      cases h
      exact .read m (.inr rfl) rfl
  | broadcastMutex c =>
      cases h
      exact .look (.inl rfl) rfl
  | broadcastRequeue c =>
      cases h
      exact .look (.inr rfl) rfl
  | waitCas c m =>
      cases h
      exact .bind m rfl rfl
  | _ => cases h <;> cases hf

end Accesses

/-! ## Races -/

section Races

variable {mem : Mtx → FastsyncMutex} {cond : Cnd → FastsyncCond Mtx Cnd}
  {tr es : List (Ev Thr Mtx Cnd)} {s s' : State Thr Mtx Cnd} {t u : Thr} {c : Cnd} {m m' : Mtx}

omit [DecidableEq Thr] [Fintype Thr] [DecidableEq Mtx] [DecidableEq Cnd] in
theorem Local.inside (hl : Local s) (h : (s.thr t).pc.inside = some (c, m)) :
    (s.thr t).held m = true ∧ Bound s.cond c m := by
  have hok := hl t
  rw [ThreadOk] at hok
  cases hpc : (s.thr t).pc with
  | waitUseChild c m | waitSeqLoad c m | waitSeqStore c m _ | waitRequeue c m
  | waitClearChild c m | waitCurSeq c m =>
      rw [hpc] at h hok
      cases h
      exact ⟨hok.1, hok.2.2⟩
  | waitSetChild c m p =>
      rw [hpc] at h hok
      cases h
      exact ⟨hok.1, hok.2.2.1⟩
  | _ =>
      rw [hpc] at h
      cases h

/-- Only one thread is inside a condition: its mutex is the same for all. -/
theorem Runs.inside_unique (h : Runs mem cond tr s)
    (ht : (s.thr t).pc.inside = some (c, m)) (hu : (s.thr u).pc.inside = some (c, m')) :
    t = u := by
  obtain ⟨hheld, hbound⟩ := h.local.inside ht
  obtain ⟨hheld', hbound'⟩ := h.local.inside hu
  obtain rfl : m = m' := Option.some.inj (hbound.symm.trans hbound')
  exact (h.lock m).unique t u hheld hheld'

theorem Runs.seq_races (h : Runs mem cond tr s) (htu : t ≠ u) {a b : Access Cnd}
    (ha : SeqAccess a (s.thr t).pc) (hb : SeqAccess b (s.thr u).pc) (hc : a.Conflict b)
    (hw : a.write = true) :
    KnownRace (s.thr t).pc (s.thr u).pc ∨ KnownRace (s.thr u).pc (s.thr t).pc := by
  have hcond : b.cond = a.cond := hc.cond.symm
  cases ha with
  | read _ _ hread =>
      rw [hw] at hread
      cases hread
  | compare _ _ _ hread =>
      rw [hw] at hread
      cases hread
  | store m v ht =>
      have hin : (s.thr t).pc.inside = some (a.cond, m) := by rw [ht]; rfl
      cases hb with
      | read m' hu _ =>
          have hin' : (s.thr u).pc.inside = some (a.cond, m') := by
            rw [← hcond]
            rcases hu with hu | hu <;> rw [hu] <;> rfl
          exact absurd (h.inside_unique hin hin') htu
      | store m' v' hu =>
          have hin' : (s.thr u).pc.inside = some (a.cond, m') := by rw [hu, hcond]; rfl
          exact absurd (h.inside_unique hin hin') htu
      | compare m' cur hu =>
          left
          rw [ht, hu, hcond]
          exact .compare
      | add hu =>
          rw [hcond] at hu
          exact .inr (.add hu (.inr (.inr ⟨v, ht⟩)))
  | add ht hatomic =>
      cases hb with
      | read m' hu =>
          rw [hcond] at hu
          refine .inl (.add ht (m := m') ?_)
          rcases hu with hu | hu
          · exact .inl hu
          · exact .inr (.inl hu)
      | store m' v' hu =>
          rw [hcond] at hu
          exact .inl (.add ht (.inr (.inr ⟨v', hu⟩)))
      | compare _ _ _ _ hatomic' => exact absurd ⟨hatomic, hatomic'⟩ hc.plain
      | add _ hatomic' => exact absurd ⟨hatomic, hatomic'⟩ hc.plain

theorem Runs.mutex_races (h : Runs mem cond tr s) (htu : t ≠ u) {a b : Access Cnd}
    (ha : MutexAccess a (s.thr t).pc) (hb : MutexAccess b (s.thr u).pc) (hc : a.Conflict b)
    (hw : a.write = true) : KnownRace (s.thr t).pc (s.thr u).pc := by
  have hcond : b.cond = a.cond := hc.cond.symm
  cases ha with
  | read _ _ hread =>
      rw [hw] at hread
      cases hread
  | look _ hread =>
      rw [hw] at hread
      cases hread
  | bind m ht hatomic =>
      rw [ht]
      apply KnownRace.bind
      cases hb with
      | read m' hu =>
          rw [hcond] at hu
          refine .inr (.inr ⟨m', ?_, hu⟩)
          -- both have the mutex they wait with
          rintro rfl
          have hok := h.local t
          have hok' := h.local u
          rw [ThreadOk, ht] at hok
          have hheld : (s.thr u).held m' = true := by
            rw [ThreadOk] at hok'
            rcases hu with hu | hu <;> rw [hu] at hok' <;> exact hok'.1
          exact htu ((h.lock m').unique t u hok.1 hheld)
      | look hu =>
          rw [hcond] at hu
          rcases hu with hu | hu
          · exact .inl hu
          · exact .inr (.inl hu)
      | bind _ _ hatomic' => exact absurd ⟨hatomic, hatomic'⟩ hc.plain

theorem Runs.races_of_write (h : Runs mem cond tr s) (htu : t ≠ u) {a b : Access Cnd}
    (ha : (s.thr t).pc.access = some a) (hb : (s.thr u).pc.access = some b)
    (hc : a.Conflict b) (hw : a.write = true) :
    KnownRace (s.thr t).pc (s.thr u).pc ∨ KnownRace (s.thr u).pc (s.thr t).pc := by
  cases hf : a.field with
  | useChild =>
      obtain ⟨m, hin⟩ := access_useChild ha hf
      obtain ⟨m', hin'⟩ := access_useChild hb (hc.field.symm.trans hf)
      rw [← hc.cond] at hin'
      exact absurd (h.inside_unique hin hin') htu
  | seq =>
      exact h.seq_races htu (access_seq ha hf) (access_seq hb (hc.field.symm.trans hf)) hc hw
  | mutex =>
      exact .inl (h.mutex_races htu (access_mutex ha hf)
        (access_mutex hb (hc.field.symm.trans hf)) hc hw)

omit [DecidableEq Cnd] in
theorem Access.Conflict.symm {a b : Access Cnd} (h : a.Conflict b) : b.Conflict a :=
  ⟨h.cond.symm, h.field.symm, h.write.symm, fun hp => h.plain ⟨hp.2, hp.1⟩⟩

end Races

/-- **The races of the conditions.** In every reachable state of any threads
over any conditions and mutexes: when two threads are about to access the same
field, one of them to write it and not both atomically, then one adds to `seq`
in a signal or broadcast, or compares it in the kernel, or reads `mutex` of a
condition that a waiter with a mutex it does not hold is binding. `use_child`
never races, nor does `cond->seq++` with another waiter's. -/
theorem condition_races (mem : Mtx → FastsyncMutex) (cond : Cnd → FastsyncCond Mtx Cnd)
    {tr : List (Ev Thr Mtx Cnd)} {s : State Thr Mtx Cnd} (h : Runs mem cond tr s) {t u : Thr}
    (htu : t ≠ u) {a b : Access Cnd} (ha : (s.thr t).pc.access = some a)
    (hb : (s.thr u).pc.access = some b) (hc : a.Conflict b) :
    KnownRace (s.thr t).pc (s.thr u).pc ∨ KnownRace (s.thr u).pc (s.thr t).pc := by
  rcases hc.write with hw | hw
  · exact h.races_of_write htu ha hb hc hw
  · exact (h.races_of_write htu.symm hb ha hc.symm hw).symm

/-- A waiter reads `seq` while a signal adds to it. -/
theorem condition_races_signal : ∃ s : State (Fin 2) Unit Unit,
    KnownRace (s.thr 0).pc (s.thr 1).pc ∨ KnownRace (s.thr 1).pc (s.thr 0).pc := by
  have hout : (exec step (State.init oneMutex (treeCond oneNode) : State (Fin 2) Unit Unit)
      (goWait () 4 ++ [.call 1 (.signal (some ()))])).map
      (fun r => ((r.1.thr 0).pc, (r.1.thr 1).pc)) =
      some (.waitCurSeq () (), .signalAdd ()) := by decide
  obtain ⟨s, tr, hr, hpc⟩ := run_of_outcome _ _ hout
  simp only [Prod.mk.injEq] at hpc
  have hc : (⟨(), .seq, false, false⟩ : Access Unit).Conflict ⟨(), .seq, true, true⟩ :=
    ⟨rfl, rfl, .inr rfl, by simp⟩
  exact ⟨s, condition_races oneMutex (treeCond oneNode) hr (by decide : (0 : Fin 2) ≠ 1)
    (by rw [hpc.1]; rfl) (by rw [hpc.2]; rfl) hc⟩

/-! ## Increments -/

def Ev.bumps (c : Cnd) : Ev Thr Mtx Cnd → Bool
  | .bump _ d => d = c
  | _ => false

/-- How often `seq` of `c` has been incremented. -/
def bumps (c : Cnd) (tr : List (Ev Thr Mtx Cnd)) : ℕ := tr.countP (Ev.bumps c)

omit [DecidableEq Thr] [Fintype Thr] [DecidableEq Mtx] in
theorem bumps_noSeq {es : List (Ev Thr Mtx Cnd)} (hes : ∀ e ∈ es, e.NoSeq) (c : Cnd)
    (tr : List (Ev Thr Mtx Cnd)) : bumps c (tr ++ es) = bumps c tr := by
  have hzero : es.countP (Ev.bumps c) = 0 := by
    rw [List.countP_eq_zero]
    intro e he
    have hno := hes e he
    cases e with
    | bump t d => exact absurd hno id
    | _ => exact Bool.false_ne_true
  rw [bumps, List.countP_append, hzero]
  rfl

omit [DecidableEq Thr] [Fintype Thr] [DecidableEq Mtx] in
theorem bumps_bump (c d : Cnd) (t : Thr) (tr : List (Ev Thr Mtx Cnd)) :
    bumps c (tr ++ [.bump t d]) = if d = c then bumps c tr + 1 else bumps c tr := by
  rw [bumps, List.countP_append, List.countP_singleton]
  by_cases hd : d = c
  · rw [if_pos hd, if_pos (by simp [Ev.bumps, hd])]
    rfl
  · rw [if_neg hd, if_neg (by simp [Ev.bumps, hd])]
    rfl

/-- All increments of `c` are in its `seq`, and whoever is about to store one
has loaded the present value. -/
structure Counted (v₀ : BitVec 64) (c : Cnd) (tr : List (Ev Thr Mtx Cnd))
    (s : State Thr Mtx Cnd) : Prop where
  seq : (s.cond c).seq = v₀ + BitVec.ofNat 64 (bumps c tr)
  store : ∀ t m v, (s.thr t).pc = .waitSeqStore c m v → v = (s.cond c).seq

section Increments

variable {mem : Mtx → FastsyncMutex} {cond : Cnd → FastsyncCond Mtx Cnd} {v₀ : BitVec 64}
  {tr es : List (Ev Thr Mtx Cnd)} {s s' : State Thr Mtx Cnd} {t : Thr} {c : Cnd}

omit [DecidableEq Mtx] in
theorem seq_update (cond : Cnd → FastsyncCond Mtx Cnd) (d : Cnd) {v : FastsyncCond Mtx Cnd}
    (hv : d = c → v.seq = (cond c).seq) : (Function.update cond d v c).seq = (cond c).seq := by
  by_cases hdc : c = d
  · rw [hdc, Function.update_self, hv hdc.symm, hdc]
  · rw [Function.update_of_ne hdc]

omit [DecidableEq Thr] [Fintype Thr] [DecidableEq Mtx] in
/-- The increments stay as they are. -/
theorem Counted.keep (h : Counted v₀ c tr s) (hcount : bumps c (tr ++ es) = bumps c tr)
    (hseq : (s'.cond c).seq = (s.cond c).seq)
    (hstore : ∀ u m v, (s'.thr u).pc = .waitSeqStore c m v →
      (s.thr u).pc = .waitSeqStore c m v ∨ v = (s.cond c).seq) : Counted v₀ c (tr ++ es) s' where
  seq := by rw [hseq, hcount, h.seq]
  store u m v hu := by
    rw [hseq]
    rcases hstore u m v hu with hold | hnow
    · exact h.store u m v hold
    · exact hnow

omit [DecidableEq Thr] [Fintype Thr] [DecidableEq Mtx] in
/-- One more, while nobody else is about to store one. -/
theorem Counted.bump (h : Counted v₀ c tr s) (hcount : bumps c (tr ++ es) = bumps c tr + 1)
    (hseq : (s'.cond c).seq = (s.cond c).seq + 1)
    (hnone : ∀ u m v, (s'.thr u).pc ≠ .waitSeqStore c m v) : Counted v₀ c (tr ++ es) s' where
  seq := by
    rw [hseq, hcount, h.seq, BitVec.add_assoc, BitVec.ofNat_add]
    rfl
  store u m v hu := absurd hu (hnone u m v)

/-- A step inside a call, on a condition whose signals do not meet its
`cond->seq++`. -/
theorem Counted.run {pick : Option Thr} (hr : Runs mem cond tr s)
    (hc : OffBranch c s ∨ ∀ t, (s.thr t).pc ≠ .signalAdd c ∧ (s.thr t).pc ≠ .broadcastAdd c)
    (h : Counted v₀ c tr s) (hs : run s t pick = some (s', es)) :
    Counted v₀ c (tr ++ es) s' := by
  have hothers : ∀ u, u ≠ t → ∀ m v, (s'.thr u).pc = .waitSeqStore c m v →
      (s.thr u).pc = .waitSeqStore c m v :=
    fun u hut m v hu => (run_moved hr.local hs hut).eq_of_pc hu trivial ▸ hu
  have hstores : (∀ m v, (s'.thr t).pc ≠ .waitSeqStore c m v) → ∀ u m v,
      (s'.thr u).pc = .waitSeqStore c m v → (s.thr u).pc = .waitSeqStore c m v := by
    intro ht u m v hu
    by_cases hut : u = t
    · subst hut
      exact absurd hu (ht m v)
    · exact hothers u hut m v hu
  cases run_cond hs with
  | quiet hes hcond _ hf =>
      refine h.keep (bumps_noSeq hes c tr) (by rw [hcond]) (fun u m v hu => .inl ?_)
      refine hstores (fun m v e => ?_) u m v hu
      rw [e] at hf
      exact hf
  | @bind d m _ _ hs' =>
      have hself := thr_of_setThr hs'
      refine h.keep (bumps_noSeq (by simp) c tr) ?_ (fun u m v hu => .inl ?_)
      · rw [hs']
        exact seq_update s.cond d (fun e => by rw [e])
      · exact hstores (by rw [hself]; exact fun _ _ e => by cases e) u m v hu
  | @mark d p m _ hs' =>
      have hself := thr_of_setThr hs'
      refine h.keep (bumps_noSeq (by simp) c tr) ?_ (fun u m v hu => .inl ?_)
      · rw [hs']
        exact seq_update s.cond d (fun e => by rw [e])
      · exact hstores (by rw [hself]; exact fun _ _ e => by cases e) u m v hu
  | @clear d m _ hs' =>
      have hself := thr_of_setThr hs'
      have hfits := (plain_leave (s.thr t) m 0).2 s.cond
      refine h.keep (bumps_noSeq (by simp) c tr) ?_ (fun u m v hu => .inl ?_)
      · rw [hs']
        exact seq_update s.cond d (fun e => by rw [e])
      · refine hstores (fun m v e => ?_) u m v hu
        rw [hself] at e
        rw [e] at hfits
        exact hfits
  | @snap d m _ hs' =>
      have hself := thr_of_setThr hs'
      refine h.keep ?_ (by rw [hs']; rfl) (fun u m v hu => .inl ?_)
      · rw [bumps, List.countP_append]
        rfl
      · exact hstores (by rw [hself]; exact fun _ _ e => by cases e) u m v hu
  | @load d m _ hs' =>
      have hself := thr_of_setThr hs'
      refine h.keep (bumps_noSeq (by simp) c tr) (by rw [hs']; rfl) (fun u m v hu => ?_)
      by_cases hut : u = t
      · subst hut
        rw [hself] at hu
        cases hu
        exact .inr rfl
      · exact .inl (hothers u hut m v hu)
  | @store d m v hpc hs' =>
      have hself := thr_of_setThr hs'
      have hold := hstores (by rw [hself]; exact fun _ _ e => by cases e)
      by_cases hdc : d = c
      · subst hdc
        apply h.bump
        · rw [bumps_bump, if_pos rfl]
        · rw [hs', h.store t m v hpc]
          show (Function.update s.cond d _ d).seq = _
          rw [Function.update_self]
        · -- whoever else is about to store would hold the mutex too
          intro u m' v' hu
          have hu' := hold u m' v' hu
          obtain rfl : t = u := hr.inside_unique (c := d) (by rw [hpc]; rfl) (by rw [hu']; rfl)
          rw [hself] at hu
          cases hu
      · refine h.keep ?_ ?_ (fun u m v hu => .inl (hold u m v hu))
        · rw [bumps_bump, if_neg hdc]
        · rw [hs']
          exact seq_update s.cond d (fun e => absurd e hdc)
  | @add d pc hor hs' =>
      have hself := thr_of_setThr hs'
      have hold := hstores (by
        rw [hself]
        rcases hor with ⟨-, rfl⟩ | ⟨-, rfl⟩ <;> exact fun _ _ e => by cases e)
      by_cases hdc : d = c
      · subst hdc
        apply h.bump
        · rw [bumps_bump, if_pos rfl]
        · rw [hs']
          show (Function.update s.cond d _ d).seq = _
          rw [Function.update_self]
        · intro u m v hu
          rcases hc with hoff | hnone
          · exact hoff.outside u (.inr (by rw [hold u m v hu]; rfl))
          · rcases hor with ⟨hpc, -⟩ | ⟨hpc, -⟩
            · exact (hnone t).1 hpc
            · exact (hnone t).2 hpc
      · refine h.keep ?_ ?_ (fun u m v hu => .inl (hold u m v hu))
        · rw [bumps_bump, if_neg hdc]
        · rw [hs']
          exact seq_update s.cond d (fun e => absurd e hdc)

theorem Counted.step {a : Act Thr Mtx Cnd} (hr : Runs mem cond tr s)
    (hc : OffBranch c s ∨ ∀ t, (s.thr t).pc ≠ .signalAdd c ∧ (s.thr t).pc ≠ .broadcastAdd c)
    (h : Counted v₀ c tr s) (hs : step s a = some (s', es)) : Counted v₀ c (tr ++ es) s' := by
  cases a with
  | run t pick => exact h.run hr hc hs
  | spurious t =>
      obtain ⟨-, rfl, rfl⟩ := step_spurious hs
      apply h.keep (bumps_noSeq (by simp) c tr)
      · rw [wake_cond]
      · exact fun u m v hu => .inl ((wake_thr s t u).eq_of_pc hu trivial ▸ hu)
  | call t call =>
      obtain ⟨-, rfl, rfl⟩ := step_call hs
      refine h.keep (bumps_noSeq (by simp [Ev.NoSeq]) c tr) rfl (fun u m v hu => .inl ?_)
      by_cases hut : u = t
      · subst hut
        have hfits := (plain_entry call).2 s.cond
        rw [setThr_thr] at hu
        rw [show call.entry = _ from hu] at hfits
        exact hfits.elim
      · simpa only [State.setThr, Function.update_of_ne hut] using hu

/-- Who is in a call has called it. -/
theorem Runs.called (h : Runs mem cond tr s) {k : Call Mtx Cnd}
    (hk : (s.thr t).call = some k) : .call t k ∈ tr := by
  suffices hall : ∀ t k, (s.thr t).call = some k → .call t k ∈ tr from hall t k hk
  refine Run.invariant (P := fun tr s => ∀ t k, (s.thr t).call = some k → Ev.call t k ∈ tr)
    (fun t k hk => by cases hk) ?_ h
  intro tr s es s' hr ih hs u k hk
  obtain ⟨a, ha⟩ := hs
  have hold : (s'.thr u).call = (s.thr u).call → .call u k ∈ tr ++ es :=
    fun e => List.mem_append_left es (ih u k (e ▸ hk))
  cases a with
  | run t pick =>
      by_cases hut : u = t
      · subst hut
        rcases run_call ha with hsame | hnone
        · exact hold hsame
        · rw [hnone] at hk
          cases hk
      · exact hold (run_moved (Runs.local hr) ha hut).call
  | spurious t =>
      obtain ⟨-, rfl, -⟩ := step_spurious ha
      exact hold (wake_thr s t u).call
  | call t call =>
      obtain ⟨-, rfl, rfl⟩ := step_call ha
      by_cases hut : u = t
      · subst hut
        rw [setThr_thr] at hk
        cases hk
        exact List.mem_append_right tr List.mem_cons_self
      · apply hold
        simp only [State.setThr, Function.update_of_ne hut]

/-- Nobody signals a condition that nobody has called a signal on. -/
theorem Runs.not_adding (h : Runs mem cond tr s)
    (hno : ∀ u, .call u (.signal (some c)) ∉ tr ∧ .call u (.broadcast (some c)) ∉ tr) (t : Thr) :
    (s.thr t).pc ≠ .signalAdd c ∧ (s.thr t).pc ≠ .broadcastAdd c := by
  have hok := h.local t
  rw [ThreadOk] at hok
  constructor
  · intro hpc
    rw [hpc] at hok
    exact (hno t).1 (h.called hok.2)
  · intro hpc
    rw [hpc] at hok
    exact (hno t).2 (h.called hok.2)

end Increments

/-- **No increment of `seq` is lost**, on a condition without a parent, and on
one that nobody signals or broadcasts: though `cond->seq++` is a load and a
store, `seq` is what it was at first and all increments since. -/
theorem no_increment_lost (mem : Mtx → FastsyncMutex) (cond : Cnd → FastsyncCond Mtx Cnd)
    {tr : List (Ev Thr Mtx Cnd)} {s : State Thr Mtx Cnd} (h : Runs mem cond tr s) {c : Cnd}
    (hc : (cond c).parent = none ∨
      ∀ u, .call u (.signal (some c)) ∉ tr ∧ .call u (.broadcast (some c)) ∉ tr) :
    (s.cond c).seq = (cond c).seq + BitVec.ofNat 64 (bumps c tr) := by
  suffices hcounted : Counted (cond c).seq c tr s from hcounted.seq
  induction h with
  | nil =>
      refine ⟨?_, fun t m v ht => by cases ht⟩
      exact (BitVec.add_zero _).symm
  | @snoc tr s es s' hr hs ih =>
      obtain ⟨a, ha⟩ := hs
      rcases hc with hp | hno
      · exact (ih (.inl hp)).step hr (.inl (Runs.offBranch hr (.inr hp))) ha
      · have hno' : ∀ u, .call u (.signal (some c)) ∉ tr ∧ .call u (.broadcast (some c)) ∉ tr :=
          fun u => ⟨fun hm => (hno u).1 (List.mem_append_left es hm),
            fun hm => (hno u).2 (List.mem_append_left es hm)⟩
        exact (ih (.inr hno')).step hr (.inr (Runs.not_adding hr hno')) ha

/-- The leader that a broadcast sends home has incremented `seq` of its node. -/
theorem no_increment_lost_leader : ∃ (tr : List (Ev (Fin 2) Unit (Fin 2)))
    (s : State (Fin 2) Unit (Fin 2)), bumps 1 tr = 1 ∧
      (s.cond 1).seq = 0 + BitVec.ofNat 64 (bumps 1 tr) := by
  have hout : (exec step (State.init oneMutex (treeCond twoNodes) :
      State (Fin 2) Unit (Fin 2)) (broadcastSchedule.take 25)).map (fun r =>
        (bumps 1 r.2, decide (∀ u, .call u (.signal (some 1)) ∉ r.2 ∧
          .call u (.broadcast (some 1)) ∉ r.2))) = some (1, true) := by decide
  obtain ⟨s, tr, hr, hv⟩ := run_of_outcome _ _ hout
  simp only [Prod.mk.injEq, decide_eq_true_eq] at hv
  exact ⟨tr, s, hv.1, no_increment_lost oneMutex (treeCond twoNodes) hr (.inr hv.2)⟩

/-- A signal below the root, between the load and the store of the leader's
`cond->seq++`, is lost. -/
example : (exec step (State.init oneMutex (treeCond twoNodes) : State (Fin 2) Unit (Fin 2))
    (goWait 1 13 ++ [.call 1 (.broadcast (some 0)), .run 1 none, .run 1 none, .run 1 (some 0),
      .run 1 none, .run 0 none, .run 0 none, .call 1 (.signal (some 1)), .run 1 none,
      .run 0 none])).map (fun r => (bumps 1 r.2, (r.1.cond 1).seq)) = some (2, 1) := by decide

end Reeact.Sync
