import Reeact.Fastsync.CondTree

/-!
# fastsync_cond — how far a sequence number has moved

`missed` counts the moves of `seq` since a waiter read it. As long as that
stays below 2³², the word tells whether there has been one (`SeqOk`), even
though `cond->seq++` is not atomic.
-/

namespace Reeact.Sync

open Transition

variable {Thr Mtx Cnd : Type} [DecidableEq Thr] [Fintype Thr] [DecidableEq Mtx]
  [DecidableEq Cnd]

/-! ## How far a sequence number has moved -/

/-- One event of the count that `t` could make of the moves of `seq` of `c`
since it has read it. -/
def missedStep (t : Thr) (c : Cnd) (n : ℕ) : Ev Thr Mtx Cnd → ℕ
  | .snap u d => if u = t ∧ d = c then 0 else n
  | .bump _ d => if d = c then n + 1 else n
  | _ => n

/-- How often `seq` of `c` has been moved since `t` read it in order to wait. -/
def missed (t : Thr) (c : Cnd) (tr : List (Ev Thr Mtx Cnd)) : ℕ :=
  tr.foldl (missedStep t c) 0

/-- No sequence number comes round between a waiter's reading and its
`FUTEX_WAIT`. -/
def NoWrap (tr : List (Ev Thr Mtx Cnd)) : Prop :=
  ∀ tr₁ t c tr₂, tr = tr₁ ++ .futexWait t c :: tr₂ → missed t c tr₁ < 2 ^ 32

section

omit [Fintype Thr] [DecidableEq Mtx]

theorem NoWrap.of_append {tr tr' : List (Ev Thr Mtx Cnd)} (h : NoWrap (tr ++ tr')) : NoWrap tr := by
  intro tr₁ t c tr₂ e
  apply h tr₁ t c (tr₂ ++ tr')
  rw [e, List.append_assoc, List.cons_append]

theorem NoWrap.last {tr : List (Ev Thr Mtx Cnd)} {t : Thr} {c : Cnd}
    (h : NoWrap (tr ++ [.futexWait t c])) : missed t c tr < 2 ^ 32 :=
  h tr t c [] rfl

theorem missed_append (t : Thr) (c : Cnd) (tr es : List (Ev Thr Mtx Cnd)) :
    missed t c (tr ++ es) = es.foldl (missedStep t c) (missed t c tr) := by
  rw [missed, List.foldl_append]
  rfl

theorem missed_noSeq {es : List (Ev Thr Mtx Cnd)} (hes : ∀ e ∈ es, e.NoSeq) (t : Thr) (c : Cnd)
    (tr : List (Ev Thr Mtx Cnd)) : missed t c (tr ++ es) = missed t c tr := by
  rw [missed_append]
  apply foldl_quiet _ hes
  intro n e he
  cases e <;> first | rfl | exact he.elim

@[simp] theorem missed_bump (t u : Thr) (c d : Cnd) (tr : List (Ev Thr Mtx Cnd)) :
    missed t c (tr ++ [.bump u d]) = if d = c then missed t c tr + 1 else missed t c tr := by
  rw [missed_append]
  rfl

@[simp] theorem missed_snap (t u : Thr) (c d : Cnd) (tr : List (Ev Thr Mtx Cnd)) :
    missed t c (tr ++ [.snap u d]) = if u = t ∧ d = c then 0 else missed t c tr := by
  rw [missed_append]
  rfl

theorem missed_le_length (t : Thr) (c : Cnd) (tr : List (Ev Thr Mtx Cnd)) :
    missed t c tr ≤ tr.length := by
  induction tr using List.reverseRecOn with
  | nil => exact Nat.le_refl 0
  | append_singleton tr e ih =>
      have hstep : missed t c (tr ++ [e]) ≤ missed t c tr + 1 := by
        rw [missed_append]
        show missedStep t c (missed t c tr) e ≤ _
        cases e <;> simp only [missedStep] <;> (try split) <;> omega
      rw [List.length_append, List.length_singleton]
      omega

/-- A short run does not get round. -/
theorem NoWrap.of_length {tr : List (Ev Thr Mtx Cnd)} (h : tr.length < 2 ^ 32) : NoWrap tr := by
  intro tr₁ t c tr₂ e
  have hle := missed_le_length t c tr₁
  rw [e, List.length_append] at h
  omega

end

/-- `w` is `cur`, moved by at most `n`, and by more than nothing if `n` is. -/
def Ahead (cur w : BitVec 32) (n : ℕ) : Prop :=
  ∃ d ≤ n, (0 < n → 0 < d) ∧ w = cur + BitVec.ofNat 32 d

theorem Ahead.refl (cur : BitVec 32) : Ahead cur cur 0 :=
  ⟨0, Nat.le_refl 0, id, (BitVec.add_zero cur).symm⟩

theorem add_ofNat_succ (cur : BitVec 32) (d : ℕ) :
    cur + BitVec.ofNat 32 d + 1 = cur + BitVec.ofNat 32 (d + 1) := by
  rw [BitVec.add_assoc, BitVec.ofNat_add]
  rfl

theorem Ahead.succ {cur w : BitVec 32} {n : ℕ} (h : ∃ d ≤ n, w = cur + BitVec.ofNat 32 d) :
    Ahead cur (w + 1) (n + 1) := by
  obtain ⟨d, hd, rfl⟩ := h
  exact ⟨d + 1, Nat.succ_le_succ hd, fun _ => Nat.succ_pos d, add_ofNat_succ cur d⟩

/-- Below 2³² moves, the words differ as soon as there has been one. -/
theorem Ahead.eq_iff {cur w : BitVec 32} {n : ℕ} (h : Ahead cur w n) (hn : n < 2 ^ 32) :
    w = cur ↔ n = 0 := by
  obtain ⟨d, hd, hpos, rfl⟩ := h
  constructor
  · intro e
    have hz : BitVec.ofNat 32 d = 0 := by
      apply (BitVec.add_right_inj cur).mp
      rw [e]
      exact (BitVec.add_zero cur).symm
    have hd0 : d % 2 ^ 32 = 0 := by simpa using congrArg BitVec.toNat hz
    omega
  · intro e
    have hd0 : d = 0 := by omega
    rw [hd0]
    exact BitVec.add_zero cur

/-- The words waiters compare, against the events. A thread between the load
and the store of `cond->seq++` may put the word back, but not to where a
waiter has read it. -/
structure SeqOk (tr : List (Ev Thr Mtx Cnd)) (s : State Thr Mtx Cnd) : Prop where
  word : ∀ t c cur, (s.thr t).pc.window = some (c, cur) →
    Ahead cur (s.cond c).word (missed t c tr)
  store : ∀ t c cur u m v, (s.thr t).pc.window = some (c, cur) →
    (s.thr u).pc = .waitSeqStore c m v →
    ∃ d ≤ missed t c tr, v.setWidth 32 = cur + BitVec.ofNat 32 d

section Seq

variable {T : LeaderTree.Tree Cnd} {M : Mtx} {tr es : List (Ev Thr Mtx Cnd)}
  {s s' : State Thr Mtx Cnd} {t : Thr}

omit [DecidableEq Mtx] [DecidableEq Cnd] in
theorem Moved.window {cond : Cnd → FastsyncCond Mtx Cnd} {th th' : Thread Mtx Cnd}
    (h : Moved cond th th') : th'.pc.window = th.pc.window := by
  cases h with
  | same => rfl
  | woken hpc => rw [hpc]; rfl
  | requeued hpc _ => rw [hpc]; rfl

omit [Fintype Thr] [DecidableEq Mtx] [DecidableEq Cnd] in
/-- Only `t` itself can start to wait in its step. -/
theorem windows_of_moved (hmoved : ∀ u, u ≠ t → Moved s.cond (s.thr u) (s'.thr u))
    (ht : (s'.thr t).pc.window = none ∨ (s'.thr t).pc.window = (s.thr t).pc.window) (u : Thr) :
    (s'.thr u).pc.window = none ∨ (s'.thr u).pc.window = (s.thr u).pc.window := by
  by_cases hut : u = t
  · subst hut
    exact ht
  · exact .inr (hmoved u hut).window

section

omit [Fintype Thr] [DecidableEq Mtx]

/-- A step by which nobody starts to wait. -/
theorem SeqOk.keep (h : SeqOk tr s)
    (hwin : ∀ u, (s'.thr u).pc.window = none ∨ (s'.thr u).pc.window = (s.thr u).pc.window)
    (hword : ∀ u c cur, (s.thr u).pc.window = some (c, cur) →
      Ahead cur (s'.cond c).word (missed u c (tr ++ es)))
    (hmiss : ∀ u c, missed u c tr ≤ missed u c (tr ++ es))
    (hstore : ∀ u c m v, (s'.thr u).pc = .waitSeqStore c m v →
      (s.thr u).pc = .waitSeqStore c m v ∨ v = (s.cond c).seq) : SeqOk (tr ++ es) s' where
  word u c cur hu := by
    rcases hwin u with hn | hs
    · rw [hn] at hu
      cases hu
    · rw [hs] at hu
      exact hword u c cur hu
  store u c cur w m v hu hw := by
    rcases hwin u with hn | hs
    · rw [hn] at hu
      cases hu
    · rw [hs] at hu
      rcases hstore w c m v hw with hw | rfl
      · obtain ⟨d, hd, hv⟩ := h.store u c cur w m v hu hw
        exact ⟨d, Nat.le_trans hd (hmiss u c), hv⟩
      · obtain ⟨d, hd, -, hv⟩ := h.word u c cur hu
        exact ⟨d, Nat.le_trans hd (hmiss u c), hv⟩

/-- `seq` of `c` moves, to `w`. -/
theorem SeqOk.bump (h : SeqOk tr s) {c : Cnd} {w : BitVec 64}
    (hw : ∀ u cur, (s.thr u).pc.window = some (c, cur) →
      ∃ d ≤ missed u c tr, w.setWidth 32 = cur + BitVec.ofNat 32 d)
    (hcond : s'.cond = Function.update s.cond c { s.cond c with seq := w + 1 })
    (hwin : ∀ u, (s'.thr u).pc.window = none ∨ (s'.thr u).pc.window = (s.thr u).pc.window)
    (hstore : ∀ u d m v, (s'.thr u).pc = .waitSeqStore d m v →
      (s.thr u).pc = .waitSeqStore d m v) : SeqOk (tr ++ [.bump t c]) s' := by
  apply h.keep hwin
  · intro u d cur hu
    rw [hcond]
    by_cases hdc : d = c
    · subst hdc
      rw [Function.update_self, missed_bump, if_pos rfl]
      have hadd : (w + 1).setWidth 32 = w.setWidth 32 + 1 := by
        rw [BitVec.setWidth_add _ _ (by decide)]
        rfl
      show Ahead cur ((w + 1).setWidth 32) _
      rw [hadd]
      exact .succ (hw u cur hu)
    · rw [Function.update_of_ne hdc, missed_bump, if_neg (Ne.symm hdc)]
      exact h.word u d cur hu
  · intro u d
    rw [missed_bump]
    split <;> omega
  · intro u d m v hu
    exact .inl (hstore u d m v hu)

/-- A condition's other fields change, or none. -/
theorem SeqOk.frame (h : SeqOk tr s) (hes : ∀ e ∈ es, e.NoSeq)
    (hword : ∀ c, (s'.cond c).word = (s.cond c).word)
    (hwin : ∀ u, (s'.thr u).pc.window = none ∨ (s'.thr u).pc.window = (s.thr u).pc.window)
    (hstore : ∀ u c m v, (s'.thr u).pc = .waitSeqStore c m v →
      (s.thr u).pc = .waitSeqStore c m v ∨ v = (s.cond c).seq) : SeqOk (tr ++ es) s' := by
  apply h.keep hwin
  · intro u c cur hu
    rw [hword, missed_noSeq hes]
    exact h.word u c cur hu
  · intro u c
    rw [missed_noSeq hes]
  · exact hstore

end

omit [DecidableEq Mtx] in
theorem word_update (cond : Cnd → FastsyncCond Mtx Cnd) (c : Cnd) {v : FastsyncCond Mtx Cnd}
    (hv : v.seq = (cond c).seq) (d : Cnd) :
    (Function.update cond c v d).word = (cond d).word := by
  by_cases hdc : d = c
  · subst hdc
    rw [Function.update_self, FastsyncCond.word, hv]
    rfl
  · rw [Function.update_of_ne hdc]

theorem SeqOk.run {pick : Option Thr} (hl : Local s) (hx : FutexLock.Inv (view M s))
    (hT : TreeOk T M s) (h : SeqOk tr s) (hs : run s t pick = some (s', es)) :
    SeqOk (tr ++ es) s' := by
  have hmoved : ∀ u, u ≠ t → Moved s.cond (s.thr u) (s'.thr u) := fun u hu => run_moved hl hs hu
  have hwin := windows_of_moved hmoved
  have hothers : ∀ u, u ≠ t → ∀ c m v, (s'.thr u).pc = .waitSeqStore c m v →
      (s.thr u).pc = .waitSeqStore c m v :=
    fun u hut c m v hu => (hmoved u hut).eq_of_pc hu trivial ▸ hu
  have hstores : (∀ c m v, (s'.thr t).pc ≠ .waitSeqStore c m v) →
      ∀ u c m v, (s'.thr u).pc = .waitSeqStore c m v →
        (s.thr u).pc = .waitSeqStore c m v := by
    intro ht u c m v hu
    by_cases hut : u = t
    · subst hut
      exact absurd hu (ht c m v)
    · exact hothers u hut c m v hu
  cases run_cond hs with
  | quiet hes hc hw hf =>
      apply h.frame hes (fun c => by rw [hc]) (hwin hw)
      intro u c m v hu
      left
      refine hstores ?_ u c m v hu
      intro c m v e
      rw [e] at hf
      exact hf
  | @bind c m hpc _ hs' =>
      have hself := thr_of_setThr hs'
      apply h.frame (by simp) (fun d => ?_) (hwin (.inl (by rw [hself]; rfl)))
      · intro u d m' v hu
        exact .inl (hstores (by rw [hself]; exact fun _ _ _ e => by cases e) u d m' v hu)
      · rw [hs']
        exact word_update s.cond c (v := { s.cond c with mutex := some m }) rfl d
  | @mark c p m hpc hs' =>
      have hself := thr_of_setThr hs'
      apply h.frame (by simp) (fun d => ?_) (hwin (.inl (by rw [hself]; rfl)))
      · intro u d m' v hu
        exact .inl (hstores (by rw [hself]; exact fun _ _ _ e => by cases e) u d m' v hu)
      · rw [hs']
        exact word_update s.cond c (v := { s.cond c with useChild := 1 }) rfl d
  | @clear c m hpc hs' =>
      have hself := thr_of_setThr hs'
      have hplain := plain_leave (s.thr t) m 0
      apply h.frame (by simp) (fun d => ?_) (hwin (.inl (by rw [hself]; exact hplain.1)))
      · intro u d m' v hu
        refine .inl (hstores ?_ u d m' v hu)
        intro d' m'' v' e
        have hfits : PcFits s.cond (s'.thr t).pc := by
          rw [hself]
          exact hplain.2 s.cond
        rw [e] at hfits
        exact hfits
      · rw [hs']
        exact word_update s.cond c (v := { s.cond c with useChild := 0 }) rfl d
  | @load c m hpc hs' =>
      have hself := thr_of_setThr hs'
      apply h.frame (by simp) (fun d => by rw [hs']; rfl) (hwin (.inl (by rw [hself]; rfl)))
      intro u d m' v hu
      by_cases hut : u = t
      · subst hut
        rw [hself] at hu
        cases hu
        exact .inr rfl
      · exact .inl (hothers u hut d m' v hu)
  | @store c m v hpc hs' =>
      have hself := thr_of_setThr hs'
      apply h.bump (w := v)
      · intro u cur hu
        exact h.store u c cur t m v hu hpc
      · rw [hs']
        rfl
      · exact hwin (.inl (by rw [hself]; rfl))
      · exact hstores (by rw [hself]; exact fun _ _ _ e => by cases e)
  | @add c pc hor hs' =>
      have hself := thr_of_setThr hs'
      apply h.bump (w := (s.cond c).seq)
      · intro u cur hu
        obtain ⟨d, hd, -, hw⟩ := h.word u c cur hu
        exact ⟨d, hd, hw⟩
      · rw [hs']
        rfl
      · apply hwin
        rw [hself]
        rcases hor with ⟨-, rfl⟩ | ⟨-, rfl⟩ <;> exact .inl rfl
      · apply hstores
        rw [hself]
        rcases hor with ⟨-, rfl⟩ | ⟨-, rfl⟩ <;> exact fun _ _ _ e => by cases e
  | @snap c m hpc hs' =>
      have hself := thr_of_setThr hs'
      have hcond : s'.cond = s.cond := by
        rw [hs']
        rfl
      have hok := hl t
      rw [ThreadOk, hpc] at hok
      have hm : m = M := hT.wait hok.2.1
      have hmiss : ∀ u d, u ≠ t → missed u d (tr ++ [.snap t c]) = missed u d tr := by
        intro u d hut
        rw [missed_snap, if_neg (fun e => hut e.1.symm)]
      constructor
      · intro u d cur hu
        rw [hcond]
        by_cases hut : u = t
        · subst hut
          rw [hself] at hu
          cases hu
          rw [missed_snap, if_pos ⟨rfl, rfl⟩]
          exact .refl _
        · rw [hmiss u d hut]
          rw [(hmoved u hut).window] at hu
          exact h.word u d cur hu
      · intro u d cur w m' v hu hw
        have hwt : w ≠ t := by
          intro e
          subst e
          rw [hself] at hw
          cases hw
        have hw' := hothers w hwt d m' v hw
        have hokw := hl w
        rw [ThreadOk, hw'] at hokw
        have hm' : m' = M := hT.wait hokw.2.1
        -- both the reader and the one that stores would hold the mutex
        subst hm
        subst hm'
        exact absurd (hx.unique w t hokw.1 hok.1) hwt

theorem SeqOk.step {a : Act Thr Mtx Cnd} (hl : Local s) (hx : FutexLock.Inv (view M s))
    (hT : TreeOk T M s) (h : SeqOk tr s) (hs : step s a = some (s', es)) :
    SeqOk (tr ++ es) s' := by
  cases a with
  | run t pick => exact h.run hl hx hT hs
  | spurious t =>
      obtain ⟨-, rfl, rfl⟩ := step_spurious hs
      have hmoved : ∀ u, Moved s.cond (s.thr u) ((s.wake t).thr u) := fun u => wake_thr s t u
      apply h.frame (by simp)
      · intro c
        rw [wake_cond]
      · exact fun u => .inr (hmoved u).window
      · exact fun u c m v hu => .inl ((hmoved u).eq_of_pc hu trivial ▸ hu)
  | call t c =>
      obtain ⟨-, rfl, rfl⟩ := step_call hs
      have hplain := plain_entry c
      have hself : (s.setThr t { s.thr t with pc := c.entry, call := some c }).thr t =
        { s.thr t with pc := c.entry, call := some c } := Function.update_self ..
      apply h.frame
      · simp [Ev.NoSeq]
      · exact fun _ => rfl
      · intro u
        by_cases hut : u = t
        · subst hut
          rw [hself]
          exact .inl hplain.1
        · right
          simp only [State.setThr, Function.update_of_ne hut]
      · intro u d m v hu
        by_cases hut : u = t
        · subst hut
          rw [hself] at hu
          have hfits : PcFits s.cond c.entry := hplain.2 s.cond
          rw [show c.entry = _ from hu] at hfits
          exact hfits.elim
        · simp only [State.setThr, Function.update_of_ne hut] at hu
          exact .inl hu

end Seq

end Reeact.Sync
