import Reeact.Fastsync.BarrierLaws

/-!
# fastsync_barrier — one serial thread a round

In each round of a barrier one thread leads: it is the last to arrive, the
one that arrives at the parent, the one that resets the barrier and, at a
leaf, the one that returns `PTHREAD_BARRIER_SERIAL_THREAD`. The lists of who
has entered the parent through a barrier, of who has reset it and of what its
threads have returned are the same, round by round.
-/

namespace Reeact.Barrier

open Transition BarrierTree

variable {Node Thr : Type} [Fintype Node] [DecidableEq Node] [Fintype Thr]
  [DecidableEq Thr] {T : BarrierTree Node Thr}

/-! ## Who did what, in order -/

def Ev.result? (t : Thr) : Ev Node Thr → Option Int
  | .ret u v => if u = t then some v else none
  | _ => none

def Ev.resetter? (n : Node) : Ev Node Thr → Option Thr
  | .reset t b => if b = n then some t else none
  | _ => none

def Ev.entrant? (n : Node) : Ev Node Thr → Option Thr
  | .arrive t _ (some c) _ => if c = n then some t else none
  | _ => none

/-- What the calls of a thread have returned, call by call. -/
def results (t : Thr) (tr : List (Ev Node Thr)) : List Int := tr.filterMap (Ev.result? t)

/-- The threads that have reset a barrier, round by round. -/
def resetters (n : Node) (tr : List (Ev Node Thr)) : List Thr := tr.filterMap (Ev.resetter? n)

/-- The threads that have arrived at the parent of a barrier through it. -/
def entrants (n : Node) (tr : List (Ev Node Thr)) : List Thr := tr.filterMap (Ev.entrant? n)

section Lists

variable {tr es : List (Ev Node Thr)} {t u : Thr} {n b : Node}

omit [Fintype Node] [DecidableEq Node] [Fintype Thr] in
@[simp] theorem results_append : results t (tr ++ es) = results t tr ++ results t es :=
  List.filterMap_append

omit [Fintype Node] [Fintype Thr] [DecidableEq Thr] in
@[simp] theorem resetters_append : resetters n (tr ++ es) = resetters n tr ++ resetters n es :=
  List.filterMap_append

omit [Fintype Node] [Fintype Thr] [DecidableEq Thr] in
@[simp] theorem entrants_append : entrants n (tr ++ es) = entrants n tr ++ entrants n es :=
  List.filterMap_append

section

omit [Fintype Node] [Fintype Thr]

theorem results_length : (results t tr).length = (counts tr).done (.inl t) := by
  rw [results, List.length_filterMap_eq_countP]
  refine List.countP_congr (fun e _ => ?_)
  cases e <;> simp [Ev.result?, Ev.completes?]

theorem resetters_length : (resetters n tr).length = (counts tr).done (.inr n) := by
  rw [resetters, List.length_filterMap_eq_countP]
  refine List.countP_congr (fun e _ => ?_)
  cases e <;> simp [Ev.resetter?, Ev.completes?]

theorem entrants_length : (entrants n tr).length = (counts tr).arrived (.inr n) := by
  rw [entrants, List.length_filterMap_eq_countP]
  refine List.countP_congr (fun e _ => ?_)
  cases e with
  | arrive t b via inc => cases via <;> simp [Ev.entrant?, Ev.arrives?]
  | _ => simp [Ev.entrant?, Ev.arrives?]

end

omit [Fintype Node] [Fintype Thr] [DecidableEq Thr] in
@[simp] theorem resetters_reset :
    resetters n [(.reset t b : Ev Node Thr)] = if b = n then [t] else [] := by
  by_cases h : b = n <;> simp [resetters, Ev.resetter?, h]

omit [Fintype Node] [DecidableEq Node] [Fintype Thr] in
@[simp] theorem results_ret {v : Int} :
    results t [(.ret u v : Ev Node Thr)] = if u = t then [v] else [] := by
  by_cases h : u = t <;> simp [results, Ev.result?, h]

omit [Fintype Node] [Fintype Thr] [DecidableEq Thr] in
theorem entrants_arrive {fs : List Node} {inc : BitVec 32} :
    entrants n [(.arrive t b fs.head? inc : Ev Node Thr)] =
      if fs.head? = some n then [t] else [] := by
  cases fs with
  | nil => rfl
  | cons c fs => by_cases h : c = n <;> simp [entrants, Ev.entrant?, h]

/-- What has happened in a round stays. -/
theorem getElem?_keep {α : Type} {l l' : List α} {k : ℕ} {x : α} (h : l[k]? = some x) :
    (l ++ l')[k]? = some x := by
  rw [List.getElem?_append_left (List.getElem?_eq_some_iff.mp h).1]
  exact h

end Lists

/-! ## A leader leads until its reset -/

theorem Inv.leads_step {tr es : List (Ev Node Thr)} {s s' : State Node Thr} (h : Inv T tr s)
    (hs : Does (Barrier.step T.home) s es s') {u : Thr} {n : Node} (hl : Leads (s.thr u) n) :
    Leads (s'.thr u) n ∨ es = [.reset u n] := by
  obtain ⟨a, ha⟩ := hs
  cases a with
  | spurious t =>
      obtain ⟨b, curSeq, hpc, rfl, rfl⟩ := step_spurious ha
      left
      by_cases hut : u = t
      · subst hut
        simp only [State.setThr, Function.update_self]
        simp only [Leads, hpc] at hl
        simpa [Leads] using hl
      · simpa only [State.setThr, Function.update_of_ne hut] using hl
  | run t =>
      have hok := (h.thread t).pc
      rcases hth : s.thr t with ⟨pc, fs⟩
      rw [hth] at hok
      simp only [Barrier.step, hth] at ha
      by_cases hut : u = t
      · subst hut
        rw [hth] at hl
        cases pc with
        | out =>
            obtain ⟨rfl, -⟩ := hok
            simp [Leads] at hl
        | readSeq b inc =>
            cases ha
            left
            simpa [Leads, State.setThr] using hl
        | addWaiting b inc curSeq =>
            cases ha
            left
            simp only [State.setThr, Function.update_self]
            apply leads_afterAdd_frames
            simpa [Leads] using hl
        | spin b curSeq =>
            cases ha
            left
            simp only [State.setThr, Function.update_self, spinStep]
            have hn : n ∈ fs := by simpa [Leads] using hl
            split
            · cases fs with
              | nil => cases hn
              | cons c fs => exact .inl hn
            · exact (leads_leave fs 0 n).mpr hn
        | futexWait b curSeq =>
            left
            have hn : n ∈ fs := by simpa [Leads] using hl
            simp only at ha
            split at ha <;> cases ha <;>
              simp only [State.setThr, Function.update_self] <;> exact .inl hn
        | asleep b curSeq => cases ha
        | loadSeq b =>
            cases ha
            left
            simpa [Leads, State.setThr] using hl
        | storeReset b v =>
            cases ha
            rcases hl with hn | hn | ⟨w, hn⟩
            · left
              simp only [State.setThr, Function.update_self]
              exact (leads_afterReset _ n).mpr hn
            · cases hn
            · cases hn
              exact .inr rfl
        | futexWake b =>
            obtain ⟨rfl, -⟩ := hok
            simp [Leads] at hl
        | ret v =>
            obtain ⟨rfl, -⟩ := hok
            simp [Leads] at hl
      · left
        cases pc with
        | futexWake b =>
            cases ha
            simp only [State.setThr, Function.update_of_ne hut]
            rcases wakeAll_thr s b u with hw | ⟨curSeq, hpc, hw⟩
            · rw [hw]
              exact hl
            · rw [hw]
              simp only [Leads, hpc] at hl
              simpa [Leads] using hl
        | futexWait b curSeq =>
            simp only at ha
            split at ha <;> cases ha <;>
              simpa only [State.setThr, Function.update_of_ne hut] using hl
        | asleep b curSeq => cases ha
        | _ =>
            cases ha
            simpa only [State.setThr, State.setBar, Function.update_of_ne hut] using hl

/-! ## Who enters the parent is who resets -/

/-- The entrants of `n` are its resetters, and then whoever leads it now. -/
def EntrantsOk (tr : List (Ev Node Thr)) (s : State Node Thr) (n : Node) : Prop :=
  ∃ rest, entrants n tr = resetters n tr ++ rest ∧ ∀ u ∈ rest, Leads (s.thr u) n

theorem Inv.entrants_step {tr es : List (Ev Node Thr)} {s s' : State Node Thr} {n : Node}
    (hi : Inv T tr s) (hn : T.parentBar n ≠ none) (h : EntrantsOk tr s n)
    (hs : Does (Barrier.step T.home) s es s') : EntrantsOk (tr ++ es) s' n := by
  obtain ⟨rest, heq, hrest⟩ := h
  have hlen : (counts tr).arrived (.inr n) = (counts tr).done (.inr n) + rest.length := by
    rw [← entrants_length, ← resetters_length, heq, List.length_append]
  -- nobody enters or resets `n`
  have hquiet : entrants n es = [] → resetters n es = [] → EntrantsOk (tr ++ es) s' n := by
    intro he hr
    refine ⟨rest, by rw [entrants_append, resetters_append, he, hr, List.append_nil,
      List.append_nil, heq], fun u hu => ?_⟩
    refine (hi.leads_step hs (hrest u hu)).resolve_right fun e => ?_
    rw [e] at hr
    simp at hr
  cases hi.emits hs with
  | silent _ => exact hquiet rfl rfl
  | call _ _ _ => exact hquiet rfl rfl
  | wake _ _ => exact hquiet rfl rfl
  | ret _ _ _ => exact hquiet rfl rfl
  | @arrive t b inc curSeq fs hth _ =>
      by_cases hc : fs.head? = some n
      · -- the new leader, after the round of the last one
        obtain ⟨fs', rfl⟩ : ∃ fs', fs = n :: fs' := by
          cases fs with
          | nil => cases hc
          | cons c fs' => exact ⟨fs', by rw [Option.some.inj hc]⟩
        have hok := (hi.thread t).pc
        rw [hth] at hok
        have hidle : (counts tr).arrived (.inr n) = (counts tr).done (.inr n) := hok.2.1
        have hnil : rest = [] := by
          apply List.eq_nil_of_length_eq_zero
          omega
        refine ⟨[t], ?_, fun u hu => ?_⟩
        · rw [entrants_append, entrants_arrive, if_pos hc, resetters_append, heq, hnil]
          simp [resetters, Ev.resetter?]
        · rw [List.mem_singleton.mp hu]
          refine (hi.leads_step hs ?_).resolve_right (by simp)
          rw [hth]
          exact .inl List.mem_cons_self
      · exact hquiet (by rw [entrants_arrive, if_neg hc]) rfl
  | @reset t b v fs hth _ =>
      by_cases hb : b = n
      · subst hb
        have hl : Leads (s.thr t) b := by
          rw [hth]
          exact .inr (.inr ⟨v, rfl⟩)
        have hok := (hi.thread t).pc
        rw [hth] at hok
        obtain ⟨p, hp⟩ := Option.ne_none_iff_exists'.mp hn
        have harr : (counts tr).arrived (.inr b) = (counts tr).done (.inr b) + 1 :=
          (hok.2.2.1 p hp).1
        have hone : rest.length = 1 := by omega
        obtain ⟨u, rfl⟩ := List.length_eq_one_iff.mp hone
        have hut : u = t := hi.leads_unique u t b (hrest u List.mem_cons_self) hl
        refine ⟨[], ?_, fun u hu => by cases hu⟩
        rw [entrants_append, resetters_append, resetters_reset, if_pos rfl, heq, hut]
        simp [entrants, Ev.entrant?]
      · exact hquiet rfl (by rw [resetters_reset, if_neg hb])

theorem Runs.entrantsOk {mem : Node → FastsyncBarrier Node} {tr : List (Ev Node Thr)}
    {s : State Node Thr} (h : Runs T mem tr s) {n : Node} (hn : T.parentBar n ≠ none) :
    EntrantsOk tr s n := by
  refine Run.invariant (P := fun tr s => EntrantsOk tr s n) ?_ ?_ h
  · exact ⟨[], rfl, fun u hu => by cases hu⟩
  · intro tr s es s' hr he hs
    exact (Runs.inv hr).entrants_step hn he hs

/-! ## What the calls return -/

/-- The `k`-th call of `t` is over after the `k`-th reset of its leaf, and gives
`PTHREAD_BARRIER_SERIAL_THREAD` to the thread that has made it. -/
def ResultOk (T : BarrierTree Node Thr) (tr : List (Ev Node Thr)) (t : Thr) (k : ℕ) (v : Int) :
    Prop :=
  ∃ u, (resetters (T.home t) tr)[k]? = some u ∧
    v = if t = u then PTHREAD_BARRIER_SERIAL_THREAD else 0

/-- Whether `t` is the one that has reset its leaf in the round it is in. -/
def PosOk (T : BarrierTree Node Thr) (tr : List (Ev Node Thr)) (t : Thr) (fs : List Node) :
    Pc Node → Prop
  | .spin _ _ | .futexWait _ _ | .asleep _ _ =>
      fs = [] → (resetters (T.home t) tr)[(results t tr).length]? ≠ some t
  | .futexWake _ => (resetters (T.home t) tr)[(results t tr).length]? = some t
  | .ret v => ResultOk T tr t (results t tr).length v
  | _ => True

section Result

variable {tr tr' es : List (Ev Node Thr)} {s s' : State Node Thr} {t u : Thr}

theorem ResultOk.keep {k : ℕ} {v : Int} (h : ResultOk T tr t k v) :
    ResultOk T (tr ++ es) t k v := by
  obtain ⟨w, hw, hv⟩ := h
  refine ⟨w, ?_, hv⟩
  rw [resetters_append]
  exact getElem?_keep hw

/-- Other threads' events: none of them is a return of `u`, or a reset by it. -/
theorem PosOk.keep {fs : List Node} {pc : Pc Node} (h : PosOk T tr u fs pc)
    (hres : results u es = []) (hreset : ∀ w ∈ resetters (T.home u) es, w ≠ u) :
    PosOk T (tr ++ es) u fs pc := by
  have hlen : results u (tr ++ es) = results u tr := by
    rw [results_append, hres, List.append_nil]
  have hwait : (resetters (T.home u) tr)[(results u tr).length]? ≠ some u →
      (resetters (T.home u) (tr ++ es))[(results u (tr ++ es)).length]? ≠ some u := by
    intro hne e
    rw [hlen, resetters_append, List.getElem?_append] at e
    split at e
    · exact hne e
    · exact hreset u (List.mem_of_getElem? e) rfl
  cases pc with
  | spin b curSeq => exact fun hfs => hwait (h hfs)
  | futexWait b curSeq => exact fun hfs => hwait (h hfs)
  | asleep b curSeq => exact fun hfs => hwait (h hfs)
  | futexWake b =>
      show (resetters (T.home u) (tr ++ es))[(results u (tr ++ es)).length]? = some u
      rw [hlen, resetters_append]
      exact getElem?_keep h
  | ret v =>
      show ResultOk T (tr ++ es) u (results u (tr ++ es)).length v
      rw [hlen]
      exact ResultOk.keep h
  | _ => exact trivial

/-- What the threads have returned, and what they are about to return. -/
structure SerialInv (T : BarrierTree Node Thr) (tr : List (Ev Node Thr)) (s : State Node Thr) :
    Prop where
  pos : ∀ t, PosOk T tr t (s.thr t).frames (s.thr t).pc
  result : ∀ t k v, (results t tr)[k]? = some v → ResultOk T tr t k v

/-- A step of `t` that neither resets nor returns. -/
theorem SerialInv.own {th : Thread Node} (h : SerialInv T tr s)
    (hthr : s'.thr = Function.update s.thr t th) (hres : ∀ u, results u es = [])
    (hreset : ∀ n, resetters n es = []) (hth : PosOk T tr t th.frames th.pc) :
    SerialInv T (tr ++ es) s' where
  pos u := by
    rw [hthr]
    by_cases hut : u = t
    · subst hut
      rw [Function.update_self]
      exact hth.keep (hres u) (by simp [hreset])
    · rw [Function.update_of_ne hut]
      exact (h.pos u).keep (hres u) (by simp [hreset])
  result u k v hv := by
    rw [results_append, hres u, List.append_nil] at hv
    exact (h.result u k v hv).keep

/-- The thread that resets its leaf is the one of this round. -/
theorem SerialInv.reset {b : Node} {v : BitVec 64} {fs : List Node} (hi : Inv T tr s)
    (h : SerialInv T tr s) (hth : s.thr t = ⟨.storeReset b v, fs⟩) :
    SerialInv T (tr ++ [.reset t b])
      ((s.setBar b ((s.bar b).storeReset v)).setThr t (afterReset (s.bar b) b fs)) where
  pos u := by
    by_cases hut : u = t
    · subst hut
      simp only [State.setThr, Function.update_self]
      cases fs with
      | cons c fs => exact trivial
      | nil =>
          have hok := (hi.thread u).pc
          rw [hth] at hok
          have hhome : T.home u = b := hok.1
          have hf := hi.leads_full u b (by rw [hth]; exact .inr (.inr ⟨v, rfl⟩))
          have hdone : (counts tr).done (.inl u) = (counts tr).done (.inr b) :=
            hi.rounds.done_eq_of_full (show T.Sub (.inl u) (.inr b) from hhome) hf
          have hself : (resetters (T.home u) (tr ++ [.reset u b]))[(results u
              (tr ++ [.reset u b])).length]? = some u := by
            have hlen : (results u (tr ++ [.reset u b])).length = (resetters b tr).length := by
              rw [results_append, show results u [(.reset u b : Ev Node Thr)] = [] from rfl,
                List.append_nil, results_length, resetters_length, hdone]
            rw [hlen, hhome, resetters_append, resetters_reset, if_pos rfl]
            exact List.getElem?_concat_length
          simp only [afterReset]
          split
          · exact hself
          · exact ⟨u, hself, (if_pos rfl).symm⟩
    · simp only [State.setThr, State.setBar, Function.update_of_ne hut]
      refine (h.pos u).keep rfl (fun w hw => ?_)
      rw [resetters_reset] at hw
      split at hw
      · rw [List.mem_singleton.mp hw]
        exact Ne.symm hut
      · cases hw
  result u k r hr := by
    rw [results_append, show results u [(.reset t b : Ev Node Thr)] = [] from rfl,
      List.append_nil] at hr
    exact (h.result u k r hr).keep

theorem SerialInv.wake {b : Node} (h : SerialInv T tr s) (hpc : (s.thr t).pc = .futexWake b) :
    SerialInv T (tr ++ [.wake t b])
      ((s.wakeAll b).setThr t ⟨.ret PTHREAD_BARRIER_SERIAL_THREAD, []⟩) where
  pos u := by
    by_cases hut : u = t
    · subst hut
      have hpos := h.pos u
      rw [hpc] at hpos
      simp only [State.setThr, Function.update_self]
      refine PosOk.keep (show PosOk T tr u [] (.ret _) from ⟨u, hpos, (if_pos rfl).symm⟩) rfl ?_
      intro w hw
      cases hw
    · simp only [State.setThr, Function.update_of_ne hut]
      have hpos : PosOk T tr u ((s.wakeAll b).thr u).frames ((s.wakeAll b).thr u).pc := by
        rcases wakeAll_thr s b u with hw | ⟨curSeq, hpcu, hw⟩
        · rw [hw]
          exact h.pos u
        · have hposu := h.pos u
          rw [hpcu] at hposu
          rw [hw]
          exact hposu
      refine hpos.keep rfl (fun w hw => ?_)
      cases hw
  result u k r hr := by
    rw [results_append, show results u [(.wake t b : Ev Node Thr)] = [] from rfl,
      List.append_nil] at hr
    exact (h.result u k r hr).keep

theorem SerialInv.ret {v : Int} {fs : List Node} (h : SerialInv T tr s)
    (hth : s.thr t = ⟨.ret v, fs⟩) :
    SerialInv T (tr ++ [.ret t v]) (s.setThr t ⟨.out, []⟩) where
  pos u := by
    by_cases hut : u = t
    · subst hut
      simp only [State.setThr, Function.update_self]
      exact trivial
    · simp only [State.setThr, Function.update_of_ne hut]
      refine (h.pos u).keep ?_ (fun w hw => ?_)
      · rw [results_ret, if_neg (Ne.symm hut)]
      · cases hw
  result u k r hr := by
    rw [results_append, results_ret] at hr
    split at hr
    · rename_i htu
      subst htu
      rw [List.getElem?_append] at hr
      split at hr
      · exact (h.result t k r hr).keep
      · rename_i hk
        have hpos := h.pos t
        rw [hth] at hpos
        have hk0 : k - (results t tr).length = 0 := by
          have := (List.getElem?_eq_some_iff.mp hr).1
          rw [List.length_singleton] at this
          omega
        rw [hk0] at hr
        cases hr
        have hkl : k = (results t tr).length := by omega
        rw [hkl]
        exact ResultOk.keep hpos
    · rw [List.append_nil] at hr
      exact (h.result u k r hr).keep

/-- A thread that arrives before its leaf is reset has not reset it. -/
theorem Inv.pos_arrive {b : Node} {inc curSeq : BitVec 32} {fs : List Node} (hi : Inv T tr s)
    (hth : s.thr t = ⟨.addWaiting b inc curSeq, fs⟩) :
    PosOk T tr t fs (.spin b curSeq) := by
  intro hfs e
  have hok := (hi.thread t).pc
  rw [hth] at hok
  subst hfs
  have hhome : T.home t = b := hok.1
  have hidle : (counts tr).arrived (.inl t) = (counts tr).done (.inl t) := hok.2.1
  have hdone := hi.rounds.done_eq_of_idle (show T.Sub (.inl t) (.inr b) from hhome) hidle
  have hlt := (List.getElem?_eq_some_iff.mp e).1
  rw [results_length, resetters_length, hhome, hdone] at hlt
  exact Nat.lt_irrefl _ hlt

/-- A thread that leaves the wait loop of its leaf has been released by another. -/
theorem Inv.pos_leave {b : Node} {curSeq : BitVec 32} {fs : List Node} (hi : Inv T tr s)
    (h : SerialInv T tr s) (hth : s.thr t = ⟨.spin b curSeq, fs⟩) (hne : curSeq ≠ (s.bar b).seq) :
    PosOk T tr t (leave fs 0).frames (leave fs 0).pc := by
  cases fs with
  | cons c fs => exact trivial
  | nil =>
      have hok := (hi.thread t).pc
      have hpos := h.pos t
      rw [hth] at hok hpos
      obtain ⟨hpath, harr, hcur⟩ := hok
      have hhome : T.home t = b := hpath
      have hdone : (counts tr).done (.inr b) = (counts tr).done (.inl t) + 1 :=
        (hi.seq_moved (show T.Sub (.inl t) (.inr b) from hhome) harr hcur).mp hne
      have hlt : (results t tr).length < (resetters (T.home t) tr).length := by
        rw [results_length, resetters_length, hhome, hdone]
        exact Nat.lt_succ_self _
      refine ⟨_, List.getElem?_eq_getElem hlt, (if_neg fun e => ?_).symm⟩
      exact hpos rfl (by rw [List.getElem?_eq_getElem hlt, ← e])

theorem SerialInv.step (hi : Inv T tr s) (h : SerialInv T tr s)
    (hs : Does (Barrier.step T.home) s es s') : SerialInv T (tr ++ es) s' := by
  obtain ⟨a, ha⟩ := hs
  cases a with
  | spurious t =>
      have hpos := h.pos t
      obtain ⟨b, curSeq, hpc, rfl, rfl⟩ := step_spurious ha
      rw [hpc] at hpos
      exact h.own rfl (fun _ => rfl) (fun _ => rfl) hpos
  | run t =>
      have hpos := h.pos t
      rcases hth : s.thr t with ⟨pc, fs⟩
      rw [hth] at hpos
      simp only [Barrier.step, hth] at ha
      cases pc with
      | out =>
          cases ha
          exact h.own rfl (fun _ => rfl) (fun _ => rfl) trivial
      | readSeq b inc =>
          cases ha
          exact h.own rfl (fun _ => rfl) (fun _ => rfl) trivial
      | addWaiting b inc curSeq =>
          have hle := (hi.add_cases hth).1
          simp only [FastsyncBarrier.addWaiting_waiting,
            FastsyncBarrier.addWaiting_totalCount, hi.totalCount b, if_pos hle] at ha
          cases ha
          refine h.own rfl (fun _ => rfl) (fun _ => rfl) ?_
          rw [hi.afterAdd_eq hth]
          split
          · cases T.parentBar b <;> exact trivial
          · exact hi.pos_arrive hth
      | spin b curSeq =>
          cases ha
          refine h.own rfl (fun _ => rfl) (fun _ => rfl) ?_
          simp only [spinStep]
          split
          · cases fs with
            | nil => exact hpos
            | cons c fs => exact hpos
          · rename_i hne
            exact hi.pos_leave h hth hne
      | futexWait b curSeq =>
          simp only at ha
          split at ha <;> cases ha <;>
            exact h.own rfl (fun _ => rfl) (fun _ => rfl) hpos
      | asleep b curSeq => cases ha
      | loadSeq b =>
          cases ha
          exact h.own rfl (fun _ => rfl) (fun _ => rfl) trivial
      | storeReset b v =>
          cases ha
          exact h.reset hi hth
      | futexWake b =>
          cases ha
          exact h.wake (by rw [hth])
      | ret v =>
          cases ha
          exact h.ret hth

end Result

theorem Runs.serialInv {mem : Node → FastsyncBarrier Node} {tr : List (Ev Node Thr)}
    {s : State Node Thr} (h : Runs T mem tr s) : SerialInv T tr s := by
  refine Run.invariant (P := SerialInv T) ?_ ?_ h
  · constructor
    · intro t
      exact trivial
    · intro t k v hv
      cases hv
  · intro tr s es s' hr hi hs
    exact hi.step (Runs.inv hr) hs

/-! ## Rounds -/

/-- An arrival: the party, and the thread that stands for it. -/
abbrev Arrival (Node Thr : Type) := Party Node Thr × Thr

/-- The arrivals at `n`, round by round, and those since its last reset. -/
def roundsStep (n : Node) (acc : List (List (Arrival Node Thr)) × List (Arrival Node Thr)) :
    Ev Node Thr → List (List (Arrival Node Thr)) × List (Arrival Node Thr)
  | .arrive t b via _ => if b = n then (acc.1, acc.2 ++ [(via.elim (.inl t) .inr, t)]) else acc
  | .reset _ b => if b = n then (acc.1 ++ [acc.2], []) else acc
  | _ => acc

def rounds (n : Node) (tr : List (Ev Node Thr)) :
    List (List (Arrival Node Thr)) × List (Arrival Node Thr) :=
  tr.foldl (roundsStep n) ([], [])

/-- A round of `n` that is over: every party has arrived once, each child by
the thread that leads it in that round. -/
structure RoundOk (T : BarrierTree Node Thr) (tr : List (Ev Node Thr)) (n : Node) (k : ℕ)
    (L : List (Arrival Node Thr)) : Prop where
  once : (L.map Prod.fst).Nodup
  mem : ∀ y, y ∈ L.map Prod.fst ↔ T.Sub y (.inr n)
  leader : ∀ c u, (Sum.inr c, u) ∈ L → (entrants c tr)[k]? = some u

structure RoundsOk (T : BarrierTree Node Thr) (tr : List (Ev Node Thr)) (n : Node) : Prop where
  past : ∀ k L, (rounds n tr).1[k]? = some L → RoundOk T tr n k L
  length : (rounds n tr).1.length = (resetters n tr).length
  current : (rounds n tr).2.map Prod.fst = (pending n tr).map Prod.fst
  leader : ∀ c u, (Sum.inr c, u) ∈ (rounds n tr).2 →
    (entrants c tr)[(rounds n tr).1.length]? = some u

section Rounds

variable {tr es : List (Ev Node Thr)} {s s' : State Node Thr} {n : Node}

omit [Fintype Node] [Fintype Thr] [DecidableEq Thr] in
theorem rounds_append (e : Ev Node Thr) : rounds n (tr ++ [e]) = roundsStep n (rounds n tr) e := by
  rw [rounds, List.foldl_append]
  rfl

theorem RoundOk.keep {k : ℕ} {L : List (Arrival Node Thr)} (h : RoundOk T tr n k L) :
    RoundOk T (tr ++ es) n k L where
  once := h.once
  mem := h.mem
  leader c u hc := by
    rw [entrants_append]
    exact getElem?_keep (h.leader c u hc)

/-- An event that is neither an arrival at `n` nor a reset of it. -/
theorem RoundsOk.quiet (h : RoundsOk T tr n) {e : Ev Node Thr}
    (hr : roundsStep n (rounds n tr) e = rounds n tr) (hreset : resetters n [e] = [])
    (hp : pending n (tr ++ [e]) = pending n tr) : RoundsOk T (tr ++ [e]) n where
  past k L hL := by
    rw [rounds_append, hr] at hL
    exact (h.past k L hL).keep
  length := by
    rw [rounds_append, hr, resetters_append, hreset, List.append_nil]
    exact h.length
  current := by
    rw [rounds_append, hr, hp]
    exact h.current
  leader c u hc := by
    rw [rounds_append, hr] at hc ⊢
    rw [entrants_append]
    exact getElem?_keep (h.leader c u hc)

theorem RoundsOk.arrive {t : Thr} {inc curSeq : BitVec 32} {fs : List Node} (hi : Inv T tr s)
    (h : RoundsOk T tr n) (hth : s.thr t = ⟨.addWaiting n inc curSeq, fs⟩) :
    RoundsOk T (tr ++ [.arrive t n fs.head? inc]) n := by
  have hr : rounds n (tr ++ [.arrive t n fs.head? inc]) =
      ((rounds n tr).1, (rounds n tr).2 ++ [(party t fs, t)]) := by
    rw [rounds_append, roundsStep, if_pos rfl, elim_head?]
  have hp := pending_append n tr (.arrive t n fs.head? inc)
  simp only [elim_head?, if_pos] at hp
  constructor
  · intro k L hL
    rw [hr] at hL
    exact (h.past k L hL).keep
  · rw [hr, resetters_append, show resetters n [(.arrive t n fs.head? inc : Ev Node Thr)] = []
      from rfl, List.append_nil]
    exact h.length
  · rw [hr, hp, List.map_append, List.map_append, h.current]
    rfl
  · intro c u hc
    rw [hr] at hc ⊢
    rw [entrants_append]
    rcases List.mem_append.mp hc with hc | hc
    · exact getElem?_keep (h.leader c u hc)
    · -- the child has arrived once a round before
      rw [List.mem_singleton, Prod.mk.injEq] at hc
      obtain ⟨hcp, rfl⟩ := hc
      have hok := (hi.thread u).pc
      rw [hth] at hok
      have hsub : T.Sub (party u fs) (.inr n) := hok.1.sub
      have hidle : (counts tr).arrived (party u fs) = (counts tr).done (party u fs) := hok.2.1
      have hdone := hi.rounds.done_eq_of_idle hsub hidle
      have hhead : fs.head? = some c := by
        cases fs with
        | nil => cases hcp
        | cons d fs =>
            cases hcp
            rfl
      rw [entrants_arrive, if_pos hhead, h.length, resetters_length, hdone, ← hidle, ← hcp,
        ← entrants_length]
      exact List.getElem?_concat_length

theorem RoundsOk.reset {t : Thr} {v : BitVec 64} {fs : List Node} (hi : Inv T tr s)
    (hpend : PendingOk T tr n) (h : RoundsOk T tr n) (hth : s.thr t = ⟨.storeReset n v, fs⟩) :
    RoundsOk T (tr ++ [.reset t n]) n := by
  have hr : rounds n (tr ++ [.reset t n]) = ((rounds n tr).1 ++ [(rounds n tr).2], []) := by
    rw [rounds_append, roundsStep, if_pos rfl]
  have hf := hi.leads_full t n (by rw [hth]; exact .inr (.inr ⟨v, rfl⟩))
  constructor
  · intro k L hL
    rw [hr, List.getElem?_append] at hL
    split at hL
    · exact (h.past k L hL).keep
    · rename_i hk
      have hk0 : k - (rounds n tr).1.length = 0 := by
        have := (List.getElem?_eq_some_iff.mp hL).1
        rw [List.length_singleton] at this
        omega
      have hkl : k = (rounds n tr).1.length := by omega
      rw [hk0] at hL
      cases hL
      apply RoundOk.keep
      constructor
      · rw [h.current]
        exact hpend.nodup
      · intro y
        rw [h.current, hpend.mem y]
        exact ⟨fun hy => hy.1, fun hy => ⟨hy, hf y hy⟩⟩
      · intro c u hc
        rw [hkl]
        exact h.leader c u hc
  · rw [hr, resetters_append, resetters_reset, if_pos rfl, List.length_append,
      List.length_append, h.length]
    rfl
  · rw [hr, pending_append]
    simp
  · intro c u hc
    rw [hr] at hc
    cases hc

theorem Runs.roundsOk {mem : Node → FastsyncBarrier Node} (h : Runs T mem tr s) (n : Node) :
    RoundsOk T tr n := by
  refine Run.invariant (P := fun tr _ => RoundsOk T tr n) ?_ ?_ h
  · refine ⟨fun k L hL => ?_, rfl, rfl, fun c u hc => ?_⟩
    · cases hL
    · cases hc
  · intro tr s es s' hr hok hs
    have hi := Runs.inv hr
    cases hi.emits hs with
    | silent _ => simpa using hok
    | call _ _ _ => exact hok.quiet rfl rfl (pending_append n tr _)
    | wake _ _ => exact hok.quiet rfl rfl (pending_append n tr _)
    | ret _ _ _ => exact hok.quiet rfl rfl (pending_append n tr _)
    | @arrive t b inc curSeq fs hth _ =>
        by_cases hb : b = n
        · subst hb
          exact hok.arrive hi hth
        · refine hok.quiet ?_ rfl ?_
          · rw [roundsStep, if_neg hb]
          · rw [pending_append]
            exact if_neg hb
    | @reset t b v fs hth _ =>
        by_cases hb : b = n
        · subst hb
          exact hok.reset hi (Runs.pendingOk hr b) hth
        · refine hok.quiet ?_ (by rw [resetters_reset, if_neg hb]) ?_
          · rw [roundsStep, if_neg hb]
          · rw [pending_append]
            exact if_neg hb

end Rounds

/-! ## The law -/

section Law

variable {mem : Node → FastsyncBarrier Node} {tr : List (Ev Node Thr)} {s : State Node Thr}

/-- Whoever resets a barrier has come up to it from its own leaf. -/
theorem Runs.resetter_path (h : Runs T mem tr s) {n : Node} {u : Thr} (hu : u ∈ resetters n tr) :
    ∃ fs, OnPath T u n fs := by
  refine Run.invariant (P := fun tr _ => ∀ u ∈ resetters n tr, ∃ fs, OnPath T u n fs) ?_ ?_ h u hu
  · intro u hu
    cases hu
  · intro tr s es s' hr hold hs u hu
    have hi := Runs.inv hr
    rw [resetters_append] at hu
    rcases List.mem_append.mp hu with hu | hu
    · exact hold u hu
    · cases hi.emits hs with
      | @reset t b v fs hth _ =>
          rw [resetters_reset] at hu
          split at hu
          · rename_i hb
            rw [List.mem_singleton.mp hu]
            have hok := (hi.thread t).pc
            rw [hth] at hok
            exact ⟨fs, hb ▸ hok.1⟩
          · cases hu
      | silent _ => cases hu
      | call _ _ _ => cases hu
      | arrive _ _ => cases hu
      | wake _ _ => cases hu
      | ret _ _ _ => cases hu

/-- A leaf is reset by its own threads. -/
theorem Runs.resetter_home (h : Runs T mem tr s) {t u : Thr}
    (hu : u ∈ resetters (T.home t) tr) : T.home u = T.home t := by
  obtain ⟨fs, hpath⟩ := h.resetter_path hu
  cases fs with
  | nil => exact hpath
  | cons c fs => exact absurd hpath.1 (T.home_leaf t c)

theorem Runs.resetters_prefix (h : Runs T mem tr s) {n p : Node} (hp : T.parentBar n = some p) :
    resetters n tr <+: entrants n tr ∧ (entrants n tr).length ≤ (resetters n tr).length + 1 := by
  have hn : T.parentBar n ≠ none := by
    rw [hp]
    exact Option.some_ne_none p
  obtain ⟨rest, heq, -⟩ := h.entrantsOk hn
  refine ⟨⟨rest, heq.symm⟩, ?_⟩
  rw [entrants_length, resetters_length]
  exact h.inv.rounds.arrived_le (.inr n)

open Relation in
/-- Below a barrier, a thread has returned from no more calls than the barrier
has been reset, and has started as many. -/
theorem Runs.reset_pace (h : Runs T mem tr s) {t : Thr} {n : Node}
    (hb : TransGen T.Sub (.inl t) (.inr n)) :
    returns tr t ≤ (resetters n tr).length ∧ (resetters n tr).length ≤ calls tr t := by
  rw [resetters_length]
  refine ⟨h.inv.rounds.done_mono_trans hb.to_reflTransGen, ?_⟩
  obtain ⟨y, hty, hy⟩ := TransGen.tail'_iff.mp hb
  calc (counts tr).done (.inr n) ≤ (counts tr).arrived y := h.inv.rounds.le_arrived y _ hy
    _ ≤ (counts tr).arrived (.inl t) := h.inv.rounds.arrived_mono_trans hty
    _ ≤ calls tr t := h.arrived_le_calls t

end Law

/-- One serial thread a round, at barrier `n`, after the events `tr`. Rounds
are counted from 0; `n` is a leaf where it is the home of a thread. -/
structure OneSerial (T : BarrierTree Node Thr) (tr : List (Ev Node Thr)) (n : Node) : Prop where
  /-- A `k`-th call on the leaf returns after the `k`-th reset of the leaf: to the
  thread that has made it `PTHREAD_BARRIER_SERIAL_THREAD`, to any other 0. -/
  result : ∀ (t : Thr) (k : ℕ) (v : Int), T.home t = n → (results t tr)[k]? = some v →
    ∃ u, (resetters n tr)[k]? = some u ∧ T.home u = n ∧
      v = if t = u then PTHREAD_BARRIER_SERIAL_THREAD else 0
  /-- Once the `k`-th calls of all its threads have returned, one of them is the
  serial thread, which has entered the parent for the leaf; all others got 0. -/
  serial : ∀ k : ℕ, (∃ t, T.home t = n) → (∀ t, T.home t = n → k < returns tr t) →
    ∃ u, T.home u = n ∧ (results u tr)[k]? = some PTHREAD_BARRIER_SERIAL_THREAD ∧
      (resetters n tr)[k]? = some u ∧
      (∀ p, T.parentBar n = some p → (entrants n tr)[k]? = some u) ∧
      ∀ t, T.home t = n → t ≠ u → (results t tr)[k]? = some 0
  /-- Round by round, whoever enters the parent through `n` is who resets `n`. -/
  entrant : ∀ p, T.parentBar n = some p →
    resetters n tr <+: entrants n tr ∧ (entrants n tr).length ≤ (resetters n tr).length + 1
  /-- In a round that is over each party has arrived exactly once, a child by the
  thread that enters for it in that round. -/
  round : ∀ (k : ℕ) (L : List (Arrival Node Thr)), (rounds n tr).1[k]? = some L →
    RoundOk T tr n k L
  /-- There are as many such rounds as resets, -/
  rounds_eq : (rounds n tr).1.length = (resetters n tr).length
  /-- one for each call of every thread below. -/
  pace : ∀ t, Relation.TransGen T.Sub (.inl t) (.inr n) →
    returns tr t ≤ (resetters n tr).length ∧ (resetters n tr).length ≤ calls tr t

/-- **One serial thread a round.** In every reachable state of every tree, for
every barrier and any number of rounds. -/
theorem one_serial_thread (T : BarrierTree Node Thr) (mem : Node → FastsyncBarrier Node)
    {tr : List (Ev Node Thr)} {s : State Node Thr} (h : Runs T mem tr s) (n : Node) :
    OneSerial T tr n := by
  have hresult : ∀ (t : Thr) (k : ℕ) (v : Int), T.home t = n → (results t tr)[k]? = some v →
      ∃ u, (resetters n tr)[k]? = some u ∧ T.home u = n ∧
        v = if t = u then PTHREAD_BARRIER_SERIAL_THREAD else 0 := by
    rintro t k v rfl hv
    obtain ⟨u, hu, hval⟩ := h.serialInv.result t k v hv
    exact ⟨u, hu, h.resetter_home (List.mem_of_getElem? hu), hval⟩
  have hentrant : ∀ p, T.parentBar n = some p →
      resetters n tr <+: entrants n tr ∧
        (entrants n tr).length ≤ (resetters n tr).length + 1 :=
    fun p hp => h.resetters_prefix hp
  refine ⟨hresult, ?_, hentrant, (h.roundsOk n).past, (h.roundsOk n).length,
    fun t ht => h.reset_pace ht⟩
  rintro k ⟨t₀, ht₀⟩ hall
  have hval : ∀ t, T.home t = n → ∃ v, (results t tr)[k]? = some v := by
    intro t ht
    have hlt : k < (results t tr).length := by
      rw [results_length]
      exact hall t ht
    exact ⟨_, List.getElem?_eq_getElem hlt⟩
  -- the thread that has made the `k`-th reset
  obtain ⟨v₀, hv₀⟩ := hval t₀ ht₀
  obtain ⟨u, hu, hhome, -⟩ := hresult t₀ k v₀ ht₀ hv₀
  have hother : ∀ t, T.home t = n → (results t tr)[k]? =
      some (if t = u then PTHREAD_BARRIER_SERIAL_THREAD else 0) := by
    intro t ht
    obtain ⟨v, hv⟩ := hval t ht
    obtain ⟨u', hu', -, rfl⟩ := hresult t k v ht hv
    rw [hu] at hu'
    cases hu'
    exact hv
  refine ⟨u, hhome, ?_, hu, fun p hp => ?_, fun t ht htu => ?_⟩
  · rw [hother u hhome, if_pos rfl]
  · obtain ⟨rest, hrest⟩ := (hentrant p hp).1
    rw [← hrest]
    exact getElem?_keep hu
  · rw [hother t ht, if_neg htu]

/-- The leaf of two threads: the one that has reset it is the serial one. -/
theorem one_serial_thread_shared : ∃ tr s, Runs sharedTree (fun _ => zeroBar _) tr s ∧
    results 0 tr = [0] ∧ results 1 tr = [PTHREAD_BARRIER_SERIAL_THREAD] ∧ resetters 1 tr = [1] ∧
    OneSerial sharedTree tr 1 := by
  have hout : (exec (step sharedTree.home) (State.init sharedTree (fun _ => zeroBar _))
      sharedSchedule).map (fun r => (results 0 r.2, results 1 r.2, resetters 1 r.2)) =
      some ([0], [PTHREAD_BARRIER_SERIAL_THREAD], [1]) := by decide
  obtain ⟨s, tr, hr, hv⟩ := run_of_outcome _ _ hout
  simp only [Prod.mk.injEq] at hv
  exact ⟨tr, s, hr, hv.1, hv.2.1, hv.2.2, one_serial_thread sharedTree (fun _ => zeroBar _) hr 1⟩

end Reeact.Barrier
