import Reeact.Fastsync.BarrierInv

/-!
# fastsync_barrier — every step keeps the invariant

Three kinds of step matter: an arrival (one atomic add), a reset, and a
return; each is one step of the abstract rounds (`Rounds.Inv.arrive`,
`Rounds.Inv.complete`). All others leave the counts alone.
-/

namespace Reeact.Barrier

open Transition BarrierTree

variable {Node Thr : Type} [Fintype Node] [DecidableEq Node] [Fintype Thr]
  [DecidableEq Thr] {T : BarrierTree Node Thr}

/-! ## The weight of the arrivals of the current round -/

/-- The weight of the parties of `n` that have arrived in its current round. -/
def load (T : BarrierTree Node Thr) (c : Rounds.Counts (Party Node Thr)) (n : Node) : ℕ :=
  ∑ y ∈ T.parties n, (c.arrived y - c.done (.inr n)) * T.weight y

theorem load_le {c : Rounds.Counts (Party Node Thr)} (h : Rounds.Inv T.Sub c) (n : Node) :
    load T c n ≤ (T.totalCount n).toNat := by
  rw [totalCount_eq]
  refine Finset.sum_le_sum (fun y hy => ?_)
  have h1 := h.done_le y _ (mem_parties.mp hy)
  have h2 := h.arrived_le y
  have h3 : c.arrived y - c.done (.inr n) ≤ 1 := by omega
  calc (c.arrived y - c.done (.inr n)) * T.weight y ≤ 1 * T.weight y :=
        Nat.mul_le_mul_right _ h3
    _ = T.weight y := Nat.one_mul _

/-- **The last arrival.** The counter reaches `total_count` exactly when every
party has arrived. -/
theorem load_eq_iff {c : Rounds.Counts (Party Node Thr)} (h : Rounds.Inv T.Sub c) (n : Node) :
    load T c n = (T.totalCount n).toNat ↔ Rounds.Full T.Sub c (.inr n) := by
  have hterm : ∀ y ∈ T.parties n,
      (c.arrived y - c.done (.inr n)) * T.weight y ≤ T.weight y := by
    intro y hy
    have h1 := h.done_le y _ (mem_parties.mp hy)
    have h2 := h.arrived_le y
    have h3 : c.arrived y - c.done (.inr n) ≤ 1 := by omega
    simpa using Nat.mul_le_mul_right (T.weight y) h3
  rw [totalCount_eq, load, Finset.sum_eq_sum_iff_of_le hterm]
  constructor
  · intro heq y hy
    have h1 := heq y (mem_parties.mpr hy)
    have hw := weight_pos hy
    have h2 : c.arrived y - c.done (.inr n) = 1 :=
      Nat.eq_of_mul_eq_mul_right hw (by rw [h1, Nat.one_mul])
    omega
  · intro hf y hy
    rw [hf y (mem_parties.mp hy)]
    simp

theorem load_arrive {c : Rounds.Counts (Party Node Thr)} {x : Party Node Thr} {b : Node}
    (hx : T.Sub x (.inr b)) (hle : c.done (.inr b) ≤ c.arrived x) (n : Node) :
    load T (c.arrive x) n =
      load T c n + if n = b then T.weight x else 0 := by
  by_cases hn : n = b
  · subst hn
    have hx' := mem_parties.mpr hx
    simp only [load, if_pos]
    rw [← Finset.add_sum_erase _ _ hx', ← Finset.add_sum_erase _ _ hx',
      Rounds.Counts.arrive_self, Rounds.Counts.arrive_done]
    have hrest : ∑ y ∈ (T.parties n).erase x,
          ((c.arrive x).arrived y - c.done (.inr n)) * T.weight y =
        ∑ y ∈ (T.parties n).erase x, (c.arrived y - c.done (.inr n)) * T.weight y := by
      refine Finset.sum_congr rfl (fun y hy => ?_)
      rw [Rounds.Counts.arrive_ne c (Finset.ne_of_mem_erase hy)]
    have hsucc : c.arrived x + 1 - c.done (.inr n) = (c.arrived x - c.done (.inr n)) + 1 := by
      omega
    rw [hrest, hsucc, Nat.add_mul, Nat.one_mul]
    omega
  · simp only [load, if_neg hn, Nat.add_zero]
    refine Finset.sum_congr rfl (fun y hy => ?_)
    have hyx : y ≠ x := by
      intro he
      subst he
      exact hn (sub_unique (mem_parties.mp hy) hx)
    rw [Rounds.Counts.arrive_ne c hyx, Rounds.Counts.arrive_done]

theorem load_complete {c : Rounds.Counts (Party Node Thr)} {b : Node}
    (hf : Rounds.Full T.Sub c (.inr b)) (n : Node) :
    load T (c.complete (.inr b)) n =
      if n = b then 0 else load T c n := by
  by_cases hn : n = b
  · subst hn
    simp only [load, if_pos, Rounds.Counts.complete_self, Rounds.Counts.complete_arrived]
    refine Finset.sum_eq_zero (fun y hy => ?_)
    rw [hf y (mem_parties.mp hy), Nat.sub_self, Nat.zero_mul]
  · have hne : (Sum.inr n : Party Node Thr) ≠ .inr b := fun h => hn (Sum.inr.inj h)
    simp only [load, if_neg hn, Rounds.Counts.complete_ne c hne,
      Rounds.Counts.complete_arrived]

/-! ## Steps that leave the counts alone -/

theorem Inv.quiet {tr tr' : List (Ev Node Thr)} {s s' : State Node Thr} (h : Inv T tr s)
    (hc : counts tr' = counts tr) (hbar : s'.bar = s.bar)
    (hthr : ∀ u, ThreadOk T (counts tr) u (s'.thr u))
    (hl : ∀ u n, Leads (s'.thr u) n ↔ Leads (s.thr u) n) : Inv T tr' s' where
  totalCount n := by rw [hbar]; exact h.totalCount n
  parentBar n := by rw [hbar]; exact h.parentBar n
  rounds := by rw [hc]; exact h.rounds
  seq n := by rw [hbar, hc]; exact h.seq n
  waiting n := by rw [hbar, hc]; exact h.waiting n
  thread t := by rw [hc]; exact hthr t
  leads_full t n ht := by rw [hc]; exact h.leads_full t n ((hl t n).mp ht)
  leads_unique t u n ht hu := h.leads_unique t u n ((hl t n).mp ht) ((hl u n).mp hu)
  full_led n hy hf := by
    rw [hc] at hf
    obtain ⟨t, ht⟩ := h.full_led n hy hf
    exact ⟨t, (hl t n).mpr ht⟩

/-- A step of one thread that changes nothing but its own position. -/
theorem Inv.own {tr tr' : List (Ev Node Thr)} {s : State Node Thr} (h : Inv T tr s)
    {t : Thr} {th : Thread Node} (hc : counts tr' = counts tr)
    (hth : ThreadOk T (counts tr) t th)
    (hl : ∀ n, Leads th n ↔ Leads (s.thr t) n) : Inv T tr' (s.setThr t th) := by
  refine h.quiet hc rfl ?_ ?_
  · intro u
    by_cases hu : u = t
    · subst hu
      simpa only [State.setThr, Function.update_self] using hth
    · simpa only [State.setThr, Function.update_of_ne hu] using h.thread u
  · intro u n
    by_cases hu : u = t
    · subst hu
      simpa only [State.setThr, Function.update_self] using hl n
    · simp only [State.setThr, Function.update_of_ne hu]

/-! ## An arrival -/

section Arrive

variable {tr : List (Ev Node Thr)} {s : State Node Thr} {t : Thr} {b : Node}
  {inc curSeq : BitVec 32} {fs : List Node}

/-- While a party of `b` has not arrived, nobody leads `b`. -/
theorem Inv.not_full (h : Inv T tr s) {x : Party Node Thr} (hx : T.Sub x (.inr b))
    (hidle : Idle (counts tr) x) : ¬ Rounds.Full T.Sub (counts tr) (.inr b) := by
  intro hf
  have h1 := hf x hx
  have h2 := h.rounds.done_eq_of_idle hx hidle
  have h3 : (counts tr).arrived x = (counts tr).done x := hidle
  omega

/-- Everything below a party that a thread stands for has arrived. -/
theorem Inv.full_party (h : Inv T tr s) (hth : s.thr t = ⟨.addWaiting b inc curSeq, fs⟩) :
    Rounds.Full T.Sub (counts tr) (party t fs) := by
  cases fs with
  | nil => exact full_thread _ t
  | cons c fs =>
      refine h.leads_full t c (.inl ?_)
      rw [hth]
      exact List.mem_cons_self

/-- The add itself: no wrap of `waiting`, which never exceeds `total_count`. -/
theorem Inv.add_toNat (h : Inv T tr s) (hth : s.thr t = ⟨.addWaiting b inc curSeq, fs⟩) :
    ((s.bar b).waiting + inc).toNat =
      load T ((counts tr).arrive (party t fs)) b := by
  have hok := (h.thread t).pc
  rw [hth] at hok
  obtain ⟨hpath, hidle, hinc, -⟩ := hok
  have hr := h.rounds.arrive sub_irrefl hidle (h.full_party hth)
  have hle := load_le hr b
  have hlt := (T.totalCount b).isLt
  have hload := load_arrive (T := T) hpath.sub (h.rounds.le_arrived _ _ hpath.sub) b
  rw [if_pos rfl] at hload
  have hw : (s.bar b).waiting.toNat = load T (counts tr) b := h.waiting b
  rw [BitVec.toNat_add, hw, hinc, ← hload]
  exact Nat.mod_eq_of_lt (by omega)

/-- The counter decides as it should: equal to `total_count` for the last
arrival, below it for every other; the fall-through is not taken. -/
theorem Inv.add_cases (h : Inv T tr s) (hth : s.thr t = ⟨.addWaiting b inc curSeq, fs⟩) :
    (s.bar b).waiting + inc ≤ T.totalCount b ∧
    ((s.bar b).waiting + inc = T.totalCount b ↔
      Rounds.Full T.Sub ((counts tr).arrive (party t fs)) (.inr b)) := by
  have hadd := h.add_toNat hth
  have hok := (h.thread t).pc
  rw [hth] at hok
  have hr := h.rounds.arrive sub_irrefl hok.2.1 (h.full_party hth)
  refine ⟨?_, ?_⟩
  · rw [BitVec.le_def, hadd]
    exact load_le hr b
  · rw [← load_eq_iff hr, ← hadd]
    exact BitVec.toNat_inj.symm

/-- The position after the add, by the two ways it can go. -/
theorem Inv.afterAdd_eq (h : Inv T tr s)
    (hth : s.thr t = ⟨.addWaiting b inc curSeq, fs⟩) :
    afterAdd ((s.bar b).addWaiting inc) b ((s.bar b).waiting + inc) curSeq fs =
      if (s.bar b).waiting + inc = T.totalCount b then
        match T.parentBar b with
        | some p => ⟨.readSeq p (T.totalCount b), b :: fs⟩
        | none => ⟨.loadSeq b, fs⟩
      else ⟨.spin b curSeq, fs⟩ := by
  obtain ⟨hle, -⟩ := h.add_cases hth
  simp only [afterAdd, FastsyncBarrier.addWaiting_totalCount, h.totalCount b]
  by_cases heq : (s.bar b).waiting + inc = T.totalCount b
  · rw [if_pos heq, if_pos heq]
    cases hp : T.parentBar b <;>
      simp only [climb, FastsyncBarrier.addWaiting_parentBar, h.parentBar b, hp, heq]
  · have hlt : (s.bar b).waiting + inc < T.totalCount b := by
      have hle' := BitVec.le_def.mp hle
      have hne := mt BitVec.eq_of_toNat_eq heq
      rw [BitVec.lt_def]
      omega
    rw [if_neg heq, if_neg heq, if_pos hlt]

/-- The arriving thread's new position fits the new counts. -/
theorem Inv.arrive_thread (h : Inv T tr s) (hth : s.thr t = ⟨.addWaiting b inc curSeq, fs⟩) :
    ThreadOk T ((counts tr).arrive (party t fs)) t
      (afterAdd ((s.bar b).addWaiting inc) b ((s.bar b).waiting + inc) curSeq fs) := by
  have hok := (h.thread t).pc
  have hbelow := (h.thread t).below
  rw [hth] at hok hbelow
  obtain ⟨hpath, hidle, -, hcur⟩ := hok
  have hidle' : (counts tr).arrived (party t fs) = (counts tr).done (party t fs) := hidle
  -- the party itself has arrived now, and what is below it had before
  have hself : ∀ y ∈ standsFor t fs,
      Arrived ((counts tr).arrive (party t fs)) y := by
    intro y hy
    by_cases hyx : y = party t fs
    · subst hyx
      simp [Arrived, hidle']
    · rw [standsFor_eq] at hy
      rcases List.mem_cons.mp hy with hy | hy
      · exact absurd hy hyx
      · have := hbelow y hy
        simpa [Arrived, hyx] using this
  have hparty := hself _ (party_mem_standsFor t fs)
  rw [h.afterAdd_eq hth]
  by_cases heq : (s.bar b).waiting + inc = T.totalCount b
  · rw [if_pos heq]
    cases hp : T.parentBar b with
    | none =>
        refine ⟨⟨hpath, hparty, fun p hp' => ?_⟩, fun y hy => hself y (List.mem_of_mem_tail hy)⟩
        rw [hp] at hp'
        cases hp'
    | some p =>
        -- a new round above: `b` has not arrived at its parent yet
        have hbx : (Sum.inr b : Party Node Thr) ≠ party t fs :=
          fun e => sub_irrefl (.inr b) (e ▸ hpath.sub : T.Sub (.inr b) (.inr b))
        have hsub := sub_parent hpath.sub hp
        have hb : (counts tr).arrived (.inr b) = (counts tr).done (.inr b) := by
          have h1 := h.rounds.arrived_le (.inr b)
          have h2 := h.rounds.done_le _ _ hsub
          have h3 := h.rounds.le_arrived _ _ hsub
          have h4 : (counts tr).arrived (.inr b) ≠ (counts tr).done (.inr b) + 1 :=
            fun h4 => h.not_full hpath.sub hidle (h.rounds.full _ h4)
          omega
        refine ⟨⟨⟨hp, hpath⟩, ?_, rfl⟩, hself⟩
        show ((counts tr).arrive (party t fs)).arrived (.inr b) = (counts tr).done (.inr b)
        rw [Rounds.Counts.arrive_ne _ hbx]
        exact hb
  · rw [if_neg heq]
    exact ⟨⟨hpath, hparty, hcur⟩, fun y hy => hself y (List.mem_of_mem_tail hy)⟩

section

omit [Fintype Node] [DecidableEq Node]

theorem leads_afterAdd (bar : FastsyncBarrier Node) (count : BitVec 32) (n : Node) :
    Leads (afterAdd bar b count curSeq fs) n →
      n ∈ fs ∨ (n = b ∧ count = bar.totalCount) := by
  intro hl
  simp only [afterAdd] at hl
  split at hl
  · rename_i heq
    simp only [climb] at hl
    split at hl <;> simp [Leads] at hl
    · rcases hl with hl | hl
      · exact .inr ⟨hl, heq⟩
      · exact .inl hl
    · rcases hl with hl | hl
      · exact .inl hl
      · exact .inr ⟨hl.symm, heq⟩
  · split at hl
    · simp [Leads] at hl
      exact .inl hl
    · cases fs with
      | nil => simp [Leads, leave] at hl
      | cons c fs =>
          simp [Leads, leave] at hl
          rcases hl with hl | hl
          · exact .inl (List.mem_cons_of_mem _ hl)
          · exact .inl (hl ▸ List.mem_cons_self)

theorem leads_afterAdd_last {bar : FastsyncBarrier Node} {count : BitVec 32}
    (hcount : count = bar.totalCount) : Leads (afterAdd bar b count curSeq fs) b := by
  simp only [afterAdd, if_pos hcount, climb]
  split <;> simp [Leads]

theorem leads_afterAdd_frames {bar : FastsyncBarrier Node} {count : BitVec 32} {n : Node}
    (hn : n ∈ fs) : Leads (afterAdd bar b count curSeq fs) n := by
  simp only [afterAdd, climb]
  split
  · split
    · exact .inl (List.mem_cons_of_mem _ hn)
    · exact .inl hn
  · split
    · exact .inl hn
    · cases fs with
      | nil => cases hn
      | cons c fs =>
          rcases List.mem_cons.mp hn with rfl | hn
          · exact .inr (.inl rfl)
          · exact .inl hn

end

/-- **An arrival keeps the invariant.** -/
theorem Inv.arrive (h : Inv T tr s) (hth : s.thr t = ⟨.addWaiting b inc curSeq, fs⟩) :
    Inv T (tr ++ [.arrive t b fs.head? inc])
      ((s.setBar b ((s.bar b).addWaiting inc)).setThr t
        (afterAdd ((s.bar b).addWaiting inc) b ((s.bar b).waiting + inc) curSeq fs)) := by
  have hok := (h.thread t).pc
  rw [hth] at hok
  obtain ⟨hpath, hidle, hinc, -⟩ := hok
  have hc := counts_append_arrives tr (e := .arrive t b fs.head? inc)
    (arrives?_arrive t b fs inc) rfl
  have hr := h.rounds.arrive sub_irrefl hidle (h.full_party hth)
  obtain ⟨-, hlast⟩ := h.add_cases hth
  have hnf := h.not_full hpath.sub hidle
  have hown : Own t (s.thr t) (party t fs) := by
    have := Own.party t (s.thr t)
    rwa [hth] at this ⊢
  -- who leads what afterwards
  have hleads : ∀ u n, Leads ((((s.setBar b ((s.bar b).addWaiting inc)).setThr t
      (afterAdd ((s.bar b).addWaiting inc) b ((s.bar b).waiting + inc) curSeq fs)).thr) u) n →
      Leads (s.thr u) n ∨ (u = t ∧ n = b ∧ (s.bar b).waiting + inc = T.totalCount b) := by
    intro u n hl
    by_cases hu : u = t
    · subst hu
      simp only [State.setThr, Function.update_self] at hl
      rcases leads_afterAdd _ _ _ hl with hl | ⟨hl, he⟩
      · exact .inl (.inl (by rw [hth]; exact hl))
      · exact .inr ⟨rfl, hl, he.trans (h.totalCount b)⟩
    · simp only [State.setThr, State.setBar, Function.update_of_ne hu] at hl
      exact .inl hl
  -- a barrier that was full before stays so: `x` is no party of it
  have hkeep : ∀ n, Rounds.Full T.Sub (counts tr) (.inr n) →
      Rounds.Full T.Sub ((counts tr).arrive (party t fs)) (.inr n) := by
    intro n hf y hy
    have hyx : y ≠ party t fs := by
      intro e
      subst e
      exact hnf (sub_unique hy hpath.sub ▸ hf)
    simpa only [Rounds.Counts.arrive_ne _ hyx, Rounds.Counts.arrive_done] using hf y hy
  constructor
  · intro n
    by_cases hn : n = b
    · subst hn; simp [State.setThr, State.setBar, h.totalCount]
    · simp [State.setThr, State.setBar, hn, h.totalCount]
  · intro n
    by_cases hn : n = b
    · subst hn; simp [State.setThr, State.setBar, h.parentBar]
    · simp [State.setThr, State.setBar, hn, h.parentBar]
  · rw [hc]; exact hr
  · intro n
    rw [hc]
    by_cases hn : n = b
    · subst hn; simp [State.setThr, State.setBar, h.seq]
    · simp [State.setThr, State.setBar, hn, h.seq]
  · intro n
    rw [hc]
    by_cases hn : n = b
    · subst hn
      simp only [State.setThr, State.setBar, Function.update_self,
        FastsyncBarrier.addWaiting_waiting]
      exact h.add_toNat hth
    · have hload := load_arrive (T := T) hpath.sub (h.rounds.le_arrived _ _ hpath.sub) n
      rw [if_neg hn, Nat.add_zero] at hload
      simp only [State.setThr, State.setBar, Function.update_of_ne hn]
      rw [h.waiting n]
      exact hload.symm
  · intro u
    rw [hc]
    by_cases hu : u = t
    · subst hu
      simpa only [State.setThr, State.setBar, Function.update_self] using h.arrive_thread hth
    · simp only [State.setThr, State.setBar, Function.update_of_ne hu]
      refine (h.thread u).congr (fun y hy => ⟨?_, rfl⟩) (fun _ _ _ _ _ _ => rfl)
      have hyx : y ≠ party t fs := by
        intro e
        subst e
        exact hu (h.own_unique hy hown)
      exact Rounds.Counts.arrive_ne _ hyx
  · intro u n hl
    rw [hc]
    rcases hleads u n hl with hl | ⟨-, rfl, he⟩
    · exact hkeep n (h.leads_full u n hl)
    · exact hlast.mp he
  · intro u v n hu hv
    rcases hleads u n hu with hu | ⟨hut, hub, -⟩
    · rcases hleads v n hv with hv | ⟨-, hvb, -⟩
      · exact h.leads_unique u v n hu hv
      · exact absurd (hvb ▸ h.leads_full u n hu) hnf
    · rcases hleads v n hv with hv | ⟨hvt, -, -⟩
      · exact absurd (hub ▸ h.leads_full v n hv) hnf
      · exact hut.trans hvt.symm
  · intro n hy hf
    rw [hc] at hf
    by_cases hn : n = b
    · subst hn
      refine ⟨t, ?_⟩
      simp only [State.setThr, Function.update_self]
      exact leads_afterAdd_last ((hlast.mpr hf).trans (h.totalCount n).symm)
    · have hf' : Rounds.Full T.Sub (counts tr) (.inr n) := by
        intro y hy
        have hyx : y ≠ party t fs := by
          intro e
          subst e
          exact hn (sub_unique hy hpath.sub)
        simpa only [Rounds.Counts.arrive_ne _ hyx, Rounds.Counts.arrive_done] using hf y hy
      obtain ⟨u, hu⟩ := h.full_led n hy hf'
      refine ⟨u, ?_⟩
      by_cases hut : u = t
      · subst hut
        simp only [State.setThr, Function.update_self]
        rw [hth] at hu
        rcases hu with hu | hu | ⟨v, hu⟩
        · exact leads_afterAdd_frames hu
        · cases hu
        · cases hu
      · simpa only [State.setThr, State.setBar, Function.update_of_ne hut] using hu

end Arrive

/-! ## A reset -/

section Reset

variable {tr : List (Ev Node Thr)} {s : State Node Thr} {t : Thr} {b : Node}
  {v : BitVec 64} {fs : List Node}

omit [Fintype Node] [DecidableEq Node] in
/-- What the thread that resets `b` leads afterwards. -/
theorem leads_afterReset (bar : FastsyncBarrier Node) (n : Node) :
    Leads (afterReset bar b fs) n ↔ n ∈ fs := by
  cases fs with
  | nil =>
      simp only [afterReset]
      split <;> simp [Leads]
  | cons c fs => simp [afterReset, leave, Leads, eq_comm, or_comm]

/-- The resetting thread's new position fits the new counts. -/
theorem Inv.reset_thread (h : Inv T tr s) (hth : s.thr t = ⟨.storeReset b v, fs⟩) :
    ThreadOk T ((counts tr).complete (.inr b)) t (afterReset (s.bar b) b fs) := by
  have hok := (h.thread t).pc
  have hbelow := (h.thread t).below
  rw [hth] at hok hbelow
  obtain ⟨hpath, harr, hrel, -⟩ := hok
  have hf := h.leads_full t b (by rw [hth]; exact .inr (.inr ⟨v, rfl⟩))
  have hdone : (counts tr).done (party t fs) = (counts tr).done (.inr b) :=
    h.rounds.done_eq_of_full hpath.sub hf
  -- nothing the thread stands for is `b` itself
  have hne : ∀ y ∈ standsFor t fs, y ≠ .inr b := by
    intro y hy e
    subst e
    rcases mem_standsFor.mp hy with hy | ⟨c, hc, hy⟩
    · cases hy
    · cases hy
      exact hpath.not_mem hc
  have harr' : ∀ y ∈ standsFor t fs, Arrived ((counts tr).complete (.inr b)) y := by
    intro y hy
    have hy' : Arrived (counts tr) y := by
      rw [standsFor_eq] at hy
      rcases List.mem_cons.mp hy with hy | hy
      · subst hy; exact harr
      · exact hbelow y hy
    rw [Arrived, Rounds.Counts.complete_ne _ (hne y hy), Rounds.Counts.complete_arrived]
    exact hy'
  have hdone' : ((counts tr).complete (.inr b)).done (.inr b) =
      ((counts tr).complete (.inr b)).done (party t fs) + 1 := by
    rw [Rounds.Counts.complete_self,
      Rounds.Counts.complete_ne _ (hne _ (party_mem_standsFor t fs)), hdone]
  cases fs with
  | nil =>
      have hself := harr' (.inl t) (party_mem_standsFor t [])
      have hhome : T.home t = b := hpath
      simp only [afterReset]
      split
      · exact ⟨⟨rfl, hhome, hself, hdone'⟩, by simp [standsFor]⟩
      · exact ⟨⟨rfl, hself, hhome.symm ▸ hdone'⟩, by simp [standsFor]⟩
  | cons c fs =>
      have hmem : ∀ y ∈ standsFor t fs, y ∈ standsFor t (c :: fs) :=
        fun y hy => List.mem_cons_of_mem _ hy
      refine ⟨⟨hpath.2, harr' _ (hmem _ (party_mem_standsFor t fs)), fun p hp => ?_⟩,
        fun y hy => harr' y (hmem y (List.mem_of_mem_tail hy))⟩
      have hpb : p = b := Option.some.inj (hp.symm.trans hpath.1)
      subst hpb
      exact ⟨harr' _ (party_mem_standsFor t (c :: fs)), hdone'⟩

/-- **A reset keeps the invariant.** -/
theorem Inv.reset (h : Inv T tr s) (hth : s.thr t = ⟨.storeReset b v, fs⟩) :
    Inv T (tr ++ [.reset t b])
      ((s.setBar b ((s.bar b).storeReset v)).setThr t (afterReset (s.bar b) b fs)) := by
  have hok := (h.thread t).pc
  rw [hth] at hok
  obtain ⟨hpath, harr, hrel, hv⟩ := hok
  have hlead : Leads (s.thr t) b := by
    rw [hth]
    exact .inr (.inr ⟨v, rfl⟩)
  have hf := h.leads_full t b hlead
  have hc := counts_append_completes tr (e := .reset t b) (x := .inr b) rfl rfl
  have hr := h.rounds.complete sub_irrefl hf ((released_iff hpath.sub).mp hrel)
  have hne : ∀ {n : Node}, n ≠ b → (Sum.inr n : Party Node Thr) ≠ .inr b :=
    fun hn e => hn (Sum.inr.inj e)
  -- the leaders are the same as before, except that nobody leads `b`
  have hleads : ∀ u n, Leads ((((s.setBar b ((s.bar b).storeReset v)).setThr t
      (afterReset (s.bar b) b fs)).thr) u) n ↔ Leads (s.thr u) n ∧ n ≠ b := by
    intro u n
    by_cases hu : u = t
    · subst hu
      simp only [State.setThr, Function.update_self]
      rw [leads_afterReset, hth]
      constructor
      · intro hn
        exact ⟨.inl hn, fun e => hpath.not_mem (e ▸ hn)⟩
      · intro hn
        rcases hn with ⟨hn | hn | ⟨w, hn⟩, hb⟩
        · exact hn
        · cases hn
        · cases hn
          exact absurd rfl hb
    · simp only [State.setThr, State.setBar, Function.update_of_ne hu]
      constructor
      · intro hl
        refine ⟨hl, fun e => hu ?_⟩
        subst e
        exact h.leads_unique u t n hl hlead
      · exact fun hl => hl.1
  constructor
  · intro n
    by_cases hn : n = b
    · subst hn; simp [State.setThr, State.setBar, h.totalCount]
    · simp [State.setThr, State.setBar, hn, h.totalCount]
  · intro n
    by_cases hn : n = b
    · subst hn; simp [State.setThr, State.setBar, h.parentBar]
    · simp [State.setThr, State.setBar, hn, h.parentBar]
  · rw [hc]; exact hr
  · intro n
    rw [hc]
    by_cases hn : n = b
    · subst hn
      simp only [State.setThr, State.setBar, Function.update_self, hv,
        FastsyncBarrier.storeReset_seq, Rounds.Counts.complete_self]
      exact (BitVec.ofNat_add _ 1).symm
    · simp only [State.setThr, State.setBar, Function.update_of_ne hn,
        Rounds.Counts.complete_ne _ (hne hn)]
      exact h.seq n
  · intro n
    rw [hc]
    have hload := load_complete hf n
    by_cases hn : n = b
    · subst hn
      rw [if_pos rfl] at hload
      simp only [State.setThr, State.setBar, Function.update_self, hv,
        FastsyncBarrier.storeReset_waiting]
      exact hload.symm
    · rw [if_neg hn] at hload
      simp only [State.setThr, State.setBar, Function.update_of_ne hn]
      rw [h.waiting n]
      exact hload.symm
  · intro u
    rw [hc]
    by_cases hu : u = t
    · subst hu
      simpa only [State.setThr, State.setBar, Function.update_self] using h.reset_thread hth
    · simp only [State.setThr, State.setBar, Function.update_of_ne hu]
      refine (h.thread u).congr (fun y hy => ⟨rfl, ?_⟩) (fun y n hy hsub ha hd => ?_)
      · refine Rounds.Counts.complete_ne _ (fun e => ?_)
        subst e
        exact hu (h.own_unique hy (.inr ⟨b, rfl, hlead⟩))
      · -- a barrier that has already released `y` is not the full `b`
        refine Rounds.Counts.complete_ne _ (hne (fun e => ?_))
        subst e
        have h1 := hf y hsub
        have h2 : (counts tr).arrived y = (counts tr).done y + 1 := ha
        omega
  · intro u n hl
    rw [hc]
    obtain ⟨hl, hn⟩ := (hleads u n).mp hl
    intro y hy
    rw [Rounds.Counts.complete_ne _ (hne hn)]
    exact h.leads_full u n hl y hy
  · intro u w n hu hw
    exact h.leads_unique u w n ((hleads u n).mp hu).1 ((hleads w n).mp hw).1
  · intro n hy hfn
    rw [hc] at hfn
    by_cases hn : n = b
    · subst hn
      obtain ⟨y, hy⟩ := hy
      have h1 := hfn y hy
      have h2 := hf y hy
      rw [Rounds.Counts.complete_self, Rounds.Counts.complete_arrived] at h1
      omega
    · have hfn' : Rounds.Full T.Sub (counts tr) (.inr n) := by
        intro y hy
        have := hfn y hy
        rwa [Rounds.Counts.complete_ne _ (hne hn)] at this
      obtain ⟨u, hu⟩ := h.full_led n hy hfn'
      exact ⟨u, (hleads u n).mpr ⟨hu, hn⟩⟩

end Reset

/-! ## A return -/

theorem Inv.ret {tr : List (Ev Node Thr)} {s : State Node Thr} {t : Thr} {r : Int}
    {fs : List Node} (h : Inv T tr s) (hth : s.thr t = ⟨.ret r, fs⟩) :
    Inv T (tr ++ [.ret t r]) (s.setThr t ⟨.out, []⟩) := by
  have hok := (h.thread t).pc
  rw [hth] at hok
  obtain ⟨rfl, harr, hhome⟩ := hok
  have hc := counts_append_completes tr (e := .ret t r) (x := .inl t) rfl rfl
  have hne : ∀ n : Node, (Sum.inr n : Party Node Thr) ≠ .inl t := fun n e => by cases e
  have hup : ∀ z, T.Sub (.inl t) z → (counts tr).arrived (.inl t) = (counts tr).done (.inl t) + 1 ∧
      (counts tr).done z = (counts tr).done (.inl t) + 1 := by
    intro z hz
    cases z with
    | inl u => exact absurd hz (not_sub_inl _ u)
    | inr n =>
        have hn : T.home t = n := hz
        exact ⟨harr, hn ▸ hhome⟩
  have hr := h.rounds.complete sub_irrefl (full_thread _ t) hup
  have hleads : ∀ u n, Leads (((s.setThr t ⟨.out, []⟩).thr) u) n ↔ Leads (s.thr u) n := by
    intro u n
    by_cases hu : u = t
    · subst hu
      simp [State.setThr, hth, Leads]
    · simp only [State.setThr, Function.update_of_ne hu]
  have hfull : ∀ n, Rounds.Full T.Sub ((counts tr).complete (.inl t)) (.inr n) ↔
      Rounds.Full T.Sub (counts tr) (.inr n) := by
    intro n
    simp only [Rounds.Full, Rounds.Counts.complete_ne _ (hne n), Rounds.Counts.complete_arrived]
  constructor
  · exact h.totalCount
  · exact h.parentBar
  · rw [hc]; exact hr
  · intro n
    rw [hc, Rounds.Counts.complete_ne _ (hne n)]
    exact h.seq n
  · intro n
    rw [hc, Rounds.Counts.complete_ne _ (hne n)]
    exact h.waiting n
  · intro u
    rw [hc]
    by_cases hu : u = t
    · subst hu
      simp only [State.setThr, Function.update_self]
      refine ⟨⟨rfl, ?_⟩, by simp [standsFor]⟩
      have : (counts tr).arrived (.inl u) = (counts tr).done (.inl u) + 1 := harr
      simpa [Idle] using this
    · simp only [State.setThr, Function.update_of_ne hu]
      refine (h.thread u).congr (fun y hy => ⟨rfl, ?_⟩)
        (fun _ n _ _ _ _ => Rounds.Counts.complete_ne _ (hne n))
      refine Rounds.Counts.complete_ne _ (fun e => ?_)
      subst e
      exact hu (h.own_unique hy (.inl (mem_standsFor.mpr (.inl rfl))))
  · intro u n hl
    rw [hc]
    exact (hfull n).mpr (h.leads_full u n ((hleads u n).mp hl))
  · intro u w n hu hw
    exact h.leads_unique u w n ((hleads u n).mp hu) ((hleads w n).mp hw)
  · intro n hy hf
    rw [hc] at hf
    obtain ⟨u, hu⟩ := h.full_led n hy ((hfull n).mp hf)
    exact ⟨u, (hleads u n).mpr hu⟩

/-! ## The wait loop and the wake -/

omit [Fintype Node] [DecidableEq Node] in
theorem leads_leave (fs : List Node) (r : Int) (n : Node) :
    Leads (leave fs r) n ↔ n ∈ fs := by
  cases fs with
  | nil => simp [leave, Leads]
  | cons c fs => simp [leave, Leads, eq_comm, or_comm]

/-- **Leaving the loop.** `seq` differs from the snapshot only when the
barrier has completed the thread's round: the two counts are equal or one
apart, and one apart is not `0` modulo `2 ^ 32`. -/
theorem Inv.seq_moved {tr : List (Ev Node Thr)} {s : State Node Thr} (h : Inv T tr s)
    {y : Party Node Thr} {b : Node} {curSeq : BitVec 32} (hsub : T.Sub y (.inr b))
    (harr : Arrived (counts tr) y)
    (hcur : curSeq = BitVec.ofNat 32 ((counts tr).done y)) :
    curSeq ≠ (s.bar b).seq ↔ (counts tr).done (.inr b) = (counts tr).done y + 1 := by
  rw [hcur, h.seq b]
  rcases h.rounds.done_cases hsub harr with hd | hd
  · rw [hd]
    simp
  · rw [hd]
    simp only [iff_true]
    intro e
    have := congrArg BitVec.toNat e
    simp only [BitVec.toNat_ofNat] at this
    omega

theorem Inv.leave_thread {tr : List (Ev Node Thr)} {s : State Node Thr} (h : Inv T tr s)
    {t : Thr} {b : Node} {curSeq : BitVec 32} {fs : List Node}
    (hth : s.thr t = ⟨.spin b curSeq, fs⟩) (hne : curSeq ≠ (s.bar b).seq) :
    ThreadOk T (counts tr) t (leave fs 0) := by
  have hok := (h.thread t).pc
  have hbelow := (h.thread t).below
  rw [hth] at hok hbelow
  obtain ⟨hpath, harr, hcur⟩ := hok
  have hd := (h.seq_moved hpath.sub harr hcur).mp hne
  cases fs with
  | nil =>
      have hhome : T.home t = b := hpath
      exact ⟨⟨rfl, harr, hhome ▸ hd⟩, by simp [leave, standsFor]⟩
  | cons c fs =>
      refine ⟨⟨hpath.2, hbelow _ (party_mem_standsFor t fs), fun p hp => ?_⟩,
        fun y hy => hbelow y (List.mem_of_mem_tail hy)⟩
      have hpb : p = b := Option.some.inj (hp.symm.trans hpath.1)
      subst hpb
      exact ⟨harr, hd⟩

omit [Fintype Node] [Fintype Thr] [DecidableEq Thr] in
theorem wakeAll_thr (s : State Node Thr) (b : Node) (u : Thr) :
    (s.wakeAll b).thr u = s.thr u ∨
      ∃ curSeq, (s.thr u).pc = .asleep b curSeq ∧
        (s.wakeAll b).thr u = ⟨.spin b curSeq, (s.thr u).frames⟩ := by
  simp only [State.wakeAll]
  split
  · rename_i b' curSeq hpc
    split
    · rename_i hb
      exact .inr ⟨curSeq, hb ▸ hpc, rfl⟩
    · exact .inl rfl
  · exact .inl rfl

/-! ## Every step -/

theorem Inv.init (T : BarrierTree Node Thr) (bars : Node → FastsyncBarrier Node)
    (htotal : ∀ n, (bars n).totalCount = T.totalCount n)
    (hparent : ∀ n, (bars n).parentBar = T.parentBar n) (hreset : ∀ n, (bars n).reset = 0) :
    Inv T [] ⟨bars, fun _ => ⟨.out, []⟩⟩ where
  totalCount := htotal
  parentBar := hparent
  rounds := Rounds.Inv.init
  seq n := by simp [FastsyncBarrier.seq, hreset n, counts]
  waiting n := by simp [FastsyncBarrier.waiting, hreset n, counts]
  thread t := ⟨⟨rfl, rfl⟩, by simp [standsFor]⟩
  leads_full t n hl := by simp [Leads] at hl
  leads_unique t u n hl := by simp [Leads] at hl
  full_led n hy hf := by
    obtain ⟨y, hy⟩ := hy
    have := hf y hy
    simp [counts] at this

theorem Inv.run {tr es : List (Ev Node Thr)} {s s' : State Node Thr} {t : Thr} (h : Inv T tr s)
    (hs : step T.home s (.run t) = some (s', es)) : Inv T (tr ++ es) s' := by
  have hok := (h.thread t).pc
  have hbelow := (h.thread t).below
  rcases hth : s.thr t with ⟨pc, fs⟩
  rw [hth] at hok hbelow
  simp only [step, hth] at hs
  cases pc with
  | out =>
      obtain ⟨rfl, hidle⟩ := hok
      simp only [Option.some.injEq, Prod.mk.injEq] at hs
      obtain ⟨rfl, rfl⟩ := hs
      refine h.own (counts_append_quiet tr rfl rfl) ⟨⟨rfl, hidle, rfl⟩, hbelow⟩ (fun n => ?_)
      simp [hth, Leads]
  | readSeq b inc =>
      obtain ⟨hpath, hidle, hinc⟩ := hok
      simp only [Option.some.injEq, Prod.mk.injEq] at hs
      obtain ⟨rfl, rfl⟩ := hs
      refine h.own (counts_append_silent tr) ⟨⟨hpath, hidle, hinc, ?_⟩, hbelow⟩ (fun n => ?_)
      · rw [h.seq b, h.rounds.done_eq_of_idle hpath.sub hidle]
      · simp [hth, Leads]
  | addWaiting b inc curSeq =>
      have hle := (h.add_cases hth).1
      simp only [FastsyncBarrier.addWaiting_waiting, FastsyncBarrier.addWaiting_totalCount,
        h.totalCount b, if_pos hle, Option.some.injEq, Prod.mk.injEq] at hs
      obtain ⟨rfl, rfl⟩ := hs
      exact h.arrive hth
  | spin b curSeq =>
      simp only [Option.some.injEq, Prod.mk.injEq] at hs
      obtain ⟨rfl, rfl⟩ := hs
      simp only [spinStep]
      split
      · cases fs with
        | nil =>
            refine h.own (counts_append_silent tr) ⟨⟨rfl, hok⟩, hbelow⟩ (fun n => ?_)
            simp [hth, Leads]
        | cons c fs =>
            refine h.own (counts_append_silent tr) ⟨hok, hbelow⟩ (fun n => ?_)
            simp [hth, Leads]
      · rename_i hne
        refine h.own (counts_append_silent tr) (h.leave_thread hth hne) (fun n => ?_)
        rw [leads_leave, hth]
        simp [Leads]
  | futexWait b curSeq =>
      obtain ⟨rfl, hrest⟩ := hok
      simp only at hs
      by_cases hseq : (s.bar b).seq = curSeq
      · simp only [if_pos hseq, Option.some.injEq, Prod.mk.injEq] at hs
        obtain ⟨rfl, rfl⟩ := hs
        refine h.own (counts_append_silent tr) ⟨⟨rfl, hrest⟩, hbelow⟩ (fun n => ?_)
        simp [hth, Leads]
      · simp only [if_neg hseq, Option.some.injEq, Prod.mk.injEq] at hs
        obtain ⟨rfl, rfl⟩ := hs
        refine h.own (counts_append_silent tr) ⟨hrest, hbelow⟩ (fun n => ?_)
        simp [hth, Leads]
  | asleep b curSeq => cases hs
  | loadSeq b =>
      obtain ⟨hpath, harr, hrel⟩ := hok
      simp only [Option.some.injEq, Prod.mk.injEq] at hs
      obtain ⟨rfl, rfl⟩ := hs
      refine h.own (counts_append_silent tr) ⟨⟨hpath, harr, hrel, ?_⟩, hbelow⟩ (fun n => ?_)
      · rw [h.seq b]
      · simp [hth, Leads]
  | storeReset b v =>
      simp only [Option.some.injEq, Prod.mk.injEq] at hs
      obtain ⟨rfl, rfl⟩ := hs
      exact h.reset hth
  | futexWake b =>
      obtain ⟨rfl, hhome, harr, hd⟩ := hok
      simp only [Option.some.injEq, Prod.mk.injEq] at hs
      obtain ⟨rfl, rfl⟩ := hs
      refine h.quiet (counts_append_quiet tr rfl rfl) rfl ?_ ?_
      · intro u
        by_cases hu : u = t
        · subst hu
          simp only [State.setThr, Function.update_self]
          exact ⟨⟨rfl, harr, hhome.symm ▸ hd⟩, by simp [standsFor]⟩
        · simp only [State.setThr, Function.update_of_ne hu]
          rcases wakeAll_thr s b u with hw | ⟨curSeq, hpc, hw⟩
          · rw [hw]; exact h.thread u
          · have hu := h.thread u
            rw [hw]
            have hpcu := hu.pc
            rw [hpc] at hpcu
            exact ⟨hpcu.2, hu.below⟩
      · intro u n
        by_cases hu : u = t
        · subst hu
          simp [State.setThr, hth, Leads]
        · simp only [State.setThr, Function.update_of_ne hu]
          rcases wakeAll_thr s b u with hw | ⟨curSeq, hpc, hw⟩
          · rw [hw]
          · rw [hw]
            simp [Leads, hpc]
  | ret r =>
      simp only [Option.some.injEq, Prod.mk.injEq] at hs
      obtain ⟨rfl, rfl⟩ := hs
      exact h.ret hth

omit [Fintype Node] [Fintype Thr] in
theorem step_spurious {home : Thr → Node} {es : List (Ev Node Thr)} {s s' : State Node Thr}
    {t : Thr} (hs : step home s (.spurious t) = some (s', es)) :
    ∃ b curSeq, (s.thr t).pc = .asleep b curSeq ∧
      s' = s.setThr t ⟨.spin b curSeq, (s.thr t).frames⟩ ∧ es = [] := by
  simp only [step] at hs
  split at hs
  · rename_i b curSeq hpc
    cases hs
    exact ⟨b, curSeq, hpc, rfl, rfl⟩
  · cases hs

theorem Inv.spurious {tr es : List (Ev Node Thr)} {s s' : State Node Thr} {t : Thr}
    (h : Inv T tr s) (hs : step T.home s (.spurious t) = some (s', es)) :
    Inv T (tr ++ es) s' := by
  obtain ⟨b, curSeq, hpc, rfl, rfl⟩ := step_spurious hs
  have hok := (h.thread t).pc
  rw [hpc] at hok
  refine h.own (counts_append_silent tr) ⟨hok.2, (h.thread t).below⟩ (fun n => ?_)
  simp [hpc, Leads]

/-- **Every step keeps the invariant.** -/
theorem Inv.step {tr es : List (Ev Node Thr)} {s s' : State Node Thr} (h : Inv T tr s)
    (hs : Does (step T.home) s es s') : Inv T (tr ++ es) s' := by
  obtain ⟨a, ha⟩ := hs
  cases a with
  | run t => exact h.run ha
  | spurious t => exact h.spurious ha

end Reeact.Barrier
