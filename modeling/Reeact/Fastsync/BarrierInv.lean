import Reeact.Fastsync.BarrierTree

/-!
# fastsync_barrier — the invariant

The trace of a run says how often each party has arrived at its barrier and
how many rounds it has completed: a thread completes a round when it returns,
a barrier when it is reset (`counts`). `Inv` ties the packed word of every
barrier and the position of every thread to these numbers, which are plain
naturals: the 32-bit `seq` is the number of resets modulo `2 ^ 32`, and no
clause of the invariant looks at it in any other way.

A thread LEADS a barrier from its arrival as the last one until its reset.
-/

namespace Reeact.Barrier

open Transition BarrierTree

variable {Node Thr : Type} [Fintype Node] [DecidableEq Node] [Fintype Thr]
  [DecidableEq Thr] {T : BarrierTree Node Thr}

/-! ## Counting along a trace -/

/-- The party an event makes arrive. -/
def Ev.arrives? : Ev Node Thr → Option (Party Node Thr)
  | .arrive t _ none _ => some (.inl t)
  | .arrive _ _ (some c) _ => some (.inr c)
  | _ => none

/-- The party whose round an event completes. -/
def Ev.completes? : Ev Node Thr → Option (Party Node Thr)
  | .ret t _ => some (.inl t)
  | .reset _ b => some (.inr b)
  | _ => none

def counts (tr : List (Ev Node Thr)) : Rounds.Counts (Party Node Thr) where
  arrived x := tr.countP (fun e => e.arrives? = some x)
  done x := tr.countP (fun e => e.completes? = some x)

/-- How many calls of `fastsync_barrier_wait` a thread has started. -/
def calls (tr : List (Ev Node Thr)) (t : Thr) : ℕ :=
  tr.countP (fun e => e = .call t)

/-- How many calls of `fastsync_barrier_wait` have returned to a thread. -/
def returns (tr : List (Ev Node Thr)) (t : Thr) : ℕ :=
  tr.countP (fun e => e.completes? = some (.inl t))

/-- How often a barrier has been reset. -/
def resets (tr : List (Ev Node Thr)) (n : Node) : ℕ :=
  tr.countP (fun e => e.completes? = some (.inr n))

section

omit [Fintype Node] [Fintype Thr]

@[simp] theorem counts_append_silent (tr : List (Ev Node Thr)) : counts (tr ++ []) = counts tr := by
  rw [List.append_nil]

theorem counts_append_quiet (tr : List (Ev Node Thr)) {e : Ev Node Thr}
    (ha : e.arrives? = none) (hc : e.completes? = none) :
    counts (tr ++ [e]) = counts tr := by
  simp [counts, List.countP_append, ha, hc]

theorem counts_append_arrives (tr : List (Ev Node Thr)) {e : Ev Node Thr}
    {x : Party Node Thr} (ha : e.arrives? = some x) (hc : e.completes? = none) :
    counts (tr ++ [e]) = (counts tr).arrive x := by
  simp only [counts, Rounds.Counts.arrive, List.countP_append]
  congr 1
  · funext y
    by_cases hy : y = x
    · subst hy; simp [ha]
    · simp [ha, hy, Ne.symm hy]
  · funext y
    simp [hc]

theorem counts_append_completes (tr : List (Ev Node Thr)) {e : Ev Node Thr}
    {x : Party Node Thr} (ha : e.arrives? = none) (hc : e.completes? = some x) :
    counts (tr ++ [e]) = (counts tr).complete x := by
  simp only [counts, Rounds.Counts.complete, List.countP_append]
  congr 1
  · funext y
    simp [ha]
  · funext y
    by_cases hy : y = x
    · subst hy; simp [hc]
    · simp [hc, hy, Ne.symm hy]

end

omit [Fintype Node] [DecidableEq Node] [Fintype Thr] [DecidableEq Thr] in
theorem arrives?_arrive (t : Thr) (b : Node) (fs : List Node) (inc : BitVec 32) :
    (Ev.arrive t b fs.head? inc : Ev Node Thr).arrives? = some (party t fs) := by
  cases fs <;> rfl

/-! ## What each thread's position means -/

/-- `x` has arrived for the round it is in. -/
def Arrived (c : Rounds.Counts (Party Node Thr)) (x : Party Node Thr) : Prop :=
  c.arrived x = c.done x + 1

/-- `x` has not arrived yet for the round it is in. -/
def Idle (c : Rounds.Counts (Party Node Thr)) (x : Party Node Thr) : Prop :=
  c.arrived x = c.done x

/-- The barrier above `n`, if any, has completed the round `n` is in. -/
def Released (T : BarrierTree Node Thr) (c : Rounds.Counts (Party Node Thr)) (n : Node) :
    Prop :=
  ∀ p, T.parentBar n = some p → Arrived c (.inr n) ∧ c.done (.inr p) = c.done (.inr n) + 1

def PcOk (T : BarrierTree Node Thr) (c : Rounds.Counts (Party Node Thr)) (t : Thr)
    (fs : List Node) : Pc Node → Prop
  | .out => fs = [] ∧ Idle c (.inl t)
  | .readSeq b inc => OnPath T t b fs ∧ Idle c (party t fs) ∧
      inc.toNat = T.weight (party t fs)
  | .addWaiting b inc curSeq => OnPath T t b fs ∧ Idle c (party t fs) ∧
      inc.toNat = T.weight (party t fs) ∧ curSeq = BitVec.ofNat 32 (c.done (party t fs))
  | .spin b curSeq => OnPath T t b fs ∧ Arrived c (party t fs) ∧
      curSeq = BitVec.ofNat 32 (c.done (party t fs))
  | .futexWait b curSeq | .asleep b curSeq => fs = [] ∧ OnPath T t b fs ∧
      Arrived c (party t fs) ∧ curSeq = BitVec.ofNat 32 (c.done (party t fs))
  | .loadSeq b => OnPath T t b fs ∧ Arrived c (party t fs) ∧ Released T c b
  | .storeReset b v => OnPath T t b fs ∧ Arrived c (party t fs) ∧ Released T c b ∧
      v = (BitVec.ofNat 32 (c.done (.inr b)) + 1).setWidth 64
  | .futexWake b => fs = [] ∧ T.home t = b ∧ Arrived c (.inl t) ∧
      c.done (.inr b) = c.done (.inl t) + 1
  | .ret _ => fs = [] ∧ Arrived c (.inl t) ∧ c.done (.inr (T.home t)) = c.done (.inl t) + 1

/-- A thread's position fits the counts; everything it stands for below the
barrier it is at has arrived. -/
structure ThreadOk (T : BarrierTree Node Thr) (c : Rounds.Counts (Party Node Thr)) (t : Thr)
    (th : Thread Node) : Prop where
  pc : PcOk T c t th.frames th.pc
  below : ∀ y ∈ (standsFor t th.frames).tail, Arrived c y

/-- A thread leads the barriers of its suspended calls, and the one it is
about to reset. -/
def Leads (th : Thread Node) (n : Node) : Prop :=
  n ∈ th.frames ∨ th.pc = .loadSeq n ∨ ∃ v, th.pc = .storeReset n v

/-- The parties a thread answers for. -/
def Own (t : Thr) (th : Thread Node) (y : Party Node Thr) : Prop :=
  y ∈ standsFor t th.frames ∨ ∃ n, y = .inr n ∧ Leads th n

structure Inv (T : BarrierTree Node Thr) (tr : List (Ev Node Thr)) (s : State Node Thr) :
    Prop where
  totalCount : ∀ n, (s.bar n).totalCount = T.totalCount n
  parentBar : ∀ n, (s.bar n).parentBar = T.parentBar n
  rounds : Rounds.Inv T.Sub (counts tr)
  seq : ∀ n, (s.bar n).seq = BitVec.ofNat 32 ((counts tr).done (.inr n))
  waiting : ∀ n, (s.bar n).waiting.toNat =
    ∑ y ∈ T.parties n, ((counts tr).arrived y - (counts tr).done (.inr n)) * T.weight y
  thread : ∀ t, ThreadOk T (counts tr) t (s.thr t)
  leads_full : ∀ t n, Leads (s.thr t) n → Rounds.Full T.Sub (counts tr) (.inr n)
  leads_unique : ∀ t u n, Leads (s.thr t) n → Leads (s.thr u) n → t = u
  full_led : ∀ n, (∃ y, T.Sub y (.inr n)) → Rounds.Full T.Sub (counts tr) (.inr n) →
    ∃ t, Leads (s.thr t) n

/-! ## Small facts -/

theorem full_thread (c : Rounds.Counts (Party Node Thr)) (t : Thr) :
    Rounds.Full T.Sub c (.inl t) := fun y h => absurd h (not_sub_inl y t)

theorem released_iff {c : Rounds.Counts (Party Node Thr)} {n : Node} {y : Party Node Thr}
    (hy : T.Sub y (.inr n)) :
    Released T c n ↔ ∀ z, T.Sub (.inr n) z →
      c.arrived (.inr n) = c.done (.inr n) + 1 ∧ c.done z = c.done (.inr n) + 1 := by
  constructor
  · intro h z hz
    cases z with
    | inl t => exact absurd hz (not_sub_inl _ t)
    | inr p => exact h p hz.1
  · intro h p hp
    exact h (.inr p) (sub_parent hy hp)

omit [Fintype Node] [DecidableEq Node] [Fintype Thr] [DecidableEq Thr] in
theorem Own.party (t : Thr) (th : Thread Node) : Own t th (party t th.frames) :=
  .inl (party_mem_standsFor t th.frames)

/-- Two threads never answer for the same party. -/
theorem Inv.own_unique {tr : List (Ev Node Thr)} {s : State Node Thr} (h : Inv T tr s)
    {t u : Thr} {y : Party Node Thr} (ht : Own t (s.thr t) y) (hu : Own u (s.thr u) y) :
    t = u := by
  have led : ∀ {v : Thr} {n : Node}, Own v (s.thr v) (.inr n) → Leads (s.thr v) n := by
    intro v n hv
    rcases hv with hv | ⟨m, hm, hl⟩
    · rcases mem_standsFor.mp hv with hv | ⟨c, hc, hv⟩
      · cases hv
      · cases hv
        exact .inl hc
    · cases hm
      exact hl
  have self : ∀ {v w : Thr}, Own v (s.thr v) (.inl w) → w = v := by
    intro v w hv
    rcases hv with hv | ⟨m, hm, -⟩
    · rcases mem_standsFor.mp hv with hv | ⟨c, -, hv⟩
      · cases hv; rfl
      · cases hv
    · cases hm
  cases y with
  | inl w => exact (self ht).symm.trans (self hu)
  | inr n => exact h.leads_unique t u n (led ht) (led hu)

/-- A thread's position still fits when the counts of its own parties, and of
the barriers that have already released them, are the same. -/
theorem ThreadOk.congr {c c' : Rounds.Counts (Party Node Thr)} {t : Thr} {th : Thread Node}
    (h : ThreadOk T c t th)
    (hown : ∀ y, Own t th y → c'.arrived y = c.arrived y ∧ c'.done y = c.done y)
    (hup : ∀ y n, Own t th y → T.Sub y (.inr n) → Arrived c y →
      c.done (.inr n) = c.done y + 1 → c'.done (.inr n) = c.done (.inr n)) :
    ThreadOk T c' t th := by
  obtain ⟨pc, fs⟩ := th
  obtain ⟨hpc, hbelow⟩ := h
  have hx := hown _ (Own.party t ⟨pc, fs⟩)
  simp only at hpc hbelow hx
  have hrel : ∀ b, OnPath T t b fs → Leads ⟨pc, fs⟩ b → Released T c b → Released T c' b := by
    intro b hb hl hr p hp
    have h1 := hr p hp
    have h2 := hown (.inr b) (.inr ⟨b, rfl, hl⟩)
    have h3 := hup (.inr b) p (.inr ⟨b, rfl, hl⟩) (sub_parent hb.sub hp) h1.1 h1.2
    simp only [Arrived, h2.1, h2.2, h3]
    exact h1
  have hinl : fs = [] → c'.arrived (.inl t) = c.arrived (.inl t) ∧
      c'.done (.inl t) = c.done (.inl t) := by
    intro h
    subst h
    exact hx
  refine ⟨?_, ?_⟩
  · cases pc with
    | out =>
        obtain ⟨h1, h2⟩ := hpc
        refine ⟨h1, ?_⟩
        simp only [Idle, (hinl h1).1, (hinl h1).2]
        exact h2
    | readSeq b inc => simpa only [PcOk, Idle, hx.1, hx.2] using hpc
    | addWaiting b inc curSeq => simpa only [PcOk, Idle, hx.1, hx.2] using hpc
    | spin b curSeq => simpa only [PcOk, Arrived, hx.1, hx.2] using hpc
    | futexWait b curSeq => simpa only [PcOk, Arrived, hx.1, hx.2] using hpc
    | asleep b curSeq => simpa only [PcOk, Arrived, hx.1, hx.2] using hpc
    | loadSeq b =>
        obtain ⟨h1, h2, h3⟩ := hpc
        refine ⟨h1, ?_, hrel b h1 (.inr (.inl rfl)) h3⟩
        simpa only [Arrived, hx.1, hx.2] using h2
    | storeReset b v =>
        obtain ⟨h1, h2, h3, h4⟩ := hpc
        have hl : Leads ⟨.storeReset b v, fs⟩ b := .inr (.inr ⟨v, rfl⟩)
        refine ⟨h1, ?_, hrel b h1 hl h3, ?_⟩
        · simpa only [Arrived, hx.1, hx.2] using h2
        · rw [(hown (.inr b) (.inr ⟨b, rfl, hl⟩)).2]
          exact h4
    | futexWake b =>
        obtain ⟨h1, h2, h3, h4⟩ := hpc
        have h5 := hup (.inl t) b (.inl (mem_standsFor.mpr (.inl rfl))) h2 h3 h4
        refine ⟨h1, h2, ?_, ?_⟩
        · simpa only [Arrived, (hinl h1).1, (hinl h1).2] using h3
        · rw [h5, (hinl h1).2]
          exact h4
    | ret v =>
        obtain ⟨h1, h2, h3⟩ := hpc
        have h5 := hup (.inl t) (T.home t) (.inl (mem_standsFor.mpr (.inl rfl))) rfl h2 h3
        refine ⟨h1, ?_, ?_⟩
        · simpa only [Arrived, (hinl h1).1, (hinl h1).2] using h2
        · rw [h5, (hinl h1).2]
          exact h3
  · intro y hy
    have h1 := hown y (.inl (List.mem_of_mem_tail hy))
    simp only [Arrived, h1.1, h1.2]
    exact hbelow y hy

end Reeact.Barrier
