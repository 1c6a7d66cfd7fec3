import Reeact.Utils.TopologyConf
import Mathlib.Data.Finset.Card
import Mathlib.Data.Finset.Image
import Mathlib.Data.List.TakeWhile

/-!
# reeact_topology — the SMT marking loop

What the marking loop of `reeact_get_topo_sysfs` leaves in `ctx_ids`, whatever
the sibling lists say (`wp_marking`): it goes through the contexts in
ascending order, skips those an earlier core has listed, and a context that is
gone through is a core until a later core lists it. Where the lists are the
groups of a partition, the cores are the smallest ids of the groups
(`smt_marking`).
-/

namespace Reeact.Topo

open Exits

/-! ## Reading a list -/

/-- What can be wrong with the system, for a check to find. -/
inductive Flaw where
  /-- a file that is not there, or one too many, or with a line in error -/
  | unreadable
  /-- a file without a line -/
  | noLine
  /-- an array without room for what the files say -/
  | outOfRange
  /-- no memory for `cores` -/
  | noMemory
  /-- a package id of `INT_MAX` -/
  | overflow
deriving DecidableEq, Repr

/-- How the code is left there. -/
def Flaw.exit : Flaw → Exit
  | .unreadable => .ret 2
  | .noLine => .badFormat
  | .outOfRange => .outOfBounds
  | .noMemory => .ret 3
  | .overflow => .overflow

/-- The values of the first line of `f`; none if it is not there, or cannot be
read or parsed. -/
def System.values (sys : System) (f : File) : Option (List Int) := do
  let content ← sys.file f
  let line ← (lines content).head?
  sys.parse (buffer line)

/-- They, or nothing. -/
def System.listOf (sys : System) (f : File) : List Int := (sys.values f).getD []

/-- What is wrong with reading `f` while `k` files are open. -/
def System.readFault (sys : System) (k : ℕ) (f : File) : Option Flaw :=
  if sys.fds ≤ k then some .unreadable
  else match sys.file f with
    | none => some .unreadable
    | some content =>
        match (lines content).head? with
        | none => some .noLine
        | some line => if (sys.parse (buffer line)).isNone then some .unreadable else none

/-- What `parse_value_list_expand` promises of a list of ids: on success there
is at least one value, and none is negative. -/
def System.ParsesIds (sys : System) : Prop :=
  ∀ cs vs, sys.parse cs = some vs → vs ≠ [] ∧ ∀ v ∈ vs, 0 ≤ v

section Reading

variable {sys : System} {f : File} {k : ℕ} {Q : List Int → State → Prop}
  {E : Exit → State → Prop} {t : State}

theorem System.readFault_eq_none :
    sys.readFault k f = none ↔ k < sys.fds ∧ sys.values f ≠ none := by
  unfold readFault values
  by_cases hk : sys.fds ≤ k
  · simp [hk]
  · cases hfile : sys.file f with
    | none => simp [hk]
    | some content =>
        cases hl : (lines content).head? with
        | none => simp [hk, hl]
        | some line => simp [hk, hl, Nat.lt_of_not_le hk]

theorem System.values_of_readFault (h : sys.readFault k f = none) :
    sys.values f = some (sys.listOf f) := by
  obtain ⟨vs, hvs⟩ := Option.ne_none_iff_exists'.mp (readFault_eq_none.mp h).2
  rw [listOf, hvs, Option.getD_some]

/-- Reading a list is a check, and opens a file. -/
theorem wp_readList
    (hQ : sys.readFault t.opened f = none → Q (sys.listOf f) { t with opened := t.opened + 1 })
    (hE : ∀ flaw t', sys.readFault t.opened f = some flaw →
      t'.toProcessorTopo = t.toProcessorTopo → E flaw.exit t') :
    wp (readList sys f) Q E t := by
  unfold readList
  rw [wp_bind, wp_get]
  by_cases hk : sys.fds ≤ t.opened
  · rw [if_pos hk]
    exact hE .unreadable t (by rw [System.readFault, if_pos hk]) rfl
  · rw [if_neg hk]
    have hfault : sys.readFault t.opened f = _ := if_neg hk
    cases hfile : sys.file f with
    | none => exact hE .unreadable t (by simpa only [hfile] using hfault) rfl
    | some content =>
        simp only [hfile] at hfault
        cases hl : (lines content).head? with
        | none =>
            simp only [hl, wp_bind, wp_modify, wp_throw] at hfault ⊢
            exact hE .noLine _ hfault rfl
        | some line =>
            simp only [hl, wp_bind, wp_modify] at hfault ⊢
            cases hp : sys.parse (buffer line) with
            | none =>
                rw [hp] at hfault
                exact hE .unreadable _ hfault rfl
            | some vs =>
                rw [hp] at hfault
                have hlist : sys.listOf f = vs := by
                  simp [System.listOf, System.values, hfile, hl, hp]
                have hok := hQ hfault
                rw [hlist] at hok
                exact hok

theorem System.ParsesIds.values (h : sys.ParsesIds) {vs : List Int}
    (hv : sys.values f = some vs) : vs ≠ [] ∧ ∀ v ∈ vs, 0 ≤ v := by
  simp only [System.values, Option.bind_eq_bind, Option.bind_eq_some_iff] at hv
  obtain ⟨content, -, line, -, hp⟩ := hv
  exact h _ _ hp

end Reading

/-! ## The marks -/

/-- The contexts below `i` that have been gone through: those no earlier one
of them lists. -/
def coresBelow (sib : ℕ → List Int) : ℕ → List ℕ
  | 0 => []
  | i + 1 =>
      if ∃ k ∈ coresBelow sib i, (i : Int) ∈ sib k then coresBelow sib i
      else coresBelow sib i ++ [i]

/-- What is in `ctx_ids[j]` once the contexts below `i` are done; `ids` is what
was there before. -/
def mark (sib : ℕ → List Int) (ids : List Int) (i j : ℕ) : Int :=
  if ∃ k ∈ coresBelow sib i, k ≠ j ∧ (j : Int) ∈ sib k then -2
  else if j ∈ coresBelow sib i then -1
  else ids.getD j 0

/-- `ctx_ids` after the contexts below `i`. -/
structure Marked (sib : ℕ → List Int) (ids : List Int) (i : ℕ) (a : IntArray) : Prop where
  len : a.len = ids.length
  val : ∀ j < ids.length, a.val j = mark sib ids i j
  /-- a core that no other lists has been stored to once, to mark it -/
  once : ∀ j < ids.length, (∀ k ∈ coresBelow sib i, k ≠ j → (j : Int) ∉ sib k) →
    a.stores j = if j ∈ coresBelow sib i then 1 else 0

/-- The inner loop, on one context. -/
def unmark (i : ℕ) (a : IntArray) (c : Int) : IntArray :=
  if c ≠ i then a.put c.toNat (-2) else a

section Marks

variable {sib : ℕ → List Int} {ids cs : List Int} {i j : ℕ} {a : IntArray}

theorem lt_of_mem_coresBelow {k : ℕ} (h : k ∈ coresBelow sib i) : k < i := by
  induction i with
  | zero => exact absurd h List.not_mem_nil
  | succ i ih =>
      rw [coresBelow] at h
      split at h
      · exact Nat.lt_succ_of_lt (ih h)
      · rcases List.mem_append.mp h with h | h
        · exact Nat.lt_succ_of_lt (ih h)
        · rw [List.mem_singleton.mp h]
          exact Nat.lt_succ_self i

theorem coresBelow_skip (h : ∃ k ∈ coresBelow sib i, (i : Int) ∈ sib k) :
    coresBelow sib (i + 1) = coresBelow sib i := if_pos h

theorem coresBelow_core (h : ¬ ∃ k ∈ coresBelow sib i, (i : Int) ∈ sib k) :
    coresBelow sib (i + 1) = coresBelow sib i ++ [i] := if_neg h

/-- The sentinel tells which contexts have been listed. -/
theorem mark_self (hids : ∀ v ∈ ids, 0 ≤ v) :
    mark sib ids i i = -2 ↔ ∃ k ∈ coresBelow sib i, (i : Int) ∈ sib k := by
  have hne : ∀ k ∈ coresBelow sib i, k ≠ i := fun k hk => Nat.ne_of_lt (lt_of_mem_coresBelow hk)
  have hnot : i ∉ coresBelow sib i := fun h => hne i h rfl
  have hget : ids.getD i 0 ≠ -2 := by
    rw [List.getD_eq_getElem?_getD]
    cases hg : ids[i]? with
    | none => simp
    | some v =>
        have hv := hids v (List.mem_of_getElem? hg)
        simp only [Option.getD_some]
        omega
  unfold mark
  by_cases h : ∃ k ∈ coresBelow sib i, (i : Int) ∈ sib k
  · obtain ⟨k, hk, hik⟩ := h
    rw [if_pos ⟨k, hk, hne k hk, hik⟩]
    exact ⟨fun _ => ⟨k, hk, hik⟩, fun _ => rfl⟩
  · rw [if_neg (fun ⟨k, hk, _, hik⟩ => h ⟨k, hk, hik⟩), if_neg hnot]
    exact ⟨fun e => absurd e hget, fun he => absurd he h⟩

@[simp] theorem foldl_unmark_len : (cs.foldl (unmark i) a).len = a.len := by
  induction cs generalizing a with
  | nil => rfl
  | cons c cs ih =>
      rw [List.foldl_cons, ih, unmark]
      split <;> rfl

theorem foldl_unmark_of_not_mem (h : ∀ c ∈ cs, c = i ∨ c.toNat ≠ j) :
    (cs.foldl (unmark i) a).val j = a.val j ∧ (cs.foldl (unmark i) a).stores j = a.stores j := by
  induction cs generalizing a with
  | nil => exact ⟨rfl, rfl⟩
  | cons c cs ih =>
      rw [List.foldl_cons]
      obtain ⟨hv, hs⟩ := ih (a := unmark i a c) (fun c' hc' => h c' (List.mem_cons_of_mem _ hc'))
      rw [hv, hs, unmark]
      split
      · rename_i hci
        have hne : j ≠ c.toNat :=
          Ne.symm ((h c List.mem_cons_self).resolve_left hci)
        exact ⟨a.put_val_ne _ hne, a.put_stores_ne _ hne⟩
      · exact ⟨rfl, rfl⟩

theorem foldl_unmark_of_mem (h : ∃ c ∈ cs, c ≠ i ∧ c.toNat = j) :
    (cs.foldl (unmark i) a).val j = -2 := by
  induction cs using List.reverseRecOn with
  | nil => simp at h
  | append_singleton cs c ih =>
      rw [List.foldl_append, List.foldl_cons, List.foldl_nil, unmark]
      by_cases hc : c ≠ i ∧ c.toNat = j
      · rw [if_pos hc.1, ← hc.2, IntArray.put_val]
      · have hrest : ∃ c' ∈ cs, c' ≠ i ∧ c'.toNat = j := by
          obtain ⟨c', hc', hp⟩ := h
          rcases List.mem_append.mp hc' with hc' | hc'
          · exact ⟨c', hc', hp⟩
          · rw [List.mem_singleton.mp hc'] at hp
            exact absurd hp hc
        split
        · rename_i hci
          rw [IntArray.put_val_ne _ _ (fun e => hc ⟨hci, e.symm⟩)]
          exact ih hrest
        · exact ih hrest

theorem Marked.init : Marked sib ids 0 (IntArray.ofList ids) where
  len := rfl
  val j _ := by
    rw [mark, coresBelow]
    simp [IntArray.ofList]
  once j _ _ := by simp [coresBelow, IntArray.ofList]

theorem Marked.skip (h : Marked sib ids i a) (hl : ∃ k ∈ coresBelow sib i, (i : Int) ∈ sib k) :
    Marked sib ids (i + 1) a := by
  constructor
  · exact h.len
  · unfold mark
    rw [coresBelow_skip hl]
    exact h.val
  · rw [coresBelow_skip hl]
    exact h.once

/-- A context that nobody has listed is marked, and those it lists unmarked. -/
theorem Marked.core (h : Marked sib ids i a) (hsib : ∀ c ∈ sib i, 0 ≤ c)
    (hl : ¬ ∃ k ∈ coresBelow sib i, (i : Int) ∈ sib k) :
    Marked sib ids (i + 1) ((sib i).foldl (unmark i) (a.put i (-1))) := by
  have hcast : ∀ c ∈ sib i, ∀ j : ℕ, c.toNat = j ↔ c = j := by
    intro c hc j
    have := hsib c hc
    omega
  have hout : ∀ j : ℕ, (j ≠ i → (j : Int) ∉ sib i) → ∀ c ∈ sib i, c = i ∨ c.toNat ≠ j := by
    intro j hj c hc
    by_cases hci : c = i
    · exact .inl hci
    · right
      rw [Ne, hcast c hc]
      rintro rfl
      exact hj (fun e => hci (by rw [e])) hc
  constructor
  · rw [foldl_unmark_len, IntArray.put_len, h.len]
  · intro j hj
    unfold mark
    rw [coresBelow_core hl]
    by_cases hji : j = i
    · -- the core itself: nobody before has listed it
      subst hji
      rw [(foldl_unmark_of_not_mem (hout j (fun e => absurd rfl e))).1, IntArray.put_val, if_neg,
        if_pos (List.mem_append_right _ List.mem_cons_self)]
      rintro ⟨k, hk, hkj, hjk⟩
      rcases List.mem_append.mp hk with hk | hk
      · exact hl ⟨k, hk, hjk⟩
      · exact hkj (List.mem_singleton.mp hk)
    · by_cases hmem : (j : Int) ∈ sib i
      · have hci : (j : Int) ≠ i := fun e => hji (by omega)
        rw [foldl_unmark_of_mem ⟨j, hmem, hci, Int.toNat_natCast j⟩, if_pos]
        exact ⟨i, List.mem_append_right _ List.mem_cons_self, Ne.symm hji, hmem⟩
      · rw [(foldl_unmark_of_not_mem (hout j (fun _ => hmem))).1, IntArray.put_val_ne _ _ hji,
          h.val j hj]
        have hiff : (∃ k ∈ coresBelow sib i ++ [i], k ≠ j ∧ (j : Int) ∈ sib k) ↔
            ∃ k ∈ coresBelow sib i, k ≠ j ∧ (j : Int) ∈ sib k := by
          simp only [List.mem_append, List.mem_singleton, or_and_right, exists_or,
            exists_eq_left, hmem, and_false, or_false]
        have hcore : j ∈ coresBelow sib i ++ [i] ↔ j ∈ coresBelow sib i := by
          simp only [List.mem_append, List.mem_singleton, hji, or_false]
        simp only [mark, hiff, hcore]
  · intro j hj hno
    rw [coresBelow_core hl] at hno ⊢
    have hnot : j ≠ i → (j : Int) ∉ sib i :=
      fun hji => hno i (List.mem_append_right _ List.mem_cons_self) (Ne.symm hji)
    rw [(foldl_unmark_of_not_mem (hout j hnot)).2]
    have hbefore := h.once j hj (fun k hk => hno k (List.mem_append_left _ hk))
    by_cases hji : j = i
    · subst hji
      have hfresh : j ∉ coresBelow sib j :=
        fun hk => Nat.lt_irrefl j (lt_of_mem_coresBelow hk)
      rw [IntArray.put_stores, hbefore, if_neg hfresh,
        if_pos (List.mem_append_right _ List.mem_cons_self)]
    · rw [IntArray.put_stores_ne _ _ hji, hbefore]
      simp only [List.mem_append, List.mem_singleton, hji, or_false]

end Marks

/-! ## The loop -/

/-- The contexts `cpu` lists as its siblings. -/
def System.siblings (sys : System) (cpu : ℕ) : List Int := sys.listOf (.threadSiblings cpu)

/-- What stops the loop over `ctxCnt` contexts at context `i`, where `k` files
were open before the loop: its siblings cannot be read, or one of them is not
among the contexts. -/
def System.markFault (sys : System) (k ctxCnt i : ℕ) : Option Flaw :=
  if ∃ k ∈ coresBelow sys.siblings i, (i : Int) ∈ sys.siblings k then none
  else (sys.readFault (k + (coresBelow sys.siblings i).length) (.threadSiblings i)).or
    (if ∀ c ∈ sys.siblings i, c < ctxCnt then none else some .outOfRange)

section Loop

variable {sys : System} {ids : List Int} {i k : ℕ} {t : State}

/-- The siblings of a core are unmarked, until one is out of bounds. -/
theorem wp_unmark {a : IntArray} {cs : List Int} {n i : ℕ} (hlen : a.len = n)
    (hcs : ∀ c ∈ cs, 0 ≤ c) (hi : i < n) :
    wp (cs.foldlM (fun ctxIds c => if c ≠ (i : Int) then ctxIds.store c (-2) else pure ctxIds) a)
      (fun a' t' => t' = t ∧ a' = cs.foldl (unmark i) a ∧ ∀ c ∈ cs, c < n)
      (fun e t' => t' = t ∧ e = .outOfBounds ∧ ¬ ∀ c ∈ cs, c < n) t := by
  apply wp_foldlM (fun pre a' t' => t' = t ∧ a' = pre.foldl (unmark i) a ∧ ∀ c ∈ pre, c < n)
  · rintro pre c post a' t' hcseq ⟨rfl, rfl, hpre⟩
    have hc : c ∈ cs := by
      rw [hcseq]
      exact List.mem_append_right _ List.mem_cons_self
    have hstep : (pre ++ [c]).foldl (unmark i) a = unmark i (pre.foldl (unmark i) a) c := by
      rw [List.foldl_append, List.foldl_cons, List.foldl_nil]
    have hlen' : (pre.foldl (unmark i) a).len = n := by rw [foldl_unmark_len, hlen]
    have hall : c < n → ∀ c' ∈ pre ++ [c], c' < n := by
      intro hlt c' hc'
      rcases List.mem_append.mp hc' with hc' | hc'
      · exact hpre c' hc'
      · rw [List.mem_singleton.mp hc']
        exact hlt
    rw [hstep, unmark]
    by_cases hci : c ≠ (i : Int)
    · rw [if_pos hci, if_pos hci]
      by_cases hlt : c < n
      · exact IntArray.wp_store ⟨hcs c hc, by rw [hlen']; exact hlt⟩ ⟨rfl, rfl, hall hlt⟩
      · exact IntArray.wp_store_out (by rw [hlen']; exact hlt) ⟨rfl, rfl, fun h => hlt (h c hc)⟩
    · rw [if_neg hci, if_neg hci]
      refine ⟨rfl, rfl, hall ?_⟩
      rw [not_not.mp hci]
      exact Int.ofNat_lt.mpr hi
  · exact ⟨rfl, rfl, fun c hc => absurd hc List.not_mem_nil⟩

/-- **One turn of the marking loop.** -/
theorem wp_markContext (hids : ∀ v ∈ ids, 0 ≤ v) (hsib : ∀ c ∈ sys.siblings i, 0 ≤ c)
    (hi : i < ids.length) {acc : IntArray × ℕ} (hm : Marked sys.siblings ids i acc.1)
    (hcnt : acc.2 = (coresBelow sys.siblings i).length) (hopened : t.opened = k + acc.2) :
    wp (markContext sys acc i)
      (fun acc' t' => sys.markFault k ids.length i = none ∧
        t' = { t with opened := k + acc'.2 } ∧ Marked sys.siblings ids (i + 1) acc'.1 ∧
        acc'.2 = (coresBelow sys.siblings (i + 1)).length)
      (fun e t' => (sys.markFault k ids.length i).map Flaw.exit = some e ∧
        t'.toProcessorTopo = t.toProcessorTopo) t := by
  unfold markContext
  rw [wp_bind]
  apply IntArray.wp_load_nat (by rw [hm.len]; exact hi)
  rw [hm.val i hi]
  by_cases hl : ∃ k ∈ coresBelow sys.siblings i, (i : Int) ∈ sys.siblings k
  · rw [if_pos ((mark_self hids).mpr hl)]
    exact ⟨if_pos hl, by rw [← hopened], hm.skip hl, by rw [coresBelow_skip hl]; exact hcnt⟩
  · have hfault : sys.markFault k ids.length i =
        (sys.readFault t.opened (.threadSiblings i)).or
          (if ∀ c ∈ sys.siblings i, c < ids.length then none else some .outOfRange) := by
      rw [hopened, hcnt]
      exact if_neg hl
    rw [if_neg (fun e => hl ((mark_self hids).mp e)), wp_bind]
    apply wp_readList
    · intro hread
      rw [hread, Option.none_or] at hfault
      rw [wp_bind]
      apply IntArray.wp_store_nat (by rw [hm.len]; exact hi)
      rw [wp_bind]
      apply wp_mono (wp_unmark (by rw [IntArray.put_len, hm.len]) hsib hi)
      · rintro a t' ⟨rfl, rfl, hall⟩
        refine ⟨?_, by rw [hopened]; rfl, hm.core hsib hl, ?_⟩
        · rw [hfault, if_pos hall]
        · rw [coresBelow_core hl, List.length_append, List.length_singleton, hcnt]
      · rintro e t' ⟨rfl, rfl, hout⟩
        exact ⟨by rw [hfault, if_neg hout]; rfl, rfl⟩
    · intro flaw t' hread hsame
      exact ⟨by rw [hfault, hread]; rfl, hsame⟩

/-- **The marking loop**, on any system. -/
theorem wp_marking (hids : ∀ v ∈ ids, 0 ≤ v)
    (hsib : ∀ i < ids.length, ∀ c ∈ sys.siblings i, 0 ≤ c) :
    wp ((List.range ids.length).foldlM (markContext sys) (IntArray.ofList ids, 0))
      (fun acc t' => firstFault (sys.markFault t.opened ids.length) ids.length = none ∧
        t' = { t with opened := t.opened + acc.2 } ∧ Marked sys.siblings ids ids.length acc.1 ∧
        acc.2 = (coresBelow sys.siblings ids.length).length)
      (fun e t' => (firstFault (sys.markFault t.opened ids.length) ids.length).map Flaw.exit =
        some e ∧ t'.toProcessorTopo = t.toProcessorTopo) t := by
  apply wp_range_checks (fun i (acc : IntArray × ℕ) (t' : State) =>
    t' = { t with opened := t.opened + acc.2 } ∧ Marked sys.siblings ids i acc.1 ∧
      acc.2 = (coresBelow sys.siblings i).length)
    (fun (t' : State) => t'.toProcessorTopo = t.toProcessorTopo)
  · rintro i acc _ hi ⟨rfl, hm, hcnt⟩
    exact wp_markContext hids (hsib i hi) hi hm hcnt rfl
  · exact ⟨rfl, .init, rfl⟩

end Loop

/-! ## Sibling groups -/

/-- The first line of `f` is a text that `parse_value_list_expand` expands to
the values `vs`. -/
def System.Lists (sys : System) (f : File) (vs : List ℕ) : Prop :=
  ∃ text rest, sys.file f = some (text ++ '\n' :: rest) ∧ '\n' ∉ text ∧ '\x00' ∉ text ∧
    sys.parse text = some (vs.map Int.ofNat)

/-- Each of the cpus `0`, .., `cpuCnt - 1` lists its sibling group, in any
order: those with the same `core`. -/
def System.Siblings (sys : System) (cpuCnt : ℕ) (core : ℕ → ℕ) : Prop :=
  ∀ i < cpuCnt, ∃ vs, sys.Lists (.threadSiblings i) vs ∧
    ∀ j, j ∈ vs ↔ j < cpuCnt ∧ core j = core i

/-- `i` is the smallest id of its sibling group. -/
abbrev IsFirst (core : ℕ → ℕ) (i : ℕ) : Prop := ∀ j < i, core j ≠ core i

section Groups

variable {sys : System} {f : File} {vs : List ℕ} {cpuCnt i : ℕ} {core : ℕ → ℕ}

theorem buffer_text {text : List Char} (h : '\x00' ∉ text) : buffer (text ++ ['\n']) = text := by
  rw [buffer_newline, List.takeWhile_eq_self_iff]
  intro c hc
  rw [decide_eq_true_eq]
  exact fun e => h (e ▸ hc)

theorem System.Lists.values (h : sys.Lists f vs) : sys.values f = some (vs.map Int.ofNat) := by
  obtain ⟨text, rest, hfile, hline, hnul, hparse⟩ := h
  simp only [System.values, hfile, Option.bind_eq_bind, Option.bind_some, lines_append hline rest,
    List.head?_cons, buffer_text hnul, hparse]

theorem System.Lists.listOf (h : sys.Lists f vs) : sys.listOf f = vs.map Int.ofNat := by
  rw [System.listOf, h.values, Option.getD_some]

theorem System.Lists.readFault (h : sys.Lists f vs) {k : ℕ} (hk : k < sys.fds) :
    sys.readFault k f = none := by
  rw [System.readFault_eq_none, h.values]
  exact ⟨hk, Option.some_ne_none _⟩

/-- A file with a list can only be one too many. -/
theorem System.Lists.unreadable (h : sys.Lists f vs) {k : ℕ} {flaw : Flaw}
    (hflaw : sys.readFault k f = some flaw) : flaw = .unreadable := by
  by_cases hk : k < sys.fds
  · rw [h.readFault hk] at hflaw
    cases hflaw
  · rw [System.readFault, if_pos (Nat.not_lt.mp hk)] at hflaw
    exact (Option.some.inj hflaw).symm

theorem natCast_mem_map {j : ℕ} : (j : Int) ∈ vs.map Int.ofNat ↔ j ∈ vs := by
  simp only [List.mem_map, Int.ofNat_eq_natCast, Int.natCast_inj, exists_eq_right]

theorem System.Siblings.mem_iff (h : sys.Siblings cpuCnt core) (hi : i < cpuCnt) {j : ℕ} :
    (j : Int) ∈ sys.siblings i ↔ j < cpuCnt ∧ core j = core i := by
  obtain ⟨vs, hvs, hmem⟩ := h i hi
  rw [System.siblings, hvs.listOf, natCast_mem_map, hmem]

theorem exists_isFirst (core : ℕ → ℕ) (i : ℕ) : ∃ k ≤ i, core k = core i ∧ IsFirst core k := by
  induction i using Nat.strongRecOn with
  | ind i ih =>
      by_cases h : IsFirst core i
      · exact ⟨i, Nat.le_refl i, rfl, h⟩
      · simp only [IsFirst, not_forall, not_not] at h
        obtain ⟨j, hj, hcore⟩ := h
        obtain ⟨k, hk, hkj, hfirst⟩ := ih j hj
        exact ⟨k, by omega, hkj.trans hcore, hfirst⟩

/-- The contexts gone through are the first ones of their groups. -/
theorem System.Siblings.coresBelow_eq (h : sys.Siblings cpuCnt core) (hi : i ≤ cpuCnt) :
    coresBelow sys.siblings i = (List.range i).filter (fun j => IsFirst core j) := by
  induction i with
  | zero => rfl
  | succ i ih =>
      have ih' := ih (by omega)
      rw [List.range_succ, List.filter_append, coresBelow, ih']
      have hiff : (∃ k ∈ (List.range i).filter (fun j => IsFirst core j),
          (i : Int) ∈ sys.siblings k) ↔ ¬ IsFirst core i := by
        constructor
        · rintro ⟨k, hk, hik⟩ hfirst
          rw [List.mem_filter, List.mem_range] at hk
          rw [h.mem_iff (by omega)] at hik
          exact hfirst k hk.1 hik.2.symm
        · intro hnot
          obtain ⟨k, hk, hki, hfirst⟩ := exists_isFirst core i
          have hne : k ≠ i := fun e => hnot (e ▸ hfirst)
          refine ⟨k, ?_, (h.mem_iff (by omega)).mpr ⟨by omega, hki.symm⟩⟩
          rw [List.mem_filter, List.mem_range]
          exact ⟨by omega, by simpa using hfirst⟩
      by_cases hfirst : IsFirst core i
      · rw [if_neg (fun he => hiff.mp he hfirst), List.filter_cons_of_pos (by simpa using hfirst),
          List.filter_nil]
      · rw [if_pos (hiff.mpr hfirst), List.filter_cons_of_neg (by simpa using hfirst),
          List.filter_nil, List.append_nil]

/-- There are as many first ones as groups. -/
theorem length_firsts (core : ℕ → ℕ) (n : ℕ) :
    ((List.range n).filter (fun j => IsFirst core j)).length =
      ((Finset.range n).image core).card := by
  induction n with
  | zero => rfl
  | succ n ih =>
      rw [List.range_succ, List.filter_append, List.length_append, ih, Finset.range_add_one,
        Finset.image_insert]
      by_cases hfirst : IsFirst core n
      · have hnew : core n ∉ (Finset.range n).image core := by
          simp only [Finset.mem_image, Finset.mem_range, not_exists, not_and]
          exact hfirst
        rw [Finset.card_insert_of_notMem hnew, List.filter_cons_of_pos (by simpa using hfirst)]
        rfl
      · have hold : core n ∈ (Finset.range n).image core := by
          simp only [IsFirst, not_forall, not_not] at hfirst
          obtain ⟨j, hj, hcore⟩ := hfirst
          exact Finset.mem_image.mpr ⟨j, Finset.mem_range.mpr hj, hcore⟩
        rw [Finset.insert_eq_of_mem hold, List.filter_cons_of_neg (by simpa using hfirst)]
        rfl

/-- What is marked in the end. -/
theorem System.Siblings.mark_eq (h : sys.Siblings cpuCnt core) (ids : List Int)
    (hi : i < cpuCnt) :
    mark sys.siblings ids cpuCnt i = if IsFirst core i then -1 else -2 := by
  have hcores := h.coresBelow_eq (Nat.le_refl cpuCnt)
  have hmem : ∀ k, k ∈ coresBelow sys.siblings cpuCnt ↔ k < cpuCnt ∧ IsFirst core k := by
    intro k
    rw [hcores, List.mem_filter, List.mem_range, decide_eq_true_eq]
  unfold mark
  by_cases hfirst : IsFirst core i
  · rw [if_pos hfirst, if_neg, if_pos ((hmem i).mpr ⟨hi, hfirst⟩)]
    rintro ⟨k, hk, hki, hik⟩
    obtain ⟨hlt, hkfirst⟩ := (hmem k).mp hk
    have hcore := ((h.mem_iff hlt).mp hik).2
    -- two first ones of one group are the same
    rcases Nat.lt_or_gt_of_ne hki with hlt' | hgt
    · exact hfirst k hlt' hcore.symm
    · exact hkfirst i hgt hcore
  · rw [if_neg hfirst, if_pos]
    obtain ⟨k, hk, hki, hkfirst⟩ := exists_isFirst core i
    have hne : k ≠ i := fun e => hfirst (e ▸ hkfirst)
    exact ⟨k, (hmem k).mpr ⟨by omega, hkfirst⟩, hne, (h.mem_iff (by omega)).mpr ⟨hi, hki.symm⟩⟩

/-- One list is read for each group. -/
theorem System.Siblings.length_coresBelow (h : sys.Siblings cpuCnt core) :
    (coresBelow sys.siblings cpuCnt).length = ((Finset.range cpuCnt).image core).card := by
  rw [h.coresBelow_eq (Nat.le_refl cpuCnt), length_firsts]

/-- The context gone through is one more core. -/
theorem length_coresBelow_lt {sib : ℕ → List Int} {n : ℕ} (hi : i < n)
    (hl : ¬ ∃ k ∈ coresBelow sib i, (i : Int) ∈ sib k) :
    (coresBelow sib i).length < (coresBelow sib n).length := by
  have hmono : ∀ j, (coresBelow sib (i + 1)).length ≤ (coresBelow sib (i + 1 + j)).length := by
    intro j
    induction j with
    | zero => exact Nat.le_refl _
    | succ j ih =>
        refine Nat.le_trans ih ?_
        rw [← Nat.add_assoc, coresBelow]
        split
        · exact Nat.le_refl _
        · rw [List.length_append]
          exact Nat.le_add_right ..
  have hstep := hmono (n - (i + 1))
  rw [coresBelow_core hl, List.length_append, List.length_singleton,
    Nat.add_sub_cancel' hi] at hstep
  exact hstep

/-- No id is out of range. -/
theorem System.Siblings.markFault_eq (h : sys.Siblings cpuCnt core) {k : ℕ} (hi : i < cpuCnt) :
    sys.markFault k cpuCnt i =
      if ∃ j ∈ coresBelow sys.siblings i, (i : Int) ∈ sys.siblings j then none
      else sys.readFault (k + (coresBelow sys.siblings i).length) (.threadSiblings i) := by
  obtain ⟨vs, hvs, hmem⟩ := h i hi
  have hlt : ∀ c ∈ sys.siblings i, c < cpuCnt := by
    intro c hc
    rw [System.siblings, hvs.listOf, List.mem_map] at hc
    obtain ⟨j, hj, rfl⟩ := hc
    exact Int.ofNat_lt.mpr ((hmem j).mp hj).1
  rw [System.markFault, if_pos hlt, Option.or_none]

/-- No turn of the loop fails, if so many files can be opened. -/
theorem System.Siblings.markFault_eq_none (h : sys.Siblings cpuCnt core) {k : ℕ}
    (hfits : k + (coresBelow sys.siblings cpuCnt).length ≤ sys.fds) (hi : i < cpuCnt) :
    sys.markFault k cpuCnt i = none := by
  obtain ⟨vs, hvs, -⟩ := h i hi
  rw [h.markFault_eq hi]
  split
  · rfl
  · rename_i hl
    have hlt := length_coresBelow_lt hi hl
    exact hvs.readFault (by omega)

end Groups

/-- **The marking loop picks one context of each physical core**: the smallest
id of each sibling group, however the ids are spread over the groups. Such an
entry is stored to once only, to mark it. The loop opens a file for each core,
and ends if so many can be opened. -/
theorem smt_marking (sys : System) (cpuCnt : ℕ) (core : ℕ → ℕ) (h : sys.Siblings cpuCnt core)
    (t : State) :
    (∀ ctxIds totalCoreCnt t',
      (List.range cpuCnt).foldlM (markContext sys)
        (IntArray.ofList ((List.range cpuCnt).map Int.ofNat), 0) t =
          .ok (ctxIds, totalCoreCnt) t' →
      (∀ i < cpuCnt, ctxIds.val i = if IsFirst core i then -1 else -2) ∧
      (∀ i < cpuCnt, ctxIds.val i = -1 → ctxIds.stores i = 1) ∧
      totalCoreCnt = ((Finset.range cpuCnt).image core).card) ∧
    (t.opened + ((Finset.range cpuCnt).image core).card ≤ sys.fds →
      ∃ acc t', (List.range cpuCnt).foldlM (markContext sys)
        (IntArray.ofList ((List.range cpuCnt).map Int.ofNat), 0) t = .ok acc t') := by
  have hlen : ((List.range cpuCnt).map Int.ofNat).length = cpuCnt := by
    rw [List.length_map, List.length_range]
  have hids : ∀ v ∈ (List.range cpuCnt).map Int.ofNat, 0 ≤ v := by
    intro v hv
    obtain ⟨i, -, rfl⟩ := List.mem_map.mp hv
    exact Int.natCast_nonneg i
  have hsib : ∀ i < ((List.range cpuCnt).map Int.ofNat).length, ∀ c ∈ sys.siblings i, 0 ≤ c := by
    intro i hi c hc
    obtain ⟨vs, hvs, -⟩ := h i (hlen ▸ hi)
    rw [System.siblings, hvs.listOf, List.mem_map] at hc
    obtain ⟨j, -, rfl⟩ := hc
    exact Int.natCast_nonneg j
  have hloop := wp_marking (t := t) hids hsib
  rw [hlen] at hloop
  have hcores := h.coresBelow_eq (Nat.le_refl cpuCnt)
  constructor
  · intro ctxIds totalCoreCnt t' hrun
    rw [wp, hrun] at hloop
    obtain ⟨-, -, hm, hcnt⟩ := hloop
    have hval : ∀ i < cpuCnt, ctxIds.val i = if IsFirst core i then -1 else -2 := by
      intro i hi
      rw [hm.val i (hlen.symm ▸ hi), h.mark_eq _ hi]
    refine ⟨hval, ?_, hcnt.trans h.length_coresBelow⟩
    intro i hi hmark
    have hfirst : IsFirst core i := by
      by_contra hnot
      rw [hval i hi, if_neg hnot] at hmark
      cases hmark
    have hmem : i ∈ coresBelow sys.siblings cpuCnt := by
      rw [hcores, List.mem_filter, List.mem_range, decide_eq_true_eq]
      exact ⟨hi, hfirst⟩
    -- the first of its group is in no list gone through but its own
    have hunlisted : ∀ k ∈ coresBelow sys.siblings cpuCnt, k ≠ i → (i : Int) ∉ sys.siblings k := by
      intro k hk hki hik
      have hmark' := h.mark_eq ((List.range cpuCnt).map Int.ofNat) hi
      rw [if_pos hfirst, mark, if_pos ⟨k, hk, hki, hik⟩] at hmark'
      cases hmark'
    have honce := hm.once i (hlen.symm ▸ hi) hunlisted
    rw [if_pos hmem] at honce
    exact honce
  · intro hfits
    rw [← h.length_coresBelow] at hfits
    have hnone : firstFault (sys.markFault t.opened cpuCnt) cpuCnt = none :=
      firstFault_eq_none.mpr (fun i hi => h.markFault_eq_none hfits hi)
    have hrun : wp ((List.range cpuCnt).foldlM (markContext sys)
        (IntArray.ofList ((List.range cpuCnt).map Int.ofNat), 0)) (fun _ _ => True)
        (fun _ _ => False) t := by
      apply wp_mono hloop (fun _ _ _ => trivial)
      intro e t' he
      rw [hnone] at he
      cases he.1
    obtain ⟨acc, t', hok, -⟩ := ok_of_wp hrun
    exact ⟨acc, t', hok⟩

/-- Four cpus on two cores: cpu 2 is the sibling of 0, and 3 that of 1. -/
def offsetSmt : System :=
  { bareSystem with
    file
      | .threadSiblings cpu =>
          some (if cpu % 2 = 0 then ['0', ',', '2', '\n'] else ['1', ',', '3', '\n'])
      | _ => none }

theorem offsetSmt_siblings : offsetSmt.Siblings 4 (· % 2) := by
  intro i hi
  rcases Nat.mod_two_eq_zero_or_one i with h | h
  · have hfile : offsetSmt.file (.threadSiblings i) = some ['0', ',', '2', '\n'] := by
      simp only [offsetSmt]
      rw [if_pos (by omega)]
    refine ⟨[0, 2], ⟨['0', ',', '2'], [], hfile, by decide, by decide, rfl⟩, fun j => ?_⟩
    simp only [List.mem_cons, List.not_mem_nil, or_false]
    omega
  · have hfile : offsetSmt.file (.threadSiblings i) = some ['1', ',', '3', '\n'] := by
      simp only [offsetSmt]
      rw [if_neg (by omega)]
    refine ⟨[1, 3], ⟨['1', ',', '3'], [], hfile, by decide, by decide, rfl⟩, fun j => ?_⟩
    simp only [List.mem_cons, List.not_mem_nil, or_false]
    omega

theorem smt_marking_offset : ∃ ctxIds totalCoreCnt t',
    (List.range 4).foldlM (markContext offsetSmt)
      (IntArray.ofList ((List.range 4).map Int.ofNat), 0) .cleared =
        .ok (ctxIds, totalCoreCnt) t' ∧
    (∀ i < 4, ctxIds.val i = if IsFirst (· % 2) i then -1 else -2) ∧
    (∀ i < 4, ctxIds.val i = -1 → ctxIds.stores i = 1) ∧
    totalCoreCnt = ((Finset.range 4).image (· % 2)).card := by
  have hmarking := smt_marking offsetSmt 4 (· % 2) offsetSmt_siblings .cleared
  obtain ⟨⟨ctxIds, totalCoreCnt⟩, t', hrun⟩ := hmarking.2 (by decide)
  exact ⟨ctxIds, totalCoreCnt, t', hrun, hmarking.1 _ _ _ hrun⟩

end Reeact.Topo
