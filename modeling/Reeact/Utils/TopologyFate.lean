import Reeact.Utils.TopologyMarks

/-!
# reeact_topology — sysfs, on any system

What `reeact_get_topo_sysfs` does whatever the files say
(`wp_reeactGetTopoSysfs`). Each array is what the rows read so far have left in
it, and the run is a row of checks — a file that can be opened and read, ids
that are in range, a row that fits, memory — left at the first one to fail
(`fate`). So it never divides by zero, and stays inside its arrays unless the
first check to fail is one of range (`sysfs_safe`). A run that no check stops
has opened `opens` files, and closed one.
-/

namespace Reeact.Topo

open Exits

/-! ## Rows of an array -/

/-- The values of a row, stored from index `p` on. -/
def IntArray.putRow (a : IntArray) (p : ℕ) : List Int → IntArray
  | [] => a
  | v :: vs => (a.put p v).putRow (p + 1) vs

@[simp] theorem IntArray.putRow_len (a : IntArray) (p : ℕ) (vs : List Int) :
    (a.putRow p vs).len = a.len := by
  induction vs generalizing a p with
  | nil => rfl
  | cons v vs ih => rw [putRow, ih, put_len]

theorem IntArray.putRow_snoc (a : IntArray) (p : ℕ) (vs : List Int) (v : Int) :
    a.putRow p (vs ++ [v]) = (a.putRow p vs).put (p + vs.length) v := by
  induction vs generalizing a p with
  | nil => rfl
  | cons u vs ih =>
      rw [List.cons_append, putRow, ih, putRow, List.length_cons, Nat.add_right_comm p 1,
        Nat.add_assoc p]

/-! ## What the files amount to -/

namespace System

variable (sys : System)

def totalNodes : ℕ := (sys.listOf .onlineNodes).length

def totalCtxs : ℕ := (sys.listOf .onlineCpus).length

def totalCores : ℕ := (coresBelow sys.siblings sys.totalCtxs).length

/-- Cores per node. -/
def coreCnt : ℕ := sys.totalCores / sys.totalNodes

/-- `ctx_ids[v] == -1` -/
def isCore (v : Int) : Bool :=
  mark sys.siblings (sys.listOf .onlineCpus) sys.totalCtxs v.toNat = -1

/-- The cores node `n` lists. -/
def coresOn (n : ℕ) : List Int := (sys.listOf (.cpulist n)).filter sys.isCore

/-- `cores`, once the nodes below `n` are done. -/
def coresArray : ℕ → IntArray
  | 0 => .block sys.totalCores (sys.coresHeap.getD fun _ => 0)
  | n + 1 => (coresArray n).putRow (n * sys.coreCnt) (sys.coresOn n)

/-- The id of the first core on node `n`. -/
def firstCore (n : ℕ) : Int := (sys.coresArray sys.totalNodes).val (n * sys.coreCnt)

/-- The package of node `n`. -/
def package (n : ℕ) : Int := (sys.listOf (.packageId (sys.firstCore n))).getD 0 0

/-- The largest package id of the nodes below `n`. -/
def maxPackage : ℕ → Int
  | 0 => -1
  | n + 1 => max (maxPackage n) (sys.package n)

def socketCnt : ℕ := (sys.maxPackage sys.totalNodes + 1).toNat

/-- Nodes per socket. -/
def nodeCnt : ℕ := sys.totalNodes / sys.socketCnt

/-- The nodes of package `s` below `j`. -/
def nodesBelow (s j : ℕ) : List Int :=
  ((List.range j).filter (fun n => sys.package n = s)).map Int.ofNat

/-- The nodes of package `s`. -/
def nodesOn (s : ℕ) : List Int := sys.nodesBelow s sys.totalNodes

/-- `nodes`, once the sockets below `s` are done. -/
def nodesArray : ℕ → IntArray
  | 0 => .block sys.totalNodes (sys.nodesHeap.getD fun _ => 0)
  | s + 1 => (nodesArray s).putRow (s * sys.nodeCnt) (sys.nodesOn s)

/-- The outputs of a run that meets no failing check. -/
def result : ProcessorTopo :=
  ⟨sys.socketCnt, sys.nodeCnt, sys.coreCnt, some (sys.nodesArray sys.socketCnt),
    some (sys.coresArray sys.totalNodes)⟩

/-- How many files such a run opens: the two lists, one for each core, two for
each node, and for each socket another one for each node. -/
def opens : ℕ :=
  2 + sys.totalCores + 2 * sys.totalNodes + sys.socketCnt * sys.totalNodes

/-- There is memory for both arrays, and `n` files can be opened on top of
`k`. -/
structure Affords (k n : ℕ) : Prop where
  files : k + n ≤ sys.fds
  cores : sys.coresHeap.isSome
  nodes : sys.nodesHeap.isSome

/-! ## The checks

The files that are open before the checks of a loop are counted by `k`. -/

/-- There is memory for `cores`. -/
def coresFault : Option Flaw := if sys.coresHeap.isSome then none else some .noMemory

/-- Node `n` lists cpus beyond the contexts, or more cores than there is room
for after its first. -/
def nodeFault (k n : ℕ) : Option Flaw :=
  (sys.readFault (k + n) (.cpulist n)).or
    (if (∀ v ∈ sys.listOf (.cpulist n), v < sys.totalCtxs) ∧
        n * sys.coreCnt + (sys.coresOn n).length ≤ sys.totalCores then none
      else some .outOfRange)

def packageFault (k n : ℕ) : Option Flaw :=
  sys.readFault (k + n) (.packageId (sys.firstCore n))

/-- The largest package id plus one is an `int`. -/
def countFault : Option Flaw :=
  if sys.maxPackage sys.totalNodes < INT_MAX then none else some .overflow

/-- Node `j` is on package `s`, and there is no memory for `nodes`, or no room
after those of the package before it. -/
def placeFault (k s j : ℕ) : Option Flaw :=
  (sys.packageFault (k + s * sys.totalNodes) j).or
    (if sys.package j = s → sys.nodesHeap.isSome ∧
        s * sys.nodeCnt + (sys.nodesBelow s j).length < sys.totalNodes then none
      else some .outOfRange)

def socketFault (k s : ℕ) : Option Flaw := firstFault (sys.placeFault k s) sys.totalNodes

/-- The checks made before the first output is written, with `k` files open. -/
def earlyFault (k : ℕ) : Option Flaw :=
  (sys.readFault k .onlineNodes).or ((sys.readFault (k + 1) .onlineCpus).or
    (firstFault (sys.markFault (k + 2) sys.totalCtxs) sys.totalCtxs))

/-- Those made after it. -/
def lateFault (k : ℕ) : Option Flaw :=
  sys.coresFault.or ((firstFault (sys.nodeFault k) sys.totalNodes).or
    ((firstFault (sys.packageFault (k + sys.totalNodes)) sys.totalNodes).or
      (sys.countFault.or
        (firstFault (sys.socketFault (k + 2 * sys.totalNodes)) sys.socketCnt))))

/-- What is wrong with the system for a run with `k` files open: what the first
check to fail finds. -/
def fate (k : ℕ) : Option Flaw :=
  (sys.earlyFault k).or (sys.lateFault (k + 2 + sys.totalCores))

/-! ## The files -/

/-- The files that are read, if no check fails. -/
inductive Reads : File → Prop where
  | onlineNodes : Reads .onlineNodes
  | onlineCpus : Reads .onlineCpus
  | threadSiblings {i : ℕ} (hi : i < sys.totalCtxs) : Reads (.threadSiblings i)
  | cpulist {n : ℕ} (hn : n < sys.totalNodes) : Reads (.cpulist n)
  | packageId {n : ℕ} (hn : n < sys.totalNodes) : Reads (.packageId (sys.firstCore n))

/-- They hold lists of ids. -/
def ReadsIds : Prop :=
  ∀ f, sys.Reads f → ∀ vs, sys.values f = some vs → vs ≠ [] ∧ ∀ v ∈ vs, 0 ≤ v

variable {sys} {f : File} {k : ℕ}

theorem ParsesIds.readsIds (h : sys.ParsesIds) : sys.ReadsIds := fun _ _ _ => h.values

theorem ReadsIds.nonneg (h : sys.ReadsIds) (hf : sys.Reads f) : ∀ v ∈ sys.listOf f, 0 ≤ v := by
  unfold System.listOf
  cases hv : sys.values f with
  | none => simp
  | some vs => exact (h f hf vs hv).2

theorem ReadsIds.ne_nil (h : sys.ReadsIds) (hf : sys.Reads f) (hr : sys.readFault k f = none) :
    sys.listOf f ≠ [] := (h f hf _ (values_of_readFault hr)).1

end System

/-! ## Indices -/

section Indices

variable {sys : System}

@[simp] theorem coresArray_len (n : ℕ) : (sys.coresArray n).len = sys.totalCores := by
  induction n with
  | zero => rfl
  | succ n ih => rw [System.coresArray, IntArray.putRow_len, ih]

@[simp] theorem nodesArray_len (s : ℕ) : (sys.nodesArray s).len = sys.totalNodes := by
  induction s with
  | zero => rfl
  | succ s ih => rw [System.nodesArray, IntArray.putRow_len, ih]

/-- Context 0 is a core to begin with. -/
theorem coresBelow_pos {sib : ℕ → List Int} {n : ℕ} (hn : 0 < n) :
    0 < (coresBelow sib n).length := by
  induction n with
  | zero => exact absurd hn (Nat.lt_irrefl 0)
  | succ n ih =>
      rw [coresBelow]
      split
      · rename_i h
        cases n with
        | zero => simp [coresBelow] at h
        | succ n => exact ih (Nat.succ_pos n)
      · rw [List.length_append]
        exact Nat.succ_pos _

/-- Each node's first entry is inside `cores`, even where there are more nodes
than cores. -/
theorem first_lt {n total c : ℕ} (hn : n < total) (hc : 0 < c) : n * (c / total) < c := by
  rcases Nat.eq_zero_or_pos (c / total) with h | h
  · rw [h, Nat.mul_zero]
    exact hc
  · calc n * (c / total) < total * (c / total) := Nat.mul_lt_mul_of_pos_right hn h
      _ ≤ c := Nat.mul_div_le c total

theorem maxPackage_ge (n : ℕ) : -1 ≤ sys.maxPackage n := by
  induction n with
  | zero => exact Int.le_refl _
  | succ n ih => exact Int.le_trans ih (Int.le_max_left ..)

theorem package_le {n i : ℕ} (hi : i < n) : sys.package i ≤ sys.maxPackage n := by
  induction n with
  | zero => exact absurd hi (Nat.not_lt_zero i)
  | succ n ih =>
      rw [System.maxPackage]
      by_cases hin : i = n
      · rw [hin]
        exact Int.le_max_right ..
      · exact Int.le_trans (ih (by omega)) (Int.le_max_left ..)

theorem maxPackage_lt {n : ℕ} {b : Int} (hb : 0 ≤ b) (h : ∀ i < n, sys.package i < b) :
    sys.maxPackage n < b := by
  induction n with
  | zero => exact Int.lt_of_lt_of_le (by decide : (-1 : Int) < 0) hb
  | succ n ih => exact Int.max_lt.mpr ⟨ih (fun i hi => h i (by omega)), h n (Nat.lt_succ_self n)⟩

theorem socketCnt_eq : (sys.socketCnt : Int) = sys.maxPackage sys.totalNodes + 1 := by
  have h : -1 ≤ sys.maxPackage sys.totalNodes := maxPackage_ge _
  rw [System.socketCnt, Int.toNat_of_nonneg (by omega)]

theorem package_lt {n : ℕ} (hn : n < sys.totalNodes) : sys.package n < sys.socketCnt := by
  have h : sys.package n ≤ sys.maxPackage sys.totalNodes := package_le hn
  rw [socketCnt_eq]
  omega

theorem package_nonneg (hp : sys.ReadsIds) {n : ℕ} (hn : n < sys.totalNodes) :
    0 ≤ sys.package n := by
  rw [System.package, List.getD_eq_getElem?_getD]
  cases hg : (sys.listOf (.packageId (sys.firstCore n)))[0]? with
  | none => exact Int.le_refl 0
  | some v => exact hp.nonneg (.packageId hn) v (List.mem_of_getElem? hg)

theorem socketCnt_pos (hp : sys.ReadsIds) (hn : 0 < sys.totalNodes) : 0 < sys.socketCnt := by
  have h1 : sys.package 0 < sys.socketCnt := package_lt hn
  have h2 := package_nonneg hp hn
  omega

end Indices

/-! ## The loops -/

section Loops

variable {sys : System} {t : State} {k n : ℕ}

/-- The flat index of an entry of a row. -/
theorem natCast_index (i c k : ℕ) : (i : Int) * c + k = ((i * c + k : ℕ) : Int) := by
  rw [Int.natCast_add, Int.natCast_mul]

/-- `cores` while node `n` is gone through. -/
def System.coresRow (sys : System) (n : ℕ) (row : List Int) : IntArray :=
  (sys.coresArray n).putRow (n * sys.coreCnt) row

/-- `nodes` while package `s` is gone through. -/
def System.nodesRow (sys : System) (s : ℕ) (row : List Int) : IntArray :=
  (sys.nodesArray s).putRow (s * sys.nodeCnt) row

/-- **The cores of one node**, stored one after the other. -/
theorem wp_assignCores (hp : sys.ReadsIds) {a : IntArray}
    (hm : Marked sys.siblings (sys.listOf .onlineCpus) sys.totalCtxs a) (hn : n < sys.totalNodes)
    (hc : t.cores = some (sys.coresArray n)) (hcnt : t.coreCnt = sys.coreCnt)
    (hopened : t.opened = k + n) :
    wp (assignCores sys a n)
      (fun _ t' => sys.nodeFault k n = none ∧ t' = { t with
        cores := some (sys.coresArray (n + 1)), opened := k + (n + 1) })
      (fun e t' => (sys.nodeFault k n).map Flaw.exit = some e ∧ t'.cores ≠ none) t := by
  have hroom : n * sys.coreCnt ≤ sys.totalCores :=
    Nat.le_trans (Nat.mul_le_mul_right _ (Nat.le_of_lt hn)) (Nat.mul_div_le _ _)
  unfold assignCores
  rw [wp_bind]
  apply wp_readList
  · intro hread
    have hfault : sys.nodeFault k n =
        if (∀ v ∈ sys.listOf (.cpulist n), v < sys.totalCtxs) ∧
          n * sys.coreCnt + (sys.coresOn n).length ≤ sys.totalCores then none
        else some .outOfRange := by
      rw [System.nodeFault, ← hopened, hread, Option.none_or]
    rw [wp_discard, hopened]
    -- what is kept along the list: the cores so far are in place, in a row, and in range
    apply wp_mono (wp_foldlM (fun pre (i : ℕ) t' => i = (pre.filter sys.isCore).length ∧
      t' = { t with
        cores := some (sys.coresRow n (pre.filter sys.isCore)), opened := k + (n + 1) } ∧
      (∀ v ∈ pre, v < sys.totalCtxs) ∧ n * sys.coreCnt + i ≤ sys.totalCores) ?_
      ⟨rfl, ?_, fun v hv => absurd hv List.not_mem_nil, hroom⟩
      (E := fun e t' => (sys.nodeFault k n).map Flaw.exit = some e ∧ t'.cores ≠ none))
    · rintro i t' ⟨rfl, rfl, hall, hfits⟩
      exact ⟨by rw [hfault]; exact if_pos ⟨hall, hfits⟩, rfl⟩
    · exact fun _ _ => id
    · rintro pre v post i t' hsplit ⟨rfl, rfl, hpre, hfits⟩
      have hv : v ∈ sys.listOf (.cpulist n) := by
        rw [hsplit]
        exact List.mem_append_right _ List.mem_cons_self
      have hv0 : 0 ≤ v := hp.nonneg (.cpulist hn) v hv
      rw [wp_bind]
      by_cases hlt : v < sys.totalCtxs
      · have hval : a.val v.toNat =
            mark sys.siblings (sys.listOf .onlineCpus) sys.totalCtxs v.toNat :=
          hm.val _ (by unfold System.totalCtxs at hlt; omega)
        have hall : ∀ u ∈ pre ++ [v], u < sys.totalCtxs := by
          intro u hu
          rcases List.mem_append.mp hu with hu | hu
          · exact hpre u hu
          · rw [List.mem_singleton.mp hu]
            exact hlt
        apply IntArray.wp_load ⟨hv0, by rw [hm.len]; exact hlt⟩
        rw [hval]
        by_cases hcore : sys.isCore v = true
        · -- the core goes to the next free entry, if there is one
          have hrow : (pre ++ [v]).filter sys.isCore = pre.filter sys.isCore ++ [v] := by
            rw [List.filter_append, List.filter_cons_of_pos hcore, List.filter_nil]
          rw [if_pos (by simpa [System.isCore] using hcore), wp_bind, wp_get, wp_bind]
          simp only [hcnt, natCast_index]
          apply wp_storeCores rfl
          by_cases hin : n * sys.coreCnt + (pre.filter sys.isCore).length < sys.totalCores
          · apply IntArray.wp_store_nat
            · rw [System.coresRow, IntArray.putRow_len, coresArray_len]
              exact hin
            · rw [wp_pure]
              refine ⟨by rw [hrow, List.length_append]; rfl, ?_, hall, hin⟩
              rw [hrow, System.coresRow, System.coresRow, IntArray.putRow_snoc]
          -- no room: the cores of the whole node cannot fit either
          · apply IntArray.wp_store_out
            · rw [System.coresRow, IntArray.putRow_len, coresArray_len, Int.ofNat_lt]
              exact hin
            · refine ⟨?_, Option.some_ne_none _⟩
              rw [hfault, if_neg]
              · rfl
              rintro ⟨-, hlen⟩
              rw [System.coresOn, hsplit, List.filter_append, List.filter_cons_of_pos hcore,
                List.length_append, List.length_cons] at hlen
              omega
        · have hrow : (pre ++ [v]).filter sys.isCore = pre.filter sys.isCore := by
            rw [List.filter_append, List.filter_cons_of_neg hcore, List.filter_nil,
              List.append_nil]
          rw [if_neg (by simpa [System.isCore] using hcore), wp_pure]
          exact ⟨by rw [hrow], by rw [hrow], hall, hfits⟩
      -- an id from beyond the online cpus
      · apply IntArray.wp_load_out (by rw [hm.len]; exact hlt)
        refine ⟨?_, Option.some_ne_none _⟩
        rw [hfault, if_neg (fun h => hlt (h.1 v hv))]
        rfl
    · obtain ⟨⟨sc, nc, cc, nodes, cores⟩, opened⟩ := t
      simp only at hc
      rw [hc]
      rfl
  · intro flaw t' hread hsame
    have hcores : t'.cores = t.cores := congrArg ProcessorTopo.cores hsame
    refine ⟨?_, by rw [hcores, hc]; exact Option.some_ne_none _⟩
    rw [System.nodeFault, ← hopened, hread]
    rfl

/-- The package of a node, by its first core. -/
theorem wp_firstPackage (hp : sys.ReadsIds) {Q : Int → State → Prop}
    {E : Exit → State → Prop} (hn : n < sys.totalNodes) (hpos : 0 < sys.totalCores)
    (hc : t.cores = some (sys.coresArray sys.totalNodes)) (hcnt : t.coreCnt = sys.coreCnt)
    (hopened : t.opened = k + n)
    (hQ : sys.packageFault k n = none → Q (sys.package n) { t with opened := k + (n + 1) })
    (hE : ∀ flaw t', sys.packageFault k n = some flaw → t'.cores ≠ none → E flaw.exit t') :
    wp (firstPackage sys n) Q E t := by
  have hlt : n * sys.coreCnt < sys.totalCores := first_lt hn hpos
  have hindex : (n : Int) * sys.coreCnt = ((n * sys.coreCnt : ℕ) : Int) := (Int.natCast_mul ..).symm
  unfold firstPackage
  rw [wp_bind, wp_get, wp_bind, hcnt, hindex]
  apply wp_loadCores hc
  apply IntArray.wp_load_nat (by rw [coresArray_len]; exact hlt)
  rw [wp_bind]
  show wp (readList sys (.packageId (sys.firstCore n))) _ _ _
  unfold System.packageFault at hQ hE
  rw [← hopened] at hQ hE
  apply wp_readList
  · intro hread
    have hlen := List.length_pos_iff.mpr (hp.ne_nil (.packageId hn) hread)
    apply IntArray.wp_load ⟨Int.le_refl 0, Int.ofNat_lt.mpr hlen⟩
    rw [hopened]
    exact hQ hread
  · intro flaw t' hread hsame
    have hcores : t'.cores = t.cores := congrArg ProcessorTopo.cores hsame
    exact hE flaw t' hread (by rw [hcores, hc]; exact Option.some_ne_none _)

theorem wp_countSocket (hp : sys.ReadsIds) (hn : n < sys.totalNodes) (hpos : 0 < sys.totalCores)
    (hc : t.cores = some (sys.coresArray sys.totalNodes)) (hcnt : t.coreCnt = sys.coreCnt)
    (hs : t.socketCnt = sys.maxPackage n) (hopened : t.opened = k + n) :
    wp (countSocket sys n)
      (fun _ t' => sys.packageFault k n = none ∧
        t' = { t with socketCnt := sys.maxPackage (n + 1), opened := k + (n + 1) })
      (fun e t' => (sys.packageFault k n).map Flaw.exit = some e ∧ t'.cores ≠ none) t := by
  unfold countSocket
  rw [wp_bind]
  apply wp_firstPackage hp hn hpos hc hcnt hopened
  · intro hread
    rw [wp_bind, wp_get]
    show wp (if sys.package n > t.socketCnt then _ else _) _ _ _
    rw [hs]
    by_cases hgt : sys.package n > sys.maxPackage n
    · rw [if_pos hgt, wp_modify, System.maxPackage, Int.max_eq_right (Int.le_of_lt hgt)]
      exact ⟨hread, rfl⟩
    · rw [if_neg hgt, wp_pure, System.maxPackage, Int.max_eq_left (Int.not_lt.mp hgt), ← hs]
      exact ⟨hread, rfl⟩
  · intro flaw t' hread hcores
    exact ⟨by rw [hread]; rfl, hcores⟩

theorem nodesBelow_succ (s j : ℕ) : sys.nodesBelow s (j + 1) =
    if sys.package j = s then sys.nodesBelow s j ++ [(j : Int)] else sys.nodesBelow s j := by
  unfold System.nodesBelow
  rw [List.range_succ, List.filter_append]
  split
  · rename_i hpkg
    rw [List.filter_cons_of_pos (by simpa using hpkg), List.map_append]
    rfl
  · rename_i hpkg
    rw [List.filter_cons_of_neg (by simpa using hpkg), List.filter_nil, List.append_nil]

/-- The state while package `s` is gone through: the nodes `row` are in place,
and the packages of those below `j` read. -/
def System.placing (sys : System) (t : State) (k s : ℕ) (row : List Int) (j : ℕ) : State :=
  { t with
    nodes := sys.nodesHeap.map fun _ => sys.nodesRow s row
    opened := k + s * sys.totalNodes + j }

/-- Node `j`, as it is placed. -/
theorem wp_placeNode (hp : sys.ReadsIds) {s j : ℕ} (hpos : 0 < sys.totalCores)
    (hc : t.cores = some (sys.coresArray sys.totalNodes)) (hcnt : t.coreCnt = sys.coreCnt)
    (hnode : t.nodeCnt = sys.nodeCnt) (hj : j < sys.totalNodes) :
    wp (placeNode sys s (sys.nodesBelow s j).length j)
      (fun i t' => sys.placeFault k s j = none ∧ i = (sys.nodesBelow s (j + 1)).length ∧
        t' = sys.placing t k s (sys.nodesBelow s (j + 1)) (j + 1))
      (fun e t' => (sys.placeFault k s j).map Flaw.exit = some e ∧ t'.cores ≠ none)
      (sys.placing t k s (sys.nodesBelow s j) j) := by
  unfold placeNode
  rw [wp_bind]
  apply wp_firstPackage (t := sys.placing t k s (sys.nodesBelow s j) j) hp hj hpos hc hcnt rfl
  · intro hread
    rw [System.placeFault, hread, Option.none_or, nodesBelow_succ]
    by_cases hpkg : sys.package j = s
    · rw [if_pos hpkg, if_pos hpkg, wp_bind, wp_get, wp_bind]
      have hindex : sys.package j * t.nodeCnt + ((sys.nodesBelow s j).length : Int) =
          ((s * sys.nodeCnt + (sys.nodesBelow s j).length : ℕ) : Int) := by
        rw [hpkg, hnode, natCast_index]
      show wp (storeNodes (sys.package j * t.nodeCnt + _) _) _ _ _
      rw [hindex]
      cases hheap : sys.nodesHeap with
      | none =>
          -- through `NULL`
          apply wp_storeNodes_null
          · simp only [System.placing, hheap, Option.map_none]
          · exact ⟨by rw [if_neg (fun h => nomatch (h hpkg).1)]; rfl,
              by rw [System.placing, hc]; exact Option.some_ne_none _⟩
      | some heap =>
          have hnodes : (sys.placing t k s (sys.nodesBelow s j) (j + 1)).nodes =
              some (sys.nodesRow s (sys.nodesBelow s j)) := by
            rw [System.placing, hheap, Option.map_some]
          apply wp_storeNodes hnodes
          by_cases hin : s * sys.nodeCnt + (sys.nodesBelow s j).length < sys.totalNodes
          · apply IntArray.wp_store_nat
            · rw [System.nodesRow, IntArray.putRow_len, nodesArray_len]
              exact hin
            · rw [wp_pure]
              refine ⟨if_pos (fun _ => ⟨rfl, hin⟩), by rw [List.length_append]; rfl, ?_⟩
              rw [System.placing, System.placing, hheap, Option.map_some, System.nodesRow,
                System.nodesRow, IntArray.putRow_snoc]
              rfl
          · apply IntArray.wp_store_out
            · rw [System.nodesRow, IntArray.putRow_len, nodesArray_len, Int.ofNat_lt]
              exact hin
            · exact ⟨by rw [if_neg (fun h => hin (h hpkg).2)]; rfl,
                by rw [System.placing, hc]; exact Option.some_ne_none _⟩
    · rw [if_neg hpkg, if_neg hpkg, wp_pure]
      exact ⟨if_pos (fun h => absurd h hpkg), rfl, rfl⟩
  · intro flaw t' hread hcores
    exact ⟨by rw [System.placeFault, hread]; rfl, hcores⟩

/-- **The nodes of one package**, stored one after the other. -/
theorem wp_placeNodes (hp : sys.ReadsIds) {s : ℕ} (hpos : 0 < sys.totalCores)
    (hc : t.cores = some (sys.coresArray sys.totalNodes)) (hcnt : t.coreCnt = sys.coreCnt)
    (hnode : t.nodeCnt = sys.nodeCnt)
    (hnodes : t.nodes = sys.nodesHeap.map fun _ => sys.nodesArray s)
    (hopened : t.opened = k + s * sys.totalNodes) :
    wp (discard <| (List.range sys.totalNodes).foldlM (placeNode sys s) 0)
      (fun _ t' => sys.socketFault k s = none ∧ t' = { t with
        nodes := sys.nodesHeap.map fun _ => sys.nodesArray (s + 1)
        opened := k + (s + 1) * sys.totalNodes })
      (fun e t' => (sys.socketFault k s).map Flaw.exit = some e ∧ t'.cores ≠ none) t := by
  rw [wp_discard]
  -- the nodes of the package below `j` are in place, in a row
  apply wp_mono_ok (wp_range_checks
    (fun j (i : ℕ) t' => i = (sys.nodesBelow s j).length ∧
      t' = sys.placing t k s (sys.nodesBelow s j) j)
    (fun t' => t'.cores ≠ none) ?_ ⟨rfl, ?_⟩)
  · rintro - _ ⟨hfault, -, rfl⟩
    refine ⟨hfault, ?_⟩
    rw [System.placing, Nat.succ_mul, ← Nat.add_assoc]
    rfl
  · rintro j _ _ hj ⟨rfl, rfl⟩
    exact wp_placeNode hp hpos hc hcnt hnode hj
  · obtain ⟨⟨sc, nc, cc, nodes, cores⟩, opened⟩ := t
    simp only at hnodes hopened
    rw [hnodes, hopened]
    rfl

end Loops

/-! ## The run -/

/-- What a run that is left leaves of the outputs `t`, `k` files being open
before it: `t` itself, up to the marking loop; `t` with `cores` and the number
of cores per node, if there is no memory; else an array of cores. -/
inductive System.Leaves (sys : System) (k : ℕ) (t : ProcessorTopo) : ProcessorTopo → Prop where
  | early (h : sys.earlyFault k ≠ none) : Leaves sys k t t
  | noMemory (h : sys.earlyFault k = none) (hheap : sys.coresHeap = none) :
      Leaves sys k t { t with coreCnt := sys.coreCnt, cores := none }
  | late {t' : ProcessorTopo} (h : sys.earlyFault k = none) (hheap : sys.coresHeap ≠ none)
      (hcores : t'.cores ≠ none) : Leaves sys k t t'

section Run

variable {sys : System} {k : ℕ} {t : State}

theorem earlyFault_of_nodes {flaw : Flaw} (h : sys.readFault k .onlineNodes = some flaw) :
    sys.earlyFault k = some flaw := by rw [System.earlyFault, h]; rfl

theorem earlyFault_of_cpus {flaw : Flaw} (hn : sys.readFault k .onlineNodes = none)
    (h : sys.readFault (k + 1) .onlineCpus = some flaw) : sys.earlyFault k = some flaw := by
  rw [System.earlyFault, hn, h]; rfl

theorem earlyFault_of_marking (hn : sys.readFault k .onlineNodes = none)
    (hc : sys.readFault (k + 1) .onlineCpus = none) :
    sys.earlyFault k = firstFault (sys.markFault (k + 2) sys.totalCtxs) sys.totalCtxs := by
  rw [System.earlyFault, hn, hc, Option.none_or, Option.none_or]

/-- A quotient of two counts. -/
theorem natCast_tdiv (m n : ℕ) : (m : Int).tdiv n = ((m / n : ℕ) : Int) := rfl

theorem wp_increment {n : Int} {Q : Int → State → Prop} {E : Exit → State → Prop}
    (hQ : n < INT_MAX → Q (n + 1) t) (hE : ¬ n < INT_MAX → E .overflow t) :
    wp (increment n) Q E t := by
  unfold increment
  split
  · rename_i h
    exact hQ h
  · rename_i h
    exact hE h

theorem malloc_nodes :
    malloc sys.nodesHeap sys.totalNodes = sys.nodesHeap.map fun _ => sys.nodesArray 0 := by
  unfold malloc System.nodesArray
  cases sys.nodesHeap <;> rfl

theorem malloc_cores {heap : ℕ → Int} (h : sys.coresHeap = some heap) :
    malloc (some heap) sys.totalCores = some (sys.coresArray 0) := by
  rw [System.coresArray, h]
  rfl

/-- The nodes of all the packages. -/
theorem wp_placeSockets (hp : sys.ReadsIds) (hcores : 0 < sys.totalCores)
    (hc : t.cores = some (sys.coresArray sys.totalNodes)) (hcnt : t.coreCnt = sys.coreCnt)
    (hnode : t.nodeCnt = sys.nodeCnt)
    (hnodes : t.nodes = sys.nodesHeap.map fun _ => sys.nodesArray 0) (hopened : t.opened = k) :
    wp ((List.range sys.socketCnt).forM fun i =>
        discard <| (List.range sys.totalNodes).foldlM (placeNode sys i) 0)
      (fun _ t' => firstFault (sys.socketFault k) sys.socketCnt = none ∧ t' = { t with
        nodes := sys.nodesHeap.map fun _ => sys.nodesArray sys.socketCnt
        opened := k + sys.socketCnt * sys.totalNodes })
      (fun e t' => (firstFault (sys.socketFault k) sys.socketCnt).map Flaw.exit = some e ∧
        t'.cores ≠ none) t := by
  apply wp_range_forM_checks
    (fun s (t' : State) => t' = { t with
      nodes := sys.nodesHeap.map fun _ => sys.nodesArray s
      opened := k + s * sys.totalNodes })
    (fun (t' : State) => t'.cores ≠ none)
  · rintro s _ hs rfl
    exact wp_placeNodes hp hcores hc hcnt hnode rfl rfl
  · obtain ⟨⟨sc, nc, cc, nodes, cores⟩, opened⟩ := t
    simp only at hnodes hopened
    rw [hnodes, hopened, Nat.zero_mul]
    rfl

/-- The loops after the marking one: with `cores` and the number of cores per
node in place. -/
theorem wp_fill (hp : sys.ReadsIds) {ctxIds : IntArray}
    (hm : Marked sys.siblings (sys.listOf .onlineCpus) sys.totalCtxs ctxIds)
    (hnodes : 0 < sys.totalNodes) (hcores : 0 < sys.totalCores)
    (hheap : sys.coresHeap.isSome) (hc : t.cores = some (sys.coresArray 0))
    (hcnt : t.coreCnt = sys.coreCnt) (hopened : t.opened = k) :
    wp (do
        (List.range sys.totalNodes).forM (assignCores sys ctxIds)
        modify fun t => { t with socketCnt := -1 }
        (List.range sys.totalNodes).forM (countSocket sys)
        let socketCnt ← increment (← get).socketCnt
        modify fun t => { t with socketCnt := socketCnt }
        modify fun t => { t with nodes := malloc sys.nodesHeap sys.totalNodes }
        let nodeCnt ← divide sys.totalNodes (← get).socketCnt
        modify fun t => { t with nodeCnt := nodeCnt }
        (List.range (← get).socketCnt.toNat).forM fun i =>
          discard <| (List.range sys.totalNodes).foldlM (placeNode sys i) 0
        closeLast)
      (fun _ t' => sys.lateFault k = none ∧ t' = ⟨{ sys.result with
          nodes := sys.nodesHeap.map fun _ => sys.nodesArray sys.socketCnt },
        k + 2 * sys.totalNodes + sys.socketCnt * sys.totalNodes - 1⟩)
      (fun e t' => (sys.lateFault k).map Flaw.exit = some e ∧ t'.cores ≠ none) t := by
  have hcoresFault : sys.coresFault = none := if_pos hheap
  rw [wp_bind]
  apply wp_mono (wp_range_forM_checks
    (fun n t' => t' = { t with cores := some (sys.coresArray n), opened := k + n })
    (fun t' => t'.cores ≠ none) ?_ ?_)
  · rintro - _ ⟨hassign, rfl⟩
    rw [wp_bind, wp_modify, wp_bind]
    apply wp_mono (wp_range_forM_checks
      (fun n t' => t' = { t with
        cores := some (sys.coresArray sys.totalNodes)
        socketCnt := sys.maxPackage n
        opened := k + sys.totalNodes + n })
      (fun t' => t'.cores ≠ none) ?_ rfl)
    · rintro - _ ⟨hcount, rfl⟩
      have hlate : sys.lateFault k = sys.countFault.or
          (firstFault (sys.socketFault (k + 2 * sys.totalNodes)) sys.socketCnt) := by
        rw [System.lateFault, hcoresFault, hassign, hcount]
        simp only [Option.none_or]
      have hsockets := socketCnt_pos hp hnodes
      have hopened' : k + sys.totalNodes + sys.totalNodes = k + 2 * sys.totalNodes := by omega
      rw [hlate, wp_bind, wp_get, wp_bind]
      apply wp_increment
      · intro hmax
        have hcountFault : sys.countFault = none := if_pos hmax
        rw [hcountFault, Option.none_or]
        simp only [wp_bind, wp_modify, wp_get, ← socketCnt_eq]
        apply wp_divide (by omega)
        rw [natCast_tdiv, Int.toNat_natCast]
        apply wp_mono_ok (wp_placeSockets hp hcores rfl (by exact hcnt) rfl malloc_nodes
          (by exact hopened'))
        rintro - _ ⟨hfault, rfl⟩
        refine ⟨hfault, ?_⟩
        rw [System.result, hcnt]
        rfl
      · intro hmax
        have hcountFault : sys.countFault = some .overflow := if_neg hmax
        exact ⟨by rw [hcountFault]; rfl, Option.some_ne_none _⟩
    · rintro e t' ⟨he, hF⟩
      refine ⟨?_, hF⟩
      obtain ⟨flaw, hflaw, rfl⟩ := Option.map_eq_some_iff.mp he
      rw [System.lateFault, hcoresFault, hassign, hflaw]
      rfl
    · rintro n _ hn rfl
      exact wp_countSocket hp hn hcores rfl hcnt rfl rfl
  · rintro e t' ⟨he, hF⟩
    refine ⟨?_, hF⟩
    obtain ⟨flaw, hflaw, rfl⟩ := Option.map_eq_some_iff.mp he
    rw [System.lateFault, hcoresFault, hflaw]
    rfl
  · rintro n _ hn rfl
    exact wp_assignCores hp hm hn rfl hcnt rfl
  · obtain ⟨⟨sc, nc, cc, nodes, cores⟩, opened⟩ := t
    simp only at hc hopened
    rw [hc, hopened]
    rfl

theorem lateFault_eq_none : sys.lateFault k = none ↔ sys.coresHeap.isSome ∧
    (∀ n < sys.totalNodes, sys.nodeFault k n = none) ∧
    (∀ n < sys.totalNodes, sys.packageFault (k + sys.totalNodes) n = none) ∧
    sys.maxPackage sys.totalNodes < INT_MAX ∧
    ∀ s < sys.socketCnt, ∀ j < sys.totalNodes,
      sys.placeFault (k + 2 * sys.totalNodes) s j = none := by
  unfold System.lateFault System.coresFault System.countFault System.socketFault
  simp only [Option.or_eq_none_iff, firstFault_eq_none, ite_eq_left_iff, reduceCtorEq, imp_false,
    not_not]

theorem placeFault_eq_none {s j : ℕ} : sys.placeFault k s j = none ↔
    sys.packageFault (k + s * sys.totalNodes) j = none ∧
      (sys.package j = s → sys.nodesHeap.isSome ∧
        s * sys.nodeCnt + (sys.nodesBelow s j).length < sys.totalNodes) := by
  unfold System.placeFault
  simp only [Option.or_eq_none_iff, ite_eq_left_iff, reduceCtorEq, imp_false, not_not]

/-- Some node is stored. -/
theorem nodesHeap_isSome (hp : sys.ReadsIds) (hnodes : 0 < sys.totalNodes)
    (h : sys.lateFault k = none) : sys.nodesHeap.isSome := by
  obtain ⟨-, -, -, -, hplace⟩ := lateFault_eq_none.mp h
  have hlt : sys.package 0 < sys.socketCnt := package_lt hnodes
  have hcast : sys.package 0 = ((sys.package 0).toNat : Int) :=
    (Int.toNat_of_nonneg (package_nonneg hp hnodes)).symm
  have hfault := hplace (sys.package 0).toNat (by omega) 0 hnodes
  exact ((placeFault_eq_none.mp hfault).2 hcast).1

theorem totalNodes_pos (hp : sys.ReadsIds) (h : sys.earlyFault k = none) :
    0 < sys.totalNodes := by
  rw [System.earlyFault, Option.or_eq_none_iff] at h
  exact List.length_pos_iff.mpr (hp.ne_nil .onlineNodes h.1)

theorem fate_eq_none : sys.fate k = none ↔
    sys.earlyFault k = none ∧ sys.lateFault (k + 2 + sys.totalCores) = none :=
  Option.or_eq_none_iff

/-- **Only if so many files can be opened** no check fails: the last one is to
open the last of them. -/
theorem opens_le (hp : sys.ReadsIds) (h : sys.fate k = none) : k + sys.opens ≤ sys.fds := by
  obtain ⟨hearly, hlate⟩ := fate_eq_none.mp h
  have hnodes := totalNodes_pos hp hearly
  have hsockets := socketCnt_pos hp hnodes
  obtain ⟨-, -, -, -, hplace⟩ := lateFault_eq_none.mp hlate
  have hlast := (placeFault_eq_none.mp (hplace (sys.socketCnt - 1) (by omega)
    (sys.totalNodes - 1) (by omega))).1
  have hlt := (System.readFault_eq_none.mp hlast).1
  have hrow : sys.socketCnt * sys.totalNodes =
      (sys.socketCnt - 1) * sys.totalNodes + sys.totalNodes := by
    rw [← Nat.succ_mul, Nat.succ_eq_add_one, Nat.sub_add_cancel hsockets]
  unfold System.opens
  omega

theorem affords_of_fate (hp : sys.ReadsIds) (h : sys.fate k = none) :
    sys.Affords k sys.opens where
  files := opens_le hp h
  cores := (lateFault_eq_none.mp (fate_eq_none.mp h).2).1
  nodes := nodesHeap_isSome hp (totalNodes_pos hp (fate_eq_none.mp h).1) (fate_eq_none.mp h).2

/-- **The reader on any system**: it ends with the outputs the files amount to
if every check passes, and otherwise is left by the first to fail. -/
theorem wp_reeactGetTopoSysfs (hp : sys.ReadsIds) (t : State) :
    wp (reeactGetTopoSysfs sys)
      (fun _ t' => sys.fate t.opened = none ∧ t' = ⟨sys.result, t.opened + sys.opens - 1⟩)
      (fun e t' => (sys.fate t.opened).map Flaw.exit = some e ∧
        sys.Leaves t.opened t.toProcessorTopo t'.toProcessorTopo) t := by
  have hearly : ∀ {flaw : Flaw} {t' : State}, sys.earlyFault t.opened = some flaw →
      t'.toProcessorTopo = t.toProcessorTopo →
      (sys.fate t.opened).map Flaw.exit = some flaw.exit ∧
        sys.Leaves t.opened t.toProcessorTopo t'.toProcessorTopo := by
    intro flaw t' hflaw hsame
    constructor
    · rw [System.fate, hflaw]
      rfl
    · rw [hsame]
      exact .early (by rw [hflaw]; exact Option.some_ne_none _)
  unfold reeactGetTopoSysfs
  rw [wp_bind]
  apply wp_readList
  · intro hnodes
    rw [wp_bind]
    apply wp_readList
    · intro hcpus
      have hmarking := earlyFault_of_marking hnodes hcpus
      have hnodesPos : 0 < sys.totalNodes := List.length_pos_iff.mpr (hp.ne_nil .onlineNodes hnodes)
      have hcoresPos : 0 < sys.totalCores :=
        coresBelow_pos (List.length_pos_iff.mpr (hp.ne_nil .onlineCpus hcpus))
      rw [wp_bind]
      apply wp_mono (wp_marking (hp.nonneg .onlineCpus)
        (fun _ hi => hp.nonneg (.threadSiblings hi)))
      · rintro ⟨ctxIds, totalCoreCnt⟩ _ ⟨hmark, rfl, hm, hcnt⟩
        have hnone : sys.earlyFault t.opened = none := hmarking.trans hmark
        have hfate : sys.fate t.opened = sys.lateFault (t.opened + 2 + sys.totalCores) := by
          rw [System.fate, hnone, Option.none_or]
        simp only at hm hcnt
        subst hcnt
        rw [wp_bind, wp_modify, wp_bind]
        apply wp_divide (by unfold System.totalNodes at hnodesPos; omega)
        rw [natCast_tdiv, wp_bind, wp_modify, wp_bind, wp_get, hfate]
        cases hheap : sys.coresHeap with
        | none =>
            constructor
            · rw [System.lateFault, System.coresFault, hheap]
              rfl
            · exact .noMemory hnone hheap
        | some heap =>
            have hsome : sys.coresHeap.isSome := by rw [hheap]; rfl
            rw [if_neg (by simp [malloc])]
            apply wp_mono (wp_fill (k := t.opened + 2 + sys.totalCores) hp hm hnodesPos hcoresPos
              hsome (malloc_cores hheap) rfl rfl)
            · rintro - t' ⟨hlate, rfl⟩
              refine ⟨hlate, ?_⟩
              obtain ⟨heap', hheap'⟩ :=
                Option.isSome_iff_exists.mp (nodesHeap_isSome hp hnodesPos hlate)
              rw [hheap', Option.map_some, System.result, System.opens]
              congr 1
              omega
            · rintro e t' ⟨hlate, hc⟩
              exact ⟨hlate, .late hnone (by rw [hheap]; exact Option.some_ne_none _) hc⟩
      · rintro e t' ⟨he, hsame⟩
        obtain ⟨flaw, hflaw, rfl⟩ := Option.map_eq_some_iff.mp he
        exact hearly (hmarking.trans hflaw) hsame
    · exact fun flaw t' hcpus hsame => hearly (earlyFault_of_cpus hnodes hcpus) hsame
  · exact fun flaw t' hnodes hsame => hearly (earlyFault_of_nodes hnodes) hsame

theorem sysfs_ok (hp : sys.ReadsIds) (h : sys.fate t.opened = none) :
    reeactGetTopoSysfs sys t = .ok () ⟨sys.result, t.opened + sys.opens - 1⟩ := by
  have hspec := wp_reeactGetTopoSysfs hp t
  unfold wp at hspec
  split at hspec
  · rename_i hrun
    rw [hrun, hspec.2]
  · rw [h] at hspec
    cases hspec.1

/-- How the run is left is what the first check to fail finds. -/
theorem sysfs_error_iff (hp : sys.ReadsIds) {e : Exit} :
    (∃ t', reeactGetTopoSysfs sys t = .error e t') ↔
      (sys.fate t.opened).map Flaw.exit = some e := by
  have hspec := wp_reeactGetTopoSysfs hp t
  unfold wp at hspec
  split at hspec
  · rename_i hrun
    rw [hrun, hspec.1]
    exact iff_of_false (fun ⟨_, he⟩ => (by cases he)) (fun he => (by cases he))
  · rename_i e' t' hrun
    rw [hrun, hspec.1]
    constructor
    · rintro ⟨_, he⟩
      cases he
      rfl
    · intro he
      cases he
      exact ⟨t', rfl⟩

end Run

/-! ## Safety -/

/-- A call that comes back: with a value, or with an error code. -/
def Returned (r : EStateM.Result Exit State Unit) : Prop :=
  match r with
  | .ok _ _ => True
  | .error e _ => ∃ code ≠ 0, e = .ret code

/-- **The reader never divides by zero, and comes back** from any system where
the first thing wrong is not one of range — a sibling list or a cpulist that is
gone through names a cpu beyond the number of online ones, a node has more
cores, or a package more nodes, than there is room for from its first entry on
— nor a file without a line, nor a package id of `INT_MAX`. Any file may be
missing, and any node differ from the others. -/
theorem sysfs_safe (sys : System) (hp : sys.ParsesIds) (t : State) :
    (∀ t', reeactGetTopoSysfs sys t ≠ .error .divByZero t') ∧
      ((∀ flaw ∈ [Flaw.outOfRange, .noLine, .overflow], sys.fate t.opened ≠ some flaw) →
        Returned (reeactGetTopoSysfs sys t)) := by
  constructor
  · intro t' hrun
    have hfate := (sysfs_error_iff hp.readsIds).mp ⟨t', hrun⟩
    obtain ⟨flaw, -, he⟩ := Option.map_eq_some_iff.mp hfate
    cases flaw <;> cases he
  · intro hflaws
    cases hrun : reeactGetTopoSysfs sys t with
    | ok _ _ => exact trivial
    | error e t' =>
        have hfate := (sysfs_error_iff hp.readsIds).mp ⟨t', hrun⟩
        obtain ⟨flaw, hflaw, rfl⟩ := Option.map_eq_some_iff.mp hfate
        cases flaw with
        | unreadable => exact ⟨2, by decide, rfl⟩
        | noMemory => exact ⟨3, by decide, rfl⟩
        | noLine => exact absurd hflaw (hflaws _ (by decide))
        | outOfRange => exact absurd hflaw (hflaws _ (by decide))
        | overflow => exact absurd hflaw (hflaws _ (by decide))

/-- One node with one core of two cpus. -/
def oneCore : System :=
  { bareSystem with
    file
      | .onlineNodes => some ['0', '\n']
      | .onlineCpus => some ['0', ',', '1', '\n']
      | .threadSiblings _ => some ['0', ',', '1', '\n']
      | .cpulist _ => some ['0', ',', '1', '\n']
      | .packageId _ => some ['0', '\n'] }

theorem parsesIds_commaList {sys : System} (h : sys.parse = fun cs => commaList cs none) :
    sys.ParsesIds := by
  intro cs vs hvs
  rw [h] at hvs
  exact commaList_ids hvs (fun _ e => by cases e)

theorem sysfs_safe_oneCore :
    (∀ t', reeactGetTopoSysfs oneCore .cleared ≠ .error .divByZero t') ∧
      Returned (reeactGetTopoSysfs oneCore .cleared) :=
  have hsafe := sysfs_safe oneCore (parsesIds_commaList rfl) .cleared
  ⟨hsafe.1, hsafe.2 (by decide)⟩

/-- Cpu 1 is offline; cpus 0 and 2 are siblings. -/
def oneOffline : System :=
  { bareSystem with
    file
      | .onlineNodes => some ['0', '\n']
      | .onlineCpus => some ['0', ',', '2', '\n']
      | .threadSiblings 0 => some ['0', ',', '2', '\n']
      | _ => none }

/-- A gap in the ids takes the marking loop out of `ctx_ids`. -/
theorem sysfs_gap_out_of_bounds : oneOffline.ParsesIds ∧
    ∃ t, reeactGetTopoSysfs oneOffline .cleared = .error .outOfBounds t :=
  ⟨parsesIds_commaList rfl, (sysfs_error_iff (parsesIds_commaList rfl).readsIds).mpr (by decide)⟩

end Reeact.Topo
