import Reeact.Lib.Rows
import Reeact.Utils.TopologyFate
import Reeact.Utils.TopologyRoundTrip
import Mathlib.Tactic.IntervalCases

/-!
# reeact_topology — a homogeneous machine read from sysfs

A machine with the same number of nodes on every socket and of cores on every
node, its ids assigned in any order, and the files sysfs shows for it.
The marking loop finds the smallest id of each sibling group, and the two
arrays are filled from front to back, each entry once. So
`reeact_get_topo_sysfs` reconstructs the machine, as long as there is memory
for the arrays and all the files it opens can be open at once: it closes none
of them but the last (`sysfs_reconstructs_iff`). On 32 sockets of one cpu each
these are more files than the customary limit (`sysfs_too_many_files`).
-/

namespace Reeact.Topo

open Exits Rows

/-! ## The machine -/

/-- The first cpus of their sibling groups, on node `n`. -/
def firstsOn (cpuCnt : ℕ) (core node : ℕ → ℕ) (n : ℕ) : List ℕ :=
  (List.range cpuCnt).filter (fun i => node i = n ∧ IsFirst core i)

/-- A machine of `socketCnt` sockets with `nodeCnt` nodes each, of `coreCnt`
cores each: `core` tells the core of a cpu, `node` its node, `package` the
socket of a node. -/
structure Machine where
  socketCnt : ℕ
  nodeCnt : ℕ
  coreCnt : ℕ
  cpuCnt : ℕ
  core : ℕ → ℕ
  node : ℕ → ℕ
  package : ℕ → ℕ
  socketCnt_pos : 0 < socketCnt
  nodeCnt_pos : 0 < nodeCnt
  coreCnt_pos : 0 < coreCnt
  node_lt : ∀ i < cpuCnt, node i < socketCnt * nodeCnt
  /-- siblings are on one node -/
  node_of_core : ∀ i < cpuCnt, ∀ j < cpuCnt, core i = core j → node i = node j
  /-- each node has `coreCnt` cores -/
  firsts_length : ∀ n < socketCnt * nodeCnt, (firstsOn cpuCnt core node n).length = coreCnt
  package_lt : ∀ n < socketCnt * nodeCnt, package n < socketCnt
  /-- each socket has `nodeCnt` nodes -/
  package_length : ∀ s < socketCnt,
    ((List.range (socketCnt * nodeCnt)).filter (fun n => package n = s)).length = nodeCnt

namespace Machine

variable (m : Machine)

def totalNodes : ℕ := m.socketCnt * m.nodeCnt

def cpusOn (n : ℕ) : List ℕ := (List.range m.cpuCnt).filter (fun i => m.node i = n)

/-- The smallest cpu ids of the sibling groups on node `n`. -/
def firsts (n : ℕ) : List ℕ := firstsOn m.cpuCnt m.core m.node n

def nodesOn (s : ℕ) : List ℕ := (List.range m.totalNodes).filter (fun n => m.package n = s)

/-- How many files the reader opens: the two lists, one for each core, two for
each node, and for each socket another one for each node. -/
def opens : ℕ :=
  2 + m.totalNodes * m.coreCnt + 2 * m.totalNodes + m.socketCnt * m.totalNodes

end Machine

/-- The files sysfs shows for the machine, its packages numbered by `id`. -/
structure ShowsAs (sys : System) (m : Machine) (id : ℕ → ℕ) : Prop where
  onlineNodes : sys.Lists .onlineNodes (List.range m.totalNodes)
  onlineCpus : sys.Lists .onlineCpus (List.range m.cpuCnt)
  /-- the sibling group of each cpu, in any order -/
  threadSiblings : sys.Siblings m.cpuCnt m.core
  cpulist : ∀ n < m.totalNodes, sys.Lists (.cpulist n) (m.cpusOn n)
  packageId : ∀ i < m.cpuCnt, sys.Lists (.packageId i) [id (m.package (m.node i))]

/-- The files, where the packages are the sockets `0`, .., `socketCnt - 1`. -/
abbrev Shows (sys : System) (m : Machine) : Prop := ShowsAs sys m (fun s => s)

/-! ## Arrays filled from front to back -/

namespace IntArray

/-- The entries of `xs` are there, stored once each, and no others. -/
structure Filled (a : IntArray) (xs : List Int) : Prop where
  val : ∀ k (h : k < xs.length), a.val k = xs[k]
  once : ∀ k < xs.length, a.stores k = 1
  rest : ∀ k, xs.length ≤ k → a.stores k = 0

section Filled

variable {a : IntArray} {xs : List Int}

theorem filled_block (n : ℕ) (heap : ℕ → Int) : (block n heap).Filled [] :=
  ⟨fun _ h => absurd h (Nat.not_lt_zero _), fun _ h => absurd h (Nat.not_lt_zero _),
    fun _ _ => rfl⟩

theorem Filled.put (h : a.Filled xs) (v : Int) : (a.put xs.length v).Filled (xs ++ [v]) := by
  refine ⟨?_, ?_, ?_⟩
  · intro k hk
    by_cases he : k = xs.length
    · subst he
      rw [put_val, List.getElem_append_right (Nat.le_refl _)]
      simp
    · have hlt : k < xs.length := by
        rw [List.length_append, List.length_singleton] at hk
        omega
      rw [put_val_ne _ _ he, List.getElem_append_left hlt]
      exact h.val k hlt
  · intro k hk
    by_cases he : k = xs.length
    · subst he
      rw [put_stores, h.rest xs.length (Nat.le_refl _)]
    · rw [List.length_append, List.length_singleton] at hk
      rw [put_stores_ne _ _ he]
      exact h.once k (by omega)
  · intro k hk
    rw [List.length_append, List.length_singleton] at hk
    rw [put_stores_ne _ _ (by omega)]
    exact h.rest k (by omega)

theorem Filled.putRow (h : a.Filled xs) {p : ℕ} (hp : p = xs.length) (row : List Int) :
    (a.putRow p row).Filled (xs ++ row) := by
  induction row generalizing a xs p with
  | nil =>
      rw [List.append_nil]
      exact h
  | cons v row ih =>
      subst hp
      rw [List.append_cons]
      exact ih (h.put v) (by rw [List.length_append]; rfl)

/-- The `len` entries from `start` on. -/
def slice (a : IntArray) (start len : ℕ) : List Int :=
  (List.range len).map (fun k => a.val (start + k))

theorem Filled.slice_rows {row : ℕ → List Int} {n c i : ℕ} (h : a.Filled (rows row n))
    (hrow : ∀ i < n, (row i).length = c) (hi : i < n) : a.slice (i * c) c = row i := by
  apply List.ext_getElem
  · rw [slice, List.length_map, List.length_range, hrow i hi]
  · intro k hk _
    rw [slice, List.length_map, List.length_range] at hk
    have hlt : i * c + k < (rows row n).length := by
      rw [length_rows hrow]
      exact index_lt hi hk
    have hget := getElem?_rows hrow hi hk
    have hk' : k < (row i).length := by rw [hrow i hi]; exact hk
    rw [List.getElem?_eq_getElem hlt, List.getElem?_eq_getElem hk', Option.some.injEq] at hget
    simp only [slice, List.getElem_map, List.getElem_range, h.val _ hlt, hget]

end Filled

end IntArray

/-! ## What the files amount to -/

namespace ShowsAs

variable {sys : System} {m : Machine} {id : ℕ → ℕ} {n k : ℕ}

theorem totalNodes_eq (h : ShowsAs sys m id) : sys.totalNodes = m.totalNodes := by
  rw [System.totalNodes, h.onlineNodes.listOf, List.length_map, List.length_range]

theorem totalCtxs_eq (h : ShowsAs sys m id) : sys.totalCtxs = m.cpuCnt := by
  rw [System.totalCtxs, h.onlineCpus.listOf, List.length_map, List.length_range]

theorem totalNodes_pos (m : Machine) : 0 < m.totalNodes :=
  Nat.mul_pos m.socketCnt_pos m.nodeCnt_pos

/-- The cores are the first cpus of the nodes. -/
theorem totalCores_eq (h : ShowsAs sys m id) : sys.totalCores = m.totalNodes * m.coreCnt := by
  rw [System.totalCores, h.totalCtxs_eq, h.threadSiblings.coresBelow_eq (Nat.le_refl _)]
  have hlt : ∀ i ∈ (List.range m.cpuCnt).filter (fun i => IsFirst m.core i),
      m.node i < m.totalNodes := by
    intro i hi
    rw [List.mem_filter, List.mem_range] at hi
    exact m.node_lt i hi.1
  apply length_of_classes hlt
  intro n hn
  rw [← m.firsts_length n hn, firstsOn, List.filter_filter]
  simp only [Bool.decide_and]

theorem coreCnt_eq (h : ShowsAs sys m id) : sys.coreCnt = m.coreCnt := by
  rw [System.coreCnt, h.totalCores_eq, h.totalNodes_eq]
  exact Nat.mul_div_cancel_left _ (totalNodes_pos m)

theorem isCore_iff (h : ShowsAs sys m id) {i : ℕ} (hi : i < m.cpuCnt) :
    sys.isCore i ↔ IsFirst m.core i := by
  rw [System.isCore, h.totalCtxs_eq, Int.toNat_natCast, h.threadSiblings.mark_eq _ hi,
    decide_eq_true_eq]
  split
  · rename_i hfirst
    exact ⟨fun _ => hfirst, fun _ => rfl⟩
  · rename_i hfirst
    exact ⟨fun e => absurd e (by decide), fun he => absurd he hfirst⟩

/-- The cores a node lists. -/
theorem coresOn_eq (h : ShowsAs sys m id) (hn : n < m.totalNodes) :
    sys.coresOn n = (m.firsts n).map Int.ofNat := by
  rw [System.coresOn, (h.cpulist n hn).listOf, List.filter_map, Machine.cpusOn, Machine.firsts,
    firstsOn, List.filter_filter]
  congr 1
  apply List.filter_congr
  intro i hi
  have hcore : (sys.isCore ∘ Int.ofNat) i = decide (IsFirst m.core i) := by
    rw [Bool.eq_iff_iff, decide_eq_true_eq]
    exact h.isCore_iff (List.mem_range.mp hi)
  rw [hcore, Bool.and_comm, Bool.decide_and]

theorem length_coresOn (h : ShowsAs sys m id) (hn : n < m.totalNodes) :
    (sys.coresOn n).length = m.coreCnt := by
  rw [h.coresOn_eq hn, List.length_map]
  exact m.firsts_length n hn

/-- **`cores` is filled row after row.** -/
theorem filled_coresArray (h : ShowsAs sys m id) (hn : n ≤ m.totalNodes) :
    (sys.coresArray n).Filled (rows sys.coresOn n) := by
  induction n with
  | zero => exact IntArray.filled_block _ _
  | succ n ih =>
      rw [rows_succ, System.coresArray]
      apply (ih (by omega)).putRow
      rw [length_rows (fun i hi => h.length_coresOn (by omega)), h.coreCnt_eq]

/-- Only the files that are open are in the way of another one. -/
theorem nodeFault_eq (h : ShowsAs sys m id) (hn : n < m.totalNodes) :
    sys.nodeFault k n = sys.readFault (k + n) (.cpulist n) := by
  rw [System.nodeFault, if_pos, Option.or_none]
  constructor
  · intro v hv
    rw [(h.cpulist n hn).listOf, List.mem_map] at hv
    obtain ⟨i, hi, rfl⟩ := hv
    rw [Machine.cpusOn, List.mem_filter, List.mem_range] at hi
    rw [h.totalCtxs_eq]
    exact Int.ofNat_lt.mpr hi.1
  · rw [h.length_coresOn hn, h.coreCnt_eq, h.totalCores_eq, ← Nat.succ_mul]
    exact Nat.mul_le_mul_right _ hn

/-- The first core of a node is one of its cpus. -/
theorem firstCore_eq (h : ShowsAs sys m id) (hn : n < m.totalNodes) :
    ∃ i < m.cpuCnt, m.node i = n ∧ sys.firstCore n = i := by
  have hslice := (h.filled_coresArray (Nat.le_refl _)).slice_rows
    (fun i hi => h.length_coresOn hi) hn
  rw [h.coresOn_eq hn] at hslice
  obtain ⟨c, hc⟩ := Nat.exists_eq_succ_of_ne_zero (Nat.ne_of_gt m.coreCnt_pos)
  rw [IntArray.slice, hc, List.range_succ_eq_map, List.map_cons] at hslice
  cases hfirsts : m.firsts n with
  | nil =>
      rw [hfirsts] at hslice
      cases hslice
  | cons i is =>
      rw [hfirsts, List.map_cons, List.cons.injEq, Nat.add_zero, ← hc] at hslice
      have hi : i ∈ m.firsts n := by
        rw [hfirsts]
        exact List.mem_cons_self
      rw [Machine.firsts, firstsOn, List.mem_filter, List.mem_range, decide_eq_true_eq] at hi
      refine ⟨i, hi.1, hi.2.1, ?_⟩
      rw [System.firstCore, h.totalNodes_eq, h.coreCnt_eq]
      exact hslice.1

/-- What the package of a node is read from. -/
theorem packageId_firstCore (h : ShowsAs sys m id) (hn : n < m.totalNodes) :
    sys.Lists (.packageId (sys.firstCore n)) [id (m.package n)] := by
  obtain ⟨i, hi, rfl, hfirst⟩ := h.firstCore_eq hn
  rw [hfirst]
  exact h.packageId i hi

theorem package_eq (h : ShowsAs sys m id) (hn : n < m.totalNodes) :
    sys.package n = id (m.package n) := by
  rw [System.package, (h.packageId_firstCore hn).listOf]
  rfl

theorem readsIds (h : ShowsAs sys m id) : sys.ReadsIds := by
  have key : ∀ {f : File} {vs : List ℕ}, sys.Lists f vs → vs ≠ [] →
      ∀ us, sys.values f = some us → us ≠ [] ∧ ∀ u ∈ us, 0 ≤ u := by
    intro f vs hvs hne us hus
    rw [hvs.values] at hus
    cases hus
    refine ⟨fun e => hne (List.map_eq_nil_iff.mp e), fun u hu => ?_⟩
    obtain ⟨i, -, rfl⟩ := List.mem_map.mp hu
    exact Int.natCast_nonneg i
  have hcpu : ∀ n < m.totalNodes, ∃ i < m.cpuCnt, m.node i = n := by
    intro n hn
    obtain ⟨i, hi, hnode, -⟩ := h.firstCore_eq hn
    exact ⟨i, hi, hnode⟩
  have hrange : ∀ {k : ℕ}, 0 < k → List.range k ≠ [] :=
    fun hk e => Nat.ne_of_gt hk (List.range_eq_nil.mp e)
  intro f hf
  cases hf with
  | onlineNodes => exact key h.onlineNodes (hrange (totalNodes_pos m))
  | onlineCpus =>
      obtain ⟨i, hi, -⟩ := hcpu 0 (totalNodes_pos m)
      exact key h.onlineCpus (hrange (by omega))
  | threadSiblings hi =>
      rw [h.totalCtxs_eq] at hi
      obtain ⟨vs, hvs, hmem⟩ := h.threadSiblings _ hi
      exact key hvs (List.ne_nil_of_mem ((hmem _).mpr ⟨hi, rfl⟩))
  | cpulist hn =>
      rw [h.totalNodes_eq] at hn
      obtain ⟨i, hi, hnode⟩ := hcpu _ hn
      refine key (h.cpulist _ hn) (List.ne_nil_of_mem (a := i) ?_)
      rw [Machine.cpusOn, List.mem_filter, List.mem_range, decide_eq_true_eq]
      exact ⟨hi, hnode⟩
  | packageId hn =>
      rw [h.totalNodes_eq] at hn
      exact key (h.packageId_firstCore hn) (List.cons_ne_nil _ _)

/-- Some node is on each socket. -/
theorem exists_node (m : Machine) {s : ℕ} (hs : s < m.socketCnt) :
    ∃ n < m.totalNodes, m.package n = s := by
  have hlen := m.package_length s hs
  obtain ⟨n, hn⟩ := List.exists_mem_of_length_pos (Nat.lt_of_lt_of_eq m.nodeCnt_pos hlen.symm)
  rw [List.mem_filter, List.mem_range, decide_eq_true_eq] at hn
  exact ⟨n, hn⟩

/-- The sockets are counted by the largest package id. -/
theorem id_lt_socketCnt (h : ShowsAs sys m id) {s : ℕ} (hs : s < m.socketCnt) :
    id s < sys.socketCnt := by
  obtain ⟨n, hn, rfl⟩ := exists_node m hs
  have hlt : sys.package n < sys.socketCnt := package_lt (by rw [h.totalNodes_eq]; exact hn)
  rw [h.package_eq hn] at hlt
  exact Int.ofNat_lt.mp hlt

theorem socketCnt_le (h : ShowsAs sys m id) {b : ℕ} (hid : ∀ s < m.socketCnt, id s < b) :
    sys.socketCnt ≤ b := by
  have hmax : sys.maxPackage sys.totalNodes < b := by
    apply maxPackage_lt (Int.natCast_nonneg b)
    intro n hn
    rw [h.totalNodes_eq] at hn
    rw [h.package_eq hn]
    exact Int.ofNat_lt.mpr (hid _ (m.package_lt n hn))
  have heq : (sys.socketCnt : Int) = sys.maxPackage sys.totalNodes + 1 := Topo.socketCnt_eq
  omega

end ShowsAs

/-! ## Packages without a gap -/

namespace Shows

variable {sys : System} {m : Machine} {s : ℕ}

theorem socketCnt_eq (h : Shows sys m) : sys.socketCnt = m.socketCnt := by
  apply Nat.le_antisymm (h.socketCnt_le (fun s hs => hs))
  have hlast := h.id_lt_socketCnt (Nat.pred_lt (Nat.ne_of_gt m.socketCnt_pos))
  exact Nat.le_of_pred_lt hlast

theorem nodeCnt_eq (h : Shows sys m) : sys.nodeCnt = m.nodeCnt := by
  rw [System.nodeCnt, h.totalNodes_eq, Shows.socketCnt_eq h]
  exact Nat.mul_div_cancel_left _ m.socketCnt_pos

theorem nodesOn_eq (h : Shows sys m) (s : ℕ) : sys.nodesOn s = (m.nodesOn s).map Int.ofNat := by
  rw [System.nodesOn, System.nodesBelow, h.totalNodes_eq, Machine.nodesOn]
  congr 1
  apply List.filter_congr
  intro n hn
  rw [h.package_eq (List.mem_range.mp hn), decide_eq_decide]
  exact Int.ofNat_inj

theorem length_nodesOn (h : Shows sys m) (hs : s < m.socketCnt) :
    (sys.nodesOn s).length = m.nodeCnt := by
  rw [h.nodesOn_eq, List.length_map]
  exact m.package_length s hs

/-- **`nodes` is filled row after row.** -/
theorem filled_nodesArray (h : Shows sys m) (hs : s ≤ m.socketCnt) :
    (sys.nodesArray s).Filled (rows sys.nodesOn s) := by
  induction s with
  | zero => exact IntArray.filled_block _ _
  | succ s ih =>
      rw [rows_succ, System.nodesArray]
      apply (ih (by omega)).putRow
      rw [length_rows (fun i hi => h.length_nodesOn (by omega)), h.nodeCnt_eq]

theorem opens_eq (h : Shows sys m) : sys.opens = m.opens := by
  rw [System.opens, Machine.opens, h.totalCores_eq, h.totalNodes_eq, h.socketCnt_eq]

/-- The nodes of a package are not more than there is room for. -/
theorem place_lt (h : Shows sys m) (hs : s < m.socketCnt) {j : ℕ} (hj : j < m.totalNodes)
    (hpkg : sys.package j = s) :
    s * sys.nodeCnt + (sys.nodesBelow s j).length < sys.totalNodes := by
  have hbelow : (sys.nodesBelow s (j + 1)).length ≤ (sys.nodesOn s).length := by
    rw [System.nodesOn, System.nodesBelow, System.nodesBelow, List.length_map, List.length_map]
    rw [h.totalNodes_eq]
    exact ((List.range_sublist.mpr hj).filter _).length_le
  rw [nodesBelow_succ, if_pos hpkg, List.length_append, List.length_singleton,
    h.length_nodesOn hs] at hbelow
  rw [h.nodeCnt_eq, h.totalNodes_eq]
  exact index_lt hs hbelow

/-- What is wrong with the system is that a file cannot be opened, or that
there is no memory. -/
theorem placeFault_eq (h : Shows sys m) (hheap : sys.nodesHeap.isSome) (hs : s < m.socketCnt)
    {k j : ℕ} (hj : j < m.totalNodes) :
    sys.placeFault k s j = sys.packageFault (k + s * sys.totalNodes) j := by
  rw [System.placeFault, if_pos, Option.or_none]
  exact fun hpkg => ⟨hheap, h.place_lt hs hj hpkg⟩

theorem fate_eq_none (h : Shows sys m) {k : ℕ} (hroom : sys.Affords k m.opens) :
    sys.fate k = none := by
  have hfits := hroom.files
  have hcores := h.totalCores_eq
  have hnodes := h.totalNodes_eq
  have hsockets := h.socketCnt_eq
  unfold Machine.opens at hfits
  have hmark : firstFault (sys.markFault (k + 2) sys.totalCtxs) sys.totalCtxs = none := by
    rw [System.totalCores, h.totalCtxs_eq] at hcores
    rw [h.totalCtxs_eq]
    exact firstFault_eq_none.mpr (fun i hi => h.threadSiblings.markFault_eq_none (by omega) hi)
  have hearly : sys.earlyFault k = none := by
    rw [System.earlyFault, h.onlineNodes.readFault (by omega), h.onlineCpus.readFault (by omega),
      hmark]
    rfl
  have hplace : ∀ s < sys.socketCnt, ∀ j < sys.totalNodes,
      sys.placeFault (k + 2 + sys.totalCores + 2 * sys.totalNodes) s j = none := by
    intro s hs j hj
    rw [hsockets] at hs
    rw [hnodes] at hj
    have hindex : s * m.totalNodes + j < m.socketCnt * m.totalNodes := index_lt hs hj
    rw [h.placeFault_eq hroom.nodes hs hj]
    exact (h.packageId_firstCore hj).readFault (by rw [hnodes]; omega)
  have hmax : sys.maxPackage sys.totalNodes < INT_MAX := by
    have hint := sys.fds_le
    have heq : (sys.socketCnt : Int) = sys.maxPackage sys.totalNodes + 1 := Topo.socketCnt_eq
    have hle : m.socketCnt ≤ m.socketCnt * m.totalNodes :=
      Nat.le_mul_of_pos_right _ (ShowsAs.totalNodes_pos m)
    omega
  rw [System.fate, hearly, Option.none_or, lateFault_eq_none]
  refine ⟨hroom.cores, fun n hn => ?_, fun n hn => ?_, hmax, hplace⟩
  · rw [hnodes] at hn
    rw [h.nodeFault_eq hn]
    exact (h.cpulist n hn).readFault (by omega)
  · rw [hnodes] at hn
    exact (h.packageId_firstCore hn).readFault (by omega)

/-- With memory for the arrays, the one thing that can be wrong is that a file
cannot be opened. -/
theorem unreadable (h : Shows sys m) (hcores : sys.coresHeap.isSome)
    (hnodes : sys.nodesHeap.isSome) (hmax : m.socketCnt ≤ INT_MAX) {k : ℕ} {flaw : Flaw}
    (hflaw : sys.fate k = some flaw) : flaw = .unreadable := by
  have htotal := h.totalNodes_eq
  have hpackage : ∀ {k n}, n < sys.totalNodes → sys.packageFault k n = some flaw →
      flaw = .unreadable :=
    fun hn => (h.packageId_firstCore (htotal ▸ hn)).unreadable
  have hcount : sys.countFault = none := by
    have heq : (sys.socketCnt : Int) = sys.maxPackage sys.totalNodes + 1 := Topo.socketCnt_eq
    have hsockets := h.socketCnt_eq
    exact if_pos (by omega)
  rw [System.fate, System.earlyFault, System.lateFault, System.coresFault, if_pos hcores, hcount]
    at hflaw
  simp only [Option.none_or, Option.or_eq_some_iff] at hflaw
  rcases hflaw with (hflaw | ⟨-, hflaw | ⟨-, hflaw⟩⟩) | ⟨-, hflaw | ⟨-, hflaw | ⟨-, hflaw⟩⟩⟩
  · exact h.onlineNodes.unreadable hflaw
  · exact h.onlineCpus.unreadable hflaw
  · obtain ⟨i, hi, hmark⟩ := exists_of_firstFault hflaw
    rw [h.totalCtxs_eq] at hi hmark
    rw [h.threadSiblings.markFault_eq hi] at hmark
    split at hmark
    · cases hmark
    · obtain ⟨vs, hvs, -⟩ := h.threadSiblings i hi
      exact hvs.unreadable hmark
  · obtain ⟨n, hn, hnode⟩ := exists_of_firstFault hflaw
    rw [htotal] at hn
    rw [h.nodeFault_eq hn] at hnode
    exact (h.cpulist n hn).unreadable hnode
  · obtain ⟨n, hn, hread⟩ := exists_of_firstFault hflaw
    exact hpackage hn hread
  · obtain ⟨s, hs, hsocket⟩ := exists_of_firstFault hflaw
    obtain ⟨j, hj, hplace⟩ := exists_of_firstFault hsocket
    rw [h.socketCnt_eq] at hs
    rw [h.placeFault_eq hnodes hs (htotal ▸ hj)] at hplace
    exact hpackage hj hplace

theorem run (h : Shows sys m) {t : State} (hroom : sys.Affords t.opened m.opens) :
    reeactGetTopoSysfs sys t = .ok () ⟨sys.result, t.opened + m.opens - 1⟩ := by
  rw [sysfs_ok h.readsIds (h.fate_eq_none hroom), h.opens_eq]

end Shows

/-- An array of `n` rows of `c` entries, each stored to once. -/
structure IntArray.Rows (a : IntArray) (row : ℕ → List ℕ) (n c : ℕ) : Prop where
  len : a.len = n * c
  rows : ∀ i < n, a.slice (i * c) c = (row i).map Int.ofNat
  once : ∀ k < n * c, a.stores k = 1

theorem IntArray.Filled.toRows {a : IntArray} {row : ℕ → List Int} {ids : ℕ → List ℕ} {n c : ℕ}
    (h : a.Filled (rows row n)) (hlen : a.len = n * c) (hrow : ∀ i < n, (row i).length = c)
    (hids : ∀ i < n, row i = (ids i).map Int.ofNat) : a.Rows ids n c := by
  refine ⟨hlen, ?_, ?_⟩
  · intro i hi
    rw [h.slice_rows hrow hi, hids i hi]
  · intro k hk
    apply h.once
    rw [length_rows hrow]
    exact hk

/-- The outputs tell the machine. -/
structure Reconstructs (m : Machine) (t : ProcessorTopo) : Prop where
  socketCnt : t.socketCnt = m.socketCnt
  nodeCnt : t.nodeCnt = m.nodeCnt
  coreCnt : t.coreCnt = m.coreCnt
  cores : ∃ a, t.cores = some a ∧ a.Rows m.firsts m.totalNodes m.coreCnt
  nodes : ∃ a, t.nodes = some a ∧ a.Rows m.nodesOn m.socketCnt m.nodeCnt

theorem Shows.reconstructs {sys : System} {m : Machine} (h : Shows sys m) :
    Reconstructs m sys.result where
  socketCnt := Int.ofNat_inj.mpr h.socketCnt_eq
  nodeCnt := Int.ofNat_inj.mpr h.nodeCnt_eq
  coreCnt := Int.ofNat_inj.mpr h.coreCnt_eq
  cores := by
    refine ⟨_, rfl, ?_⟩
    rw [h.totalNodes_eq]
    apply (h.filled_coresArray (Nat.le_refl _)).toRows
    · rw [coresArray_len, h.totalCores_eq]
    · exact fun _ hn => h.length_coresOn hn
    · exact fun _ hn => h.coresOn_eq hn
  nodes := by
    refine ⟨_, rfl, ?_⟩
    rw [h.socketCnt_eq]
    apply (h.filled_nodesArray (Nat.le_refl _)).toRows
    · rw [nodesArray_len, h.totalNodes_eq]
      rfl
    · exact fun _ hs => h.length_nodesOn hs
    · exact fun s _ => h.nodesOn_eq s

/-- **The reader reconstructs the machine** — the counts, and in both arrays
row after row what sysfs shows, in ascending order, every entry stored to
exactly once — if and only if there is memory for the arrays, and all the files
it opens can be open at once. -/
theorem sysfs_reconstructs_iff (sys : System) (m : Machine) (h : Shows sys m) (t : State) :
    (∃ t', reeactGetTopoSysfs sys t = .ok () t' ∧ Reconstructs m t'.toProcessorTopo) ↔
      sys.Affords t.opened m.opens := by
  constructor
  · rintro ⟨t', hrun, -⟩
    have hspec := wp_reeactGetTopoSysfs h.readsIds t
    unfold wp at hspec
    rw [hrun] at hspec
    rw [← h.opens_eq]
    exact affords_of_fate h.readsIds hspec.1
  · intro hroom
    exact ⟨_, h.run hroom, h.reconstructs⟩

/-- Four cpus, with the siblings half the machine apart, on two nodes; node 0
is on socket 1. -/
def crossed : Machine where
  socketCnt := 2
  nodeCnt := 1
  coreCnt := 1
  cpuCnt := 4
  core i := i % 2
  node i := i % 2
  package n := 1 - n
  socketCnt_pos := Nat.two_pos
  nodeCnt_pos := Nat.one_pos
  coreCnt_pos := Nat.one_pos
  node_lt := by decide
  node_of_core := by decide
  firsts_length := by decide
  package_lt := by decide
  package_length := by decide

def crossedSysfs : System :=
  { bareSystem with
    file
      | .onlineNodes => some ['0', ',', '1', '\n']
      | .onlineCpus => some ['0', ',', '1', ',', '2', ',', '3', '\n']
      | .threadSiblings cpu => offsetSmt.file (.threadSiblings cpu)
      | .cpulist node => offsetSmt.file (.threadSiblings node)
      | .packageId cpu => if cpu % 2 = 0 then some ['1', '\n'] else some ['0', '\n'] }

theorem crossed_shows : Shows crossedSysfs crossed where
  onlineNodes := ⟨['0', ',', '1'], [], rfl, by decide, by decide, rfl⟩
  onlineCpus := ⟨['0', ',', '1', ',', '2', ',', '3'], [], rfl, by decide, by decide, rfl⟩
  threadSiblings := offsetSmt_siblings
  cpulist n hn := by
    change n < 2 at hn
    interval_cases n
    · exact ⟨['0', ',', '2'], [], rfl, by decide, by decide, rfl⟩
    · exact ⟨['1', ',', '3'], [], rfl, by decide, by decide, rfl⟩
  packageId i hi := by
    change i < 4 at hi
    interval_cases i
    · exact ⟨['1'], [], rfl, by decide, by decide, rfl⟩
    · exact ⟨['0'], [], rfl, by decide, by decide, rfl⟩
    · exact ⟨['1'], [], rfl, by decide, by decide, rfl⟩
    · exact ⟨['0'], [], rfl, by decide, by decide, rfl⟩

theorem crossed_affords : crossedSysfs.Affords 0 crossed.opens := ⟨by decide, rfl, rfl⟩

theorem sysfs_reconstructs_crossed : ∃ t', reeactGetTopoSysfs crossedSysfs .cleared = .ok () t' ∧
    Reconstructs crossed t'.toProcessorTopo :=
  (sysfs_reconstructs_iff crossedSysfs crossed crossed_shows .cleared).mpr crossed_affords

/-! ## One file too many -/

/-- An id is once in the list of the ids. -/
theorem filter_range_eq {n k : ℕ} (hk : k < n) :
    (List.range n).filter (fun i => i = k) = [k] := by
  rw [List.filter_eq, List.count_range, if_pos hk]
  rfl

/-- `n + 1` sockets of one cpu each. -/
def singleCpus (n : ℕ) : Machine where
  socketCnt := n + 1
  nodeCnt := 1
  coreCnt := 1
  cpuCnt := n + 1
  core i := i
  node i := i
  package k := k
  socketCnt_pos := Nat.succ_pos n
  nodeCnt_pos := Nat.one_pos
  coreCnt_pos := Nat.one_pos
  node_lt i hi := by omega
  node_of_core _ _ _ _ h := h
  firsts_length k hk := by
    have hall : (List.range (n + 1)).filter (fun i => i = k ∧ IsFirst (fun i => i) i) =
        (List.range (n + 1)).filter (fun i => i = k) := by
      apply List.filter_congr
      intro i _
      rw [decide_eq_decide]
      exact and_iff_left (fun j hj => Nat.ne_of_lt hj)
    rw [Nat.mul_one] at hk
    rw [firstsOn, hall, filter_range_eq hk]
    rfl
  package_lt k hk := by omega
  package_length s hs := by
    rw [Nat.mul_one, filter_range_eq hs]
    rfl

/-- What sysfs shows for it, its packages numbered by `id`. -/
def singleCpusSysfs (n : ℕ) (id : ℕ → ℕ) : System :=
  { bareSystem with
    file f := some (commaSeparated (match f with
      | .onlineNodes | .onlineCpus => List.range (n + 1)
      | .threadSiblings k | .cpulist k => [k.toNat]
      | .packageId k => [id k.toNat]) ++ ['\n']) }

theorem lists_commaSeparated {sys : System} {f : File} {ns : List ℕ}
    (hparse : sys.parse = fun cs => commaList cs none)
    (hfile : sys.file f = some (commaSeparated ns ++ ['\n'])) (hns : ns ≠ []) : sys.Lists f ns := by
  refine ⟨commaSeparated ns, [], hfile, ?_, ?_, ?_⟩
  · intro h
    rcases mem_commaSeparated h with h | h
    · exact absurd h (by decide)
    · exact absurd h (by decide)
  · intro h
    rcases mem_commaSeparated h with h | h
    · exact absurd h (by decide)
    · exact absurd h (by decide)
  · rw [hparse]
    exact commaList_commaSeparated hns

theorem singleCpus_shows (n : ℕ) (id : ℕ → ℕ) :
    ShowsAs (singleCpusSysfs n id) (singleCpus n) id where
  onlineNodes := lists_commaSeparated rfl (by
    show _ = some (commaSeparated (List.range ((n + 1) * 1)) ++ ['\n'])
    rw [Nat.mul_one]
    rfl) (by simp [Machine.totalNodes, singleCpus])
  onlineCpus := lists_commaSeparated rfl rfl (by simp [singleCpus])
  threadSiblings i hi := by
    refine ⟨[i], lists_commaSeparated rfl rfl (List.cons_ne_nil _ _), fun j => ?_⟩
    change i < n + 1 at hi
    show j ∈ [i] ↔ j < n + 1 ∧ j = i
    rw [List.mem_singleton]
    omega
  cpulist k hk := by
    have hcpus : (singleCpus n).cpusOn k = [k] :=
      filter_range_eq (show k < n + 1 by rwa [← Nat.mul_one (n + 1)])
    rw [hcpus]
    exact lists_commaSeparated rfl rfl (List.cons_ne_nil _ _)
  packageId i _ := lists_commaSeparated rfl rfl (List.cons_ne_nil _ _)

/-- **On 32 sockets of one cpu each the reader fails** for want of a file
descriptor, where 1021 can be had. -/
theorem sysfs_too_many_files : Shows (singleCpusSysfs 31 (fun s => s)) (singleCpus 31) ∧
    ∃ t, reeactGetTopoSysfs (singleCpusSysfs 31 (fun s => s)) .cleared = .error (.ret 2) t := by
  have hshows : Shows _ _ := singleCpus_shows 31 (fun s => s)
  refine ⟨hshows, (sysfs_error_iff hshows.readsIds).mpr ?_⟩
  cases hfate : (singleCpusSysfs 31 (fun s => s)).fate 0 with
  | none =>
      have hroom := affords_of_fate hshows.readsIds hfate
      rw [hshows.opens_eq] at hroom
      exact absurd hroom.files (by decide)
  | some flaw =>
      have hflaw := hshows.unreadable rfl rfl (by decide) hfate
      show ((singleCpusSysfs 31 (fun s => s)).fate 0).map Flaw.exit = _
      rw [hfate, hflaw]
      rfl

end Reeact.Topo
