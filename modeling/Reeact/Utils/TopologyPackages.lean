import Reeact.Utils.TopologySysfs

/-!
# reeact_topology — package ids

A homogeneous machine whose packages carry any distinct ids. The sockets are
counted by the largest id, and the nodes of package `s` go to row `s` of
`nodes`: so the map from nodes to sockets is right exactly when the ids have
no gap (`sysfs_node_map_iff`). Then the machine is one whose sockets are
numbered another way.
-/

namespace Reeact.Topo

open Exits Rows

/-! ## Entries of an array of rows -/

namespace IntArray.Rows

variable {a : IntArray} {row : ℕ → List ℕ} {n c i k v : ℕ}

theorem length_row (h : a.Rows row n c) (hi : i < n) : (row i).length = c := by
  have hlen := congrArg List.length (h.rows i hi)
  rw [slice, List.length_map, List.length_map, List.length_range] at hlen
  exact hlen.symm

theorem getElem_row (h : a.Rows row n c) (hi : i < n) (hk : k < c) :
    ∃ hk' : k < (row i).length, a.val (i * c + k) = (row i)[k] := by
  have hk' : k < (row i).length := by rw [h.length_row hi]; exact hk
  have hget : (a.slice (i * c) c)[k]? = ((row i).map Int.ofNat)[k]? := by rw [h.rows i hi]
  rw [slice, List.getElem?_map, List.getElem?_range hk, List.getElem?_map,
    List.getElem?_eq_getElem hk'] at hget
  exact ⟨hk', Option.some.inj hget⟩

theorem mem_row_iff (h : a.Rows row n c) (hi : i < n) :
    v ∈ row i ↔ ∃ k < c, a.val (i * c + k) = v := by
  constructor
  · intro hv
    obtain ⟨k, hk, rfl⟩ := List.mem_iff_getElem.mp hv
    have hkc : k < c := by rw [← h.length_row hi]; exact hk
    exact ⟨k, hkc, (h.getElem_row hi hkc).2⟩
  · rintro ⟨k, hk, hval⟩
    obtain ⟨hk', hget⟩ := h.getElem_row hi hk
    rw [hval, Int.natCast_inj] at hget
    rw [hget]
    exact List.getElem_mem hk'

/-- An index is one of a row. -/
theorem split_index (hk : k < n * c) : ∃ i < n, ∃ j < c, k = i * c + j := by
  have hc : 0 < c := Nat.pos_of_ne_zero (fun e => by rw [e] at hk; exact Nat.not_lt_zero k hk)
  refine ⟨k / c, Nat.div_lt_of_lt_mul (Nat.mul_comm n c ▸ hk), k % c, Nat.mod_lt k hc, ?_⟩
  rw [Nat.mul_comm, Nat.div_add_mod]

/-- **Rows that share no value hold each value once.** -/
theorem existsUnique (h : a.Rows row n c) (hnodup : ∀ i < n, (row i).Nodup)
    (hdisj : ∀ i < n, ∀ j < n, v ∈ row i → v ∈ row j → i = j) (hi : i < n) (hv : v ∈ row i) :
    ∃! k, k < n * c ∧ a.val k = v := by
  obtain ⟨j, hj, hval⟩ := (h.mem_row_iff hi).mp hv
  refine ⟨i * c + j, ⟨index_lt hi hj, hval⟩, ?_⟩
  rintro k ⟨hk, hkval⟩
  obtain ⟨i', hi', j', hj', rfl⟩ := split_index hk
  have hrow := hdisj i' hi' i hi ((h.mem_row_iff hi').mpr ⟨j', hj', hkval⟩) hv
  subst hrow
  obtain ⟨hlt, hget⟩ := h.getElem_row hi hj
  obtain ⟨hlt', hget'⟩ := h.getElem_row hi hj'
  rw [hval, Int.natCast_inj] at hget
  rw [hkval, Int.natCast_inj] at hget'
  rw [((hnodup _ hi).getElem_inj_iff).mp (hget'.symm.trans hget)]

end IntArray.Rows

/-! ## The map from nodes to sockets -/

/-- The map that the package ids `id` call for. -/
structure NodeMap (m : Machine) (id : ℕ → ℕ) (t : ProcessorTopo) : Prop where
  /-- the distinct package ids -/
  sockets : t.socketCnt = ((Finset.range m.socketCnt).image id).card
  total : t.socketCnt * t.nodeCnt = m.totalNodes
  nodes : ∃ a, t.nodes = some a ∧ a.len = m.totalNodes ∧
    (∀ n < m.totalNodes, ∃! k, k < m.totalNodes ∧ a.val k = n) ∧
    -- each block is the nodes of one package
    ∀ i < t.socketCnt.toNat, ∃ p, ∀ n : ℕ,
      (∃ k < t.nodeCnt.toNat, a.val (i * t.nodeCnt.toNat + k) = n) ↔
        n < m.totalNodes ∧ id (m.package n) = p

section Relabel

variable {m : Machine} {id : ℕ → ℕ}

/-- Ids below the number of sockets are all taken. -/
theorem exists_socket (hlt : ∀ s < m.socketCnt, id s < m.socketCnt)
    (hinj : ∀ s < m.socketCnt, ∀ s' < m.socketCnt, id s = id s' → s = s') {p : ℕ}
    (hp : p < m.socketCnt) : ∃ s < m.socketCnt, id s = p := by
  have hmem : ∀ {s}, s ∈ (Finset.range m.socketCnt : Set ℕ) ↔ s < m.socketCnt :=
    fun {s} => Finset.mem_coe.trans Finset.mem_range
  have hsurj := Finset.surjOn_of_injOn_of_card_le id
    (fun s hs => hmem.mpr (hlt s (hmem.mp hs)))
    (fun s hs s' hs' => hinj s (hmem.mp hs) s' (hmem.mp hs'))
    (Nat.le_refl (Finset.range m.socketCnt).card)
  obtain ⟨s, hs, he⟩ := hsurj (hmem.mpr hp)
  exact ⟨s, hmem.mp hs, he⟩

theorem length_relabelled (hlt : ∀ s < m.socketCnt, id s < m.socketCnt)
    (hinj : ∀ s < m.socketCnt, ∀ s' < m.socketCnt, id s = id s' → s = s') {p : ℕ}
    (hp : p < m.socketCnt) :
    ((List.range m.totalNodes).filter (fun n => id (m.package n) = p)).length = m.nodeCnt := by
  obtain ⟨s, hs, rfl⟩ := exists_socket hlt hinj hp
  have hsame : (List.range m.totalNodes).filter (fun n => id (m.package n) = id s) =
      (List.range m.totalNodes).filter (fun n => m.package n = s) := by
    apply List.filter_congr
    intro n hn
    rw [decide_eq_decide]
    exact ⟨hinj _ (m.package_lt n (List.mem_range.mp hn)) s hs, fun e => by rw [e]⟩
  rw [hsame]
  exact m.package_length s hs

/-- The machine with its sockets numbered by their package ids. -/
def Machine.relabel (m : Machine) (id : ℕ → ℕ) (hlt : ∀ s < m.socketCnt, id s < m.socketCnt)
    (hinj : ∀ s < m.socketCnt, ∀ s' < m.socketCnt, id s = id s' → s = s') : Machine :=
  { m with
    package := fun n => id (m.package n)
    package_lt := fun n hn => hlt _ (m.package_lt n hn)
    package_length := fun _ hp => length_relabelled hlt hinj hp }

end Relabel

section Packages

variable {sys : System} {m : Machine} {id : ℕ → ℕ} {t : ProcessorTopo}

theorem card_ids (hinj : ∀ s < m.socketCnt, ∀ s' < m.socketCnt, id s = id s' → s = s') :
    ((Finset.range m.socketCnt).image id).card = m.socketCnt := by
  rw [Finset.card_image_of_injOn, Finset.card_range]
  intro s hs s' hs'
  exact hinj s (Finset.mem_range.mp (Finset.mem_coe.mp hs)) s'
    (Finset.mem_range.mp (Finset.mem_coe.mp hs'))

/-- Reconstructing the relabelled machine gives the map. -/
theorem Reconstructs.nodeMap {hlt : ∀ s < m.socketCnt, id s < m.socketCnt}
    {hinj : ∀ s < m.socketCnt, ∀ s' < m.socketCnt, id s = id s' → s = s'}
    (h : Reconstructs (m.relabel id hlt hinj) t) : NodeMap m id t := by
  have hmem : ∀ {s n : ℕ}, n ∈ (m.relabel id hlt hinj).nodesOn s ↔
      n < m.totalNodes ∧ id (m.package n) = s := by
    intro s n
    rw [Machine.nodesOn, List.mem_filter, List.mem_range, decide_eq_true_eq]
    exact Iff.rfl
  have hsockets : t.socketCnt = m.socketCnt := h.socketCnt
  have hnodeCnt : t.nodeCnt = m.nodeCnt := h.nodeCnt
  obtain ⟨a, ha, hrows⟩ := h.nodes
  refine ⟨?_, ?_, a, ha, hrows.len, ?_, ?_⟩
  · rw [card_ids hinj]
    exact hsockets
  · rw [hsockets, hnodeCnt]
    exact (Int.natCast_mul ..).symm
  · intro n hn
    apply hrows.existsUnique (fun s _ => List.nodup_range.filter _)
      (fun s _ s' _ hs hs' => (hmem.mp hs).2.symm.trans (hmem.mp hs').2)
      (hlt _ (m.package_lt n hn))
    exact hmem.mpr ⟨hn, rfl⟩
  · rw [hsockets, hnodeCnt, Int.toNat_natCast, Int.toNat_natCast]
    intro i hi
    exact ⟨i, fun n => (hrows.mem_row_iff hi).symm.trans hmem⟩

/-- **The map is right exactly when the package ids have no gap**: when they
are the numbers below that of the sockets, in any order. That is so whenever
the reader succeeds; with memory for the arrays and all its files open it
succeeds with the right map if, and only if, there is none. -/
theorem sysfs_node_map_iff (sys : System) (m : Machine) (id : ℕ → ℕ)
    (hinj : ∀ s < m.socketCnt, ∀ s' < m.socketCnt, id s = id s' → s = s')
    (h : ShowsAs sys m id) (t : State) :
    (∀ t', reeactGetTopoSysfs sys t = .ok () t' →
      (NodeMap m id t'.toProcessorTopo ↔ ∀ s < m.socketCnt, id s < m.socketCnt)) ∧
    (sys.Affords t.opened m.opens →
      ((∃ t', reeactGetTopoSysfs sys t = .ok () t' ∧ NodeMap m id t'.toProcessorTopo) ↔
        ∀ s < m.socketCnt, id s < m.socketCnt)) := by
  have hshows : ∀ hlt, Shows sys (m.relabel id hlt hinj) := fun _ =>
    ⟨h.onlineNodes, h.onlineCpus, h.threadSiblings, h.cpulist, h.packageId⟩
  have hmap : ∀ t', reeactGetTopoSysfs sys t = .ok () t' →
      (NodeMap m id t'.toProcessorTopo ↔ ∀ s < m.socketCnt, id s < m.socketCnt) := by
    intro t' hrun
    have hspec := wp_reeactGetTopoSysfs h.readsIds t
    unfold wp at hspec
    rw [hrun] at hspec
    rw [hspec.2]
    constructor
    · intro hmap s hs
      have hsockets := hmap.sockets
      rw [card_ids hinj] at hsockets
      rw [← Int.ofNat_inj.mp hsockets]
      exact h.id_lt_socketCnt hs
    · exact fun hlt => (hshows hlt).reconstructs.nodeMap
  refine ⟨hmap, fun hroom => ⟨fun ⟨t', hrun, hnodes⟩ => (hmap t' hrun).mp hnodes, fun hlt => ?_⟩⟩
  have hrun := (hshows hlt).run hroom
  exact ⟨_, hrun, (hmap _ hrun).mpr hlt⟩

end Packages

/-- Two sockets of two nodes; the nodes alternate between them. -/
def alternating : Machine :=
  { singleCpus 3 with
    socketCnt := 2
    nodeCnt := 2
    package := fun n => n % 2
    socketCnt_pos := Nat.two_pos
    nodeCnt_pos := Nat.two_pos
    node_lt := by decide
    firsts_length := by decide
    package_lt := by decide
    package_length := by decide }

/-- What sysfs shows for it: the package of socket 0 is 1, and that of socket 1
is 0. -/
def alternatingSysfs : System := singleCpusSysfs 3 (fun n => 1 - n % 2)

theorem alternating_shows : ShowsAs alternatingSysfs alternating (fun s => 1 - s) :=
  have h := singleCpus_shows 3 (fun n => 1 - n % 2)
  ⟨h.onlineNodes, h.onlineCpus, h.threadSiblings, h.cpulist, h.packageId⟩

theorem sysfs_node_map_alternating :
    ∃ t', reeactGetTopoSysfs alternatingSysfs .cleared = .ok () t' ∧
      NodeMap alternating (fun s => 1 - s) t'.toProcessorTopo :=
  ((sysfs_node_map_iff alternatingSysfs alternating (fun s => 1 - s) (by decide) alternating_shows
    .cleared).2 ⟨by decide, rfl, rfl⟩).mpr (by decide)

/-- Two nodes on the packages 0 and 2: the reader finds three sockets, and no
node for each. -/
theorem sysfs_sparse_packages :
    ShowsAs (singleCpusSysfs 1 (fun s => 2 * s)) (singleCpus 1) (fun s => 2 * s) ∧
    ∃ t, reeactGetTopoSysfs (singleCpusSysfs 1 (fun s => 2 * s)) .cleared = .ok () t ∧
      t.socketCnt = 3 ∧ t.nodeCnt = 0 ∧
      ¬ NodeMap (singleCpus 1) (fun s => 2 * s) t.toProcessorTopo := by
  have hshows := singleCpus_shows 1 (fun s => 2 * s)
  refine ⟨hshows, _, sysfs_ok hshows.readsIds (by decide), by decide, by decide, fun hmap => ?_⟩
  have htotal := hmap.total
  revert htotal
  decide

end Reeact.Topo
