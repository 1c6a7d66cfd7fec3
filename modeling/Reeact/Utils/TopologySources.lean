import Reeact.Utils.TopologyGet
import Reeact.Utils.TopologyPackages
import Reeact.Utils.TopologyRoundTrip

/-!
# reeact_topology — one source or the other

`reeact_get_topology` starts sysfs with whatever a rejected configuration file
has left in the outputs. None of it survives a success: the outputs are those
of one source alone (`topology_unmixed`). And the two sources agree: what
sysfs tells of a machine, written down as a configuration file, is read back
as the same topology (`sources_agree`).
-/

namespace Reeact.Topo

open Exits Rows

/-! ## Which source -/

section Source

variable {sys : System} {t t' : State}

/-- What sysfs makes of the outputs does not depend on what they were. -/
theorem sysfs_ok_iff (hp : sys.ReadsIds) : reeactGetTopoSysfs sys t = .ok () t' ↔
    sys.fate t.opened = none ∧ t' = ⟨sys.result, t.opened + sys.opens - 1⟩ := by
  constructor
  · intro hrun
    have hspec := wp_reeactGetTopoSysfs hp t
    unfold wp at hspec
    rw [hrun] at hspec
    exact hspec
  · rintro ⟨hfate, rfl⟩
    exact sysfs_ok hp hfate

end Source

/-- **The outputs are those of one source.** If the configuration file is
named and accepted, they are what it says, whatever the sysfs files contain;
otherwise the call ends as `reeact_get_topo_sysfs` would have ended on any
outputs, with as many files open: with the same topology, or by the same exit.
The entries `malloc` leaves are part of the topology, and the same in both. -/
theorem topology_unmixed (sys : System) (hp : sys.ParsesIds) (named : Bool) (t t₀ : State)
    (hopened : t₀.opened = t.opened + sys.leaked named) :
    (named ∧ sys.Accepted → ∃ t', reeactGetTopoConf sys ⟨.cleared, t.opened⟩ = .ok () t' ∧
      reeactGetTopology sys named true t = .ok () t') ∧
    (¬ (named ∧ sys.Accepted) →
      (∀ t', reeactGetTopology sys named true t = .ok () t' ↔
        reeactGetTopoSysfs sys t₀ = .ok () t') ∧
      ∀ e, (∃ t', reeactGetTopology sys named true t = .error e t') ↔
        ∃ t', reeactGetTopoSysfs sys t₀ = .error e t') := by
  constructor
  · rintro ⟨hnamed, haccepted⟩
    subst hnamed
    exact get_of_accepted haccepted t
  · intro hnot
    obtain ⟨t₁, hleft, hget⟩ := get_of_not_accepted hnot t
    rw [hget]
    constructor
    · intro t'
      rw [sysfs_ok_iff hp.readsIds, sysfs_ok_iff hp.readsIds, hleft.opened, hopened]
    · intro e
      rw [sysfs_error_iff hp.readsIds, sysfs_error_iff hp.readsIds, hleft.opened, hopened]

/-- One cpu, and a configuration file of one line. -/
def countsAndCore : System :=
  { oneCore with conf := some ['s', ' ', '7', ',', '1', ',', '1', '\n'] }

theorem topology_unmixed_leftover : ∃ t',
    reeactGetTopology countsAndCore true true .cleared = .ok () t' ∧
      reeactGetTopoSysfs countsAndCore ⟨.cleared, 1⟩ = .ok () t' := by
  have hnot : ¬ (true = true ∧ countsAndCore.Accepted) := by
    rintro ⟨-, content, hconf, hcomplete⟩
    cases hconf
    obtain ⟨vs, hv⟩ := hcomplete.nodes
    have hnone : given countsAndCore 'n' (bufsOf ['s', ' ', '7', ',', '1', ',', '1', '\n']) =
        none := rfl
    rw [hnone] at hv
    cases hv
  have hp : countsAndCore.ParsesIds := parsesIds_commaList rfl
  have hrun : reeactGetTopoSysfs countsAndCore ⟨.cleared, 1⟩ = _ := sysfs_ok hp.readsIds (by decide)
  have hboth := (topology_unmixed countsAndCore hp true .cleared ⟨.cleared, 1⟩ rfl).2 hnot
  exact ⟨_, (hboth.1 _).mpr hrun, hrun⟩

/-! ## The two sources agree -/

/-- The same topology: only the entries the arrays have matter. -/
structure SameTopo (t t' : ProcessorTopo) : Prop where
  counts : (t.socketCnt, t.nodeCnt, t.coreCnt) = (t'.socketCnt, t'.nodeCnt, t'.coreCnt)
  nodes : ∃ a b, t.nodes = some a ∧ t'.nodes = some b ∧ a.len = b.len ∧
    ∀ k < a.len, a.val k = b.val k
  cores : ∃ a b, t.cores = some a ∧ t'.cores = some b ∧ a.len = b.len ∧
    ∀ k < a.len, a.val k = b.val k

section Agreement

variable {m : Machine} {row : ℕ → List ℕ} {n c : ℕ}

/-- Rows one after the other are the entries of the array. -/
theorem val_of_rows {a : IntArray} (h : a.Rows row n c) {k : ℕ} (hk : k < n * c) :
    a.val k = (IntArray.ofList ((rows row n).map Int.ofNat)).val k := by
  have hrow : ∀ i < n, (row i).length = c := fun i hi => h.length_row hi
  have hlen : k < ((rows row n).map Int.ofNat).length := by
    rw [List.length_map, length_rows hrow]
    exact hk
  obtain ⟨i, hi, j, hj, rfl⟩ := IntArray.Rows.split_index hk
  obtain ⟨hj', hval⟩ := h.getElem_row hi hj
  have hget : (rows row n)[i * c + j]? = some (row i)[j] := by
    rw [getElem?_rows hrow hi hj, List.getElem?_eq_getElem hj']
  rw [ofList_val hlen, List.getElem_map, hval]
  congr 1
  rw [List.getElem?_eq_getElem (by simpa using hlen)] at hget
  exact (Option.some.inj hget).symm

theorem Machine.length_nodesOn (m : Machine) {s : ℕ} (hs : s < m.socketCnt) :
    (m.nodesOn s).length = m.nodeCnt := m.package_length s hs

theorem Machine.length_firsts (m : Machine) {i : ℕ} (hi : i < m.totalNodes) :
    (m.firsts i).length = m.coreCnt := m.firsts_length i hi

theorem Machine.length_rows_nodesOn (m : Machine) :
    (rows m.nodesOn m.socketCnt).length = m.totalNodes :=
  length_rows (fun _ hs => m.length_nodesOn hs)

theorem Machine.length_rows_firsts (m : Machine) :
    (rows m.firsts m.totalNodes).length = m.totalNodes * m.coreCnt :=
  length_rows (fun _ hi => m.length_firsts hi)

/-- The numbers of the machine are `int`s. -/
structure Machine.Fits (m : Machine) : Prop where
  cpuCnt : m.cpuCnt ≤ INT_MAX
  /-- and so is the number of the files, more than there are nodes or cores -/
  opens : m.opens ≤ INT_MAX

theorem Machine.Fits.of_affords {sys : System} {k : ℕ} (hcpu : m.cpuCnt ≤ INT_MAX)
    (h : sys.Affords k m.opens) : m.Fits where
  cpuCnt := hcpu
  opens := by
    have hfiles := h.files
    have hint := sys.fds_le
    omega

theorem Machine.Fits.totalNodes_le (h : m.Fits) : m.totalNodes ≤ INT_MAX := by
  have hopens := h.opens
  unfold Machine.opens at hopens
  omega

theorem Machine.Fits.totalCores_le (h : m.Fits) : m.totalNodes * m.coreCnt ≤ INT_MAX := by
  have hopens := h.opens
  unfold Machine.opens at hopens
  omega

/-- The machine as its user would write it down. -/
def Machine.written (m : Machine) (h : m.Fits) : UserTopo where
  socketCnt := m.socketCnt
  nodeCnt := m.nodeCnt
  coreCnt := m.coreCnt
  nodes := rows m.nodesOn m.socketCnt
  cores := rows m.firsts m.totalNodes
  socketCnt_pos := m.socketCnt_pos
  nodeCnt_pos := m.nodeCnt_pos
  coreCnt_pos := m.coreCnt_pos
  counts := by
    refine ⟨List.cons_ne_nil _ _, show 3 ≤ INT_MAX by decide, fun n hn => ?_⟩
    simp only [List.mem_cons, List.not_mem_nil, or_false] at hn
    rcases hn with rfl | rfl | rfl
    · exact Nat.le_trans (Nat.le_mul_of_pos_right _ m.nodeCnt_pos) h.totalNodes_le
    · exact Nat.le_trans (Nat.le_mul_of_pos_left _ m.socketCnt_pos) h.totalNodes_le
    · exact Nat.le_trans (Nat.le_mul_of_pos_left _ (ShowsAs.totalNodes_pos m)) h.totalCores_le
  nodes_ints := by
    have hlen := m.length_rows_nodesOn
    refine ⟨List.ne_nil_of_length_pos (by rw [hlen]; exact ShowsAs.totalNodes_pos m),
      by rw [hlen]; exact h.totalNodes_le, fun n hn => ?_⟩
    obtain ⟨s, -, hn⟩ := List.mem_flatMap.mp hn
    have hlt := List.mem_range.mp (List.mem_of_mem_filter hn)
    exact Nat.le_trans (Nat.le_of_lt hlt) h.totalNodes_le
  cores_ints := by
    have hlen := m.length_rows_firsts
    refine ⟨List.ne_nil_of_length_pos
        (by rw [hlen]; exact Nat.mul_pos (ShowsAs.totalNodes_pos m) m.coreCnt_pos),
      by rw [hlen]; exact h.totalCores_le, fun i hi => ?_⟩
    obtain ⟨n, -, hi⟩ := List.mem_flatMap.mp hi
    have hlt := List.mem_range.mp (List.mem_of_mem_filter hi)
    exact Nat.le_trans (Nat.le_of_lt hlt) h.cpuCnt

/-- What tells the machine is what its user would have written. -/
theorem Reconstructs.sameTopo {t : ProcessorTopo} (h : Reconstructs m t) (hfits : m.Fits) :
    SameTopo t (m.written hfits).topo where
  counts := by rw [h.socketCnt, h.nodeCnt, h.coreCnt]; rfl
  nodes := by
    obtain ⟨a, ha, hrows⟩ := h.nodes
    refine ⟨a, _, ha, rfl, ?_, fun k hk => val_of_rows hrows (hrows.len ▸ hk)⟩
    rw [hrows.len]
    show _ = ((rows m.nodesOn m.socketCnt).map Int.ofNat).length
    rw [List.length_map, m.length_rows_nodesOn]
    rfl
  cores := by
    obtain ⟨a, ha, hrows⟩ := h.cores
    refine ⟨a, _, ha, rfl, ?_, fun k hk => val_of_rows hrows (hrows.len ▸ hk)⟩
    rw [hrows.len]
    show _ = ((rows m.firsts m.totalNodes).map Int.ofNat).length
    rw [List.length_map, m.length_rows_firsts]

end Agreement

/-- **The two sources agree.** What sysfs shows of a machine, written down in
the configuration file (its three lines in any order, among any others), gives
the topology that sysfs gives without the file: the same counts and, entry by
entry, the same arrays. -/
theorem sources_agree (sys : System) (hinv : sys.Inverts) (m : Machine) (h : Shows sys m)
    (t : State) (hcpu : m.cpuCnt ≤ INT_MAX) (hroom : sys.Affords t.opened m.opens)
    (s n c : Label) (full : List (List Char)) (last : List Char)
    (hlines : ∀ line ∈ full ++ [last], '\n' ∉ line) (hconf : sys.conf = some (render full last))
    (hkeys : (keyed (full ++ [last])).Perm ((m.written (.of_affords hcpu hroom)).keyLines s n c)) :
    ∃ t₁ t₂, reeactGetTopology sys false true t = .ok () t₁ ∧
      reeactGetTopology sys true true t = .ok () t₂ ∧ Reconstructs m t₁.toProcessorTopo ∧
        SameTopo t₁.toProcessorTopo t₂.toProcessorTopo := by
  obtain ⟨t₂, hread, hget₂⟩ :=
    get_of_accepted ⟨_, hconf, complete_keyLines hinv hlines hkeys⟩ t
  rw [read_keyLines hinv hlines hconf hkeys] at hread
  cases hread
  exact ⟨_, _, h.run (t := ⟨.cleared, t.opened⟩) hroom, hget₂, h.reconstructs,
    h.reconstructs.sameTopo _⟩

/-- The four cpus on two nodes, with the file that says so. -/
def crossedConf : System :=
  { crossedSysfs with conf := some (render [keyLine 'c' colon [0, 1], keyLine 's' colon [2, 1, 1]]
    (keyLine 'n' colon [1, 0])) }

theorem crossedConf_shows : Shows crossedConf crossed :=
  ⟨crossed_shows.onlineNodes, crossed_shows.onlineCpus, crossed_shows.threadSiblings,
    crossed_shows.cpulist, crossed_shows.packageId⟩

theorem sources_agree_crossed : ∃ t₁ t₂,
    reeactGetTopology crossedConf false true .cleared = .ok () t₁ ∧
      reeactGetTopology crossedConf true true .cleared = .ok () t₂ ∧
        Reconstructs crossed t₁.toProcessorTopo ∧
          SameTopo t₁.toProcessorTopo t₂.toProcessorTopo :=
  sources_agree crossedConf (inverts_commaList rfl) crossed crossedConf_shows .cleared (by decide)
    ⟨by decide, rfl, rfl⟩ colon colon colon
    [keyLine 'c' colon [0, 1], keyLine 's' colon [2, 1, 1]] (keyLine 'n' colon [1, 0])
    (by decide) rfl (by decide)

end Reeact.Topo
