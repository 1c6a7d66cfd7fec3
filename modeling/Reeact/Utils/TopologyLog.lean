import Reeact.Utils.TopologyPackages

/-!
# reeact.c — the topology log

What `reeact_log_topology` of `reeact.c` prints in a debug build. From the
topology of a homogeneous machine it prints every socket with its nodes and
every node with its cores, each node and each core of the machine once.
-/

namespace Reeact.Topo

open Exits Rows

/-- One `fprintf`, with its arguments. -/
inductive LogItem where
  /-- `"Socket count is %d, node per socket is %d, cores per node is %d\n"` -/
  | counts (socketCnt nodeCnt coreCnt : Int)
  /-- `"Socket %d:\n"` -/
  | socket (i : Int)
  /-- `"\t Node %d:\n\t\t"` -/
  | node (id : Int)
  /-- `"%d "` -/
  | core (id : Int)
  /-- `"\n"` -/
  | newline
deriving DecidableEq, Repr

/-- The innermost loop: the cores of the node `nodeId`. -/
def printCores (coreCnt nodeId : Int) (out : List LogItem) : Prog (List LogItem) :=
  (List.range coreCnt.toNat).foldlM (fun (out : List LogItem) (k : ℕ) => do
    let coreId ← loadCores (nodeId * coreCnt + k)
    pure (out ++ [.core coreId])) out

/-- The loop in the middle: the nodes of socket `i`. -/
def printNodes (t : State) (i : ℕ) (out : List LogItem) : Prog (List LogItem) :=
  (List.range t.nodeCnt.toNat).foldlM (fun (out : List LogItem) (j : ℕ) => do
    let nodeId ← loadNodes (i * t.nodeCnt + j)
    let out ← printCores t.coreCnt nodeId (out ++ [.node nodeId])
    pure (out ++ [.newline])) out

/-- `reeact_log_topology`: what it prints. -/
def printTopology : Prog (List LogItem) := do
  let t ← get
  (List.range t.socketCnt.toNat).foldlM
    (fun (out : List LogItem) (i : ℕ) => printNodes t i (out ++ [.socket i]))
    [.counts t.socketCnt t.nodeCnt t.coreCnt]

/-- It reads what `reeactLogTopology` says it reads. -/
theorem discard_printTopology : discard printTopology = reeactLogTopology := by
  unfold printTopology reeactLogTopology
  rw [discard_eq, map_bind]
  congr 1
  funext t
  apply discard_foldlM
  intro out i
  apply discard_foldlM
  intro out j
  rw [discard_eq, map_bind]
  congr 1
  funext nodeId
  rw [← discard_foldlM (f := fun (out : List LogItem) (k : ℕ) => do
    let coreId ← loadCores (nodeId * t.coreCnt + k)
    pure (out ++ [.core coreId])) _ _ (out ++ [.node nodeId])]
  · rw [discard_eq, map_bind]
    simp only [map_pure, bind_pure_comp]
    rfl
  · intro out k
    rw [discard_eq, map_bind, discard_eq]
    simp only [map_pure, bind_pure_comp]

/-! ## The log of a machine -/

namespace Machine

variable (m : Machine)

def nodeLog (n : ℕ) : List LogItem :=
  .node n :: (m.firsts n).map (fun i => .core i) ++ [.newline]

def socketLog (s : ℕ) : List LogItem := .socket s :: (m.nodesOn s).flatMap m.nodeLog

def log : List LogItem :=
  .counts m.socketCnt m.nodeCnt m.coreCnt :: (List.range m.socketCnt).flatMap m.socketLog

end Machine

section Print

variable {m : Machine} {t : State} {a b : IntArray} {E : Exit → State → Prop}

theorem nodesOn_lt {s n : ℕ} (h : n ∈ m.nodesOn s) : n < m.totalNodes :=
  List.mem_range.mp (List.mem_of_mem_filter h)

/-- The cores of one node. -/
theorem wp_printCores (hcores : t.cores = some b) (hb : b.Rows m.firsts m.totalNodes m.coreCnt)
    {n : ℕ} (hn : n < m.totalNodes) (out : List LogItem) :
    wp (printCores m.coreCnt n out)
      (fun out' t' => out' = out ++ (m.firsts n).map (fun i => .core i) ∧ t' = t) E t := by
  have hlen : (m.firsts n).length = m.coreCnt := m.firsts_length n hn
  have hloop : wp (printCores m.coreCnt n out)
      (fun out' t' => out' = out ++ ((m.firsts n).take m.coreCnt).map (fun i => .core i) ∧ t' = t)
      E t := by
    unfold printCores
    apply wp_range (fun k out' t' =>
      out' = out ++ ((m.firsts n).take k).map (fun i : ℕ => LogItem.core i) ∧ t' = t)
    · rintro k _ _ hk ⟨rfl, rfl⟩
      obtain ⟨hk', hval⟩ := hb.getElem_row hn hk
      rw [wp_bind]
      apply wp_loadCores hcores
      rw [natCast_index]
      apply IntArray.wp_load_nat (by rw [hb.len]; exact index_lt hn hk)
      refine ⟨?_, rfl⟩
      rw [hval, List.take_add_one, List.getElem?_eq_getElem hk', Option.toList_some,
        List.map_append, List.map_singleton, List.append_assoc]
    · exact ⟨by rw [List.take_zero, List.map_nil, List.append_nil], rfl⟩
  rwa [List.take_of_length_le (by omega)] at hloop

/-- The nodes of one socket. -/
theorem wp_printNodes (h : Reconstructs m t.toProcessorTopo) {s : ℕ} (hs : s < m.socketCnt)
    (out : List LogItem) :
    wp (printNodes t s out)
      (fun out' t' => out' = out ++ (m.nodesOn s).flatMap m.nodeLog ∧ t' = t) E t := by
  obtain ⟨a, hnodes, ha⟩ := h.nodes
  obtain ⟨b, hcores, hb⟩ := h.cores
  have hlen : (m.nodesOn s).length = m.nodeCnt := m.package_length s hs
  have hloop : wp (printNodes t s out)
      (fun out' t' => out' = out ++ ((m.nodesOn s).take m.nodeCnt).flatMap m.nodeLog ∧ t' = t)
      E t := by
    unfold printNodes
    rw [h.nodeCnt, h.coreCnt]
    apply wp_range (fun j out' t' =>
      out' = out ++ ((m.nodesOn s).take j).flatMap m.nodeLog ∧ t' = t)
    · rintro j _ _ hj ⟨rfl, rfl⟩
      obtain ⟨hj', hval⟩ := ha.getElem_row hs hj
      rw [wp_bind]
      apply wp_loadNodes hnodes
      rw [natCast_index]
      apply IntArray.wp_load_nat (by rw [ha.len]; exact index_lt hs hj)
      rw [hval, wp_bind]
      apply wp_mono_ok (wp_printCores hcores hb (nodesOn_lt (List.getElem_mem hj')) _)
      rintro _ _ ⟨rfl, rfl⟩
      refine ⟨?_, rfl⟩
      rw [List.take_add_one, List.getElem?_eq_getElem hj', Option.toList_some, List.flatMap_append,
        List.flatMap_singleton, Machine.nodeLog]
      simp only [List.append_assoc, List.cons_append, List.nil_append]
    · exact ⟨by rw [List.take_zero, List.flatMap_nil, List.append_nil], rfl⟩
  rwa [List.take_of_length_le (by omega)] at hloop

/-- **The log of a topology that tells the machine** is that of the machine. -/
theorem Reconstructs.printed (h : Reconstructs m t.toProcessorTopo) :
    printTopology t = .ok m.log t := by
  have hloop : wp printTopology (fun out t' => out = m.log ∧ t' = t) (fun _ _ => False) t := by
    unfold printTopology
    rw [wp_bind, wp_get, h.socketCnt, h.nodeCnt, h.coreCnt]
    apply wp_range (fun s out t' => out = .counts m.socketCnt m.nodeCnt m.coreCnt ::
      (List.range s).flatMap m.socketLog ∧ t' = t)
    · rintro s _ _ hs ⟨rfl, rfl⟩
      apply wp_mono_ok (wp_printNodes h hs _)
      rintro _ _ ⟨rfl, rfl⟩
      refine ⟨?_, rfl⟩
      rw [List.range_succ, List.flatMap_append, List.flatMap_singleton, Machine.socketLog]
      simp only [List.append_assoc, List.cons_append, List.nil_append]
    · exact ⟨rfl, rfl⟩
  obtain ⟨_, _, hok, rfl, rfl⟩ := ok_of_wp hloop
  exact hok

end Print

/-! ## What is in it -/

def LogItem.nodeId? : LogItem → Option Int
  | .node id => some id
  | _ => none

def LogItem.coreId? : LogItem → Option Int
  | .core id => some id
  | _ => none

section Items

variable (m : Machine)

theorem nodeIds_nodeLog (n : ℕ) : (m.nodeLog n).filterMap LogItem.nodeId? = [(n : Int)] := by
  unfold Machine.nodeLog
  rw [List.filterMap_append, List.filterMap_cons_some (f := LogItem.nodeId?) (b := (n : Int)) rfl,
    List.filterMap_map]
  have hnone : (m.firsts n).filterMap (LogItem.nodeId? ∘ fun i : ℕ => LogItem.core i) = [] := by
    rw [List.filterMap_eq_nil_iff]
    exact fun _ _ => rfl
  rw [hnone]
  rfl

theorem coreIds_nodeLog (n : ℕ) :
    (m.nodeLog n).filterMap LogItem.coreId? = (m.firsts n).map Int.ofNat := by
  unfold Machine.nodeLog
  rw [List.filterMap_append, List.filterMap_cons_none rfl, List.filterMap_map]
  have hsome : (m.firsts n).filterMap (LogItem.coreId? ∘ fun i : ℕ => LogItem.core i) =
      (m.firsts n).map Int.ofNat := by
    rw [← List.filterMap_eq_map]
    rfl
  rw [hsome]
  exact List.append_nil _

/-- The items of one kind, where a node's part holds `ids` of them. -/
theorem filterMap_log {f : LogItem → Option Int} {ids : ℕ → List Int}
    (hcounts : ∀ s n c, f (.counts s n c) = none) (hsocket : ∀ i, f (.socket i) = none)
    (hnode : ∀ n, (m.nodeLog n).filterMap f = ids n) :
    m.log.filterMap f = (rows m.nodesOn m.socketCnt).flatMap ids := by
  unfold Machine.log rows
  rw [List.filterMap_cons_none (hcounts ..), List.filterMap_flatMap, List.flatMap_assoc]
  congr 1
  funext s
  unfold Machine.socketLog
  rw [List.filterMap_cons_none (hsocket _), List.filterMap_flatMap]
  congr 1
  funext n
  exact hnode n

/-- Every node is on one socket, -/
theorem mem_rows_nodesOn {n : ℕ} : n ∈ rows m.nodesOn m.socketCnt ↔ n < m.totalNodes := by
  unfold rows
  rw [List.mem_flatMap]
  constructor
  · rintro ⟨s, -, hn⟩
    exact nodesOn_lt hn
  · intro hn
    refine ⟨m.package n, List.mem_range.mpr (m.package_lt n hn), ?_⟩
    exact List.mem_filter.mpr ⟨List.mem_range.mpr hn, decide_eq_true rfl⟩

theorem nodup_rows_nodesOn : (rows m.nodesOn m.socketCnt).Nodup := by
  unfold rows
  rw [List.nodup_flatMap]
  refine ⟨fun s _ => List.nodup_range.filter _, ?_⟩
  apply List.nodup_range.imp
  intro s s' hne n hs hs'
  have h := of_decide_eq_true (List.mem_filter.mp hs).2
  have h' := of_decide_eq_true (List.mem_filter.mp hs').2
  exact hne (h.symm.trans h')

/-- and every core on one node. -/
theorem nodup_cores : ((rows m.nodesOn m.socketCnt).flatMap m.firsts).Nodup := by
  rw [List.nodup_flatMap]
  refine ⟨fun n _ => List.nodup_range.filter _, ?_⟩
  apply (nodup_rows_nodesOn m).imp
  intro n n' hne i hn hn'
  have h := (of_decide_eq_true (List.mem_filter.mp hn).2).1
  have h' := (of_decide_eq_true (List.mem_filter.mp hn').2).1
  exact hne (h.symm.trans h')

theorem mem_cores {i : ℕ} : i ∈ (rows m.nodesOn m.socketCnt).flatMap m.firsts ↔
    i < m.cpuCnt ∧ IsFirst m.core i := by
  rw [List.mem_flatMap]
  constructor
  · rintro ⟨n, -, hi⟩
    have h := List.mem_filter.mp hi
    exact ⟨List.mem_range.mp h.1, (of_decide_eq_true h.2).2⟩
  · rintro ⟨hi, hfirst⟩
    refine ⟨m.node i, (mem_rows_nodesOn m).mpr (m.node_lt i hi), ?_⟩
    exact List.mem_filter.mpr ⟨List.mem_range.mpr hi, decide_eq_true ⟨rfl, hfirst⟩⟩

/-- Each node of the machine, and the first cpu of each core, once. -/
structure LogsOnce (m : Machine) (log : List LogItem) : Prop where
  nodes : (log.filterMap LogItem.nodeId?).Perm ((List.range m.totalNodes).map Int.ofNat)
  cores : (log.filterMap LogItem.coreId?).Perm
    (((List.range m.cpuCnt).filter (fun i => IsFirst m.core i)).map Int.ofNat)

theorem logsOnce_log : LogsOnce m m.log where
  nodes := by
    rw [filterMap_log m (fun _ _ _ => rfl) (fun _ => rfl) (nodeIds_nodeLog m)]
    show ((rows m.nodesOn m.socketCnt).flatMap fun n => [Int.ofNat n]).Perm _
    rw [← List.map_eq_flatMap]
    apply List.Perm.map
    rw [List.perm_ext_iff_of_nodup (nodup_rows_nodesOn m) List.nodup_range]
    intro n
    rw [mem_rows_nodesOn, List.mem_range]
  cores := by
    rw [filterMap_log m (fun _ _ _ => rfl) (fun _ => rfl) (coreIds_nodeLog m), ← List.map_flatMap]
    apply List.Perm.map
    rw [List.perm_ext_iff_of_nodup (nodup_cores m) (List.nodup_range.filter _)]
    intro i
    rw [mem_cores, List.mem_filter, List.mem_range, decide_eq_true_eq]

end Items

end Reeact.Topo
