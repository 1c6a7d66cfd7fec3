import Reeact.Utils.TopologyFate

/-!
# reeact_topology — both readers

`reeact_get_topology` clears the outputs, reads the configuration file, and
where that fails starts sysfs from what the file has left in them, with the
file still open. So a call that fails leaves cleared outputs exactly when it
fails before the first output sysfs writes, and the file has left none; or
there is no memory for that output, and nothing else is left
(`topology_cleared_iff`).
-/

namespace Reeact.Topo

open Exits

/-! ## What the file leaves -/

/-- There is a configuration file, and it is accepted. -/
def System.Accepted (sys : System) : Prop :=
  ∃ content, sys.conf = some content ∧ Complete sys (bufsOf content)

/-- No line before the first one in error holds nodes, cores, or counts that
are not all zero. -/
def System.LeavesCleared (sys : System) : Prop :=
  ∀ content, sys.conf = some content →
    countsOf (given sys 's' (readable sys (bufsOf content))) = (0, 0, 0) ∧
    given sys 'n' (readable sys (bufsOf content)) = none ∧
    given sys 'c' (readable sys (bufsOf content)) = none

/-- None holds nodes, or a count of sockets or of nodes that is not zero. -/
def System.LeavesNoNodes (sys : System) : Prop :=
  ∀ content, sys.conf = some content →
    (countsOf (given sys 's' (readable sys (bufsOf content)))).1 = 0 ∧
    (countsOf (given sys 's' (readable sys (bufsOf content)))).2.1 = 0 ∧
    given sys 'n' (readable sys (bufsOf content)) = none

/-- The configuration file, which stays open where it is rejected. -/
def System.leaked (sys : System) (named : Bool) : ℕ := if named ∧ sys.conf.isSome then 1 else 0

/-- What sysfs starts from, if `k` files were open before the call. -/
structure System.Leftover (sys : System) (named : Bool) (k : ℕ) (t : State) : Prop where
  opened : t.opened = k + sys.leaked named
  cleared : sys.KeepsOnError → (t.toProcessorTopo = .cleared ↔ (named → sys.LeavesCleared))
  noNodes : sys.KeepsOnError →
    (t.socketCnt = 0 ∧ t.nodeCnt = 0 ∧ t.nodes = none ↔ (named → sys.LeavesNoNodes))

section Leftovers

variable {sys : System} {named : Bool} {k : ℕ}

theorem Read.eq_cleared_iff {bufs : List (List Char)} {t : ProcessorTopo} (h : Read sys bufs t) :
    t = .cleared ↔ countsOf (given sys 's' bufs) = (0, 0, 0) ∧ given sys 'n' bufs = none ∧
      given sys 'c' bufs = none := by
  have hcounts := h.counts
  have hnodes := h.nodes
  have hcores := h.cores
  constructor
  · rintro rfl
    exact ⟨hcounts.symm, Option.map_eq_none_iff.mp hnodes.symm,
      Option.map_eq_none_iff.mp hcores.symm⟩
  · rintro ⟨hs, hn, hc⟩
    obtain ⟨sc, nc, cc, nodes, cores⟩ := t
    simp only [hs, hn, hc, Option.map_none, Prod.mk.injEq] at hcounts hnodes hcores
    rw [hcounts.1, hcounts.2.1, hcounts.2.2, hnodes, hcores]
    rfl

theorem Read.noNodes_iff {bufs : List (List Char)} {t : ProcessorTopo} (h : Read sys bufs t) :
    t.socketCnt = 0 ∧ t.nodeCnt = 0 ∧ t.nodes = none ↔
      (countsOf (given sys 's' bufs)).1 = 0 ∧ (countsOf (given sys 's' bufs)).2.1 = 0 ∧
        given sys 'n' bufs = none := by
  rw [← h.counts, h.nodes, Option.map_eq_none_iff]

/-- Without a file nothing is left. -/
theorem leftover_cleared (h : named = true → sys.conf = none) :
    sys.Leftover named k ⟨.cleared, k⟩ := by
  have hnone : ∀ {p : List Char → Prop}, named = true →
      ∀ content, sys.conf = some content → p content := by
    intro p hn content hc
    rw [h hn] at hc
    cases hc
  constructor
  · rw [System.leaked, if_neg]
    · rfl
    · rintro ⟨hn, hc⟩
      rw [h hn] at hc
      cases hc
  · exact fun _ => iff_of_true rfl hnone
  · exact fun _ => iff_of_true ⟨rfl, rfl, rfl⟩ hnone

/-- A rejected file leaves what the lines before the first one in error say. -/
theorem Rejected.leftover {content : List Char} {t : State} (hconf : sys.conf = some content)
    (h : Rejected sys content k t) : sys.Leftover true k t := by
  constructor
  · rw [h.opened, System.leaked, hconf]
    rfl
  · intro hkeeps
    rw [(h.read hkeeps).eq_cleared_iff]
    simp only [System.LeavesCleared, hconf, Option.some.injEq, forall_eq', true_imp_iff]
  · intro hkeeps
    rw [(h.read hkeeps).noNodes_iff]
    simp only [System.LeavesNoNodes, hconf, Option.some.injEq, forall_eq', true_imp_iff]

end Leftovers

/-! ## Which reader -/

section Source

variable {sys : System} {named : Bool}

/-- The outputs of an accepted file, and nothing else. -/
theorem get_of_accepted (haccepted : sys.Accepted) (t : State) :
    ∃ t', reeactGetTopoConf sys ⟨.cleared, t.opened⟩ = .ok () t' ∧
      reeactGetTopology sys true true t = .ok () t' := by
  obtain ⟨content, hconf, hcomplete⟩ := haccepted
  obtain ⟨t', hrun⟩ := (conf_ok_iff (k := t.opened) hconf).mpr hcomplete
  have hget : wp (reeactGetTopology sys true true) (fun _ t'' => t'' = t')
      (fun _ _ => False) t := by
    unfold reeactGetTopology
    rw [Bool.not_true, if_neg Bool.false_ne_true, wp_bind, wp_modify]
    show wp (retVal (reeactGetTopoConf sys) >>= fun ret =>
      if ret ≠ 0 then reeactGetTopoSysfs sys else pure ()) _ _ _
    rw [wp_bind]
    unfold retVal
    rw [wp_tryCatch, wp_bind, wp, hrun]
    rfl
  obtain ⟨_, t'', hok, rfl⟩ := ok_of_wp hget
  exact ⟨t'', hrun, hok⟩

/-- Without one, sysfs, from what is left. -/
theorem get_of_not_accepted (hnot : ¬ (named ∧ sys.Accepted)) (t : State) :
    ∃ t₁, sys.Leftover named t.opened t₁ ∧
      reeactGetTopology sys named true t = reeactGetTopoSysfs sys t₁ := by
  cases named with
  | false => exact ⟨_, leftover_cleared (fun h => by cases h), rfl⟩
  | true =>
      have hrejected : ∃ t₁, sys.Leftover true t.opened t₁ ∧
          reeactGetTopoConf sys ⟨.cleared, t.opened⟩ = .error (.ret 2) t₁ := by
        cases hconf : sys.conf with
        | none =>
            refine ⟨⟨.cleared, t.opened⟩, leftover_cleared (fun _ => hconf), ?_⟩
            simp only [reeactGetTopoConf, hconf]
            rfl
        | some content =>
            have hspec := conf_spec hconf t.opened
            unfold wp at hspec
            split at hspec
            · exact absurd ⟨rfl, content, hconf, hspec.1⟩ hnot
            · rename_i e t₁ hrun
              rw [hspec.1] at hrun
              exact ⟨t₁, hspec.2.leftover hconf, hrun⟩
      obtain ⟨t₁, hleft, hrun⟩ := hrejected
      refine ⟨t₁, hleft, ?_⟩
      have hret : retVal (reeactGetTopoConf sys) ⟨.cleared, t.opened⟩ = .ok 2 t₁ := by
        simp only [retVal, tryCatch, tryCatchThe, MonadExceptOf.tryCatch, EStateM.tryCatch, bind,
          EStateM.bind, hrun]
        rfl
      unfold reeactGetTopology
      simp only [Bool.not_true, Bool.false_eq_true, if_false, if_true]
      show EStateM.bind (retVal (reeactGetTopoConf sys))
        (fun ret => if ret ≠ 0 then reeactGetTopoSysfs sys else pure ()) ⟨.cleared, t.opened⟩ = _
      simp only [EStateM.bind, hret]
      rfl

end Source

/-! ## What a call leaves -/

/-- A call that ends, or comes back with an error code and cleared outputs. -/
def Clean (r : EStateM.Result Exit State Unit) : Prop :=
  match r with
  | .ok _ _ => True
  | .error e t => (∃ code, e = .ret code) ∧ t.toProcessorTopo = .cleared

section Both

variable {sys : System} {named : Bool} {k : ℕ} {t : State}

/-- The checks before the first output do not ask for memory. -/
theorem earlyFault_ne_noMemory : sys.earlyFault k ≠ some .noMemory := by
  have hread : ∀ (k : ℕ) (f : File), sys.readFault k f ≠ some .noMemory := by
    intro k f
    unfold System.readFault
    split
    · simp
    · split
      · simp
      · split
        · simp
        · split <;> simp
  intro h
  rcases Option.or_eq_some_iff.mp h with h | ⟨-, h⟩
  · exact hread _ _ h
  · rcases Option.or_eq_some_iff.mp h with h | ⟨-, h⟩
    · exact hread _ _ h
    · obtain ⟨i, -, h⟩ := exists_of_firstFault h
      unfold System.markFault at h
      split at h
      · cases h
      · rcases Option.or_eq_some_iff.mp h with h | ⟨-, h⟩
        · exact hread _ _ h
        · split at h <;> cases h

/-- Sysfs, from what is left. -/
theorem System.Leftover.clean_iff (hp : sys.ReadsIds) (hkeeps : sys.KeepsOnError)
    (h : sys.Leftover named k t) :
    Clean (reeactGetTopoSysfs sys t) ↔ sys.fate t.opened = none ∨
      (sys.earlyFault t.opened = some .unreadable ∧ (named → sys.LeavesCleared)) ∨
      (sys.earlyFault t.opened = none ∧ sys.coresHeap = none ∧ sys.totalCores < sys.totalNodes ∧
        (named → sys.LeavesNoNodes)) := by
  rw [← h.cleared hkeeps, ← h.noNodes hkeeps]
  have hspec := wp_reeactGetTopoSysfs hp t
  unfold wp at hspec
  split at hspec
  · rename_i hrun
    rw [hrun]
    exact iff_of_true trivial (.inl hspec.1)
  · rename_i e t' hrun
    obtain ⟨hexit, hleaves⟩ := hspec
    obtain ⟨flaw, hfate, rfl⟩ := Option.map_eq_some_iff.mp hexit
    rw [hrun, Clean, hfate]
    generalize t'.toProcessorTopo = outputs at hleaves
    cases hleaves with
    | early hearly =>
        have hflaw : sys.earlyFault t.opened = some flaw := by
          rcases Option.or_eq_some_iff.mp hfate with hflaw | hflaw
          · exact hflaw
          · exact absurd hflaw.1 hearly
        rw [hflaw]
        cases flaw with
        | noMemory => exact absurd hflaw earlyFault_ne_noMemory
        | unreadable => simp [Flaw.exit]
        | noLine => simp [Flaw.exit]
        | outOfRange => simp [Flaw.exit]
        | overflow => simp [Flaw.exit]
    | noMemory hearly hheap =>
        have hflaw : flaw = .noMemory := by
          rw [System.fate, hearly, Option.none_or, System.lateFault, System.coresFault, hheap]
            at hfate
          exact (Option.some.inj hfate).symm
        have hcnt : sys.coreCnt = 0 ↔ sys.totalCores < sys.totalNodes := by
          rw [System.coreCnt, Nat.div_eq_zero_iff_lt (totalNodes_pos hp hearly)]
        rw [hflaw, hearly, hheap, ← hcnt]
        show _ ∧ (⟨t.socketCnt, t.nodeCnt, (sys.coreCnt : Int), t.nodes, none⟩ : ProcessorTopo) =
          ⟨0, 0, 0, none, none⟩ ↔ _
        simp [Flaw.exit]
        tauto
    | late hearly hheap hcores =>
        have hne : outputs ≠ .cleared := by
          rintro rfl
          exact hcores rfl
        rw [hearly]
        simp [hne, hheap]

end Both

/-- **A failed call leaves the outputs cleared exactly** when the file is
accepted; or nothing is wrong with the system; or a file cannot be read before
the first output is written, and the configuration file has left none; or there
is no memory for that output, whose count is zero as there are more nodes than
cores, and the file has left no other. A call that goes outside an array, or is
stopped by another fault, does not. -/
theorem topology_cleared_iff (sys : System) (hp : sys.ParsesIds) (hkeeps : sys.KeepsOnError)
    (named : Bool) (t : State) :
    Clean (reeactGetTopology sys named true t) ↔
      (named ∧ sys.Accepted) ∨ sys.fate (t.opened + sys.leaked named) = none ∨
        (sys.earlyFault (t.opened + sys.leaked named) = some .unreadable ∧
          (named → sys.LeavesCleared)) ∨
        (sys.earlyFault (t.opened + sys.leaked named) = none ∧ sys.coresHeap = none ∧
          sys.totalCores < sys.totalNodes ∧ (named → sys.LeavesNoNodes)) := by
  by_cases haccepted : named ∧ sys.Accepted
  · obtain ⟨hnamed, h⟩ := haccepted
    obtain ⟨t', -, hrun⟩ := get_of_accepted h t
    rw [hnamed, hrun]
    exact iff_of_true trivial (.inl ⟨rfl, h⟩)
  · obtain ⟨t₁, hleft, hrun⟩ := get_of_not_accepted haccepted t
    rw [hrun, hleft.clean_iff hp.readsIds hkeeps, hleft.opened, or_iff_right haccepted]

/-- One cpu, and a configuration file with counts that are not three; what is
shown of its package is `package`. -/
def twoCounts (onlineNodes package : Option (List Char)) : System :=
  { bareSystem with
    file
      | .onlineNodes => onlineNodes
      | .packageId _ => package
      | _ => some ['0', '\n']
    conf := some ['#', '\n', 's', ' ', '1', ',', '1', '\n'] }

theorem twoCounts_not_accepted (onlineNodes package : Option (List Char)) :
    ¬ (true = true ∧ (twoCounts onlineNodes package).Accepted) := by
  rintro ⟨-, content, hconf, hcomplete⟩
  cases hconf
  have hok := hcomplete.ok ['s', ' ', '1', ',', '1'] (by decide)
  obtain ⟨s, n, c, hparse⟩ := hok
  cases hparse

/-- The outputs stay cleared where the list of nodes is missing, and do not
where the package is. -/
theorem topology_cleared_twoCounts :
    Clean (reeactGetTopology (twoCounts none none) true true .cleared) ∧
      ¬ Clean (reeactGetTopology (twoCounts (some ['0', '\n']) none) true true .cleared) := by
  have hp : ∀ onlineNodes package, (twoCounts onlineNodes package).ParsesIds :=
    fun _ _ => parsesIds_commaList rfl
  constructor
  · rw [topology_cleared_iff _ (hp none none) (fun _ _ => rfl)]
    refine .inr (.inr (.inl ⟨by decide, fun _ content hconf => ?_⟩))
    cases hconf
    decide
  · rw [topology_cleared_iff _ (hp _ none) (fun _ _ => rfl)]
    rintro (h | h | h | h)
    · exact twoCounts_not_accepted _ _ h
    · revert h
      decide
    · exact absurd h.1 (by decide)
    · exact absurd h.2.1 (Option.some_ne_none _)

/-- No sysfs, and a configuration file of one line, the counts. -/
def countsOnly : System :=
  { bareSystem with conf := some ['s', ' ', '1', ',', '1', ',', '1', '\n'] }

/-- The counts are left without nodes and cores, and the consumer reads
through `NULL`. -/
theorem topology_half_built : countsOnly.ParsesIds ∧ countsOnly.KeepsOnError ∧
    ∃ t, reeactGetTopology countsOnly true true .cleared = .error (.ret 2) t ∧
      t.toProcessorTopo ≠ .cleared ∧ reeactLogTopology t = .error .outOfBounds t := by
  refine ⟨parsesIds_commaList rfl, fun _ _ => rfl, ⟨⟨1, 1, 1, none, none⟩, 1⟩, rfl, fun e => ?_,
    rfl⟩
  have hcounts := congrArg ProcessorTopo.socketCnt e
  revert hcounts
  decide

end Reeact.Topo
