import Reeact.Utils.Topology
import Mathlib.Data.List.Nodup
import Mathlib.Data.List.TakeWhile

/-!
# reeact_topology — the user's configuration file

What `reeact_get_topo_conf` makes of the lines of the file, whatever they are:
of each kind the last one counts, and nothing relates one kind to another
(`conf_spec`). So an accepted file need not be a topology its consumers can
walk through (`conf_usable_iff`).
-/

namespace Reeact.Topo

open Exits

/-! ## The lines of the file -/

/-- What a line holds, beyond its letter. -/
def valuesOf (sys : System) (buf : List Char) : Option (List Int) := sys.parse (skipToDigit buf)

/-- The values of the last line with this letter. -/
def given (sys : System) (letter : Char) (bufs : List (List Char)) : Option (List Int) :=
  (bufs.filter (fun buf => buf.head? = some letter)).getLast?.bind (valuesOf sys)

/-- `parse_value_list_expand` does not touch its output where it makes an error
of the string. -/
def System.KeepsOnError (sys : System) : Prop := ∀ text old, sys.onError text old = old

/-- A line that is read without an error: three counts after `s`, some values
after `n` and `c`, and anything after another letter. -/
def LineOk (sys : System) (buf : List Char) : Prop :=
  match buf.head? with
  | some 's' => ∃ s n c, valuesOf sys buf = some [s, n, c]
  | some 'n' | some 'c' => ∃ vs, valuesOf sys buf = some vs
  | _ => True

def lineOk (sys : System) (buf : List Char) : Bool :=
  match buf.head? with
  | some 's' => (valuesOf sys buf).map List.length = some 3
  | some 'n' | some 'c' => (valuesOf sys buf).isSome
  | _ => true

theorem lineOk_iff {sys : System} {buf : List Char} : lineOk sys buf ↔ LineOk sys buf := by
  unfold lineOk LineOk
  split
  · rw [decide_eq_true_eq, Option.map_eq_some_iff]
    constructor
    · rintro ⟨vs, hvs, hlen⟩
      obtain ⟨s, n, c, rfl⟩ := List.length_eq_three.mp hlen
      exact ⟨s, n, c, hvs⟩
    · rintro ⟨s, n, c, hvs⟩
      exact ⟨_, hvs, rfl⟩
  · exact Option.isSome_iff_exists
  · exact Option.isSome_iff_exists
  · exact iff_of_true rfl trivial

instance (sys : System) (buf : List Char) : Decidable (LineOk sys buf) :=
  decidable_of_iff _ lineOk_iff

/-- The lines before the first one in error. -/
def readable (sys : System) (bufs : List (List Char)) : List (List Char) :=
  bufs.takeWhile (fun buf => LineOk sys buf)

/-- The counts of a list of three. -/
def countsOf (vs : Option (List Int)) : Int × Int × Int :=
  match vs with
  | some [s, n, c] => (s, n, c)
  | _ => (0, 0, 0)

/-- The outputs after the lines `bufs`. -/
structure Read (sys : System) (bufs : List (List Char)) (t : ProcessorTopo) : Prop where
  ok : ∀ buf ∈ bufs, LineOk sys buf
  counts : (t.socketCnt, t.nodeCnt, t.coreCnt) = countsOf (given sys 's' bufs)
  nodes : t.nodes = (given sys 'n' bufs).map IntArray.ofList
  cores : t.cores = (given sys 'c' bufs).map IntArray.ofList

section Lines

variable {sys : System} {bufs : List (List Char)} {buf : List Char} {t : State}

theorem given_snoc (letter : Char) : given sys letter (bufs ++ [buf]) =
    if buf.head? = some letter then valuesOf sys buf else given sys letter bufs := by
  unfold given
  rw [List.filter_append]
  by_cases h : buf.head? = some letter
  · rw [if_pos h, List.filter_cons_of_pos (by simpa using h), List.filter_nil,
      List.getLast?_append, List.getLast?_singleton]
    rfl
  · rw [if_neg h, List.filter_cons_of_neg (by simpa using h), List.filter_nil, List.append_nil]

theorem Read.snoc_ok (h : Read sys bufs t.toProcessorTopo) (hok : LineOk sys buf) :
    ∀ b ∈ bufs ++ [buf], LineOk sys b := by
  intro b hb
  rcases List.mem_append.mp hb with hb | hb
  · exact h.ok b hb
  · rw [List.mem_singleton.mp hb]
    exact hok

/-- **One line.** -/
theorem Read.line (h : Read sys bufs t.toProcessorTopo) (buf : List Char) :
    wp (confLine sys buf)
      (fun _ t' => Read sys (bufs ++ [buf]) t'.toProcessorTopo ∧ t'.opened = t.opened)
      (fun e t' => e = .ret 2 ∧ ¬ LineOk sys buf ∧ t'.opened = t.opened ∧
        (sys.KeepsOnError → t'.toProcessorTopo = t.toProcessorTopo)) t := by
  have hgiven : ∀ letter, buf.head? ≠ some letter →
      given sys letter (bufs ++ [buf]) = given sys letter bufs := by
    intro letter hne
    rw [given_snoc, if_neg hne]
  have hlast : ∀ letter, buf.head? = some letter →
      given sys letter (bufs ++ [buf]) = valuesOf sys buf := by
    intro letter he
    rw [given_snoc, if_pos he]
  have hparse : sys.parse (skipToDigit buf) = valuesOf sys buf := rfl
  unfold confLine
  split
  · rename_i hs
    -- the counts: three values, or `return 2`
    have hok : LineOk sys buf ↔ ∃ s n c, valuesOf sys buf = some [s, n, c] := by
      simp only [LineOk, hs]
    simp only [hparse]
    cases hv : valuesOf sys buf with
    | none => exact ⟨rfl, by simp [hok, hv], rfl, fun _ => rfl⟩
    | some vs =>
        by_cases hlen : vs.length = 3
        · obtain ⟨s, n, c, rfl⟩ := List.length_eq_three.mp hlen
          show Read sys (bufs ++ [buf])
            { t.toProcessorTopo with socketCnt := s, nodeCnt := n, coreCnt := c } ∧ _
          refine ⟨⟨h.snoc_ok (hok.mpr ⟨s, n, c, hv⟩), ?_, ?_, ?_⟩, rfl⟩
          · rw [hlast 's' hs, hv]
            rfl
          · rw [hgiven 'n' (by simp [hs])]
            exact h.nodes
          · rw [hgiven 'c' (by simp [hs])]
            exact h.cores
        · have hbad : ¬ LineOk sys buf := by
            rw [hok, hv]
            rintro ⟨s, n, c, e⟩
            cases e
            exact hlen rfl
          simp only [ne_eq, hlen, not_false_eq_true, if_true, wp_bind, wp_throw]
          exact ⟨trivial, hbad, trivial, fun _ => trivial⟩
  · rename_i hn
    have hok : LineOk sys buf ↔ ∃ vs, valuesOf sys buf = some vs := by
      simp only [LineOk, hn]
    simp only [hparse]
    cases hv : valuesOf sys buf with
    | none =>
        refine ⟨rfl, by simp [hok, hv], rfl, fun hkeeps => ?_⟩
        show { t.toProcessorTopo with nodes := sys.onError (skipToDigit buf) t.nodes } = _
        rw [hkeeps]
    | some vs =>
        -- a later `n` line takes the place of an earlier one
        show Read sys (bufs ++ [buf]) { t.toProcessorTopo with nodes := some (.ofList vs) } ∧ _
        refine ⟨⟨h.snoc_ok (hok.mpr ⟨vs, hv⟩), ?_, ?_, ?_⟩, rfl⟩
        · rw [hgiven 's' (by simp [hn])]
          exact h.counts
        · rw [hlast 'n' hn, hv]
          rfl
        · rw [hgiven 'c' (by simp [hn])]
          exact h.cores
  · rename_i hc
    have hok : LineOk sys buf ↔ ∃ vs, valuesOf sys buf = some vs := by
      simp only [LineOk, hc]
    simp only [hparse]
    cases hv : valuesOf sys buf with
    | none =>
        refine ⟨rfl, by simp [hok, hv], rfl, fun hkeeps => ?_⟩
        show { t.toProcessorTopo with cores := sys.onError (skipToDigit buf) t.cores } = _
        rw [hkeeps]
    | some vs =>
        show Read sys (bufs ++ [buf]) { t.toProcessorTopo with cores := some (.ofList vs) } ∧ _
        refine ⟨⟨h.snoc_ok (hok.mpr ⟨vs, hv⟩), ?_, ?_, ?_⟩, rfl⟩
        · rw [hgiven 's' (by simp [hc])]
          exact h.counts
        · rw [hgiven 'n' (by simp [hc])]
          exact h.nodes
        · rw [hlast 'c' hc, hv]
          rfl
  · rename_i hs hn hc
    -- a line of another kind is passed over
    have hok : LineOk sys buf := by
      unfold LineOk
      split
      · rename_i he
        exact absurd he hs
      · rename_i he
        exact absurd he hn
      · rename_i he
        exact absurd he hc
      · exact trivial
    show Read sys (bufs ++ [buf]) t.toProcessorTopo ∧ _
    refine ⟨⟨h.snoc_ok hok, ?_, ?_, ?_⟩, rfl⟩
    · rw [hgiven 's' hs]
      exact h.counts
    · rw [hgiven 'n' hn]
      exact h.nodes
    · rw [hgiven 'c' hc]
      exact h.cores

theorem readable_of_ok (h : ∀ buf ∈ bufs, LineOk sys buf) : readable sys bufs = bufs := by
  rw [readable, List.takeWhile_eq_self_iff]
  exact fun buf hbuf => decide_eq_true (h buf hbuf)

theorem readable_of_bad {rest : List (List Char)} (h : ∀ b ∈ bufs, LineOk sys b)
    (hbad : ¬ LineOk sys buf) : readable sys (bufs ++ buf :: rest) = bufs := by
  have hall := readable_of_ok h
  rw [readable] at hall ⊢
  rw [List.takeWhile_append_of_pos (fun b hb => decide_eq_true (h b hb)),
    List.takeWhile_cons_of_neg (by simpa using hbad), List.append_nil]

theorem read_cleared : Read sys [] .cleared :=
  ⟨fun _ hb => absurd hb List.not_mem_nil, rfl, rfl, rfl⟩

end Lines

/-! ## Which files are accepted -/

/-- The lines, as strings. -/
def bufsOf (content : List Char) : List (List Char) := (lines content).map buffer

/-- Nothing to reject: no line is in error, each kind is there, and no count
of the last `s` line is zero. -/
structure Complete (sys : System) (bufs : List (List Char)) : Prop where
  ok : ∀ buf ∈ bufs, LineOk sys buf
  counts : ∃ s n c, given sys 's' bufs = some [s, n, c] ∧ s ≠ 0 ∧ n ≠ 0 ∧ c ≠ 0
  nodes : ∃ vs, given sys 'n' bufs = some vs
  cores : ∃ vs, given sys 'c' bufs = some vs

section Accepted

variable {sys : System} {content : List Char} {k : ℕ} {t : State}

/-- The final check. -/
theorem Read.complete {bufs : List (List Char)} {t : ProcessorTopo} (h : Read sys bufs t) :
    Complete sys bufs ↔
      ¬ (t.nodeCnt = 0 ∨ t.coreCnt = 0 ∨ t.socketCnt = 0 ∨ t.nodes.isNone ∨ t.cores.isNone) := by
  have hcounts := h.counts
  constructor
  · rintro ⟨-, ⟨s, n, c, hs, h1, h2, h3⟩, ⟨ns, hn⟩, ⟨cs, hc⟩⟩
    rw [hs] at hcounts
    simp only [countsOf, Prod.mk.injEq] at hcounts
    rw [h.nodes, h.cores, hn, hc, hcounts.1, hcounts.2.1, hcounts.2.2]
    simp [h1, h2, h3]
  · intro hno
    simp only [not_or] at hno
    obtain ⟨h2, h3, h1, hn, hc⟩ := hno
    refine ⟨h.ok, ?_, ?_, ?_⟩
    · unfold countsOf at hcounts
      split at hcounts
      · rename_i s n c hs
        simp only [Prod.mk.injEq] at hcounts
        obtain ⟨e1, e2, e3⟩ := hcounts
        exact ⟨s, n, c, hs, e1 ▸ h1, e2 ▸ h2, e3 ▸ h3⟩
      · simp only [Prod.mk.injEq] at hcounts
        exact absurd hcounts.1 h1
    · rw [h.nodes] at hn
      cases hg : given sys 'n' bufs with
      | none =>
          rw [hg] at hn
          exact absurd rfl hn
      | some vs => exact ⟨vs, rfl⟩
    · rw [h.cores] at hc
      cases hg : given sys 'c' bufs with
      | none =>
          rw [hg] at hc
          exact absurd rfl hc
      | some vs => exact ⟨vs, rfl⟩

/-- What is left when the parser fails: the file is open, and the outputs hold
what the lines before the first one in error say. -/
structure Rejected (sys : System) (content : List Char) (k : ℕ) (t : State) : Prop where
  incomplete : ¬ Complete sys (bufsOf content)
  opened : t.opened = k + 1
  read : sys.KeepsOnError → Read sys (readable sys (bufsOf content)) t.toProcessorTopo

/-- **What the parser does with any file.** -/
theorem conf_spec (hconf : sys.conf = some content) (k : ℕ) :
    wp (reeactGetTopoConf sys)
      (fun _ t => Complete sys (bufsOf content) ∧
        Read sys (bufsOf content) t.toProcessorTopo ∧ t.opened = k)
      (fun e t => e = .ret 2 ∧ Rejected sys content k t) ⟨.cleared, k⟩ := by
  unfold reeactGetTopoConf
  rw [hconf]
  show wp (_ >>= _) _ _ _
  rw [wp_bind, wp_modify, wp_bind]
  have hloop : wp ((lines content).forM fun line => confLine sys (buffer line))
      (fun _ t => Read sys (bufsOf content) t.toProcessorTopo ∧ t.opened = k + 1)
      (fun e t => e = .ret 2 ∧ Rejected sys content k t) ⟨.cleared, k + 1⟩ := by
    apply wp_forM (fun pre (t : State) =>
      Read sys (pre.map buffer) t.toProcessorTopo ∧ t.opened = k + 1)
    · rintro pre line post t hl ⟨hread, hopened⟩
      have hbufs : bufsOf content = pre.map buffer ++ buffer line :: post.map buffer := by
        rw [bufsOf, hl, List.map_append, List.map_cons]
      apply wp_mono (hread.line (buffer line))
      · rintro _ t' ⟨hread', hsame⟩
        rw [List.map_append]
        exact ⟨hread', hsame.trans hopened⟩
      · rintro e t' ⟨he, hbad, hsame, hkept⟩
        refine ⟨he, fun hc => hbad (hc.ok _ ?_), hsame.trans hopened, fun hkeeps => ?_⟩
        · rw [hbufs]
          exact List.mem_append_right _ List.mem_cons_self
        · rw [hbufs, readable_of_bad hread.ok hbad, hkept hkeeps]
          exact hread
    · exact ⟨read_cleared, rfl⟩
  apply wp_mono_ok hloop
  rintro _ t ⟨hread, hopened⟩
  rw [wp_bind, wp_get]
  split
  · rename_i hcheck
    refine ⟨rfl, fun hc => hread.complete.mp hc hcheck, hopened, fun _ => ?_⟩
    rw [readable_of_ok hread.ok]
    exact hread
  · rename_i hcheck
    refine ⟨hread.complete.mpr hcheck, hread, ?_⟩
    show t.opened - 1 = k
    rw [hopened, Nat.add_sub_cancel]

/-- Accepted files are the complete ones. -/
theorem conf_ok_iff (hconf : sys.conf = some content) :
    (∃ t, reeactGetTopoConf sys ⟨.cleared, k⟩ = .ok () t) ↔ Complete sys (bufsOf content) := by
  have hspec := conf_spec hconf k
  unfold wp at hspec
  split at hspec
  · rename_i t hrun
    exact ⟨fun _ => hspec.1, fun _ => ⟨t, hrun⟩⟩
  · rename_i e t hrun
    constructor
    · rintro ⟨t', hrun'⟩
      rw [hrun] at hrun'
      cases hrun'
    · exact fun hc => absurd hc hspec.2.incomplete

theorem conf_read (hconf : sys.conf = some content)
    (hrun : reeactGetTopoConf sys ⟨.cleared, k⟩ = .ok () t) :
    Complete sys (bufsOf content) ∧ Read sys (bufsOf content) t.toProcessorTopo ∧
      t.opened = k := by
  have hspec := conf_spec hconf k
  unfold wp at hspec
  rw [hrun] at hspec
  exact hspec

end Accepted

/-! ## Which of them are usable -/

/-- A topology its consumers can walk through: as many nodes as the counts
say, distinct and with ids below their number, and as many cores. -/
structure WellFormed (t : ProcessorTopo) : Prop where
  nodes : ∃ a, t.nodes = some a ∧ t.socketCnt * t.nodeCnt ≤ a.len ∧
    (∀ i < (t.socketCnt * t.nodeCnt).toNat,
      0 ≤ a.val i ∧ a.val i < t.socketCnt * t.nodeCnt) ∧
    ∀ i < (t.socketCnt * t.nodeCnt).toNat, ∀ j < (t.socketCnt * t.nodeCnt).toNat,
      a.val i = a.val j → i = j
  cores : ∃ a, t.cores = some a ∧ t.socketCnt * t.nodeCnt * t.coreCnt ≤ a.len

section Consumer

variable {t : State}

/-- An index into a flattened array of `m` rows of `n`. -/
theorem flat_index {m n i j : Int} (hi : 0 ≤ i) (him : i < m) (hj : 0 ≤ j) (hjn : j < n) :
    0 ≤ i * n + j ∧ i * n + j < m * n := by
  have hn : 0 ≤ n := Int.le_trans hj (Int.le_of_lt hjn)
  have hrow : (i + 1) * n ≤ m * n := Int.mul_le_mul_of_nonneg_right him hn
  have hpos : 0 ≤ i * n := Int.mul_nonneg hi hn
  rw [Int.add_mul, Int.one_mul] at hrow
  exact ⟨by omega, by omega⟩

/-- **Every access of the consumer is inside the arrays.** -/
theorem WellFormed.walk (h : WellFormed t.toProcessorTopo) :
    ∃ t', reeactLogTopology t = .ok () t' := by
  obtain ⟨a, hnodes, hlen, hrange, -⟩ := h.nodes
  obtain ⟨b, hcores, hclen⟩ := h.cores
  have hwalk : wp reeactLogTopology (fun _ _ => True) (fun _ _ => False) t := by
    unfold reeactLogTopology
    rw [wp_bind, wp_get]
    apply wp_mono_ok (wp_range_forM (fun _ t' => t = t') ?_ rfl) (fun _ _ _ => trivial)
    rintro i _ hi rfl
    apply wp_range_forM (fun _ t' => t = t') ?_ rfl
    rintro j _ hj rfl
    have hidx := flat_index (m := t.socketCnt) (n := t.nodeCnt) (i := i) (j := j)
      (by omega) (by omega) (by omega) (by omega)
    have hid := hrange (i * t.nodeCnt + j).toNat (by omega)
    rw [wp_bind]
    apply wp_loadNodes hnodes
    apply IntArray.wp_load ⟨hidx.1, by omega⟩
    apply wp_range_forM (fun _ t' => t = t') ?_ rfl
    rintro k _ hk rfl
    have hcidx := flat_index (m := t.socketCnt * t.nodeCnt) (n := t.coreCnt)
      (i := a.val (i * t.nodeCnt + j).toNat) (j := k) hid.1 hid.2 (by omega) (by omega)
    rw [wp_discard]
    apply wp_loadCores hcores
    exact IntArray.wp_load ⟨hcidx.1, by omega⟩ rfl
  obtain ⟨_, t', hrun, -⟩ := ok_of_wp hwalk
  exact ⟨t', hrun⟩

end Consumer

/-- The last lines of the three kinds fit together. -/
structure Agree (s n c : Int) (nodes cores : List Int) : Prop where
  enoughNodes : s * n ≤ nodes.length
  range : ∀ v ∈ nodes.take (s * n).toNat, 0 ≤ v ∧ v < s * n
  distinct : (nodes.take (s * n).toNat).Nodup
  enoughCores : s * n * c ≤ cores.length

section Usable

variable {sys : System} {bufs : List (List Char)} {t : ProcessorTopo}

theorem ofList_val {vs : List Int} {i : ℕ} (h : i < vs.length) :
    (IntArray.ofList vs).val i = vs[i] := by
  show vs.getD i 0 = vs[i]
  rw [List.getD_eq_getElem?_getD, List.getElem?_eq_getElem h]
  rfl

theorem Read.wellFormed_iff (h : Read sys bufs t) {s n c : Int} {nodes cores : List Int}
    (hs : given sys 's' bufs = some [s, n, c]) (hn : given sys 'n' bufs = some nodes)
    (hc : given sys 'c' bufs = some cores) : WellFormed t ↔ Agree s n c nodes cores := by
  have hcounts := h.counts
  rw [hs] at hcounts
  simp only [countsOf, Prod.mk.injEq] at hcounts
  obtain ⟨e1, e2, e3⟩ := hcounts
  have hnodes : t.nodes = some (.ofList nodes) := by
    rw [h.nodes, hn]
    rfl
  have hcores : t.cores = some (.ofList cores) := by
    rw [h.cores, hc]
    rfl
  have htake : ∀ {i : ℕ}, s * n ≤ nodes.length → i < (s * n).toNat →
      ∃ hi : i < (nodes.take (s * n).toNat).length,
        (nodes.take (s * n).toNat)[i] = (IntArray.ofList nodes).val i := by
    intro i hlen hi
    have hi' : i < nodes.length := by omega
    refine ⟨by rw [List.length_take]; omega, ?_⟩
    rw [List.getElem_take, ofList_val hi']
  constructor
  · rintro ⟨⟨a, ha, hlen, hrange, hinj⟩, b, hb, hblen⟩
    rw [hnodes] at ha
    rw [hcores] at hb
    cases ha
    cases hb
    rw [e1, e2] at hlen hrange hinj hblen
    rw [e3] at hblen
    have hlt : ∀ {i : ℕ}, i < (nodes.take (s * n).toNat).length → i < (s * n).toNat := by
      intro i hi
      rw [List.length_take] at hi
      omega
    refine ⟨hlen, ?_, ?_, hblen⟩
    · intro v hv
      obtain ⟨i, hi, rfl⟩ := List.mem_iff_getElem.mp hv
      obtain ⟨_, he⟩ := htake hlen (hlt hi)
      rw [he]
      exact hrange i (hlt hi)
    · rw [List.nodup_iff_injective_get]
      intro i j hij
      have hij' : (nodes.take (s * n).toNat)[i.1] = (nodes.take (s * n).toNat)[j.1] := hij
      obtain ⟨_, hei⟩ := htake hlen (hlt i.2)
      obtain ⟨_, hej⟩ := htake hlen (hlt j.2)
      rw [hei, hej] at hij'
      exact Fin.ext (hinj i (hlt i.2) j (hlt j.2) hij')
  · rintro ⟨hlen, hrange, hdistinct, hblen⟩
    refine ⟨⟨_, hnodes, ?_, ?_, ?_⟩, _, hcores, ?_⟩
    · rw [e1, e2]
      exact hlen
    · rw [e1, e2]
      intro i hi
      obtain ⟨hi', he⟩ := htake hlen hi
      rw [← he]
      exact hrange _ (List.getElem_mem hi')
    · rw [e1, e2]
      intro i hi j hj hij
      obtain ⟨hi', hei⟩ := htake hlen hi
      obtain ⟨hj', hej⟩ := htake hlen hj
      rw [← hei, ← hej] at hij
      exact (List.Nodup.getElem_inj_iff hdistinct).mp hij
    · rw [e1, e2, e3]
      exact hblen

end Usable

/-- **An accepted file is a usable topology exactly when its last lines
agree.** Files with a line in error, with a kind of line missing or a zero
count are not accepted; of the others, those are usable whose last `n` and `c`
lines hold what the counts of the last `s` line ask for. -/
theorem conf_usable_iff (sys : System) :
    (∀ t, reeactGetTopoConf sys .cleared = .ok () t →
      WellFormed t.toProcessorTopo ∧ ∃ t', reeactLogTopology t = .ok () t') ↔
    ∀ content, sys.conf = some content → Complete sys (bufsOf content) →
      ∀ s n c nodes cores, given sys 's' (bufsOf content) = some [s, n, c] →
        given sys 'n' (bufsOf content) = some nodes →
        given sys 'c' (bufsOf content) = some cores → Agree s n c nodes cores := by
  constructor
  · intro h content hconf hcomplete s n c nodes cores hs hn hc
    obtain ⟨t, hrun⟩ := (conf_ok_iff hconf).mpr hcomplete
    exact ((conf_read hconf hrun).2.1.wellFormed_iff hs hn hc).mp (h t hrun).1
  · intro h t hrun
    cases hconf : sys.conf with
    | none =>
        simp only [reeactGetTopoConf, hconf] at hrun
        cases hrun
    | some content =>
        obtain ⟨hcomplete, hread, -⟩ := conf_read hconf hrun
        obtain ⟨s, n, c, hs, -⟩ := hcomplete.counts
        obtain ⟨nodes, hn⟩ := hcomplete.nodes
        obtain ⟨cores, hc⟩ := hcomplete.cores
        have hagree := h content hconf hcomplete s n c nodes cores hs hn hc
        have hwf := (hread.wellFormed_iff hs hn hc).mpr hagree
        exact ⟨hwf, hwf.walk⟩

/-- What `parse_value_list_expand` makes of numbers separated by commas. -/
def commaList : List Char → Option Int → Option (List Int)
  | [], cur => cur.map ([·])
  | c :: cs, cur =>
      if c = ',' then
        match cur with
        | some v => (commaList cs none).map (v :: ·)
        | none => none
      else if c.isDigit then commaList cs (some (cur.getD 0 * 10 + (c.toNat - 48)))
      else none

/-- They are at least one, and none is negative. -/
theorem commaList_ids {cs : List Char} {cur : Option Int} {vs : List Int}
    (h : commaList cs cur = some vs) (hcur : ∀ v, cur = some v → 0 ≤ v) :
    vs ≠ [] ∧ ∀ v ∈ vs, 0 ≤ v := by
  induction cs generalizing cur vs with
  | nil =>
      rw [commaList, Option.map_eq_some_iff] at h
      obtain ⟨v, hv, rfl⟩ := h
      exact ⟨List.cons_ne_nil _ _, fun u hu => List.mem_singleton.mp hu ▸ hcur v hv⟩
  | cons c cs ih =>
      unfold commaList at h
      split at h
      · split at h
        · rename_i v
          rw [Option.map_eq_some_iff] at h
          obtain ⟨us, hus, rfl⟩ := h
          refine ⟨List.cons_ne_nil _ _, fun u hu => ?_⟩
          rcases List.mem_cons.mp hu with rfl | hu
          · exact hcur u rfl
          · exact (ih hus (fun _ e => nomatch e)).2 u hu
        · cases h
      · split at h
        · apply ih h
          intro v hv
          have hdigit : ('0'.toNat : ℕ) ≤ c.toNat := by
            rename_i hd
            simp only [Char.isDigit, Bool.and_eq_true, decide_eq_true_eq] at hd
            exact hd.1
          have hprev : 0 ≤ cur.getD 0 := by
            cases cur with
            | none => exact Int.le_refl 0
            | some u => exact hcur u rfl
          have hzero : '0'.toNat = 48 := rfl
          cases hv
          omega
        · cases h

/-- No file, 1021 descriptors, memory, and a parser of numbers separated by
commas. -/
def bareSystem : System where
  file _ := none
  conf := none
  fds := 1021
  parse cs := commaList cs none
  onError _ old := old
  coresHeap := some fun _ => 0
  nodesHeap := some fun _ => 0

/-- A file for one node of two cores, with a node of another id and one core. -/
def oddConf : System :=
  { bareSystem with
    conf := some
      ['s', ' ', '1', ',', '1', ',', '2', '\n', 'n', ' ', '5', '\n', 'c', ' ', '0', '\n'] }

/-- What the parser makes of it. -/
def oddTopo : State := ⟨⟨1, 1, 2, some (.ofList [5]), some (.ofList [0])⟩, 0⟩

/-- It is accepted, and its consumer reads beyond the cores. -/
theorem conf_accepts_unusable :
    ∃ t, reeactGetTopoConf oddConf .cleared = .ok () t ∧ ¬ WellFormed t.toProcessorTopo ∧
      reeactLogTopology t = .error .outOfBounds t := by
  refine ⟨oddTopo, rfl, ?_, rfl⟩
  rintro ⟨⟨a, ha, -, hrange, -⟩, -⟩
  cases ha
  exact absurd (hrange 0 (by decide)).2 (by decide)

end Reeact.Topo
