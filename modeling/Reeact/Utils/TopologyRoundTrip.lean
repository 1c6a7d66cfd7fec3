import Reeact.Utils.TopologyConf
import Mathlib.Data.List.Perm.Basic
import Mathlib.Tactic.IntervalCases

/-!
# reeact_topology — a topology written to a file and read back

A topology written as three lines, each a letter, a label and the values
separated by commas. Wherever they stand among other lines,
`reeact_get_topo_conf` reads the topology back, and without one of them it
fails (`conf_round_trip`).
-/

namespace Reeact.Topo

open Exits

/-! ## Values in a line -/

/-- Numbers, in decimal, separated by commas. -/
def commaSeparated : List ℕ → List Char
  | [] => []
  | [n] => Nat.toDigits 10 n
  | n :: m :: ns => Nat.toDigits 10 n ++ ',' :: commaSeparated (m :: ns)

/-- Numbers that an array of `int` holds, and an `int` counts. -/
structure Ints (ns : List ℕ) : Prop where
  ne_nil : ns ≠ []
  length_le : ns.length ≤ INT_MAX
  le : ∀ n ∈ ns, n ≤ INT_MAX

/-- What `parse_value_list_expand` promises of them. -/
def System.Inverts (sys : System) : Prop :=
  ∀ ns, Ints ns → sys.parse (commaSeparated ns) = some (ns.map Int.ofNat)

/-- The text between the letter of a line and its values. -/
structure Label where
  text : List Char
  noDigit : ∀ c ∈ text, ¬ c.isDigit
  noNewline : '\n' ∉ text
  noNul : '\x00' ∉ text

def keyLine (letter : Char) (label : Label) (ns : List ℕ) : List Char :=
  letter :: (label.text ++ commaSeparated ns)

section Values

variable {ns : List ℕ} {c : Char}

theorem isDigit_iff : c.isDigit ↔ ¬ (c < '0' ∨ c > '9') := by
  rw [not_or, Char.not_lt, Char.not_lt, Char.isDigit, Bool.and_eq_true, decide_eq_true_eq,
    decide_eq_true_eq]
  exact Iff.rfl

theorem isDigit_of_mem_decimal {n : ℕ} (h : c ∈ Nat.toDigits 10 n) : c.isDigit :=
  Nat.isDigit_of_mem_toDigits (by decide) (by decide) h

theorem mem_commaSeparated (h : c ∈ commaSeparated ns) : c.isDigit ∨ c = ',' := by
  fun_induction commaSeparated ns with
  | case1 => exact absurd h List.not_mem_nil
  | case2 n => exact .inl (isDigit_of_mem_decimal h)
  | case3 n m ns ih =>
      rcases List.mem_append.mp h with h | h
      · exact .inl (isDigit_of_mem_decimal h)
      · rcases List.mem_cons.mp h with h | h
        · exact .inr h
        · exact ih h

/-- It starts with a digit. -/
theorem commaSeparated_head (h : ns ≠ []) :
    ∃ c cs, commaSeparated ns = c :: cs ∧ c.isDigit := by
  cases ns with
  | nil => exact absurd rfl h
  | cons n ns =>
      obtain ⟨c, cs, hcs⟩ := List.exists_cons_of_ne_nil (Nat.toDigits_ne_nil (n := n) (b := 10))
      have hc : c.isDigit := isDigit_of_mem_decimal (n := n) (by rw [hcs]; exact List.mem_cons_self)
      cases ns with
      | nil => exact ⟨c, cs, hcs, hc⟩
      | cons m ns =>
          refine ⟨c, cs ++ ',' :: commaSeparated (m :: ns), ?_, hc⟩
          rw [commaSeparated, hcs, List.cons_append]

/-- The first digit is that of the values. -/
theorem skipToDigit_keyLine {letter : Char} (hl : ¬ letter.isDigit) (label : Label)
    (h : ns ≠ []) : skipToDigit (keyLine letter label ns) = commaSeparated ns := by
  obtain ⟨c, cs, hcs, hc⟩ := commaSeparated_head h
  have hskip : ∀ x ∈ letter :: label.text, x < '0' ∨ x > '9' := by
    intro x hx
    by_contra hno
    rcases List.mem_cons.mp hx with rfl | hx
    · exact hl (isDigit_iff.mpr hno)
    · exact label.noDigit x hx (isDigit_iff.mpr hno)
  rw [skipToDigit, keyLine, ← List.cons_append,
    List.dropWhile_append_of_pos (fun x hx => decide_eq_true (hskip x hx)), hcs,
    List.dropWhile_cons_of_neg (by simpa using isDigit_iff.mp hc)]

theorem noNul_keyLine {letter : Char} (hl : letter ≠ '\x00') (label : Label) :
    '\x00' ∉ keyLine letter label ns := by
  rw [keyLine, List.mem_cons, List.mem_append, not_or, not_or]
  refine ⟨Ne.symm hl, label.noNul, fun h => ?_⟩
  rcases mem_commaSeparated h with h | h
  · exact absurd h (by decide)
  · exact absurd h (by decide)

end Values

/-! ## Lines in a file -/

/-- A file of the lines `full`, each with its newline, and a last one without,
perhaps empty. -/
def render (full : List (List Char)) (last : List Char) : List Char :=
  full.flatMap (· ++ ['\n']) ++ last

/-- The string in a line: up to its first NUL. -/
def cString (line : List Char) : List Char := line.takeWhile (· ≠ '\x00')

/-- The lines with one of the three letters. -/
def keyed (ls : List (List Char)) : List (List Char) :=
  ls.filter (fun line => line.head? ∈ [some 's', some 'n', some 'c'])

section Files

variable {sys : System} {full ls : List (List Char)} {last : List Char} {letter : Char}

theorem lines_render (h : ∀ line ∈ full ++ [last], '\n' ∉ line) :
    lines (render full last) =
      full.map (· ++ ['\n']) ++ (if last = [] then [] else [last]) := by
  induction full with
  | nil => exact lines_last (h last List.mem_cons_self)
  | cons line full ih =>
      rw [render, List.flatMap_cons, List.append_assoc, List.append_assoc, List.singleton_append,
        lines_append (h line List.mem_cons_self)]
      rw [render] at ih
      rw [ih (fun l hl => h l (List.mem_cons_of_mem _ hl)), List.map_cons, List.cons_append]

/-- The strings the parser sees; an empty last line is none. -/
theorem bufsOf_render (h : ∀ line ∈ full ++ [last], '\n' ∉ line) :
    bufsOf (render full last) =
      (full ++ (if last = [] then [] else [last])).map cString := by
  rw [bufsOf, lines_render h, List.map_append, List.map_append, List.map_map]
  congr 1
  · apply List.map_congr_left
    intro line _
    exact buffer_newline line
  · split
    · rfl
    · exact congrArg (fun buf => [buf])
        (buffer_last (h last (List.mem_append_right _ List.mem_cons_self)))

theorem head?_cString (hl : letter ≠ '\x00') {line : List Char} :
    (cString line).head? = some letter ↔ line.head? = some letter := by
  cases line with
  | nil => exact Iff.rfl
  | cons c cs =>
      by_cases hc : c = '\x00'
      · subst hc
        simp [cString, Ne.symm hl]
      · simp [cString, hc]

/-- The last line of a kind, among the keyed ones. -/
theorem given_render (h : ∀ line ∈ full ++ [last], '\n' ∉ line) (hl : letter ∈ ['s', 'n', 'c'])
    {keys : List (List Char)} (hkeys : (keyed (full ++ [last])).Perm keys) (kind : List (List Char))
    (hlen : kind.length ≤ 1) (hkind : keys.filter (fun line => line.head? = some letter) = kind) :
    given sys letter (bufsOf (render full last)) =
      kind.getLast?.bind (fun line => valuesOf sys (cString line)) := by
  have hnul : letter ≠ '\x00' := by
    rintro rfl
    exact absurd hl (by decide)
  -- no other line has the letter
  have hfilter : (full ++ [last]).filter (fun line => line.head? = some letter) = kind := by
    have hsub : (keyed (full ++ [last])).filter (fun line => line.head? = some letter) =
        (full ++ [last]).filter (fun line => line.head? = some letter) := by
      rw [keyed, List.filter_filter]
      apply List.filter_congr
      intro line _
      by_cases hline : line.head? = some letter
      · have hmem : some letter ∈ [some 's', some 'n', some 'c'] := by simpa using hl
        simp only [hline, hmem, decide_true, Bool.and_self]
      · simp only [hline, decide_false, Bool.false_and]
    have hperm := hkeys.filter (fun line => line.head? = some letter)
    rw [hsub, hkind] at hperm
    match kind, hlen with
    | [], _ => exact hperm.eq_nil
    | [line], _ => exact List.perm_singleton.mp hperm
  have hlast : (full ++ (if last = [] then [] else [last])).filter
      (fun line => line.head? = some letter) = kind := by
    rw [← hfilter]
    split
    · rename_i he
      rw [he, List.append_nil, List.filter_append]
      exact (List.append_nil _).symm
    · rfl
  rw [given, bufsOf_render h, List.filter_map, List.getLast?_map]
  have hcomp : ((fun buf => decide (buf.head? = some letter)) ∘ cString) =
      fun line : List Char => decide (line.head? = some letter) := by
    funext line
    rw [Function.comp_apply, decide_eq_decide]
    exact head?_cString hnul
  rw [hcomp, hlast, Option.bind_map]
  rfl

end Files

/-! ## The round trip -/

/-- A topology as a user writes it down. -/
structure UserTopo where
  socketCnt : ℕ
  nodeCnt : ℕ
  coreCnt : ℕ
  nodes : List ℕ
  cores : List ℕ
  socketCnt_pos : 0 < socketCnt
  nodeCnt_pos : 0 < nodeCnt
  coreCnt_pos : 0 < coreCnt
  counts : Ints [socketCnt, nodeCnt, coreCnt]
  nodes_ints : Ints nodes
  cores_ints : Ints cores

namespace UserTopo

/-- Its three lines. -/
def keyLines (u : UserTopo) (s n c : Label) : List (List Char) :=
  [keyLine 's' s [u.socketCnt, u.nodeCnt, u.coreCnt], keyLine 'n' n u.nodes,
    keyLine 'c' c u.cores]

/-- The outputs that hold it. -/
def topo (u : UserTopo) : ProcessorTopo :=
  ⟨u.socketCnt, u.nodeCnt, u.coreCnt, some (.ofList (u.nodes.map Int.ofNat)),
    some (.ofList (u.cores.map Int.ofNat))⟩

end UserTopo

section RoundTrip

variable {sys : System} {u : UserTopo} {s n c : Label} {full : List (List Char)}
  {last : List Char}

theorem System.Inverts.valuesOf (hinv : sys.Inverts) {letter : Char} (hl : letter ∈ ['s', 'n', 'c'])
    (label : Label) {ns : List ℕ} (hns : Ints ns) :
    valuesOf sys (cString (keyLine letter label ns)) = some (ns.map Int.ofNat) := by
  have hdigit : ¬ letter.isDigit := by
    intro h
    have hall : ∀ l ∈ ['s', 'n', 'c'], ¬ Char.isDigit l := by simp
    exact hall letter hl h
  have hnul : letter ≠ '\x00' := by
    rintro rfl
    exact absurd hl (by decide)
  have hstring : cString (keyLine letter label ns) = keyLine letter label ns := by
    rw [cString, List.takeWhile_eq_self_iff]
    intro x hx
    rw [decide_eq_true_eq]
    exact fun e => noNul_keyLine hnul label (e ▸ hx)
  rw [Topo.valuesOf, hstring, skipToDigit_keyLine hdigit label hns.ne_nil]
  exact hinv ns hns

/-- No line of the file is in error. -/
theorem lineOk_render (hinv : sys.Inverts) (hlines : ∀ line ∈ full ++ [last], '\n' ∉ line)
    (hkeys : (keyed (full ++ [last])).Perm (u.keyLines s n c)) :
    ∀ buf ∈ bufsOf (render full last), LineOk sys buf := by
  intro buf hbuf
  rw [bufsOf_render hlines, List.mem_map] at hbuf
  obtain ⟨line, hline, rfl⟩ := hbuf
  have hmem : line ∈ full ++ [last] := by
    rcases List.mem_append.mp hline with h | h
    · exact List.mem_append_left _ h
    · split at h
      · exact absurd h List.not_mem_nil
      · exact List.mem_append_right _ h
  by_cases hkey : line.head? ∈ [some 's', some 'n', some 'c']
  · have hthree : line ∈ u.keyLines s n c := by
      rw [← hkeys.mem_iff, keyed, List.mem_filter]
      exact ⟨hmem, decide_eq_true hkey⟩
    simp only [UserTopo.keyLines, List.mem_cons, List.not_mem_nil, or_false] at hthree
    rcases hthree with rfl | rfl | rfl
    · exact ⟨_, _, _, hinv.valuesOf (by decide) s u.counts⟩
    · exact ⟨_, hinv.valuesOf (by decide) n u.nodes_ints⟩
    · exact ⟨_, hinv.valuesOf (by decide) c u.cores_ints⟩
  · have hother : ∀ letter ∈ ['s', 'n', 'c'], (cString line).head? ≠ some letter := by
      intro letter hl he
      have hnul : letter ≠ '\x00' := by
        rintro rfl
        exact absurd hl (by decide)
      rw [head?_cString hnul] at he
      exact hkey (he ▸ List.mem_map_of_mem hl)
    unfold LineOk
    split
    · rename_i he
      exact absurd he (hother 's' (by decide))
    · rename_i he
      exact absurd he (hother 'n' (by decide))
    · rename_i he
      exact absurd he (hother 'c' (by decide))
    · exact trivial

/-- The three lines are the last ones of their kinds. -/
theorem given_keyLines (hinv : sys.Inverts) (hlines : ∀ line ∈ full ++ [last], '\n' ∉ line)
    (hkeys : (keyed (full ++ [last])).Perm (u.keyLines s n c)) :
    given sys 's' (bufsOf (render full last)) =
        some [(u.socketCnt : Int), u.nodeCnt, u.coreCnt] ∧
      given sys 'n' (bufsOf (render full last)) = some (u.nodes.map Int.ofNat) ∧
      given sys 'c' (bufsOf (render full last)) = some (u.cores.map Int.ofNat) := by
  refine ⟨?_, ?_, ?_⟩
  · rw [given_render hlines (by decide) hkeys
      [keyLine 's' s [u.socketCnt, u.nodeCnt, u.coreCnt]] (Nat.le_refl 1) rfl]
    exact hinv.valuesOf (by decide) s u.counts
  · rw [given_render hlines (by decide) hkeys [keyLine 'n' n u.nodes] (Nat.le_refl 1) rfl]
    exact hinv.valuesOf (by decide) n u.nodes_ints
  · rw [given_render hlines (by decide) hkeys [keyLine 'c' c u.cores] (Nat.le_refl 1) rfl]
    exact hinv.valuesOf (by decide) c u.cores_ints

/-- A kind of line that is not there. -/
theorem given_missing (sys : System) (hlines : ∀ line ∈ full ++ [last], '\n' ∉ line)
    {i : ℕ} (hi : i < 3)
    (hkeys : (keyed (full ++ [last])).Perm ((u.keyLines s n c).eraseIdx i)) :
    ∃ letter ∈ ['s', 'n', 'c'], given sys letter (bufsOf (render full last)) = none := by
  interval_cases i
  · exact ⟨'s', by decide, given_render hlines (by decide) hkeys [] (Nat.zero_le 1) rfl⟩
  · exact ⟨'n', by decide, given_render hlines (by decide) hkeys [] (Nat.zero_le 1) rfl⟩
  · exact ⟨'c', by decide, given_render hlines (by decide) hkeys [] (Nat.zero_le 1) rfl⟩

theorem Complete.given_isSome {bufs : List (List Char)} (h : Complete sys bufs) {letter : Char}
    (hl : letter ∈ ['s', 'n', 'c']) : given sys letter bufs ≠ none := by
  simp only [List.mem_cons, List.not_mem_nil, or_false] at hl
  rcases hl with rfl | rfl | rfl
  · obtain ⟨_, _, _, hs, -⟩ := h.counts
    rw [hs]
    exact Option.some_ne_none _
  · obtain ⟨_, hn⟩ := h.nodes
    rw [hn]
    exact Option.some_ne_none _
  · obtain ⟨_, hc⟩ := h.cores
    rw [hc]
    exact Option.some_ne_none _

/-- The file of the three lines is complete, -/
theorem complete_keyLines (hinv : sys.Inverts) (hlines : ∀ line ∈ full ++ [last], '\n' ∉ line)
    (hkeys : (keyed (full ++ [last])).Perm (u.keyLines s n c)) :
    Complete sys (bufsOf (render full last)) := by
  obtain ⟨hs, hn, hc⟩ := given_keyLines hinv hlines hkeys
  exact ⟨lineOk_render hinv hlines hkeys,
    ⟨_, _, _, hs, Int.natCast_ne_zero.mpr (Nat.ne_of_gt u.socketCnt_pos),
      Int.natCast_ne_zero.mpr (Nat.ne_of_gt u.nodeCnt_pos),
      Int.natCast_ne_zero.mpr (Nat.ne_of_gt u.coreCnt_pos)⟩,
    ⟨_, hn⟩, ⟨_, hc⟩⟩

/-- and is read as the topology. -/
theorem read_keyLines (hinv : sys.Inverts) (hlines : ∀ line ∈ full ++ [last], '\n' ∉ line)
    (hconf : sys.conf = some (render full last))
    (hkeys : (keyed (full ++ [last])).Perm (u.keyLines s n c)) (k : ℕ) :
    reeactGetTopoConf sys ⟨.cleared, k⟩ = .ok () ⟨u.topo, k⟩ := by
  obtain ⟨hs, hn, hc⟩ := given_keyLines hinv hlines hkeys
  obtain ⟨⟨⟨sc, nc, cc, nodes, cores⟩, opened⟩, hrun⟩ :=
    (conf_ok_iff hconf).mpr (complete_keyLines hinv hlines hkeys)
  obtain ⟨-, ⟨-, hcounts, hnodes, hcores⟩, hopened⟩ := conf_read hconf hrun
  simp only [hs, hn, hc, countsOf, Option.map_some, Prod.mk.injEq] at hcounts hnodes hcores hopened
  obtain ⟨rfl, rfl, rfl⟩ := hcounts
  rw [hrun, hnodes, hcores, hopened]
  rfl

end RoundTrip

/-- **The round trip.** The three lines of a topology, in any order, among any
lines with other letters, are read back as that topology; without one of them
the file is rejected. -/
theorem conf_round_trip (sys : System) (hinv : sys.Inverts) (u : UserTopo) (s n c : Label)
    (full : List (List Char)) (last : List Char)
    (hlines : ∀ line ∈ full ++ [last], '\n' ∉ line) (hconf : sys.conf = some (render full last)) :
    ((keyed (full ++ [last])).Perm (u.keyLines s n c) →
      reeactGetTopoConf sys .cleared = .ok () ⟨u.topo, 0⟩) ∧
    ∀ i < 3, (keyed (full ++ [last])).Perm ((u.keyLines s n c).eraseIdx i) →
      ∃ t, reeactGetTopoConf sys .cleared = .error (.ret 2) t := by
  constructor
  · exact fun hkeys => read_keyLines hinv hlines hconf hkeys 0
  · intro i hi hkeys
    -- the letter of the missing line is given by no line
    obtain ⟨letter, hl, hmissing⟩ := given_missing sys hlines hi hkeys
    have hspec := conf_spec hconf 0
    unfold wp at hspec
    split at hspec
    · exact absurd hmissing (hspec.1.given_isSome hl)
    · rename_i e t hrun
      rw [hspec.1] at hrun
      exact ⟨t, hrun⟩

/-! ## Numbers separated by commas -/

section CommaList

variable {ds : List Char}

theorem commaList_digits (rest : List Char) (h : ∀ c ∈ ds, c.isDigit) (k : ℕ) :
    commaList (ds ++ rest) (some (k : Int)) =
      commaList rest (some (Nat.ofDigitChars 10 ds k : ℕ)) := by
  induction ds generalizing k with
  | nil => rw [List.nil_append, Nat.ofDigitChars_nil]
  | cons c ds ih =>
      have hc : c.isDigit := h c List.mem_cons_self
      have hcomma : c ≠ ',' := by
        rintro rfl
        exact absurd hc (by decide)
      have hzero : '0'.toNat ≤ c.toNat := by
        rw [Char.isDigit, Bool.and_eq_true, decide_eq_true_eq] at hc
        exact hc.1
      have hvalue : (k : Int) * 10 + ((c.toNat : Int) - 48) =
          ((10 * k + (c.toNat - '0'.toNat) : ℕ) : Int) := by
        have h48 : '0'.toNat = 48 := rfl
        omega
      rw [List.cons_append, commaList, if_neg hcomma, if_pos hc, Option.getD_some, hvalue,
        ih (fun d hd => h d (List.mem_cons_of_mem _ hd)), Nat.ofDigitChars_cons]

/-- A number is read up to what follows it. -/
theorem commaList_decimal (rest : List Char) (n : ℕ) :
    commaList (Nat.toDigits 10 n ++ rest) none = commaList rest (some (n : Int)) := by
  have hdigits : ∀ c ∈ Nat.toDigits 10 n, c.isDigit := fun _ => isDigit_of_mem_decimal
  have hvalue := Nat.ofDigitChars_ten_toDigits (n := n)
  obtain ⟨c, cs, hcs⟩ := List.exists_cons_of_ne_nil (Nat.toDigits_ne_nil (n := n) (b := 10))
  rw [hcs] at hdigits hvalue ⊢
  have hzero := commaList_digits rest hdigits 0
  rw [hvalue] at hzero
  rw [← hzero]
  have hcomma : c ≠ ',' := by
    rintro rfl
    exact absurd (hdigits ',' List.mem_cons_self) (by decide)
  rw [List.cons_append, commaList, commaList, if_neg hcomma, if_neg hcomma]
  rfl

theorem commaList_commaSeparated {ns : List ℕ} (h : ns ≠ []) :
    commaList (commaSeparated ns) none = some (ns.map Int.ofNat) := by
  fun_induction commaSeparated ns with
  | case1 => exact absurd rfl h
  | case2 n =>
      have hread := commaList_decimal [] n
      rw [List.append_nil] at hread
      rw [hread]
      rfl
  | case3 n m ns ih =>
      rw [commaList_decimal, commaList, if_pos rfl, ih (List.cons_ne_nil m ns)]
      rfl

theorem inverts_commaList {sys : System} (h : sys.parse = fun cs => commaList cs none) :
    sys.Inverts := by
  intro ns hns
  rw [h]
  exact commaList_commaSeparated hns.ne_nil

end CommaList

/-- One node of two cores, in a file that begins with a remark. -/
def smallTopo : UserTopo :=
  ⟨1, 1, 2, [0], [0, 1], by decide, by decide, by decide, ⟨by decide, by decide, by decide⟩,
    ⟨by decide, by decide, by decide⟩, ⟨by decide, by decide, by decide⟩⟩

def colon : Label := ⟨[':', ' '], by simp, by decide, by decide⟩

def smallConf : System :=
  { bareSystem with
    conf := some (render
      [['#', ' ', 's'], keyLine 'c' colon [0, 1], [], keyLine 's' colon [1, 1, 2]]
      (keyLine 'n' colon [0])) }

theorem conf_round_trip_small :
    reeactGetTopoConf smallConf .cleared = .ok () ⟨smallTopo.topo, 0⟩ :=
  (conf_round_trip smallConf (inverts_commaList rfl) smallTopo colon colon colon
    [['#', ' ', 's'], keyLine 'c' colon [0, 1], [], keyLine 's' colon [1, 1, 2]]
    (keyLine 'n' colon [0]) (by decide) rfl).1 (by decide)

end Reeact.Topo
