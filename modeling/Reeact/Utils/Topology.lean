import Reeact.Lib.Exits
import Mathlib.Logic.Function.Basic

/-!
# reeact_topology — the code

`reeact_topology.c`: the topology read from sysfs, and from a user's
configuration file; and its consumer `reeact_log_topology` of `reeact.c`.
Arrays have bounds: an access outside, or through `NULL`, leaves by
`outOfBounds`. Values are unbounded integers, except where the code counts
beyond an `int` it has read (`increment`).

The files a program can open, how many of them at once,
`parse_value_list_expand`, of the common_toolx library, and `malloc` of the two
output arrays are parameters. Each file is opened by `fopen` and not closed
again, but for the last one of a reader that succeeds. Not modelled: the log
output, what is freed, and other allocations, which do not fail.
-/

namespace Reeact.Topo

open Exits

/-! ## The system -/

/-- The files `reeact_get_topo_sysfs` reads. -/
inductive File where
  /-- `/sys/devices/system/node/online` -/
  | onlineNodes
  /-- `/sys/devices/system/cpu/online` -/
  | onlineCpus
  /-- `/sys/devices/system/cpu/cpu<cpu>/topology/thread_siblings_list` -/
  | threadSiblings (cpu : Int)
  /-- `/sys/devices/system/node/node<node>/cpulist` -/
  | cpulist (node : Int)
  /-- `/sys/devices/system/cpu/cpu<cpu>/topology/physical_package_id` -/
  | packageId (cpu : Int)
deriving DecidableEq, Repr

/-- An array of `int`. `stores` tells how often an entry has been stored to;
no code reads it. -/
structure IntArray where
  len : ℕ
  val : ℕ → Int
  stores : ℕ → ℕ

/-- `INT_MAX` of `limits.h`. -/
def INT_MAX : ℕ := 2147483647

/-- What a run finds. -/
structure System where
  /-- the contents of the sysfs files that are there -/
  file : File → Option (List Char)
  /-- the content of the file `REEACT_TOPO_CONFIG` names, if it can be opened -/
  conf : Option (List Char)
  /-- how many files can be open at once, each by a descriptor, an `int` -/
  fds : ℕ
  fds_le : fds ≤ INT_MAX := by decide
  /-- what `parse_value_list_expand` makes of a string; `none`: an error -/
  parse : List Char → Option (List Int)
  /-- what it leaves in its output where it makes an error of the string -/
  onError : List Char → Option IntArray → Option IntArray
  /-- what `malloc` leaves in `cores`; `none`: there is no memory -/
  coresHeap : Option (ℕ → Int)
  /-- what it leaves in `nodes` -/
  nodesHeap : Option (ℕ → Int)

/-- How a function is left before its end. -/
inductive Exit where
  | ret (code : Int)
  | outOfBounds
  | divByZero
  /-- a `%s` of a format without its argument -/
  | badFormat
  /-- `INT_MAX + 1` -/
  | overflow
deriving DecidableEq, Repr

/-! ## Arrays -/

/-- The array `parse_value_list_expand` returns. -/
def IntArray.ofList (vs : List Int) : IntArray := ⟨vs.length, fun i => vs.getD i 0, fun _ => 0⟩

/-- An array nothing has been stored to. -/
def IntArray.block (n : ℕ) (heap : ℕ → Int) : IntArray := ⟨n, heap, fun _ => 0⟩

def malloc (heap : Option (ℕ → Int)) (n : ℕ) : Option IntArray := heap.map (IntArray.block n)

/-- `struct processor_topo`: what the output parameters point to. -/
structure ProcessorTopo where
  socketCnt : Int
  nodeCnt : Int
  coreCnt : Int
  nodes : Option IntArray
  cores : Option IntArray

/-- The outputs as `reeact_get_topology` clears them. -/
def ProcessorTopo.cleared : ProcessorTopo := ⟨0, 0, 0, none, none⟩

/-- The outputs, and how many files have been opened and not closed. -/
structure State extends ProcessorTopo where
  opened : ℕ

def State.cleared : State := ⟨.cleared, 0⟩

abbrev Prog := EStateM Exit State

namespace IntArray

def inBounds (a : IntArray) (i : Int) : Bool := 0 ≤ i ∧ i < a.len

/-- `a[i]` -/
def load (a : IntArray) (i : Int) : Prog Int :=
  if a.inBounds i then pure (a.val i.toNat) else throw .outOfBounds

def put (a : IntArray) (i : ℕ) (v : Int) : IntArray :=
  ⟨a.len, Function.update a.val i v, Function.update a.stores i (a.stores i + 1)⟩

/-- `a[i] = v` -/
def store (a : IntArray) (i v : Int) : Prog IntArray :=
  if a.inBounds i then pure (a.put i.toNat v) else throw .outOfBounds

@[simp] theorem put_len (a : IntArray) (i : ℕ) (v : Int) : (a.put i v).len = a.len := rfl

@[simp] theorem put_val (a : IntArray) (i : ℕ) (v : Int) :
    (a.put i v).val i = v := Function.update_self ..

theorem put_val_ne (a : IntArray) {i j : ℕ} (v : Int) (h : j ≠ i) :
    (a.put i v).val j = a.val j := Function.update_of_ne h ..

@[simp] theorem put_stores (a : IntArray) (i : ℕ) (v : Int) :
    (a.put i v).stores i = a.stores i + 1 := Function.update_self ..

theorem put_stores_ne (a : IntArray) {i j : ℕ} (v : Int) (h : j ≠ i) :
    (a.put i v).stores j = a.stores j := Function.update_of_ne h ..

section Access

variable {a : IntArray} {i v : Int} {E : Exit → State → Prop} {t : State}

theorem wp_load {Q : Int → State → Prop} (hi : 0 ≤ i ∧ i < a.len)
    (h : Q (a.val i.toNat) t) : wp (a.load i) Q E t := by
  unfold load
  rw [if_pos (by simpa [inBounds] using hi)]
  exact h

theorem wp_load_out {Q : Int → State → Prop} (hi : ¬ i < a.len)
    (h : E .outOfBounds t) : wp (a.load i) Q E t := by
  unfold load
  rw [if_neg (by simp [inBounds, hi])]
  exact h

theorem wp_store {Q : IntArray → State → Prop} (hi : 0 ≤ i ∧ i < a.len)
    (h : Q (a.put i.toNat v) t) : wp (a.store i v) Q E t := by
  unfold store
  rw [if_pos (by simpa [inBounds] using hi)]
  exact h

theorem wp_load_nat {i : ℕ} {Q : Int → State → Prop} (hi : i < a.len)
    (h : Q (a.val i) t) : wp (a.load i) Q E t :=
  wp_load ⟨Int.natCast_nonneg i, Int.ofNat_lt.mpr hi⟩ (by rw [Int.toNat_natCast]; exact h)

theorem wp_store_nat {i : ℕ} {Q : IntArray → State → Prop} (hi : i < a.len)
    (h : Q (a.put i v) t) : wp (a.store i v) Q E t :=
  wp_store ⟨Int.natCast_nonneg i, Int.ofNat_lt.mpr hi⟩ (by rw [Int.toNat_natCast]; exact h)

theorem wp_store_out {Q : IntArray → State → Prop} (hi : ¬ i < a.len)
    (h : E .outOfBounds t) : wp (a.store i v) Q E t := by
  unfold store
  rw [if_neg (by simp [inBounds, hi])]
  exact h

end Access

end IntArray

/-- `(*nodes)[i]` -/
def loadNodes (i : Int) : Prog Int := do
  match (← get).nodes with
  | some a => a.load i
  | none => throw .outOfBounds

/-- `(*nodes)[i] = v` -/
def storeNodes (i v : Int) : Prog Unit := do
  match (← get).nodes with
  | some a =>
      let a ← a.store i v
      modify fun t => { t with nodes := some a }
  | none => throw .outOfBounds

/-- `(*cores)[i]` -/
def loadCores (i : Int) : Prog Int := do
  match (← get).cores with
  | some a => a.load i
  | none => throw .outOfBounds

/-- `(*cores)[i] = v` -/
def storeCores (i v : Int) : Prog Unit := do
  match (← get).cores with
  | some a =>
      let a ← a.store i v
      modify fun t => { t with cores := some a }
  | none => throw .outOfBounds

section Outputs

variable {a : IntArray} {i v : Int} {E : Exit → State → Prop} {t : State}

theorem wp_loadNodes {Q : Int → State → Prop} (hn : t.nodes = some a)
    (h : wp (a.load i) Q E t) : wp (loadNodes i) Q E t := by
  unfold loadNodes
  rw [wp_bind, wp_get, hn]
  exact h

theorem wp_loadCores {Q : Int → State → Prop} (hc : t.cores = some a)
    (h : wp (a.load i) Q E t) : wp (loadCores i) Q E t := by
  unfold loadCores
  rw [wp_bind, wp_get, hc]
  exact h

theorem wp_storeNodes {Q : Unit → State → Prop} (hn : t.nodes = some a)
    (h : wp (a.store i v) (fun a t' => Q () { t' with nodes := some a }) E t) :
    wp (storeNodes i v) Q E t := by
  unfold storeNodes
  rw [wp_bind, wp_get, hn]
  exact (wp_bind _ _).mpr h

theorem wp_storeNodes_null {Q : Unit → State → Prop} (hn : t.nodes = none)
    (h : E .outOfBounds t) : wp (storeNodes i v) Q E t := by
  unfold storeNodes
  rw [wp_bind, wp_get, hn]
  exact h

theorem wp_storeCores {Q : Unit → State → Prop} (hc : t.cores = some a)
    (h : wp (a.store i v) (fun a t' => Q () { t' with cores := some a }) E t) :
    wp (storeCores i v) Q E t := by
  unfold storeCores
  rw [wp_bind, wp_get, hc]
  exact (wp_bind _ _).mpr h

end Outputs

/-- `m / n`, of `int`s. -/
def divide (m n : Int) : Prog Int :=
  if n = 0 then throw .divByZero else pure (m.tdiv n)

theorem wp_divide {m n : Int} {Q : Int → State → Prop} {E : Exit → State → Prop}
    {t : State} (hn : n ≠ 0) (h : Q (m.tdiv n) t) : wp (divide m n) Q E t := by
  unfold divide
  rw [if_neg hn]
  exact h

/-- `n++`, of an `int`. -/
def increment (n : Int) : Prog Int :=
  if n < INT_MAX then pure (n + 1) else throw .overflow

/-! ## Lines -/

/-- What successive calls of `getline` return: the lines, each with its
newline, the last perhaps without. -/
def lines : List Char → List (List Char)
  | [] => []
  | c :: cs =>
      if c = '\n' then [c] :: lines cs
      else match lines cs with
        | [] => [[c]]
        | line :: rest => (c :: line) :: rest

/-- `if(line[len-1] == '\n') line[len-1] = '\0'`, and then the string up to the
first NUL. -/
def buffer (line : List Char) : List Char :=
  (if line.getLast? = some '\n' then line.dropLast else line).takeWhile (· ≠ '\x00')

section Lines

variable {text : List Char}

/-- A line with its newline is read whole. -/
theorem lines_append (h : '\n' ∉ text) (rest : List Char) :
    lines (text ++ '\n' :: rest) = (text ++ ['\n']) :: lines rest := by
  induction text with
  | nil => rfl
  | cons c text ih =>
      rw [List.mem_cons, not_or] at h
      rw [List.cons_append, lines, if_neg (Ne.symm h.1), ih h.2]
      rfl

/-- So is the last one without. -/
theorem lines_last (h : '\n' ∉ text) : lines text = if text = [] then [] else [text] := by
  induction text with
  | nil => rfl
  | cons c text ih =>
      rw [List.mem_cons, not_or] at h
      rw [lines, if_neg (Ne.symm h.1), ih h.2, if_neg (List.cons_ne_nil c text)]
      by_cases hnil : text = []
      · rw [if_pos hnil, hnil]
      · rw [if_neg hnil]

theorem buffer_newline (text : List Char) :
    buffer (text ++ ['\n']) = text.takeWhile (· ≠ '\x00') := by
  unfold buffer
  rw [List.getLast?_append, List.getLast?_singleton, Option.some_or, if_pos rfl,
    List.dropLast_concat]

theorem buffer_last (h : '\n' ∉ text) : buffer text = text.takeWhile (· ≠ '\x00') := by
  unfold buffer
  rw [if_neg (fun e => h (List.mem_of_getLast? e))]

end Lines

/-! ## sysfs -/

/-- `OPEN_FILE`, `GET_LINE_MUST_SUCCEED` and `parse_value_list_expand`. The
message for a file without a line lacks its argument. -/
def readList (sys : System) (f : File) : Prog (List Int) := do
  if sys.fds ≤ (← get).opened then
    throw (.ret 2)
  match sys.file f with
  | none => throw (.ret 2)
  | some content =>
      modify fun t => { t with opened := t.opened + 1 }
      match (lines content).head? with
      | none => throw .badFormat
      | some line =>
          match sys.parse (buffer line) with
          | none => throw (.ret 2)
          | some vs => pure vs

/-- One cpu context of the SMT marking loop, with `ctx_ids` and
`total_core_cnt`. -/
def markContext (sys : System) (acc : IntArray × ℕ) (i : ℕ) : Prog (IntArray × ℕ) := do
  if (← acc.1.load i) = -2 then
    pure acc
  else
    let contexts ← readList sys (.threadSiblings i)
    let ctxIds ← acc.1.store i (-1)
    let ctxIds ← contexts.foldlM
      (fun ctxIds c => if c ≠ (i : Int) then ctxIds.store c (-2) else pure ctxIds) ctxIds
    pure (ctxIds, acc.2 + 1)

/-- The core ids of node `i`. -/
def assignCores (sys : System) (ctxIds : IntArray) (i : ℕ) : Prog Unit := do
  let contexts ← readList sys (.cpulist i)
  discard <| contexts.foldlM (fun (k : ℕ) ctxId => do
    if (← ctxIds.load ctxId) = -1 then
      storeCores (i * (← get).coreCnt + k) ctxId
      pure (k + 1)
    else
      pure k) 0

/-- `contexts[0]`: the package of the first core of node `i`. -/
def firstPackage (sys : System) (i : ℕ) : Prog Int := do
  let coreId ← loadCores (i * (← get).coreCnt)
  let contexts ← readList sys (.packageId coreId)
  (IntArray.ofList contexts).load 0

/-- Node `i`, in the search for the largest package id. -/
def countSocket (sys : System) (i : ℕ) : Prog Unit := do
  let package ← firstPackage sys i
  if package > (← get).socketCnt then
    modify fun t => { t with socketCnt := package }

/-- Node `j`, in the search for the nodes of socket `i`. -/
def placeNode (sys : System) (i k j : ℕ) : Prog ℕ := do
  let socketId ← firstPackage sys j
  if socketId = i then
    storeNodes (socketId * (← get).nodeCnt + k) j
    pure (k + 1)
  else
    pure k

/-- `fclose(fp)`, with the file opened last. -/
def closeLast : Prog Unit := modify fun t => { t with opened := t.opened - 1 }

def reeactGetTopoSysfs (sys : System) : Prog Unit := do
  let nodeIds ← readList sys .onlineNodes
  let ctxIds ← readList sys .onlineCpus
  let totalNodeCnt := nodeIds.length
  let totalCtxCnt := ctxIds.length
  let (ctxIds, totalCoreCnt) ←
    (List.range totalCtxCnt).foldlM (markContext sys) (IntArray.ofList ctxIds, 0)
  modify fun t => { t with cores := malloc sys.coresHeap totalCoreCnt }
  let coreCnt ← divide totalCoreCnt totalNodeCnt
  modify fun t => { t with coreCnt := coreCnt }
  if (← get).cores.isNone then
    throw (.ret 3)
  (List.range totalNodeCnt).forM (assignCores sys ctxIds)
  modify fun t => { t with socketCnt := -1 }
  (List.range totalNodeCnt).forM (countSocket sys)
  let socketCnt ← increment (← get).socketCnt
  modify fun t => { t with socketCnt := socketCnt }
  modify fun t => { t with nodes := malloc sys.nodesHeap totalNodeCnt }
  let nodeCnt ← divide totalNodeCnt (← get).socketCnt
  modify fun t => { t with nodeCnt := nodeCnt }
  (List.range (← get).socketCnt.toNat).forM fun i =>
    discard <| (List.range totalNodeCnt).foldlM (placeNode sys i) 0
  closeLast

/-! ## The configuration file -/

/-- `while((*p < '0' || *p > '9') && (*p != '\0')) p++` -/
def skipToDigit (p : List Char) : List Char := p.dropWhile (fun c => c < '0' ∨ c > '9')

/-- One line of the configuration file: by its first character. -/
def confLine (sys : System) (buf : List Char) : Prog Unit := do
  let p := skipToDigit buf
  match buf.head? with
  | some 's' =>
      match sys.parse p with
      | none => throw (.ret 2)
      | some counts =>
          if counts.length ≠ 3 then
            throw (.ret 2)
          modify fun t => { t with
            socketCnt := counts.getD 0 0, nodeCnt := counts.getD 1 0, coreCnt := counts.getD 2 0 }
  | some 'n' =>
      match sys.parse p with
      | none =>
          modify fun t => { t with nodes := sys.onError p t.nodes }
          throw (.ret 2)
      | some nodes => modify fun t => { t with nodes := some (.ofList nodes) }
  | some 'c' =>
      match sys.parse p with
      | none =>
          modify fun t => { t with cores := sys.onError p t.cores }
          throw (.ret 2)
      | some cores => modify fun t => { t with cores := some (.ofList cores) }
  | _ => pure ()

def reeactGetTopoConf (sys : System) : Prog Unit := do
  match sys.conf with
  | none => throw (.ret 2)
  | some content =>
      modify fun t => { t with opened := t.opened + 1 }
      (lines content).forM fun line => confLine sys (buffer line)
      let t ← get
      if t.nodeCnt = 0 ∨ t.coreCnt = 0 ∨ t.socketCnt = 0 ∨ t.nodes.isNone ∨ t.cores.isNone then
        throw (.ret 2)
      closeLast

/-! ## Both -/

/-- The code a reader returns. -/
def retVal (x : Prog Unit) : Prog Int :=
  tryCatch (do x; pure 0) fun
    | .ret code => pure code
    | e => throw e

/-- `reeact_get_topology`. `nonNull`: none of the output parameters is `NULL`;
`named`: `REEACT_TOPO_CONFIG` is set. -/
def reeactGetTopology (sys : System) (named nonNull : Bool) : Prog Unit := do
  if !nonNull then
    throw (.ret 1)
  modify fun t => ⟨.cleared, t.opened⟩
  let ret ← if named then retVal (reeactGetTopoConf sys) else pure 1
  if ret ≠ 0 then
    reeactGetTopoSysfs sys

/-! ## The consumer -/

/-- `reeact_log_topology`: what it reads, entry by entry. -/
def reeactLogTopology : Prog Unit := do
  let t ← get
  (List.range t.socketCnt.toNat).forM fun i =>
    (List.range t.nodeCnt.toNat).forM fun j => do
      let nodeId ← loadNodes (i * t.nodeCnt + j)
      (List.range t.coreCnt.toNat).forM fun k =>
        discard <| loadCores (nodeId * t.coreCnt + k)

end Reeact.Topo
