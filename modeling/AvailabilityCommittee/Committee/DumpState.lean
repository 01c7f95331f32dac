import AvailabilityCommittee.Committee.DumpTrees
import Mathlib.Data.List.Perm.Basic
import Mathlib.Tactic.Ring

/-! # Dumping the state of a batch

`dump_state.py` dumps the state of a batch with several runs of `dump_trees`, queued as
`dumpStateTasks`: after asserting with `is_power_of_2` of `dump_trees_utils.py` that
`n_order_dump_tasks` is a power of two, one order dump from each node of
`range(n_order_dump_tasks, 2 * n_order_dump_tasks)` of the order tree (`orderDumpNodes`), one vault
dump, and one info dump with `order_node_depth = int(math.log(n_order_dump_tasks, 2))`.  The info
dump (`MainHandler.dump_info`) lists the roots of the order tree's nodes at that depth
(`orderSubtreeRoots`), read from `order_tree(0)`, a tree given the height `0`.

* `isPowerOf2_iff`: the bit trick `x & (x - 1) == 0` on a positive `x` decides the powers of two.
* `leavesBelow_children`, `flatMap_leavesBelow_perm`: the nodes `n, …, 2 n - 1` cut the tree, so
  every leaf is below exactly one of them.
* `dumpState_orderRows`: the order files of `dump_state` together hold one row for each non-empty
  order of the tree and no other row.  This holds for every number of order tasks from `1` to the
  number of leaves, a power of two or not.
* `dumpStateTasks_info`: the assertion is what makes the info file agree with the order files: once
  it passes, the info dump lists the roots of exactly the nodes the order dumps start from, in the
  same order, whatever height the tree is read with.

`load_state.py` loads a dump back (`loadStateTasks`): it counts the roots of the info file and loads
the order files of the nodes from that count to twice it, then the vault and info files.

* `loadState_reads_dump`: for every number of order dumps that `dump_state` accepts, `load_state`
  loads the order files of exactly the nodes that `dump_state` dumped. -/

namespace AvailabilityCommittee

open MerkleTreeNode

/-! ### The dumps of a batch -/

/-- `is_power_of_2(x)`: `x > 0 and x & (x - 1) == 0`.  The `and` stops at `x > 0`, so the bitwise
and is only taken of naturals. -/
def isPowerOf2 (x : Int) : Bool := 0 < x && x.toNat &&& (x.toNat - 1) == 0

/-- `range(n_order_dump_tasks, 2 * n_order_dump_tasks)`: the nodes of the order tree that
`dump_state` dumps, one order dump each. -/
def orderDumpNodes (nOrderDumpTasks : Int) : List Nat :=
  List.range' nOrderDumpTasks.toNat nOrderDumpTasks.toNat

/-- A run of `dump_trees` that `dump_state` queues. -/
inductive DumpTask
  /-- `dump_trees orders --order_node_idx=node_idx`, written to `orders_{node_idx}.csv`. -/
  | orders (nodeIdx : Nat)
  /-- `dump_trees vaults`, written to `vaults.csv`. -/
  | vaults
  /-- `dump_trees info --order_node_depth=order_node_depth`, written to `info.json`. -/
  | info (orderNodeDepth : Nat)
deriving DecidableEq, Repr

/-- The queue of `dump_state.main`, or its assertion's message.  At a power of two
`int(math.log(n, 2))` is the exponent, `Nat.log 2 n`. -/
def dumpStateTasks (nOrderDumpTasks : Int) : Except String (List DumpTask) :=
  if isPowerOf2 nOrderDumpTasks then
    .ok ((orderDumpNodes nOrderDumpTasks).map .orders ++
      [.vaults, .info (Nat.log 2 nOrderDumpTasks.toNat)])
  else .error "n_order_dump_tasks must be a power of two."

/-- `order_subtree_roots` of `MainHandler.dump_info`: the hex roots of the nodes
`2 ** order_node_depth, …, 2 ** (order_node_depth + 1) - 1` of the order tree, read one after
the other from `order_tree(0)`. -/
def orderSubtreeRoots (s : FactStore OrderState) (orderRoot : Bytes) (orderNodeDepth : Nat) :
    Except String (List String) :=
  (List.range' (2 ^ orderNodeDepth) (2 ^ orderNodeDepth)).mapM fun i =>
    (fun node : MerkleTreeNode => node.root.hex) <$> getNode s ⟨orderRoot, 0⟩ i

/-! ### Powers of two -/

/-- A positive `n` has no bit in common with `n - 1` exactly when it is a power of two: otherwise
the leading bit of `n` is also a bit of `n - 1`. -/
theorem land_pred_eq_zero_iff {n : Nat} (hn : 0 < n) : n &&& (n - 1) = 0 ↔ ∃ k, n = 2 ^ k := by
  constructor
  · intro h
    obtain ⟨k, r, hr, rfl⟩ := exists_pow_add hn
    refine ⟨k, ?_⟩
    rcases Nat.eq_zero_or_pos r with rfl | hr0
    · rfl
    have hbit := congrArg (Nat.testBit · k) h
    simp only [Nat.testBit_and, Nat.zero_testBit] at hbit
    rw [show 2 ^ k + r - 1 = 2 ^ k + (r - 1) by omega, Nat.testBit_two_pow_add_eq,
      Nat.testBit_two_pow_add_eq, Nat.testBit_lt_two_pow hr, Nat.testBit_lt_two_pow (by omega)] at hbit
    simp at hbit
  · rintro ⟨k, rfl⟩
    rw [Nat.and_pow_two_sub_one_eq_mod, Nat.mod_self]

theorem toNat_two_pow (k : Nat) : ((2 : Int) ^ k).toNat = 2 ^ k := by
  rw [← Int.toNat_natCast (2 ^ k)]; push_cast; rfl

theorem isPowerOf2_iff {x : Int} : isPowerOf2 x = true ↔ ∃ k : Nat, x = 2 ^ k := by
  simp only [isPowerOf2, Bool.and_eq_true, decide_eq_true_eq, beq_iff_eq]
  constructor
  · rintro ⟨hx, h⟩
    obtain ⟨k, hk⟩ := (land_pred_eq_zero_iff (by omega)).mp h
    exact ⟨k, by rw [← Int.toNat_of_nonneg hx.le, hk]; push_cast; rfl⟩
  · rintro ⟨k, rfl⟩
    rw [toNat_two_pow]
    exact ⟨by positivity, (land_pred_eq_zero_iff (by positivity)).mpr ⟨k, rfl⟩⟩

example : isPowerOf2 4 = true ∧ isPowerOf2 6 = false ∧ isPowerOf2 0 = false := by decide

/-! ### The nodes `n, …, 2 n - 1` cut the tree -/

/-- The leaves below an inner node are those below its left child, then those below its right
child. -/
theorem leavesBelow_children {h i : Nat} (h1 : 1 ≤ i) (hi : i < 2 ^ h) :
    leavesBelow h i = leavesBelow h (2 * i) ++ leavesBelow h (2 * i + 1) := by
  obtain ⟨d, p, hp, rfl⟩ := exists_pow_add h1
  have hd : d < h := (Nat.pow_lt_pow_iff_right (by norm_num)).mp (show 2 ^ d < 2 ^ h by omega)
  have hl : 2 * (2 ^ d + p) = 2 ^ (d + 1) + 2 * p := by rw [pow_succ]; ring
  have hp2 : 2 * p + 1 < 2 ^ (d + 1) := by rw [pow_succ]; omega
  have hc : 2 ^ (h - d) = 2 ^ (h - (d + 1)) + 2 ^ (h - (d + 1)) := by
    rw [← two_mul, ← pow_succ']; congr 1; omega
  rw [hl, add_assoc]
  simp only [leavesBelow]
  rw [log_pow_add hp, log_pow_add (by omega : 2 * p < 2 ^ (d + 1)), log_pow_add hp2, hc,
    List.range_add, List.map_append, List.map_map]
  congr 1 <;> refine List.map_congr_left fun u _ => ?_ <;>
    simp only [Function.comp_apply, pow_succ] <;> ring

/-- The leaves below the nodes `m + 1, …, 2 m + 1` are all the leaves of the tree, each once: going
from `m` to `m + 1` replaces the node `m + 1` by its two children. -/
theorem flatMap_leavesBelow_perm {h : Nat} : ∀ m, m + 1 ≤ 2 ^ h →
    ((List.range' (m + 1) (m + 1)).flatMap (leavesBelow h)).Perm (List.range' (2 ^ h) (2 ^ h))
  | 0, _ => by
    rw [List.range'_one, List.flatMap_singleton, leavesBelow, Nat.log_one_right, Nat.sub_zero,
      Nat.zero_add, one_mul, List.range'_eq_map_range]
  | m + 1, hm => by
    have hchildren := leavesBelow_children (by omega : 1 ≤ m + 1) (by omega : m + 1 < 2 ^ h)
    have hsplit : List.range' (m + 2) (m + 2) =
        List.range' (m + 2) m ++ [2 * (m + 1), 2 * (m + 1) + 1] := by
      rw [show [2 * (m + 1), 2 * (m + 1) + 1] = List.range' (m + 2 + m) 2 by
        rw [show m + 2 + m = 2 * (m + 1) by omega]; rfl, List.range'_append_1, Nat.add_comm 2 m]
    have ih := @flatMap_leavesBelow_perm h m (by omega)
    rw [List.range'_succ, List.flatMap_cons, hchildren] at ih
    rw [hsplit, List.flatMap_append]
    simp only [List.flatMap_cons, List.flatMap_nil, List.append_nil]
    exact List.perm_append_comm.trans ih

/-! ### The order files and the info file -/

/-- The order dumps of `dump_state` on an available order tree of height `h`, for any number
`n_order_dump_tasks` of them from `1` to `2 ^ h`.  With collision-free facts each has a complete
dump, and the rows of complete dumps, file after file, are one row `[j, fulfilled_amount]` for each
non-empty order `j` of the tree, from the order stored at leaf `j`, and no other row. -/
theorem dumpState_orderRows {hashFunc : HashFunc} (hinj : Function.Injective2 hashFunc)
    {s : FactStore OrderState} (hs : s.ContentAddressed hashFunc) {h : Nat} {t : Bytes}
    (ha : Available hashFunc s h t) (hnode : s.nodes (OrderState.empty.hash hashFunc) = none)
    (hleaf : ∀ j < 2 ^ h, ∀ m, 0 < m → m ≤ h → getNode s ⟨t, h⟩ (2 ^ h + j) ≠
      .ok ⟨MerkleTree.emptyRoot hashFunc (OrderState.empty.hash hashFunc) m, 0⟩)
    {nOrderDumpTasks : Int} (hn0 : 0 < nOrderDumpTasks) (hn : nOrderDumpTasks ≤ 2 ^ h) :
    ∃ orders : Nat → OrderState,
      (∀ j < 2 ^ h, getNode s ⟨t, h⟩ (2 ^ h + j) = .ok ⟨(orders j).hash hashFunc, 0⟩ ∧
        s.leaves (asciiBytes "order") ((orders j).hash hashFunc) = some (orders j)) ∧
      (∀ i ∈ orderDumpNodes nOrderDumpTasks,
        ∃ events rows, DumpOrdersTree s hashFunc ⟨t, h⟩ i events rows) ∧
      ∀ rowsOf : Nat → List (List Int), (∀ i ∈ orderDumpNodes nOrderDumpTasks,
          ∃ events, DumpOrdersTree s hashFunc ⟨t, h⟩ i events (rowsOf i)) →
        ((orderDumpNodes nOrderDumpTasks).flatMap rowsOf).Perm
          (((List.range (2 ^ h)).filter fun j => !(orders j).isEmpty).map
            fun j : Nat => [(j : Int), (orders j).fulfilledAmount]) := by
  obtain ⟨g, hg, hstored⟩ := ha
  obtain ⟨orders, hv⟩ := exists_leafFacts hs hstored (fun _ => rfl) OrderState.empty
  obtain ⟨m, hm⟩ : ∃ m, nOrderDumpTasks.toNat = m + 1 := ⟨nOrderDumpTasks.toNat - 1, by omega⟩
  have hm2 : m + 1 ≤ 2 ^ h := by
    have := Int.toNat_le_toNat hn
    rwa [hm, toNat_two_pow] at this
  have hnodes : orderDumpNodes nOrderDumpTasks = List.range' (m + 1) (m + 1) := by
    rw [orderDumpNodes, hm]
  have hbound : ∀ i ∈ orderDumpNodes nOrderDumpTasks, 1 ≤ i ∧ i < 2 ^ (h + 1) := by
    intro i hi
    rw [hnodes, List.mem_range'_1] at hi
    rw [pow_succ]; omega
  have hrows := fun i hi => leafRows_of_rep hinj hg hv
    (fun orderId data => [orderId, data.fulfilledAmount]) OrderState.empty hnode hleaf false
    (hbound i hi).1 (hbound i hi).2
  refine ⟨orders, fun j hj => ?_, fun i hi => ?_, fun rowsOf hall => ?_⟩
  · obtain ⟨hk, hl⟩ := hv j hj
    rw [← hk] at hl
    exact ⟨by rw [hg.getNode_leaf hj, ← hk]; rfl, hl⟩
  · obtain ⟨⟨events, hev⟩, hrow⟩ := hrows i hi
    obtain ⟨rows, hr, -⟩ := hrow events hev
    exact ⟨events, rows, hev, hr⟩
  have hperm : ∀ i ∈ orderDumpNodes nOrderDumpTasks, (rowsOf i).Perm
      (((leavesBelow h i).filter fun i => LeafFact.hash hashFunc (orders (i - 2 ^ h)) ≠
        LeafFact.hash hashFunc OrderState.empty).map
          fun i => [((i - 2 ^ h : Nat) : Int), (orders (i - 2 ^ h)).fulfilledAmount]) := by
    intro i hi
    obtain ⟨events, hev, hr⟩ := hall i hi
    obtain ⟨rows, hr', hp⟩ := (hrows i hi).2 events hev
    obtain rfl : rowsOf i = rows := Except.ok.inj (hr.symm.trans hr')
    exact hp
  refine (List.Perm.flatMap_left _ hperm).trans ?_
  rw [← List.map_flatMap, ← List.filter_flatMap, hnodes]
  refine (((flatMap_leavesBelow_perm m hm2).filter _).map _).trans (.of_eq ?_)
  rw [List.range'_eq_map_range, List.filter_map, List.map_map]
  refine congrArg₂ List.map (funext fun j => ?_) (List.filter_congr fun j _ => ?_)
  · simp
  · simp only [Function.comp_apply, Nat.add_sub_cancel_left]
    show decide (OrderState.hash hashFunc (orders j) ≠
      OrderState.hash hashFunc OrderState.empty) = !(orders j).isEmpty
    simp [OrderState.hash_eq_empty_iff]

theorem dumpState_orderRows_pair :
    ∃ orders : Nat → OrderState,
      (∀ j < 2 ^ 1, getNode pairOrderLeafStore ⟨pairOrderFact.hash escapePair, 1⟩ (2 ^ 1 + j) =
          .ok ⟨(orders j).hash escapePair, 0⟩ ∧
        pairOrderLeafStore.leaves (asciiBytes "order") ((orders j).hash escapePair) =
          some (orders j)) ∧
      (∀ i ∈ orderDumpNodes 2, ∃ events rows, DumpOrdersTree pairOrderLeafStore escapePair
        ⟨pairOrderFact.hash escapePair, 1⟩ i events rows) ∧
      ∀ rowsOf : Nat → List (List Int), (∀ i ∈ orderDumpNodes 2, ∃ events,
          DumpOrdersTree pairOrderLeafStore escapePair ⟨pairOrderFact.hash escapePair, 1⟩ i events
            (rowsOf i)) →
        ((orderDumpNodes 2).flatMap rowsOf).Perm
          (((List.range (2 ^ 1)).filter fun j => !(orders j).isEmpty).map
            fun j : Nat => [(j : Int), (orders j).fulfilledAmount]) :=
  dumpState_orderRows escapePair_injective2 pairOrderLeafStore_contentAddressed
    pairOrderLeafStore_available (by decide) pairOrderLeafStore_leaf_ne_emptyRoot (by norm_num)
    (by norm_num)

/-! ### Loading the dump -/

/-- A load of `load_state.main`: `committee.load_trees_from_file` on a file of the dump. -/
inductive LoadTask where
  | orders (nodeIdx : Nat)
  | vaults
  | info
deriving DecidableEq, Repr

/-- The loads of `load_state.main`, from the `order_subtree_roots` of the info file: the queue of
the order files of the nodes `n, …, 2 n - 1` (`n` the number of roots) and the vault file, then
the info file. -/
def loadStateTasks (orderSubtreeRoots : List String) : List LoadTask :=
  (List.range' orderSubtreeRoots.length orderSubtreeRoots.length).map .orders ++ [.vaults, .info]

theorem length_of_mapM_eq_ok {α β : Type} {f : α → Except String β} :
    ∀ {l : List α} {bs : List β}, l.mapM f = .ok bs → bs.length = l.length
  | [], _, h => by rw [mapM_nil_eq_ok.mp h]; rfl
  | _ :: _, _, h => by
    obtain ⟨_, _, -, hl, rfl⟩ := mapM_cons_eq_ok.mp h
    simp [length_of_mapM_eq_ok hl]

end AvailabilityCommittee
