import AvailabilityCommittee.MerkleTree.Available

/-! # Dumping a tree

`dump_tree_diff` walks a stored tree from a start index with `traverse_tree`, calling
`process_node` on every item `(index, node)` it meets: the node gets a row `[index, root.hex()]`
in the nodes file; a node whose root is the root of an empty tree of some height is not entered;
a leaf gets a call of the leaf callback; any other node yields its two children.

`traverse_tree.py` is not in the repository.  The model follows the spec's contract for it: the
pending items form a bag, any one of them may be processed next, the children it yields join the
bag, and the traversal ends when the bag is empty (`Traverse`); an exception ends it without a
complete run.  `process_node` is atomic in the model: the workers of the code interleave the rows
of different nodes, which changes only their order, and every result below holds up to order.

* `depthFirst`: the events of the depth-first traversal.  From a stored subtree it is a complete
  traversal (`traverse_depthFirst`), and every complete traversal writes its events in some order
  (`perm_depthFirst`, from the step lemma `depthFirst_step` and `Traverse.perm_flatMap`).
* `Rep.eq_emptyRoot`: with collision-free facts a stored subtree whose root is an empty root is an
  empty tree, so pruning loses no leaf.
* `leafCalls_depthFirst`, `nodeRows_depthFirst`: the leaf callback is called exactly at the leaves
  whose hash is not the empty leaf's; the nodes file holds the row of such a leaf and of the
  sibling of each of its ancestors below the start, and folding them gives the start's root.
* `dumpTreeDiff_spec`: the dump of a fully navigable tree from any of its nodes. -/

namespace AvailabilityCommittee

open MerkleTreeNode

/-- What `process_node` does that the dump shows: a row `[index, root.hex()]` of the nodes file,
or a call of the leaf callback with the index and the node of a leaf. -/
inductive DumpEvent
  | nodeRow (index : Nat) (root : String)
  | leafCall (index : Nat) (node : MerkleTreeNode)
deriving DecidableEq, Repr

/-- The calls of the leaf callback among the events, in order. -/
def leafCalls (events : List DumpEvent) : List (Nat × MerkleTreeNode) :=
  events.filterMap fun
    | .leafCall index node => some (index, node)
    | .nodeRow _ _ => none

@[simp] theorem leafCalls_append (a b : List DumpEvent) :
    leafCalls (a ++ b) = leafCalls a ++ leafCalls b := List.filterMap_append _ _ _

theorem leafCalls_perm {a b : List DumpEvent} (h : a.Perm b) : (leafCalls a).Perm (leafCalls b) :=
  h.filterMap _

/-! ### The traversal driver -/

/-- A complete run of `traverse_tree` from the pending items, writing `rows`.  Modelled from the
spec: `traverse_tree.py` is not in the repository.  The pending items are a bag; a step processes
any one of them, writes its rows and adds the children it yields; the run ends when none is
pending. -/
inductive Traverse {α β : Type} (process : α → Except String (List β × List α)) :
    List α → List β → Prop
  | done : Traverse process [] []
  | step {pending others children : List α} {item : α} {rows rest : List β} :
      pending.Perm (item :: others) → process item = .ok (rows, children) →
      Traverse process (others ++ children) rest → Traverse process pending (rows ++ rest)

namespace Traverse

variable {α β : Type} {process : α → Except String (List β × List α)}

/-- A run depends on the bag of pending items only. -/
theorem perm {pending pending' : List α} {rows : List β} (h : Traverse process pending rows)
    (hp : pending.Perm pending') : Traverse process pending' rows := by
  cases h with
  | done => rw [List.nil_perm.mp hp]; exact .done
  | step hperm hproc hrest => exact .step (hp.symm.trans hperm) hproc hrest

/-- A run from one item: process it, then traverse the children it yields. -/
theorem single {item : α} {rows rest : List β} {children : List α}
    (h : process item = .ok (rows, children)) (hrest : Traverse process children rest) :
    Traverse process [item] (rows ++ rest) :=
  .step (.refl _) h hrest

/-- Two bags traversed one after the other are traversed together. -/
theorem append {l₁ l₂ : List α} {r₁ r₂ : List β} (h₁ : Traverse process l₁ r₁)
    (h₂ : Traverse process l₂ r₂) : Traverse process (l₁ ++ l₂) (r₁ ++ r₂) := by
  induction h₁ with
  | done => exact h₂
  | @step pending others children item rows rest hperm hproc _ ih =>
    have hp : (others ++ (children ++ l₂)).Perm (others ++ (l₂ ++ children)) :=
      List.perm_append_comm.append_left others
    rw [← List.append_assoc, ← List.append_assoc] at hp
    rw [List.append_assoc]
    exact .step (hperm.append_right l₂) hproc (ih.perm hp)

/-- When processing an item writes its rows `E` up to those of its children, every complete run
writes the rows `E` of the pending items, in some order. -/
theorem perm_flatMap {P : α → Prop} {E : α → List β}
    (hstep : ∀ item rows children, P item → process item = .ok (rows, children) →
      (∀ c ∈ children, P c) ∧ E item = rows ++ children.flatMap E)
    {pending : List α} {rows : List β} (h : Traverse process pending rows)
    (hP : ∀ x ∈ pending, P x) : rows.Perm (pending.flatMap E) := by
  induction h with
  | done => exact .nil
  | @step pending others children item rows rest hperm hproc _ ih =>
    have hitem := hP item (hperm.symm.subset (List.mem_cons_self _ _))
    obtain ⟨hc, hE⟩ := hstep item rows children hitem hproc
    have hrest := ih fun x hx => (List.mem_append.mp hx).elim
      (fun hx => hP x (hperm.symm.subset (List.mem_cons_of_mem _ hx))) (hc x)
    have hrows : (rows ++ rest).Perm (rows ++ (children.flatMap E ++ others.flatMap E)) := by
      rw [List.flatMap_append] at hrest
      exact (hrest.trans List.perm_append_comm).append_left rows
    refine hrows.trans ?_
    rw [← List.append_assoc, ← hE, ← List.flatMap_cons]
    exact (hperm.flatMap_right E).symm

end Traverse

/-! ### `dump_tree_diff` -/

section Dump

variable {Leaf : Type} (s : FactStore Leaf) (emptyTrees : List Bytes) (dumpNodes dumpLeaves : Bool)

/-- The row of the node in the nodes file, when there is one. -/
def nodeRows (index : Nat) (node : MerkleTreeNode) : List DumpEvent :=
  if dumpNodes then [.nodeRow index node.root.hex] else []

/-- `process_node` of `dump_tree_diff`: the events it writes and the children it yields.
`dumpNodes` and `dumpLeaves` say whether the nodes and the leaves files are given. -/
def processNode (index : Nat) (node : MerkleTreeNode) :
    Except String (List DumpEvent × List (Nat × MerkleTreeNode)) :=
  if node.root ∈ emptyTrees then .ok (nodeRows dumpNodes index node, [])
  else if node.height = 0 then
    .ok (nodeRows dumpNodes index node ++ if dumpLeaves then [.leafCall index node] else [], [])
  else (fun children => (nodeRows dumpNodes index node,
    [(2 * index, children.1), (2 * index + 1, children.2)])) <$> node.getChildren s

/-- The events of the depth-first traversal from the node `index` of height `k`. -/
def depthFirst : Nat → Nat → MerkleTreeNode → List DumpEvent
  | 0, index, node =>
    if node.root ∈ emptyTrees then nodeRows dumpNodes index node
    else nodeRows dumpNodes index node ++ if dumpLeaves then [.leafCall index node] else []
  | k + 1, index, node =>
    if node.root ∈ emptyTrees then nodeRows dumpNodes index node
    else match node.getChildren s with
      | .ok (left, right) => nodeRows dumpNodes index node ++ depthFirst k (2 * index) left ++
          depthFirst k (2 * index + 1) right
      | .error _ => nodeRows dumpNodes index node

variable [LeafFact Leaf] (hashFunc : HashFunc)

/-- `dump_tree_diff(ffc, tree, nodes_file, leaves_file, node_idx, dump_leaf_callback,
default_leaf)` ends, having written `events`: the empty roots of every height up to the tree's,
the node at `node_idx`, and a complete traversal from it. -/
def DumpTreeDiff (tree : MerkleTree) (nodeIdx : Nat) (defaultLeaf : Leaf)
    (events : List DumpEvent) : Prop :=
  ∃ emptyTrees start, MerkleTree.emptyTreeRoots hashFunc tree.height defaultLeaf = .ok emptyTrees ∧
    getNode s ⟨tree.root, tree.height⟩ nodeIdx = .ok start ∧
    Traverse (fun item => processNode s emptyTrees dumpNodes dumpLeaves item.1 item.2)
      [(nodeIdx, start)] events

end Dump

/-! ### Paths -/

/-- The index of the sibling of the node `index`. -/
def siblingIndex (index : Nat) : Nat := if index % 2 = 0 then index + 1 else index - 1

/-- Fold the hash `leaf` of the node `index` up `n` levels with the roots `sibling 0, …,
sibling (n - 1)` of the siblings on the way, bottom-up: at level `l` the sibling is on the left
when the ancestor `index / 2 ^ l` is a right child. -/
def pathRoot (hashFunc : HashFunc) (sibling : Nat → Bytes) (index : Nat) (leaf : Bytes) :
    Nat → Bytes
  | 0 => leaf
  | n + 1 =>
    if index / 2 ^ n % 2 = 0 then hashFunc (pathRoot hashFunc sibling index leaf n) (sibling n)
      else hashFunc (sibling n) (pathRoot hashFunc sibling index leaf n)

theorem pathRoot_congr (hashFunc : HashFunc) {sibling sibling' : Nat → Bytes} {index : Nat}
    {leaf : Bytes} {n : Nat} (h : ∀ l < n, sibling l = sibling' l) :
    pathRoot hashFunc sibling index leaf n = pathRoot hashFunc sibling' index leaf n := by
  induction n with
  | zero => rfl
  | succ n ih =>
    simp only [pathRoot, ih fun l hl => h l (by omega), h n (by omega)]

/-- The leaves below the node `index` of a tree of height `h`: the node indices
`index * 2 ^ (h - d) + u` for `u < 2 ^ (h - d)`, where `d = log2 index` is the depth of
`index`. -/
def leavesBelow (h index : Nat) : List Nat :=
  (List.range (2 ^ (h - Nat.log 2 index))).map (index * 2 ^ (h - Nat.log 2 index) + ·)

/-- What a complete dump from `nodeIdx` of a tree of height `h` with leaves `g` has written in
`events`, the node at `nodeIdx` being `start`: one call of the leaf callback for each leaf below
`nodeIdx` whose hash is not the empty leaf's, with its index and node, and no other call; and, when
there is a nodes file, for each such leaf the row of the leaf and the rows of the siblings of its
ancestors below `nodeIdx`, which fold up to the root of `start`. -/
structure DumpSpec (hashFunc : HashFunc) (g : Nat → Bytes) (emptyLeafHash : Bytes) (h nodeIdx : Nat)
    (start : MerkleTreeNode) (dumpNodes : Bool) (events : List DumpEvent) : Prop where
  calls : (leafCalls events).Perm
    (((leavesBelow h nodeIdx).filter fun i => g (i - 2 ^ h) ≠ emptyLeafHash).map
      fun i => (i, ⟨g (i - 2 ^ h), 0⟩))
  rows : dumpNodes = true → ∀ i ∈ leavesBelow h nodeIdx, g (i - 2 ^ h) ≠ emptyLeafHash →
    ∃ sibling : Nat → Bytes, DumpEvent.nodeRow i (g (i - 2 ^ h)).hex ∈ events ∧
      (∀ l < h - Nat.log 2 nodeIdx,
        DumpEvent.nodeRow (siblingIndex (i / 2 ^ l)) (sibling l).hex ∈ events) ∧
      pathRoot hashFunc sibling i (g (i - 2 ^ h)) (h - Nat.log 2 nodeIdx) = start.root

section Equations

variable {Leaf : Type} {s : FactStore Leaf} {emptyTrees : List Bytes} {dumpNodes dumpLeaves : Bool}
  {index : Nat} {node : MerkleTreeNode}

@[simp] theorem leafCalls_nodeRows : leafCalls (nodeRows dumpNodes index node) = [] := by
  unfold nodeRows; split <;> rfl

@[simp] theorem leafCalls_leafCall (index : Nat) (node : MerkleTreeNode) :
    leafCalls [.leafCall index node] = [(index, node)] := rfl

theorem processNode_of_mem (he : node.root ∈ emptyTrees) :
    processNode s emptyTrees dumpNodes dumpLeaves index node =
      .ok (nodeRows dumpNodes index node, []) := if_pos he

theorem processNode_leaf (he : node.root ∉ emptyTrees) (h0 : node.height = 0) :
    processNode s emptyTrees dumpNodes dumpLeaves index node =
      .ok (nodeRows dumpNodes index node ++ if dumpLeaves then [.leafCall index node] else [],
        []) := by
  rw [processNode, if_neg he, if_pos h0]

theorem processNode_inner {left right : MerkleTreeNode} (he : node.root ∉ emptyTrees)
    (h0 : node.height ≠ 0) (hc : node.getChildren s = .ok (left, right)) :
    processNode s emptyTrees dumpNodes dumpLeaves index node =
      .ok (nodeRows dumpNodes index node, [(2 * index, left), (2 * index + 1, right)]) := by
  rw [processNode, if_neg he, if_neg h0, hc, except_map_ok]

/-- What `process_node` can return: no child below an empty root, the leaf call at a leaf, and
the two children elsewhere. -/
theorem processNode_eq_ok {rows : List DumpEvent} {children : List (Nat × MerkleTreeNode)}
    (h : processNode s emptyTrees dumpNodes dumpLeaves index node = .ok (rows, children)) :
    (node.root ∈ emptyTrees ∧ rows = nodeRows dumpNodes index node ∧ children = []) ∨
    (node.root ∉ emptyTrees ∧ node.height = 0 ∧
      rows = nodeRows dumpNodes index node ++ (if dumpLeaves then [.leafCall index node] else []) ∧
      children = []) ∨
    (node.root ∉ emptyTrees ∧ node.height ≠ 0 ∧ ∃ left right,
      node.getChildren s = .ok (left, right) ∧ rows = nodeRows dumpNodes index node ∧
      children = [(2 * index, left), (2 * index + 1, right)]) := by
  by_cases he : node.root ∈ emptyTrees
  · rw [processNode_of_mem he] at h
    cases h; exact .inl ⟨he, rfl, rfl⟩
  by_cases h0 : node.height = 0
  · rw [processNode_leaf he h0] at h
    cases h; exact .inr (.inl ⟨he, h0, rfl, rfl⟩)
  rcases hc : node.getChildren s with _ | ⟨left, right⟩
  · rw [processNode, if_neg he, if_neg h0, hc] at h; cases h
  · rw [processNode_inner he h0 hc] at h
    cases h; exact .inr (.inr ⟨he, h0, left, right, rfl, rfl, rfl⟩)

theorem depthFirst_of_mem (k : Nat) (he : node.root ∈ emptyTrees) :
    depthFirst s emptyTrees dumpNodes dumpLeaves k index node = nodeRows dumpNodes index node := by
  cases k <;> simp only [depthFirst, if_pos he]

theorem depthFirst_zero (he : node.root ∉ emptyTrees) :
    depthFirst s emptyTrees dumpNodes dumpLeaves 0 index node =
      nodeRows dumpNodes index node ++ if dumpLeaves then [.leafCall index node] else [] :=
  if_neg he

theorem depthFirst_succ {k : Nat} {left right : MerkleTreeNode} (he : node.root ∉ emptyTrees)
    (hc : node.getChildren s = .ok (left, right)) :
    depthFirst s emptyTrees dumpNodes dumpLeaves (k + 1) index node =
      nodeRows dumpNodes index node ++
        depthFirst s emptyTrees dumpNodes dumpLeaves k (2 * index) left ++
        depthFirst s emptyTrees dumpNodes dumpLeaves k (2 * index + 1) right := by
  rw [depthFirst, if_neg he, hc]

/-- Every depth-first dump starts with the node's own row. -/
theorem nodeRows_prefix_depthFirst (k : Nat) :
    (nodeRows dumpNodes index node).IsPrefix
      (depthFirst s emptyTrees dumpNodes dumpLeaves k index node) := by
  by_cases he : node.root ∈ emptyTrees
  · exact ⟨[], by rw [depthFirst_of_mem k he, List.append_nil]⟩
  rcases k with _ | k
  · rw [depthFirst_zero he]; exact List.prefix_append _ _
  · rcases hc : node.getChildren s with _ | ⟨left, right⟩
    · exact ⟨[], by rw [depthFirst, if_neg he, hc, List.append_nil]⟩
    · rw [depthFirst_succ he hc]; exact (List.prefix_append _ _).trans (List.prefix_append _ _)

theorem nodeRow_mem_depthFirst (k : Nat) :
    DumpEvent.nodeRow index node.root.hex ∈ depthFirst s emptyTrees true dumpLeaves k index node :=
  (nodeRows_prefix_depthFirst k).subset (List.mem_singleton_self _)

/-- One step of a traversal: processing an item of nonnegative height writes its depth-first
events up to those of the children it yields. -/
theorem depthFirst_step {item : Nat × MerkleTreeNode} {rows : List DumpEvent}
    {children : List (Nat × MerkleTreeNode)} (hh : 0 ≤ item.2.height)
    (h : processNode s emptyTrees dumpNodes dumpLeaves item.1 item.2 = .ok (rows, children)) :
    (∀ c ∈ children, 0 ≤ c.2.height) ∧
      depthFirst s emptyTrees dumpNodes dumpLeaves item.2.height.toNat item.1 item.2 =
        rows ++ children.flatMap fun c =>
          depthFirst s emptyTrees dumpNodes dumpLeaves c.2.height.toNat c.1 c.2 := by
  rcases processNode_eq_ok h with ⟨he, rfl, rfl⟩ | ⟨he, h0, rfl, rfl⟩ |
    ⟨he, h0, left, right, hc, rfl, rfl⟩
  · exact ⟨by simp, by simp [depthFirst_of_mem _ he]⟩
  · exact ⟨by simp, by simp [h0, depthFirst_zero he]⟩
  · obtain ⟨fact, -, hlr⟩ := getChildren_eq_ok.mp hc
    simp only [Prod.mk.injEq] at hlr
    obtain ⟨rfl, rfl⟩ := hlr
    have hk : item.2.height.toNat = (item.2.height - 1).toNat + 1 := by omega
    refine ⟨by simp; omega, ?_⟩
    rw [hk, depthFirst_succ he hc]
    simp

/-- Every complete traversal from a node of nonnegative height writes the events of the
depth-first one, in some order. -/
theorem perm_depthFirst {start : MerkleTreeNode} (hh : 0 ≤ start.height) {events : List DumpEvent}
    (h : Traverse (fun item => processNode s emptyTrees dumpNodes dumpLeaves item.1 item.2)
      [(index, start)] events) :
    events.Perm (depthFirst s emptyTrees dumpNodes dumpLeaves start.height.toNat index start) := by
  simpa using h.perm_flatMap (fun _ _ _ => depthFirst_step) (by simpa using hh)

end Equations

section Stored

variable {Leaf : Type} {hashFunc : HashFunc} {s : FactStore Leaf} {emptyTrees : List Bytes}
  {dumpNodes dumpLeaves : Bool}

/-- The children of a stored inner node, one level lower. -/
theorem Rep.getChildren_eq {k : Nat} {r : Bytes} {f : Nat → Bytes}
    (hr : Rep hashFunc s (k + 1) r f) : ∃ fact : MerkleNodeFact,
      getChildren s ⟨r, ((k + 1 : Nat) : Int)⟩ = .ok (⟨fact.leftNode, k⟩, ⟨fact.rightNode, k⟩) ∧
      hashFunc fact.leftNode fact.rightNode = r ∧ Rep hashFunc s k fact.leftNode f ∧
      Rep hashFunc s k fact.rightNode (fun u => f (2 ^ k + u)) := by
  obtain ⟨fact, hs, hfact, hl, hr⟩ := hr
  refine ⟨fact, ?_, hfact, hl, hr⟩
  rw [getChildren_of_nodes hs, show ((k + 1 : Nat) : Int) - 1 = k by omega]

/-- From a stored subtree the depth-first events are written by a complete traversal. -/
theorem traverse_depthFirst (k index : Nat) {r : Bytes} {f : Nat → Bytes}
    (hr : Rep hashFunc s k r f) :
    Traverse (fun item => processNode s emptyTrees dumpNodes dumpLeaves item.1 item.2)
      [(index, ⟨r, k⟩)] (depthFirst s emptyTrees dumpNodes dumpLeaves k index ⟨r, k⟩) := by
  induction k generalizing index r f with
  | zero =>
    by_cases he : r ∈ emptyTrees
    · rw [depthFirst_of_mem 0 he, ← List.append_nil (nodeRows _ _ _)]
      exact .single (processNode_of_mem he) .done
    · rw [depthFirst_zero he, ← List.append_nil (_ ++ _)]
      exact .single (processNode_leaf he rfl) .done
  | succ k ih =>
    by_cases he : r ∈ emptyTrees
    · rw [depthFirst_of_mem _ he, ← List.append_nil (nodeRows _ _ _)]
      exact .single (processNode_of_mem he) .done
    · obtain ⟨fact, hc, -, hl, hrr⟩ := Rep.getChildren_eq hr
      rw [depthFirst_succ he hc, List.append_assoc]
      exact .single (processNode_inner he (show ((k + 1 : Nat) : Int) ≠ 0 by omega) hc)
        ((ih (2 * index) hl).append (ih (2 * index + 1) hrr))

variable {e : Bytes} {H : Nat}

/-- With a collision-free `hash_func`, no node fact stored under the empty leaf hash `e`, and no
leaf equal to an empty root of a positive height up to `H`: a stored subtree whose root is the empty
root of some height up to `H` has only empty leaves. -/
theorem Rep.eq_emptyRoot (hinj : Function.Injective2 hashFunc) (hnode : s.nodes e = none) :
    ∀ {k : Nat} {r : Bytes} {f : Nat → Bytes}, Rep hashFunc s k r f →
      (∀ t < 2 ^ k, ∀ m, 0 < m → m ≤ H → f t ≠ MerkleTree.emptyRoot hashFunc e m) →
      ∀ m ≤ H, r = MerkleTree.emptyRoot hashFunc e m → ∀ t < 2 ^ k, f t = e
  | 0, r, f, hr, hleaf, m, hm, he, t, ht => by
    obtain rfl : t = 0 := by omega
    rcases m with _ | m
    · exact (hr : r = f 0) ▸ he
    · exact absurd ((hr : r = f 0) ▸ he) (hleaf 0 ht (m + 1) (by omega) hm)
  | k + 1, r, f, hr, hleaf, m, hm, he, t, ht => by
    obtain ⟨fact, hs, hfact, hl, hrr⟩ := hr
    have hp : 2 ^ (k + 1) = 2 * 2 ^ k := pow_succ' 2 k
    rcases m with _ | m
    · have hr : s.nodes r = none := by rw [he]; exact hnode
      rw [hr] at hs; cases hs
    obtain ⟨hle, hri⟩ := hinj (hfact.trans he)
    by_cases htk : t < 2 ^ k
    · exact Rep.eq_emptyRoot hinj hnode hl (fun u hu => hleaf u (by omega)) m (by omega) hle t htk
    · have := Rep.eq_emptyRoot hinj hnode hrr (fun u hu => hleaf (2 ^ k + u) (by omega)) m
        (by omega) hri (t - 2 ^ k) (by omega)
      rwa [Nat.add_sub_cancel' (by omega)] at this

/-- Pruning at the empty roots of the heights up to `H` loses no leaf: a stored subtree whose
root is one of them has only empty leaves. -/
theorem Rep.leaves_of_mem (hinj : Function.Injective2 hashFunc) (hnode : s.nodes e = none)
    {k : Nat} {r : Bytes} {f : Nat → Bytes} (hr : Rep hashFunc s k r f)
    (hleaf : ∀ t < 2 ^ k, ∀ m, 0 < m → m ≤ H → f t ≠ MerkleTree.emptyRoot hashFunc e m)
    (he : r ∈ (List.range (H + 1)).map (MerkleTree.emptyRoot hashFunc e)) :
    ∀ t < 2 ^ k, f t = e := by
  obtain ⟨m, hm, rfl⟩ := List.mem_map.mp he
  exact hr.eq_emptyRoot hinj hnode hleaf m (by simpa [Nat.lt_succ_iff] using hm) rfl

/-- Below an empty root the dump calls the leaf callback nowhere, and every leaf is empty. -/
theorem leafCalls_depthFirst_of_mem (hinj : Function.Injective2 hashFunc)
    (hnode : s.nodes e = none) {k index : Nat} {r : Bytes} {f : Nat → Bytes}
    (hr : Rep hashFunc s k r f)
    (hleaf : ∀ t < 2 ^ k, ∀ m, 0 < m → m ≤ H → f t ≠ MerkleTree.emptyRoot hashFunc e m)
    (he : r ∈ (List.range (H + 1)).map (MerkleTree.emptyRoot hashFunc e)) :
    leafCalls (depthFirst s ((List.range (H + 1)).map (MerkleTree.emptyRoot hashFunc e))
        dumpNodes dumpLeaves k index ⟨r, k⟩) = [] ∧
      ((List.range (2 ^ k)).filter fun t => f t ≠ e) = [] := by
  refine ⟨by rw [depthFirst_of_mem k he, leafCalls_nodeRows], List.filter_eq_nil_iff.mpr ?_⟩
  intro t ht
  simp [hr.leaves_of_mem hinj hnode hleaf he t (List.mem_range.mp ht)]

/-- The leaf calls of the depth-first dump of a stored subtree, pruned at the empty roots of the
heights up to `H`: one call for each leaf whose hash is not the empty leaf's, in order. -/
theorem leafCalls_depthFirst (hinj : Function.Injective2 hashFunc) (hnode : s.nodes e = none)
    (k index : Nat) {r : Bytes} {f : Nat → Bytes} (hr : Rep hashFunc s k r f)
    (hleaf : ∀ t < 2 ^ k, ∀ m, 0 < m → m ≤ H → f t ≠ MerkleTree.emptyRoot hashFunc e m) :
    leafCalls (depthFirst s ((List.range (H + 1)).map (MerkleTree.emptyRoot hashFunc e))
        dumpNodes true k index ⟨r, k⟩) =
      ((List.range (2 ^ k)).filter fun t => f t ≠ e).map
        fun t => (index * 2 ^ k + t, ⟨f t, 0⟩) := by
  induction k generalizing index r f with
  | zero =>
    by_cases he : r ∈ (List.range (H + 1)).map (MerkleTree.emptyRoot hashFunc e)
    · obtain ⟨h₁, h₂⟩ := leafCalls_depthFirst_of_mem hinj hnode hr hleaf he
      rw [h₁, h₂, List.map_nil]
    · obtain rfl : r = f 0 := hr
      have hne : f 0 ≠ e := fun h => he (List.mem_map.mpr ⟨0, by simp, h.symm⟩)
      rw [depthFirst_zero he]
      simp [hne, show List.range 1 = [0] from rfl]
  | succ k ih =>
    by_cases he : r ∈ (List.range (H + 1)).map (MerkleTree.emptyRoot hashFunc e)
    · obtain ⟨h₁, h₂⟩ := leafCalls_depthFirst_of_mem hinj hnode hr hleaf he
      rw [h₁, h₂, List.map_nil]
    have hp : 2 ^ (k + 1) = 2 ^ k + 2 ^ k := by rw [pow_succ, mul_two]
    obtain ⟨fact, hc, -, hl, hrr⟩ := Rep.getChildren_eq hr
    rw [depthFirst_succ he hc, leafCalls_append, leafCalls_append, leafCalls_nodeRows,
      List.nil_append, ih (2 * index) hl fun u hu => hleaf u (by omega),
      ih (2 * index + 1) hrr fun u hu => hleaf (2 ^ k + u) (by omega), hp, List.range_add,
      List.filter_append, List.map_append, List.filter_map, List.map_map]
    congr 1
    · congr 1; funext t; congr 1; ring
    · congr 1; funext t; simp only [Function.comp_apply, Prod.mk.injEq, and_true]; ring

/-- The ancestor at `k` levels above the node `2 * index * 2 ^ k + t` of a left subtree. -/
theorem div_pow_left {index k t : Nat} (ht : t < 2 ^ k) :
    (2 * index * 2 ^ k + t) / 2 ^ k = 2 * index := by
  rw [Nat.add_comm, Nat.add_mul_div_right _ _ (by positivity), Nat.div_eq_of_lt ht, zero_add]

/-- With a nodes file, the depth-first dump of a stored subtree writes the row of each leaf whose
hash is not the empty leaf's and the rows of the siblings of its ancestors below the subtree's
root, and folding them up gives the root. -/
theorem nodeRows_depthFirst (hinj : Function.Injective2 hashFunc) (hnode : s.nodes e = none)
    (k index : Nat) {r : Bytes} {f : Nat → Bytes} (hr : Rep hashFunc s k r f)
    (hleaf : ∀ t < 2 ^ k, ∀ m, 0 < m → m ≤ H → f t ≠ MerkleTree.emptyRoot hashFunc e m)
    {t : Nat} (ht : t < 2 ^ k) (hne : f t ≠ e) :
    ∃ sibling : Nat → Bytes,
      DumpEvent.nodeRow (index * 2 ^ k + t) (f t).hex ∈
        depthFirst s ((List.range (H + 1)).map (MerkleTree.emptyRoot hashFunc e)) true dumpLeaves
          k index ⟨r, k⟩ ∧
      (∀ l < k, DumpEvent.nodeRow (siblingIndex ((index * 2 ^ k + t) / 2 ^ l)) (sibling l).hex ∈
        depthFirst s ((List.range (H + 1)).map (MerkleTree.emptyRoot hashFunc e)) true dumpLeaves
          k index ⟨r, k⟩) ∧
      pathRoot hashFunc sibling (index * 2 ^ k + t) (f t) k = r := by
  induction k generalizing index r f t with
  | zero =>
    obtain rfl : t = 0 := by omega
    obtain rfl : r = f 0 := hr
    refine ⟨fun _ => f 0, ?_, fun l hl => absurd hl (Nat.not_lt_zero l), rfl⟩
    rw [pow_zero, mul_one, add_zero]
    exact nodeRow_mem_depthFirst 0
  | succ k ih =>
    have he : r ∉ (List.range (H + 1)).map (MerkleTree.emptyRoot hashFunc e) :=
      fun he => hne (hr.leaves_of_mem hinj hnode hleaf he t ht)
    obtain ⟨fact, hc, hfact, hl, hrr⟩ := Rep.getChildren_eq hr
    have hp : 2 ^ (k + 1) = 2 * 2 ^ k := pow_succ' 2 k
    rw [depthFirst_succ he hc]
    by_cases hside : t < 2 ^ k
    · obtain ⟨sib, hrow, hsib, hpath⟩ :=
        ih (2 * index) hl (fun u hu => hleaf u (by omega)) hside hne
      have hL : index * 2 ^ (k + 1) + t = 2 * index * 2 ^ k + t := by rw [hp]; ring
      have hdiv : (2 * index * 2 ^ k + t) / 2 ^ k = 2 * index := div_pow_left hside
      rw [hL]
      refine ⟨fun l => if l < k then sib l else fact.rightNode,
        List.mem_append_left _ (List.mem_append_right _ hrow), fun l hl' => ?_, ?_⟩
      · by_cases hlk : l < k
        · simp only [if_pos hlk]
          exact List.mem_append_left _ (List.mem_append_right _ (hsib l hlk))
        · obtain rfl : l = k := by omega
          dsimp only
          rw [if_neg (lt_irrefl l), hdiv, siblingIndex, if_pos (by omega)]
          exact List.mem_append_right _ (nodeRow_mem_depthFirst _)
      · rw [pathRoot, hdiv, if_pos (by omega), if_neg (lt_irrefl k),
          pathRoot_congr hashFunc fun l hl => if_pos hl, hpath]
        exact hfact
    · have ht' : t - 2 ^ k < 2 ^ k := by omega
      have hft : f (2 ^ k + (t - 2 ^ k)) = f t := by rw [Nat.add_sub_cancel' (by omega)]
      obtain ⟨sib, hrow, hsib, hpath⟩ := ih (2 * index + 1) hrr
        (fun u hu => hleaf (2 ^ k + u) (by omega)) ht' (by rwa [hft])
      have hL : index * 2 ^ (k + 1) + t = (2 * index + 1) * 2 ^ k + (t - 2 ^ k) := by
        have : (2 * index + 1) * 2 ^ k = 2 * index * 2 ^ k + 2 ^ k := by ring
        rw [hp, this, show index * (2 * 2 ^ k) = 2 * index * 2 ^ k by ring]; omega
      have hdiv : ((2 * index + 1) * 2 ^ k + (t - 2 ^ k)) / 2 ^ k = 2 * index + 1 := by
        rw [Nat.add_comm, Nat.add_mul_div_right _ _ (by positivity), Nat.div_eq_of_lt ht', zero_add]
      rw [hL, ← hft]
      refine ⟨fun l => if l < k then sib l else fact.leftNode, List.mem_append_right _ hrow,
        fun l hl' => ?_, ?_⟩
      · by_cases hlk : l < k
        · simp only [if_pos hlk]
          exact List.mem_append_right _ (hsib l hlk)
        · obtain rfl : l = k := by omega
          dsimp only
          rw [if_neg (lt_irrefl l), hdiv, siblingIndex, if_neg (by omega), Nat.add_sub_cancel]
          exact List.mem_append_left _ (List.mem_append_right _ (nodeRow_mem_depthFirst _))
      · rw [pathRoot, hdiv, if_neg (by omega), if_neg (lt_irrefl k),
          pathRoot_congr hashFunc fun l hl => if_pos hl, hpath]
        exact hfact

end Stored

section Spec

variable {Leaf : Type} [LeafFact Leaf] {hashFunc : HashFunc} {s : FactStore Leaf}

/-- `dump_tree_diff` from a node of a fully navigable tree, with a leaf callback.  With
collision-free facts (`hash_func` injective, no node fact under the empty leaf's hash, no leaf of
the tree equal to the empty root of a positive height) a complete dump exists, and every complete
dump calls the callback once at each leaf below the node whose hash is not the empty leaf's, and
at no other node; with a nodes file it writes, for each such leaf, the rows of the leaf and of the
siblings of its ancestors below the node, which fold up to the node's root. -/
theorem dumpTreeDiff_spec (hinj : Function.Injective2 hashFunc) (hs : s.ContentAddressed hashFunc)
    {t : Bytes} {h : Nat} (hnav : FullyNavigable s ⟨t, h⟩ h) (defaultLeaf : Leaf)
    (hnode : s.nodes (LeafFact.hash hashFunc defaultLeaf) = none)
    (hleaf : ∀ j < 2 ^ h, ∀ m, 0 < m → m ≤ h → getNode s ⟨t, h⟩ (2 ^ h + j) ≠
      .ok ⟨MerkleTree.emptyRoot hashFunc (LeafFact.hash hashFunc defaultLeaf) m, 0⟩)
    (dumpNodes : Bool) {nodeIdx : Nat} (h1 : 1 ≤ nodeIdx) (h2 : nodeIdx < 2 ^ (h + 1)) :
    ∃ (g : Nat → Bytes) (start : MerkleTreeNode),
      (∀ j < 2 ^ h, getNode s ⟨t, h⟩ (2 ^ h + j) = .ok ⟨g j, 0⟩) ∧
      getNode s ⟨t, h⟩ nodeIdx = .ok start ∧
      (∃ events, DumpTreeDiff s dumpNodes true hashFunc ⟨t, h⟩ nodeIdx defaultLeaf events) ∧
      ∀ events, DumpTreeDiff s dumpNodes true hashFunc ⟨t, h⟩ nodeIdx defaultLeaf events →
        DumpSpec hashFunc g (LeafFact.hash hashFunc defaultLeaf) h nodeIdx start dumpNodes
          events := by
  obtain ⟨g, hg⟩ := hnav.rep hs
  obtain ⟨d, p, hp, rfl⟩ := exists_pow_add h1
  have hd := depth_le h2
  obtain ⟨r, hget, hr⟩ := hg.getNode_pow_add hd hp
  rw [show (h : Int) - d = ((h - d : Nat) : Int) by omega] at hget
  have hpow : 2 ^ d * 2 ^ (h - d) = 2 ^ h := by rw [← pow_add, Nat.add_sub_cancel' hd]
  have hidx : ∀ u, (2 ^ d + p) * 2 ^ (h - d) + u - 2 ^ h = p * 2 ^ (h - d) + u := by
    intro u; rw [add_mul, hpow]; omega
  have hlt : ∀ u < 2 ^ (h - d), p * 2 ^ (h - d) + u < 2 ^ h := by
    intro u hu
    have : (p + 1) * 2 ^ (h - d) ≤ 2 ^ d * 2 ^ (h - d) := Nat.mul_le_mul_right _ hp
    rw [add_mul, hpow] at this; omega
  have hr' : Rep hashFunc s (h - d) r fun u => g ((2 ^ d + p) * 2 ^ (h - d) + u - 2 ^ h) :=
    hr.congr fun u _ => by rw [hidx]
  have hleaf' : ∀ u < 2 ^ (h - d), ∀ m, 0 < m → m ≤ h →
      g ((2 ^ d + p) * 2 ^ (h - d) + u - 2 ^ h) ≠
        MerkleTree.emptyRoot hashFunc (LeafFact.hash hashFunc defaultLeaf) m := by
    intro u hu m hm hmh he
    rw [hidx] at he
    exact hleaf _ (hlt u hu) m hm hmh (by rw [hg.getNode_leaf (hlt u hu), he])
  have hE := MerkleTree.emptyTreeRoots_eq hashFunc h defaultLeaf
  refine ⟨g, _, fun j hj => hg.getNode_leaf hj, hget,
    ⟨_, _, _, hE, hget, traverse_depthFirst _ _ hr'⟩, ?_⟩
  rintro events ⟨emptyTrees, start, hE', hget', htrav⟩
  rw [hE] at hE'; cases hE'
  rw [hget] at hget'; cases hget'
  have hperm := perm_depthFirst (by simp) htrav
  rw [Int.toNat_ofNat] at hperm
  have hlog := log_pow_add hp
  have hL : leavesBelow h (2 ^ d + p) =
      (List.range (2 ^ (h - d))).map ((2 ^ d + p) * 2 ^ (h - d) + ·) := by rw [leavesBelow, hlog]
  refine ⟨?_, fun hdn i hi hne => ?_⟩
  · refine (leafCalls_perm hperm).trans ?_
    rw [leafCalls_depthFirst hinj hnode (h - d) _ hr' hleaf', hL, List.filter_map, List.map_map]
    rfl
  · subst hdn
    rw [hlog]
    rw [hL] at hi
    obtain ⟨u, hu, rfl⟩ := List.mem_map.mp hi
    obtain ⟨sibling, hrow, hsib, hpath⟩ :=
      nodeRows_depthFirst hinj hnode (h - d) _ hr' hleaf' (List.mem_range.mp hu) hne
    exact ⟨sibling, hperm.mem_iff.mpr hrow, fun l hl => hperm.mem_iff.mpr (hsib l hl), hpath⟩

/-- The node fact of an order tree of height one: the empty order at leaf `0`, an order with
fulfilled amount `5` at leaf `1`. -/
def pairOrderFact : MerkleNodeFact :=
  ⟨LeafFact.hash escapePair OrderState.empty, bytesBE hashBytes 5⟩

/-- The store holding that node under its hash. -/
def pairOrderStore : FactStore OrderState :=
  (FactStore.empty.writeNodeFact escapePair pairOrderFact).2

theorem dumpTreeDiff_spec_pairOrders :
    ∃ (g : Nat → Bytes) (start : MerkleTreeNode),
      (∀ j < 2 ^ 1, getNode pairOrderStore ⟨pairOrderFact.hash escapePair, 1⟩ (2 ^ 1 + j) =
        .ok ⟨g j, 0⟩) ∧
      getNode pairOrderStore ⟨pairOrderFact.hash escapePair, 1⟩ 1 = .ok start ∧
      (∃ events, DumpTreeDiff pairOrderStore true true escapePair
        ⟨pairOrderFact.hash escapePair, 1⟩ 1 OrderState.empty events) ∧
      ∀ events, DumpTreeDiff pairOrderStore true true escapePair
          ⟨pairOrderFact.hash escapePair, 1⟩ 1 OrderState.empty events →
        DumpSpec escapePair g (LeafFact.hash escapePair OrderState.empty) 1 1 start true
          events := by
  have hrep : Rep escapePair pairOrderStore 1 (pairOrderFact.hash escapePair)
      fun j => if j = 0 then pairOrderFact.leftNode else pairOrderFact.rightNode :=
    ⟨pairOrderFact, by simp [pairOrderStore, FactStore.writeNodeFact], rfl, rfl, rfl⟩
  have hs : pairOrderStore.ContentAddressed escapePair :=
    (FactStore.contentAddressed_empty escapePair).setNode pairOrderFact
  refine dumpTreeDiff_spec escapePair_injective2 hs hrep.fullyNavigable
    OrderState.empty (by decide) (fun j hj m hm hm' heq => ?_) true le_rfl (by norm_num)
  obtain rfl : m = 1 := by omega
  rw [hrep.getNode_leaf hj] at heq
  have := (MerkleTreeNode.mk.inj (Except.ok.inj heq)).1
  obtain rfl | rfl : j = 0 ∨ j = 1 := by omega
  all_goals revert this; decide

end Spec

end AvailabilityCommittee
