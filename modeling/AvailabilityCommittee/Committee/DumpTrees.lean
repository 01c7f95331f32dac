import AvailabilityCommittee.MerkleTree.DumpTreeDiff

/-! # Dumping the vault and order trees

`dump_trees.py` writes a tree of the committee's storage to csv files with `dump_tree_diff`:

* `dump_vaults_tree` dumps the vault tree from its root (`node_idx = 1`), with a nodes file and a
  vaults file; its leaf callback `dump_vault_leaf` writes `[vault_id, stark_key, token, balance]`;
* `dump_orders_tree` dumps the order tree below `node_idx`, with an orders file only; its leaf
  callback `dump_order_leaf` writes `[order_id, fulfilled_amount]`.

Both callbacks read the leaf fact of the node with `get_or_fail` and take the id
`index - 2 ** tree.height` (`dumpLeaf`).  `get_or_fail` is in `storage.py`, which is not in the
repository: the model reads the fact stored under the class's prefix and the key, and raises when
there is none.  The callback runs inside `process_node`, so an exception in it ends the dump; the
rows of a dump are the callback's rows at its calls, in order (`leafRows`).

* `leafCalls_of_rep`: the calls of the leaf callback in every complete dump of a stored tree,
  from any of its nodes.
* `leafRows_of_rep`: from a stored tree whose leaves are stored facts, every complete dump writes
  one row for each leaf below the start whose hash is not the empty leaf's, and no other row.
* `dumpVaultsTree_rows`, `dumpOrdersTree_rows`: one row per non-empty vault, and one row per
  non-empty order below `node_idx`. -/

namespace AvailabilityCommittee

open MerkleTreeNode

variable {Leaf : Type}

/-- `get_or_fail(storage, suffix)` of a leaf class stored under `dbPrefix`: the fact stored under
the key, or an exception.  Modelled from the spec: `storage.py` is not in the repository, and
neither is the text of the exception. -/
def FactStore.getOrFail (s : FactStore Leaf) (dbPrefix suffix : Bytes) : Except String Leaf :=
  match s.leaves dbPrefix suffix with
  | some leaf => .ok leaf
  | none => .error "Fact does not exist in storage."

theorem FactStore.getOrFail_of_leaves {s : FactStore Leaf} {dbPrefix suffix : Bytes}
    {leaf : Leaf} (h : s.leaves dbPrefix suffix = some leaf) :
    s.getOrFail dbPrefix suffix = .ok leaf := by
  rw [FactStore.getOrFail, h]

/-- The leaf callbacks of `dump_trees.py`: read the fact of the node with `get_or_fail`, and write
the row `row (index - 2 ** tree.height) data`. -/
def dumpLeaf (s : FactStore Leaf) (dbPrefix : Bytes) (row : Int → Leaf → List Int)
    (tree : MerkleTree) (index : Nat) (node : MerkleTreeNode) : Except String (List Int) := do
  let data ← s.getOrFail dbPrefix node.root
  return row (index - 2 ^ tree.height.toNat) data

/-- `dump_vault_leaf`. -/
def dumpVaultLeaf (s : FactStore VaultState) :
    MerkleTree → Nat → MerkleTreeNode → Except String (List Int) :=
  dumpLeaf s (asciiBytes "vault") fun vaultId data =>
    [vaultId, data.starkKey, data.token, data.balance]

/-- `dump_order_leaf`. -/
def dumpOrderLeaf (s : FactStore OrderState) :
    MerkleTree → Nat → MerkleTreeNode → Except String (List Int) :=
  dumpLeaf s (asciiBytes "order") fun orderId data => [orderId, data.fulfilledAmount]

/-- The rows the leaf callback writes at the calls of `events`, in order; its first exception
ends the dump. -/
def leafRows (callback : Nat → MerkleTreeNode → Except String (List Int))
    (events : List DumpEvent) : Except String (List (List Int)) :=
  (leafCalls events).mapM fun call => callback call.1 call.2

/-- `dump_vaults_tree(ffc, tree, nodes_file, vaults_file)` ends having written the events `events`
and the rows `rows` of the vaults file: `dump_tree_diff` from node `1`, with the empty vault as the
default leaf. -/
def DumpVaultsTree (s : FactStore VaultState) (hashFunc : HashFunc) (tree : MerkleTree)
    (dumpNodes : Bool) (events : List DumpEvent) (rows : List (List Int)) : Prop :=
  DumpTreeDiff s dumpNodes true hashFunc tree 1 VaultState.empty events ∧
    leafRows (dumpVaultLeaf s tree) events = .ok rows

/-- `dump_orders_tree(ffc, tree, orders_file, node_idx)` ends having written the events `events`
and the rows `rows` of the orders file: `dump_tree_diff` from `node_idx` without a nodes file, with
the empty order as the default leaf. -/
def DumpOrdersTree (s : FactStore OrderState) (hashFunc : HashFunc) (tree : MerkleTree)
    (nodeIdx : Nat) (events : List DumpEvent) (rows : List (List Int)) : Prop :=
  DumpTreeDiff s false true hashFunc tree nodeIdx OrderState.empty events ∧
    leafRows (dumpOrderLeaf s tree) events = .ok rows

/-- A `mapM` whose every call succeeds returns the list of the results. -/
theorem mapM_eq_ok_map {α β : Type} {f : α → Except String β} {g : α → β} :
    ∀ {l : List α}, (∀ a ∈ l, f a = .ok (g a)) → l.mapM f = .ok (l.map g)
  | [], _ => rfl
  | a :: l, h => by
    rw [List.mapM_cons, h a (List.mem_cons_self a l),
      mapM_eq_ok_map fun b hb => h b (List.mem_cons_of_mem a hb)]
    rfl

section Stored

variable {hashFunc : HashFunc} {s : FactStore Leaf}

/-- The node `2 ^ d + p` of a stored tree of height `h` is a stored subtree of height `h - d`;
its leaves are the leaves of the tree at the leaf nodes below it. -/
theorem Rep.start {h : Nat} {t : Bytes} {g : Nat → Bytes} (hg : Rep hashFunc s h t g) {d p : Nat}
    (hp : p < 2 ^ d) (hd : d ≤ h) :
    ∃ r, getNode s ⟨t, h⟩ (2 ^ d + p) = .ok ⟨r, ((h - d : Nat) : Int)⟩ ∧
      Rep hashFunc s (h - d) r (fun u => g ((2 ^ d + p) * 2 ^ (h - d) + u - 2 ^ h)) ∧
      ∀ u < 2 ^ (h - d), 2 ^ h ≤ (2 ^ d + p) * 2 ^ (h - d) + u ∧
        (2 ^ d + p) * 2 ^ (h - d) + u - 2 ^ h < 2 ^ h := by
  obtain ⟨r, hget, hr⟩ := hg.getNode_pow_add hd hp
  have hpow : 2 ^ d * 2 ^ (h - d) = 2 ^ h := by rw [← pow_add, Nat.add_sub_cancel' hd]
  have hidx : ∀ u, (2 ^ d + p) * 2 ^ (h - d) + u - 2 ^ h = p * 2 ^ (h - d) + u := by
    intro u; rw [add_mul, hpow]; omega
  refine ⟨r, by rw [hget, show (h : Int) - d = ((h - d : Nat) : Int) by omega],
    hr.congr fun u _ => by rw [hidx], fun u hu => ?_⟩
  have : (p + 1) * 2 ^ (h - d) ≤ 2 ^ d * 2 ^ (h - d) := Nat.mul_le_mul_right _ hp
  rw [add_mul, hpow] at this
  rw [hidx, add_mul, hpow]
  omega

/-- The leaf nodes below `node_idx` are leaf nodes `2 ^ h + j` of the tree. -/
theorem mem_leavesBelow {h nodeIdx i : Nat} (h1 : 1 ≤ nodeIdx) (h2 : nodeIdx < 2 ^ (h + 1))
    (hi : i ∈ leavesBelow h nodeIdx) : 2 ^ h ≤ i ∧ i - 2 ^ h < 2 ^ h := by
  obtain ⟨d, p, hp, rfl⟩ := exists_pow_add h1
  have hd := depth_le h2
  rw [leavesBelow, log_pow_add hp] at hi
  obtain ⟨u, hu, rfl⟩ := List.mem_map.mp hi
  have hpow : 2 ^ d * 2 ^ (h - d) = 2 ^ h := by rw [← pow_add, Nat.add_sub_cancel' hd]
  have : (p + 1) * 2 ^ (h - d) ≤ 2 ^ d * 2 ^ (h - d) := Nat.mul_le_mul_right _ hp
  rw [add_mul, hpow] at this ⊢
  have hu' := List.mem_range.mp hu
  omega

variable [LeafFact Leaf]

/-- The calls of the leaf callback in every complete dump of a stored tree from the node
`node_idx`: one for each leaf below it whose hash is not the empty leaf's; and a complete dump
exists. -/
theorem leafCalls_of_rep (hinj : Function.Injective2 hashFunc) {h : Nat} {t : Bytes}
    {g : Nat → Bytes} (hg : Rep hashFunc s h t g) (defaultLeaf : Leaf)
    (hnode : s.nodes (LeafFact.hash hashFunc defaultLeaf) = none)
    (hleaf : ∀ j < 2 ^ h, ∀ m, 0 < m → m ≤ h →
      g j ≠ MerkleTree.emptyRoot hashFunc (LeafFact.hash hashFunc defaultLeaf) m)
    (dumpNodes : Bool) {nodeIdx : Nat} (h1 : 1 ≤ nodeIdx) (h2 : nodeIdx < 2 ^ (h + 1)) :
    (∃ events, DumpTreeDiff s dumpNodes true hashFunc ⟨t, h⟩ nodeIdx defaultLeaf events) ∧
    ∀ events, DumpTreeDiff s dumpNodes true hashFunc ⟨t, h⟩ nodeIdx defaultLeaf events →
      (leafCalls events).Perm
        (((leavesBelow h nodeIdx).filter fun i =>
          g (i - 2 ^ h) ≠ LeafFact.hash hashFunc defaultLeaf).map fun i => (i, ⟨g (i - 2 ^ h), 0⟩)) := by
  obtain ⟨d, p, hp, rfl⟩ := exists_pow_add h1
  obtain ⟨r, hget, hr, hbound⟩ := hg.start hp (depth_le h2)
  have hE := MerkleTree.emptyTreeRoots_eq hashFunc h defaultLeaf
  refine ⟨⟨_, _, _, hE, hget, traverse_depthFirst _ _ hr⟩, ?_⟩
  rintro events ⟨emptyTrees, start, hE', hget', htrav⟩
  rw [hE] at hE'; cases hE'
  rw [hget] at hget'; cases hget'
  have hperm := perm_depthFirst (by simp) htrav
  rw [Int.toNat_ofNat] at hperm
  refine (leafCalls_perm hperm).trans ?_
  rw [leafCalls_depthFirst hinj hnode (h - d) _ hr fun u hu => hleaf _ (hbound u hu).2,
    leavesBelow, log_pow_add hp, List.filter_map, List.map_map]
  rfl

/-- The facts at the leaves of an available tree whose leaf facts are stored under `dbPrefix`:
every leaf is the hash of the fact stored under it. -/
theorem exists_leafFacts (hs : s.ContentAddressed hashFunc) {h : Nat} {g : Nat → Bytes}
    (hstored : ∀ j < 2 ^ h, ∃ p leaf, s.leaves p (g j) = some leaf) {dbPrefix : Bytes}
    (hdb : ∀ leaf : Leaf, LeafFact.dbPrefix leaf = dbPrefix) (default : Leaf) :
    ∃ leaves : Nat → Leaf, ∀ j < 2 ^ h,
      LeafFact.hash hashFunc (leaves j) = g j ∧ s.leaves dbPrefix (g j) = some (leaves j) := by
  have hchoose : ∀ j, ∃ leaf : Leaf, j < 2 ^ h →
      LeafFact.hash hashFunc leaf = g j ∧ s.leaves dbPrefix (g j) = some leaf := by
    intro j
    by_cases hj : j < 2 ^ h
    · obtain ⟨p, leaf, hl⟩ := hstored j hj
      obtain ⟨hpre, hk⟩ := hs.leaf_hash hl
      exact ⟨leaf, fun _ => ⟨hk, by rw [← hdb leaf, hpre]; exact hl⟩⟩
    · exact ⟨default, fun h' => absurd h' hj⟩
  choose leaves hleaves using hchoose
  exact ⟨leaves, hleaves⟩

/-- From a stored tree whose leaves are the hashes of the facts `leaves` stored under `dbPrefix`,
every complete dump from `node_idx` with the callback `dumpLeaf` writes one row for each leaf below
`node_idx` whose hash is not the empty leaf's, from its fact, and no other row; and a complete
dump exists. -/
theorem leafRows_of_rep (hinj : Function.Injective2 hashFunc) {h : Nat} {t : Bytes}
    {g : Nat → Bytes} (hg : Rep hashFunc s h t g) {dbPrefix : Bytes} {leaves : Nat → Leaf}
    (hleaves : ∀ j < 2 ^ h,
      LeafFact.hash hashFunc (leaves j) = g j ∧ s.leaves dbPrefix (g j) = some (leaves j))
    (row : Int → Leaf → List Int) (defaultLeaf : Leaf)
    (hnode : s.nodes (LeafFact.hash hashFunc defaultLeaf) = none)
    (hleaf : ∀ j < 2 ^ h, ∀ m, 0 < m → m ≤ h → getNode s ⟨t, h⟩ (2 ^ h + j) ≠
      .ok ⟨MerkleTree.emptyRoot hashFunc (LeafFact.hash hashFunc defaultLeaf) m, 0⟩)
    (dumpNodes : Bool) {nodeIdx : Nat} (h1 : 1 ≤ nodeIdx) (h2 : nodeIdx < 2 ^ (h + 1)) :
    (∃ events, DumpTreeDiff s dumpNodes true hashFunc ⟨t, h⟩ nodeIdx defaultLeaf events) ∧
      ∀ events, DumpTreeDiff s dumpNodes true hashFunc ⟨t, h⟩ nodeIdx defaultLeaf events →
        ∃ rows, leafRows (dumpLeaf s dbPrefix row ⟨t, h⟩) events = .ok rows ∧
          rows.Perm (((leavesBelow h nodeIdx).filter fun i =>
            LeafFact.hash hashFunc (leaves (i - 2 ^ h)) ≠ LeafFact.hash hashFunc defaultLeaf).map
              fun i => row ((i - 2 ^ h : Nat) : Int) (leaves (i - 2 ^ h))) := by
  obtain ⟨hex, hcalls⟩ := leafCalls_of_rep hinj hg defaultLeaf hnode
    (fun j hj m hm hmh he => hleaf j hj m hm hmh (by rw [hg.getNode_leaf hj, he])) dumpNodes h1 h2
  refine ⟨hex, fun events hev => ?_⟩
  have hperm := hcalls events hev
  have hrow : ∀ call ∈ leafCalls events, dumpLeaf s dbPrefix row ⟨t, h⟩ call.1 call.2 =
      .ok (row ((call.1 : Int) - 2 ^ h) (leaves (call.1 - 2 ^ h))) := by
    intro call hc
    obtain ⟨i, hi, rfl⟩ := List.mem_map.mp (hperm.subset hc)
    have hj := (mem_leavesBelow h1 h2 (List.mem_filter.mp hi).1).2
    rw [dumpLeaf, FactStore.getOrFail_of_leaves (hleaves _ hj).2]
    rfl
  refine ⟨_, mapM_eq_ok_map hrow, (hperm.map _).trans ?_⟩
  rw [List.map_map]
  have hin : ∀ i ∈ leavesBelow h nodeIdx, 2 ^ h ≤ i ∧ i - 2 ^ h < 2 ^ h :=
    fun i hi => mem_leavesBelow h1 h2 hi
  have hfilter : (leavesBelow h nodeIdx).filter
      (fun i => g (i - 2 ^ h) ≠ LeafFact.hash hashFunc defaultLeaf) = (leavesBelow h nodeIdx).filter
      (fun i => LeafFact.hash hashFunc (leaves (i - 2 ^ h)) ≠ LeafFact.hash hashFunc defaultLeaf) :=
    List.filter_congr fun i hi => by rw [(hleaves _ (hin i hi).2).1]
  rw [hfilter]
  refine .of_eq (List.map_congr_left fun i hi => ?_)
  simp only [Function.comp_apply, Nat.cast_sub (hin i (List.mem_filter.mp hi).1).1, Nat.cast_pow,
    Nat.cast_ofNat]

end Stored

/-! ### The vault and the order trees -/

/-- `dump_vaults_tree` of an available vault tree.  With collision-free facts a complete dump
exists, and every complete dump writes one row `[j, stark_key, token, balance]` for each non-empty
vault `j`, from the vault stored at leaf `j`, and no other row. -/
theorem dumpVaultsTree_rows {hashFunc : HashFunc} (hinj : Function.Injective2 hashFunc)
    {s : FactStore VaultState} (hs : s.ContentAddressed hashFunc) {h : Nat} {t : Bytes}
    (ha : Available hashFunc s h t) (hnode : s.nodes (VaultState.empty.hash hashFunc) = none)
    (hleaf : ∀ j < 2 ^ h, ∀ m, 0 < m → m ≤ h → getNode s ⟨t, h⟩ (2 ^ h + j) ≠
      .ok ⟨MerkleTree.emptyRoot hashFunc (VaultState.empty.hash hashFunc) m, 0⟩)
    (dumpNodes : Bool) :
    ∃ vaults : Nat → VaultState,
      (∀ j < 2 ^ h, getNode s ⟨t, h⟩ (2 ^ h + j) = .ok ⟨(vaults j).hash hashFunc, 0⟩ ∧
        s.leaves (asciiBytes "vault") ((vaults j).hash hashFunc) = some (vaults j)) ∧
      (∃ events rows, DumpVaultsTree s hashFunc ⟨t, h⟩ dumpNodes events rows) ∧
      ∀ events rows, DumpVaultsTree s hashFunc ⟨t, h⟩ dumpNodes events rows →
        rows.Perm (((List.range (2 ^ h)).filter fun j => !(vaults j).isEmpty).map
          fun j : Nat => [(j : Int), (vaults j).starkKey, (vaults j).token, (vaults j).balance]) := by
  obtain ⟨g, hg, hstored⟩ := ha
  obtain ⟨vaults, hv⟩ := exists_leafFacts hs hstored (fun _ => rfl) VaultState.empty
  obtain ⟨⟨events, hev⟩, hall⟩ := leafRows_of_rep hinj hg hv
    (fun vaultId data => [vaultId, data.starkKey, data.token, data.balance]) VaultState.empty
    hnode hleaf dumpNodes le_rfl (Nat.one_lt_two_pow (Nat.succ_ne_zero h))
  refine ⟨vaults, fun j hj => ?_, ?_, fun events rows ⟨hev, hrows⟩ => ?_⟩
  · obtain ⟨hk, hl⟩ := hv j hj
    rw [← hk] at hl
    exact ⟨by rw [hg.getNode_leaf hj, ← hk]; rfl, hl⟩
  · obtain ⟨rows, hrows, -⟩ := hall events hev
    exact ⟨events, rows, hev, hrows⟩
  obtain ⟨rows', hrows', hperm⟩ := hall events hev
  obtain rfl : rows = rows' := Except.ok.inj (hrows.symm.trans hrows')
  refine hperm.trans (.of_eq ?_)
  rw [leavesBelow, Nat.log_one_right, Nat.sub_zero, one_mul, List.filter_map, List.map_map]
  congr 1
  · funext j; simp
  · refine List.filter_congr fun j _ => ?_
    show decide (VaultState.hash hashFunc (vaults (2 ^ h + j - 2 ^ h)) ≠
      VaultState.hash hashFunc VaultState.empty) = !(vaults j).isEmpty
    simp [VaultState.hash_eq_empty_iff hinj]

/-- The vault tree of height one with the empty vault at leaf `0` and `vaultFive` at leaf `1`. -/
def pairVaultFact : MerkleNodeFact := ⟨VaultState.empty.hash escapePair, vaultFive.hash escapePair⟩

/-- The store holding both vaults and the node of `pairVaultFact`. -/
def pairVaultStore : FactStore VaultState :=
  (((FactStore.empty.setFact escapePair VaultState.empty).2.setFact escapePair vaultFive).2.writeNodeFact
    escapePair pairVaultFact).2

theorem pairVaultStore_leaves (p k : Bytes) : pairVaultStore.leaves p k =
    if p = asciiBytes "vault" ∧ k = vaultFive.hash escapePair then some vaultFive
    else if p = asciiBytes "vault" ∧ k = VaultState.empty.hash escapePair then some VaultState.empty
    else none := rfl

theorem dumpVaultsTree_rows_pair :
    ∃ vaults : Nat → VaultState,
      (∀ j < 2 ^ 1, getNode pairVaultStore ⟨pairVaultFact.hash escapePair, 1⟩ (2 ^ 1 + j) =
          .ok ⟨(vaults j).hash escapePair, 0⟩ ∧
        pairVaultStore.leaves (asciiBytes "vault") ((vaults j).hash escapePair) = some (vaults j)) ∧
      (∃ events rows, DumpVaultsTree pairVaultStore escapePair ⟨pairVaultFact.hash escapePair, 1⟩
        true events rows) ∧
      ∀ events rows, DumpVaultsTree pairVaultStore escapePair ⟨pairVaultFact.hash escapePair, 1⟩
          true events rows →
        rows.Perm (((List.range (2 ^ 1)).filter fun j => !(vaults j).isEmpty).map
          fun j : Nat => [(j : Int), (vaults j).starkKey, (vaults j).token, (vaults j).balance]) := by
  have hs : pairVaultStore.ContentAddressed escapePair :=
    (((FactStore.contentAddressed_empty escapePair).setLeaf VaultState.empty).setLeaf
      vaultFive).setNode pairVaultFact
  have hrep : Rep escapePair pairVaultStore 1 (pairVaultFact.hash escapePair)
      fun j => if j = 0 then pairVaultFact.leftNode else pairVaultFact.rightNode :=
    ⟨pairVaultFact, by simp [pairVaultStore, FactStore.writeNodeFact], rfl, rfl, rfl⟩
  have ha : Available escapePair pairVaultStore 1 (pairVaultFact.hash escapePair) := by
    refine ⟨_, hrep, fun j hj => ?_⟩
    obtain rfl | rfl : j = 0 ∨ j = 1 := by omega
    · refine ⟨asciiBytes "vault", VaultState.empty, ?_⟩
      rw [pairVaultStore_leaves, if_neg fun h => absurd h.2 (by decide), if_pos ⟨rfl, rfl⟩]
    · exact ⟨asciiBytes "vault", vaultFive, by rw [pairVaultStore_leaves, if_pos ⟨rfl, rfl⟩]⟩
  refine dumpVaultsTree_rows escapePair_injective2 hs ha (by decide) (fun j hj m hm hm' heq => ?_) true
  obtain rfl : m = 1 := by omega
  rw [hrep.getNode_leaf hj] at heq
  have := (MerkleTreeNode.mk.inj (Except.ok.inj heq)).1
  obtain rfl | rfl : j = 0 ∨ j = 1 := by omega
  all_goals revert this; decide

/-- `dump_orders_tree` of an available order tree below `node_idx`.  With collision-free facts a
complete dump exists, and every complete dump writes one row `[j, fulfilled_amount]` for each
non-empty order `j` whose leaf node `2 ^ h + j` is below `node_idx`, from the order stored at leaf
`j`, and no other row. -/
theorem dumpOrdersTree_rows {hashFunc : HashFunc} (hinj : Function.Injective2 hashFunc)
    {s : FactStore OrderState} (hs : s.ContentAddressed hashFunc) {h : Nat} {t : Bytes}
    (ha : Available hashFunc s h t) (hnode : s.nodes (OrderState.empty.hash hashFunc) = none)
    (hleaf : ∀ j < 2 ^ h, ∀ m, 0 < m → m ≤ h → getNode s ⟨t, h⟩ (2 ^ h + j) ≠
      .ok ⟨MerkleTree.emptyRoot hashFunc (OrderState.empty.hash hashFunc) m, 0⟩)
    {nodeIdx : Nat} (h1 : 1 ≤ nodeIdx) (h2 : nodeIdx < 2 ^ (h + 1)) :
    ∃ orders : Nat → OrderState,
      (∀ j < 2 ^ h, getNode s ⟨t, h⟩ (2 ^ h + j) = .ok ⟨(orders j).hash hashFunc, 0⟩ ∧
        s.leaves (asciiBytes "order") ((orders j).hash hashFunc) = some (orders j)) ∧
      (∃ events rows, DumpOrdersTree s hashFunc ⟨t, h⟩ nodeIdx events rows) ∧
      ∀ events rows, DumpOrdersTree s hashFunc ⟨t, h⟩ nodeIdx events rows →
        rows.Perm (((leavesBelow h nodeIdx).filter fun i => !(orders (i - 2 ^ h)).isEmpty).map
          fun i => [((i - 2 ^ h : Nat) : Int), (orders (i - 2 ^ h)).fulfilledAmount]) := by
  obtain ⟨g, hg, hstored⟩ := ha
  obtain ⟨orders, hv⟩ := exists_leafFacts hs hstored (fun _ => rfl) OrderState.empty
  obtain ⟨⟨events, hev⟩, hall⟩ := leafRows_of_rep hinj hg hv
    (fun orderId data => [orderId, data.fulfilledAmount]) OrderState.empty hnode hleaf false h1 h2
  refine ⟨orders, fun j hj => ?_, ?_, fun events rows ⟨hev, hrows⟩ => ?_⟩
  · obtain ⟨hk, hl⟩ := hv j hj
    rw [← hk] at hl
    exact ⟨by rw [hg.getNode_leaf hj, ← hk]; rfl, hl⟩
  · obtain ⟨rows, hrows, -⟩ := hall events hev
    exact ⟨events, rows, hev, hrows⟩
  obtain ⟨rows', hrows', hperm⟩ := hall events hev
  obtain rfl : rows = rows' := Except.ok.inj (hrows.symm.trans hrows')
  refine hperm.trans (.of_eq (congrArg _ (List.filter_congr fun i _ => ?_)))
  show decide (OrderState.hash hashFunc (orders (i - 2 ^ h)) ≠
    OrderState.hash hashFunc OrderState.empty) = !(orders (i - 2 ^ h)).isEmpty
  simp [OrderState.hash_eq_empty_iff]

/-- The store holding the empty order, `orderFive` and the node of `pairOrderFact` above them. -/
def pairOrderLeafStore : FactStore OrderState :=
  (((FactStore.empty.setFact escapePair OrderState.empty).2.setFact escapePair orderFive).2.writeNodeFact
    escapePair pairOrderFact).2

theorem pairOrderLeafStore_leaves (p k : Bytes) : pairOrderLeafStore.leaves p k =
    if p = asciiBytes "order" ∧ k = orderFive.hash escapePair then some orderFive
    else if p = asciiBytes "order" ∧ k = OrderState.empty.hash escapePair then some OrderState.empty
    else none := rfl

theorem pairOrderLeafStore_contentAddressed : pairOrderLeafStore.ContentAddressed escapePair :=
  (((FactStore.contentAddressed_empty escapePair).setLeaf OrderState.empty).setLeaf
    orderFive).setNode pairOrderFact

theorem pairOrderLeafStore_rep : Rep escapePair pairOrderLeafStore 1 (pairOrderFact.hash escapePair)
    fun j => if j = 0 then pairOrderFact.leftNode else pairOrderFact.rightNode :=
  ⟨pairOrderFact, by simp [pairOrderLeafStore, FactStore.writeNodeFact], rfl, rfl, rfl⟩

theorem pairOrderLeafStore_available :
    Available escapePair pairOrderLeafStore 1 (pairOrderFact.hash escapePair) := by
  refine ⟨_, pairOrderLeafStore_rep, fun j hj => ?_⟩
  obtain rfl | rfl : j = 0 ∨ j = 1 := by omega
  · refine ⟨asciiBytes "order", OrderState.empty, ?_⟩
    rw [pairOrderLeafStore_leaves, if_neg fun h => absurd h.2 (by decide), if_pos ⟨rfl, rfl⟩]
  · exact ⟨asciiBytes "order", orderFive, by rw [pairOrderLeafStore_leaves, if_pos ⟨rfl, rfl⟩]⟩

/-- No leaf of the pair tree is the root of an empty subtree. -/
theorem pairOrderLeafStore_leaf_ne_emptyRoot : ∀ j < 2 ^ 1, ∀ m, 0 < m → m ≤ 1 →
    getNode pairOrderLeafStore ⟨pairOrderFact.hash escapePair, ((1 : Nat) : Int)⟩ (2 ^ 1 + j) ≠
      .ok ⟨MerkleTree.emptyRoot escapePair (OrderState.empty.hash escapePair) m, 0⟩ := by
  intro j hj m hm hm' heq
  obtain rfl : m = 1 := by omega
  rw [pairOrderLeafStore_rep.getNode_leaf hj] at heq
  have := (MerkleTreeNode.mk.inj (Except.ok.inj heq)).1
  obtain rfl | rfl : j = 0 ∨ j = 1 := by omega
  all_goals revert this; decide

theorem dumpOrdersTree_rows_pair :
    ∃ orders : Nat → OrderState,
      (∀ j < 2 ^ 1, getNode pairOrderLeafStore ⟨pairOrderFact.hash escapePair, 1⟩ (2 ^ 1 + j) =
          .ok ⟨(orders j).hash escapePair, 0⟩ ∧
        pairOrderLeafStore.leaves (asciiBytes "order") ((orders j).hash escapePair) =
          some (orders j)) ∧
      (∃ events rows, DumpOrdersTree pairOrderLeafStore escapePair
        ⟨pairOrderFact.hash escapePair, 1⟩ 3 events rows) ∧
      ∀ events rows, DumpOrdersTree pairOrderLeafStore escapePair
          ⟨pairOrderFact.hash escapePair, 1⟩ 3 events rows →
        rows.Perm (((leavesBelow 1 3).filter fun i => !(orders (i - 2 ^ 1)).isEmpty).map
          fun i => [((i - 2 ^ 1 : Nat) : Int), (orders (i - 2 ^ 1)).fulfilledAmount]) :=
  dumpOrdersTree_rows escapePair_injective2 pairOrderLeafStore_contentAddressed
    pairOrderLeafStore_available (by decide) pairOrderLeafStore_leaf_ne_emptyRoot (by norm_num)
    (by norm_num)

end AvailabilityCommittee
