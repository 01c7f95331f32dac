import AvailabilityCommittee.Storage.FactStore
import Mathlib.Data.Nat.Bits
import Mathlib.Data.Nat.Log

/-! # Navigating a Merkle tree

`MerkleTreeNode(root, height)` names the subtree whose root hash is `root`; the tree itself is
in the fact storage.

* `getChildren` reads the root's node fact; both children are one level lower.
* `getNode node index` walks the binary digits of `index` after its leading one: `1` is the
  node itself, `2` and `3` its children, `2 ^ d + j` the `j`-th node at depth `d`.  The walk
  splits at the first digit (`getNode_pow_succ_add`): the first step picks the left or the right
  child, and the rest of the walk is a walk in that child.
* The height of the start node is only passed down the walk (`getNode_shift`): a walk from the
  same root with another height reaches the same roots.

On the specification side `merkleRoot h f` is the Merkle root of the leaf hashes
`f 0, …, f (2 ^ h - 1)`, and `Rep s h t f` says that the subtree of height `h` rooted at `t` is
stored in `s`, with every inner node stored under its own hash, and has the leaves `f`.  Then

* `Rep.root_eq`: `t = merkleRoot h f`;
* `Rep.getNode_pow_add`: `getNode` reaches the node at depth `d` and position `j`, a subtree of height
  `h - d` with the leaves `f (j * 2 ^ (h - d) + ·)`;
* `Rep.mono`: `Rep` survives every extension of the store;
* `fullyNavigable_iff`: on a content-addressed store, `get_node` succeeds at every index of
  `[1, 2 ^ (h + 1))` exactly when the tree has some leaves `f` with `Rep s h t f`. -/

namespace AvailabilityCommittee

/-- `MerkleTreeNode`: a subtree, given by the hash of its root and its height. -/
structure MerkleTreeNode where
  root : Bytes
  height : Int
deriving DecidableEq, Repr

/-- The Merkle root of the leaf hashes `f 0, …, f (2 ^ h - 1)`: `hash_func(left, right)` at every
inner node. -/
def merkleRoot (hashFunc : HashFunc) : Nat → (Nat → Bytes) → Bytes
  | 0, f => f 0
  | h + 1, f => hashFunc (merkleRoot hashFunc h f) (merkleRoot hashFunc h (fun j => f (2 ^ h + j)))

/-- `merkleRoot h f` reads `f` only below `2 ^ h`. -/
theorem merkleRoot_congr (hashFunc : HashFunc) {h : Nat} {f g : Nat → Bytes}
    (hfg : ∀ k < 2 ^ h, f k = g k) : merkleRoot hashFunc h f = merkleRoot hashFunc h g := by
  induction h generalizing f g with
  | zero => exact hfg 0 (by norm_num)
  | succ h ih =>
    have hp : 2 ^ (h + 1) = 2 * 2 ^ h := pow_succ' 2 h
    rw [merkleRoot, merkleRoot, ih fun k hk => hfg k (by omega), ih fun k hk => hfg _ (by omega)]

namespace MerkleTreeNode

variable {Leaf : Type}

/-! ### Executable definitions -/

/-- `MerkleTreeNode.get_children`. -/
def getChildren (s : FactStore Leaf) (node : MerkleTreeNode) :
    Except String (MerkleTreeNode × MerkleTreeNode) := do
  let rootFact ← s.readNodeFact node.root
  return (⟨rootFact.leftNode, node.height - 1⟩, ⟨rootFact.rightNode, node.height - 1⟩)

/-- `children[direction]`: the left child for `0`, the right one for `1`. -/
def child (children : MerkleTreeNode × MerkleTreeNode) (direction : Bool) : MerkleTreeNode :=
  if direction then children.2 else children.1

/-- The binary digits of `n`, least significant first, reading at most `fuel` of them. -/
def bitsAux : Nat → Nat → List Bool
  | 0, _ => []
  | fuel + 1, n => if n = 0 then [] else (n % 2 == 1) :: bitsAux fuel (n / 2)

/-- `list(map(int, bin(index)[2:]))[1:]`: the digits of `index` after the leading one. -/
def dirs (index : Nat) : List Bool := (bitsAux index index).reverse.tail

/-- `MerkleTreeNode.get_node`. -/
def getNode (s : FactStore Leaf) (node : MerkleTreeNode) (index : Nat) :
    Except String MerkleTreeNode :=
  (dirs index).foldlM (fun n direction => (child · direction) <$> n.getChildren s) node

/-! ### The index walk -/

theorem getChildren_eq_ok {s : FactStore Leaf} {node : MerkleTreeNode}
    {c : MerkleTreeNode × MerkleTreeNode} :
    node.getChildren s = .ok c ↔ ∃ fact, s.nodes node.root = some fact ∧
      c = (⟨fact.leftNode, node.height - 1⟩, ⟨fact.rightNode, node.height - 1⟩) := by
  unfold getChildren FactStore.readNodeFact
  rcases hn : s.nodes node.root with _ | fact <;> simp [eq_comm]

theorem getChildren_of_nodes {s : FactStore Leaf} {node : MerkleTreeNode} {fact : MerkleNodeFact}
    (h : s.nodes node.root = some fact) :
    node.getChildren s = .ok (⟨fact.leftNode, node.height - 1⟩, ⟨fact.rightNode, node.height - 1⟩) :=
  getChildren_eq_ok.mpr ⟨fact, h, rfl⟩

/-- Reading a node fact survives every extension of the store. -/
theorem getChildren_mono {s s' : FactStore Leaf} (hss : s.Extends s') {node : MerkleTreeNode}
    {c : MerkleTreeNode × MerkleTreeNode} (h : node.getChildren s = .ok c) :
    node.getChildren s' = .ok c := by
  obtain ⟨fact, hfact, rfl⟩ := getChildren_eq_ok.mp h
  exact getChildren_of_nodes (hss.nodes hfact)

/-- A walk that succeeds survives every extension of the store, with the same result. -/
theorem getNode_mono {s s' : FactStore Leaf} (hss : s.Extends s') {node n : MerkleTreeNode}
    {index : Nat} (h : getNode s node index = .ok n) : getNode s' node index = .ok n := by
  unfold getNode at h ⊢
  generalize dirs index = l at h ⊢
  induction l generalizing node with
  | nil => exact h
  | cons b bs ih =>
    simp only [List.foldlM_cons] at h ⊢
    rcases hc : node.getChildren s with _ | c
    · rw [hc] at h; cases h
    rw [hc] at h
    rw [getChildren_mono hss hc]
    exact ih h

/-- `node` with its height moved by `δ`. -/
def shift (δ : Int) (node : MerkleTreeNode) : MerkleTreeNode := ⟨node.root, node.height + δ⟩

theorem getChildren_shift (s : FactStore Leaf) (node : MerkleTreeNode) (δ : Int) :
    (node.shift δ).getChildren s =
      (fun c : MerkleTreeNode × MerkleTreeNode => (c.1.shift δ, c.2.shift δ)) <$>
        node.getChildren s := by
  unfold getChildren FactStore.readNodeFact shift
  cases s.nodes node.root with
  | none => rfl
  | some fact =>
    show Except.ok _ = Except.ok _
    dsimp only
    congr 2 <;> congr 1 <;> omega

/-- The height of the start node does not steer the walk: it is only passed down, one lower at
each step. -/
theorem getNode_shift (s : FactStore Leaf) (node : MerkleTreeNode) (δ : Int) (index : Nat) :
    getNode s (node.shift δ) index = shift δ <$> getNode s node index := by
  unfold getNode
  generalize dirs index = l
  induction l generalizing node with
  | nil => rfl
  | cons b bs ih =>
    simp only [List.foldlM_cons, getChildren_shift]
    cases node.getChildren s with
    | error e => rfl
    | ok c =>
      show List.foldlM _ (child (c.1.shift δ, c.2.shift δ) b) bs = _
      rw [show child (c.1.shift δ, c.2.shift δ) b = (child c b).shift δ by cases b <;> rfl]
      exact ih _

theorem bits_ne_nil {i : Nat} (hi : i ≠ 0) : Nat.bits i ≠ [] := by
  obtain ⟨k, rfl | rfl⟩ := Nat.even_or_odd' i
  · rw [Nat.bit0_bits k (by omega)]; simp
  · rw [Nat.bit1_bits]; simp

theorem bits_of_ne_zero {n : Nat} (hn : n ≠ 0) : Nat.bits n = (n % 2 == 1) :: Nat.bits (n / 2) := by
  obtain ⟨k, rfl | rfl⟩ := Nat.even_or_odd' n
  · rw [Nat.bit0_bits k (by omega)]; simp
  · rw [Nat.bit1_bits]; simp [Nat.add_mod, show (2 * k + 1) / 2 = k by omega]

/-- With enough fuel, `bitsAux` computes `Nat.bits`. -/
theorem bitsAux_eq_bits : ∀ {fuel n : Nat}, n ≤ fuel → bitsAux fuel n = Nat.bits n
  | 0, n, h => by obtain rfl : n = 0 := by omega
                  simp [bitsAux]
  | fuel + 1, n, h => by
    by_cases hn : n = 0
    · subst hn; simp [bitsAux]
    · rw [bitsAux, if_neg hn, bits_of_ne_zero hn, bitsAux_eq_bits (by omega)]

theorem dirs_bit {i : Nat} (hi : i ≠ 0) (b : Bool) : dirs (2 * i + b.toNat) = dirs i ++ [b] := by
  have hb : 2 * i + b.toNat = Nat.bit b i := by cases b <;> simp [Nat.bit]
  rw [dirs, dirs, bitsAux_eq_bits le_rfl, bitsAux_eq_bits le_rfl, hb, Nat.bits_append_bit _ _ (fun h => absurd h hi), List.reverse_cons,
    List.tail_append_of_ne_nil (by simpa using bits_ne_nil hi)]

@[simp] theorem getNode_one (s : FactStore Leaf) (node : MerkleTreeNode) :
    getNode s node 1 = .ok node := by
  simp [getNode, dirs]; rfl

theorem getNode_bit (s : FactStore Leaf) (node : MerkleTreeNode) {i : Nat} (hi : i ≠ 0) (b : Bool) :
    getNode s node (2 * i + b.toNat) =
      (getNode s node i >>= fun n => (child · b) <$> n.getChildren s) := by
  rw [getNode, dirs_bit hi, List.foldlM_append]
  simp [getNode]

/-- The walk to `2 ^ (d + 1) + j` steps into the child on `j`'s side, then walks to the node of
the same depth inside it. -/
theorem getNode_pow_succ_add (s : FactStore Leaf) (d : Nat) :
    ∀ (node : MerkleTreeNode) (j : Nat), j < 2 ^ (d + 1) →
      getNode s node (2 ^ (d + 1) + j) = (node.getChildren s >>= fun c =>
        getNode s (child c (decide (2 ^ d ≤ j))) (2 ^ d + j % 2 ^ d)) := by
  induction d with
  | zero =>
    intro node j hj
    have hj' : 2 ^ (0 + 1) + j = 2 * 1 + (decide (1 ≤ j)).toNat := by
      rcases (by omega : j = 0 ∨ j = 1) with rfl | rfl <;> rfl
    rw [hj', getNode_bit s node one_ne_zero, getNode_one, except_ok_bind]
    cases node.getChildren s <;> simp [Nat.mod_one]
  | succ d ih =>
    intro node j hj
    have hbit : (decide (j % 2 = 1)).toNat = j % 2 := by
      rcases Nat.mod_two_eq_zero_or_one j with h | h <;> simp [h]
    have hp : 2 ^ (d + 1) = 2 * 2 ^ d := pow_succ' 2 d
    have hsplit : 2 ^ (d + 1 + 1) + j = 2 * (2 ^ (d + 1) + j / 2) + (decide (j % 2 = 1)).toNat := by
      rw [hbit, pow_succ 2 (d + 1)]; omega
    have hmod : 2 ^ (d + 1) + j % 2 ^ (d + 1) =
        2 * (2 ^ d + j / 2 % 2 ^ d) + (decide (j % 2 = 1)).toNat := by
      have h1 : j % 2 ^ (d + 1) / 2 = j / 2 % 2 ^ d := by
        rw [hp, Nat.mod_mul_right_div_self]
      have h2 : j % 2 ^ (d + 1) % 2 = j % 2 :=
        Nat.mod_mod_of_dvd j (dvd_pow_self 2 (Nat.succ_ne_zero d))
      have := Nat.div_add_mod (j % 2 ^ (d + 1)) 2
      rw [hbit]; omega
    have hside : decide (2 ^ (d + 1) ≤ j) = decide (2 ^ d ≤ j / 2) := by
      rw [decide_eq_decide, Nat.le_div_iff_mul_le (by norm_num), pow_succ]
    rw [hsplit, getNode_bit s node (by positivity), ih node (j / 2) (by rw [pow_succ] at hj; omega),
      hside]
    cases node.getChildren s with
    | error e => rfl
    | ok c =>
      show getNode s _ (2 ^ d + j / 2 % 2 ^ d) >>= _ = getNode s _ (2 ^ (d + 1) + j % 2 ^ (d + 1))
      rw [hmod, getNode_bit s _ (by positivity)]

/-- Every index `i ≥ 1` is `2 ^ d + j` for its depth `d = log2 i` and some `j < 2 ^ d`. -/
theorem exists_pow_add {i : Nat} (hi : 1 ≤ i) : ∃ d j, j < 2 ^ d ∧ i = 2 ^ d + j := by
  refine ⟨Nat.log 2 i, i - 2 ^ Nat.log 2 i, ?_, ?_⟩
  · have h1 := Nat.lt_pow_succ_log_self (by norm_num : 1 < 2) i
    rw [pow_succ] at h1; omega
  · have := Nat.pow_log_le_self 2 (by omega : i ≠ 0); omega

/-- The depth of the node `2 ^ d + j` is `d`. -/
theorem log_pow_add {d j : Nat} (hj : j < 2 ^ d) : Nat.log 2 (2 ^ d + j) = d := by
  rw [Nat.log_eq_iff (by simp)]; constructor <;> [omega; (rw [pow_succ]; omega)]

end MerkleTreeNode

/-! ### Stored trees and their leaves -/

section Rep

open MerkleTreeNode

variable {Leaf : Type} (hashFunc : HashFunc)

/-- `get_node` succeeds at every node index of the tree. -/
def FullyNavigable (s : FactStore Leaf) (node : MerkleTreeNode) (h : Nat) : Prop :=
  ∀ i, 1 ≤ i → i < 2 ^ (h + 1) → ∃ n, getNode s node i = .ok n

/-- `Rep s h t f`: the subtree of height `h` rooted at `t` is stored in `s`, every inner node under
its own hash, and its leaves are `f 0, …, f (2 ^ h - 1)`. -/
def Rep (s : FactStore Leaf) : Nat → Bytes → (Nat → Bytes) → Prop
  | 0, t, f => t = f 0
  | h + 1, t, f => ∃ fact : MerkleNodeFact, s.nodes t = some fact ∧ fact.hash hashFunc = t ∧
      Rep s h fact.leftNode f ∧ Rep s h fact.rightNode (fun j => f (2 ^ h + j))

variable {hashFunc}

theorem Rep.root_eq {s : FactStore Leaf} {h : Nat} {t : Bytes} {f : Nat → Bytes}
    (hr : Rep hashFunc s h t f) : t = merkleRoot hashFunc h f := by
  induction h generalizing t f with
  | zero => exact hr
  | succ h ih =>
    obtain ⟨fact, -, hfact, hl, hr⟩ := hr
    rw [← hfact, MerkleNodeFact.hash, merkleRoot, ← ih hl, ← ih hr]

/-- `Rep` reads the leaves only below `2 ^ h`. -/
theorem Rep.congr {s : FactStore Leaf} {h : Nat} {t : Bytes} {f g : Nat → Bytes}
    (hfg : ∀ k < 2 ^ h, f k = g k) (hr : Rep hashFunc s h t f) : Rep hashFunc s h t g := by
  induction h generalizing t f g with
  | zero => exact hr.trans (hfg 0 (by norm_num))
  | succ h ih =>
    obtain ⟨fact, hs, hfact, hl, hr⟩ := hr
    refine ⟨fact, hs, hfact, ih (fun k hk => hfg k ?_) hl, ih (fun k hk => hfg _ ?_) hr⟩ <;>
      rw [pow_succ] <;> omega

theorem Rep.mono {s s' : FactStore Leaf} (hss : s.Extends s') {h : Nat} {t : Bytes}
    {f : Nat → Bytes} (hr : Rep hashFunc s h t f) : Rep hashFunc s' h t f := by
  induction h generalizing t f with
  | zero => exact hr
  | succ h ih =>
    obtain ⟨fact, hs, hfact, hl, hr⟩ := hr
    exact ⟨fact, hss.nodes hs, hfact, ih hl, ih hr⟩

/-- The node at depth `d` and position `j` of a stored tree. -/
theorem Rep.getNode_pow_add {s : FactStore Leaf} {d : Nat} :
    ∀ {h : Nat} {t : Bytes} {f : Nat → Bytes} {j : Nat}, Rep hashFunc s h t f → d ≤ h → j < 2 ^ d →
      ∃ t', getNode s ⟨t, h⟩ (2 ^ d + j) = .ok ⟨t', (h : Int) - d⟩ ∧
        Rep hashFunc s (h - d) t' (fun k => f (j * 2 ^ (h - d) + k)) := by
  induction d with
  | zero =>
    intro h t f j hr _ hj
    obtain rfl : j = 0 := by simpa using hj
    exact ⟨t, by simp, by simpa using hr⟩
  | succ d ih =>
    intro h t f j hr hd hj
    obtain ⟨h, rfl⟩ : ∃ h', h = h' + 1 := ⟨h - 1, by omega⟩
    obtain ⟨fact, hs, -, hl, hr⟩ := hr
    have hh : ((h + 1 : Nat) : Int) - 1 = h := by push_cast; ring
    have hint : ((h + 1 : Nat) : Int) - ((d + 1 : Nat) : Int) = (h : Int) - d := by push_cast; ring
    rw [getNode_pow_succ_add s d _ j hj, getChildren_of_nodes hs, except_ok_bind, hh, hint,
      show h + 1 - (d + 1) = h - d by omega]
    by_cases hside : 2 ^ d ≤ j
    · obtain ⟨t', ht', hr'⟩ := ih hr (by omega) (Nat.mod_lt j (by positivity))
      refine ⟨t', by simpa [child, hside] using ht', hr'.congr fun k _ => ?_⟩
      have hj' : j = 2 ^ d + j % 2 ^ d := by
        rw [Nat.mod_eq_sub_mod hside, Nat.mod_eq_of_lt (by rw [pow_succ] at hj; omega)]; omega
      have hpow : 2 ^ h = 2 ^ d * 2 ^ (h - d) := by rw [← pow_add]; congr 1; omega
      show f (2 ^ h + _) = f _
      conv_rhs => rw [hj']
      rw [hpow]; ring_nf
    · have hjm : j % 2 ^ d = j := Nat.mod_eq_of_lt (by omega)
      obtain ⟨t', ht', hr'⟩ := ih hl (by omega) (Nat.mod_lt j (by positivity))
      rw [hjm] at ht' hr'
      exact ⟨t', by simpa [child, hside, hjm] using ht', hr'⟩

/-- The leaf `j` of a stored tree is the height-`0` node `2 ^ h + j`. -/
theorem Rep.getNode_leaf {s : FactStore Leaf} {h : Nat} {t : Bytes} {f : Nat → Bytes} {j : Nat}
    (hr : Rep hashFunc s h t f) (hj : j < 2 ^ h) :
    getNode s ⟨t, h⟩ (2 ^ h + j) = .ok ⟨f j, 0⟩ := by
  obtain ⟨t', ht', hr'⟩ := hr.getNode_pow_add le_rfl hj
  simp only [Nat.sub_self, pow_zero, mul_one, add_zero] at ht' hr'
  rw [ht', hr', sub_self]
  rfl

/-- The depth of an index below `2 ^ (h + 1)` is at most `h`. -/
theorem depth_le {h d j : Nat} (hi : 2 ^ d + j < 2 ^ (h + 1)) : d ≤ h := by
  have : 2 ^ d < 2 ^ (h + 1) := by omega
  have := (Nat.pow_lt_pow_iff_right (by norm_num : 1 < 2)).mp this
  omega

/-- A stored tree is fully navigable. -/
theorem Rep.fullyNavigable {s : FactStore Leaf} {h : Nat} {t : Bytes} {f : Nat → Bytes}
    (hr : Rep hashFunc s h t f) : FullyNavigable s ⟨t, h⟩ h := by
  intro i hi1 hi2
  obtain ⟨d, j, hj, rfl⟩ := exists_pow_add hi1
  obtain ⟨t', ht', -⟩ := hr.getNode_pow_add (depth_le hi2) hj
  exact ⟨_, ht'⟩

/-- Both children of a fully navigable tree are fully navigable. -/
theorem FullyNavigable.children {s : FactStore Leaf} {h : Nat} {t : Bytes} {fact : MerkleNodeFact}
    (hnav : FullyNavigable s ⟨t, (h + 1 : Nat)⟩ (h + 1)) (hs : s.nodes t = some fact) :
    FullyNavigable s ⟨fact.leftNode, h⟩ h ∧ FullyNavigable s ⟨fact.rightNode, h⟩ h := by
  have hc : getChildren s ⟨t, ((h + 1 : Nat) : Int)⟩ = _ := getChildren_of_nodes hs
  have hh : ((h + 1 : Nat) : Int) - 1 = h := by push_cast; ring
  simp only [hh] at hc
  constructor <;> intro i hi1 hi2 <;> obtain ⟨d, j, hj, rfl⟩ := exists_pow_add hi1 <;>
    have hd := depth_le hi2 <;>
    have hpd : 2 ^ d ≤ 2 ^ h := Nat.pow_le_pow_right (by norm_num) hd <;>
    have hp1 : 2 ^ (d + 1) = 2 * 2 ^ d := pow_succ' 2 d <;>
    have hp2 : 2 ^ (h + 1 + 1) = 4 * 2 ^ h := by ring
  · obtain ⟨n, hn⟩ := hnav (2 ^ (d + 1) + j) (by omega) (by omega)
    rw [getNode_pow_succ_add s d _ j (by omega), hc, except_ok_bind] at hn
    simp only [child, decide_eq_false (show ¬ 2 ^ d ≤ j by omega), Nat.mod_eq_of_lt hj] at hn
    exact ⟨n, hn⟩
  · obtain ⟨n, hn⟩ := hnav (2 ^ (d + 1) + (2 ^ d + j)) (by omega) (by omega)
    rw [getNode_pow_succ_add s d _ _ (by omega), hc, except_ok_bind] at hn
    simp only [child, decide_eq_true (show 2 ^ d ≤ 2 ^ d + j by omega), Nat.add_mod_left,
      Nat.mod_eq_of_lt hj] at hn
    exact ⟨n, hn⟩

variable [LeafFact Leaf]

/-- On a content-addressed store, a fully navigable tree is stored with some leaves. -/
theorem FullyNavigable.rep {s : FactStore Leaf} (hs : s.ContentAddressed hashFunc) {h : Nat} :
    ∀ {t : Bytes}, FullyNavigable s ⟨t, h⟩ h → ∃ f, Rep hashFunc s h t f := by
  induction h with
  | zero => exact fun {t} _ => ⟨fun _ => t, rfl⟩
  | succ h ih =>
    intro t hnav
    obtain ⟨n, hn⟩ := hnav 2 (by norm_num)
      (lt_of_lt_of_le (by norm_num) (Nat.pow_le_pow_right (by norm_num) (by omega : 2 ≤ h + 1 + 1)))
    rw [show 2 = 2 ^ (0 + 1) + 0 from rfl, getNode_pow_succ_add s 0 _ 0 (by norm_num)] at hn
    rcases hc : getChildren s ⟨t, ((h + 1 : Nat) : Int)⟩ with _ | c
    · rw [hc] at hn; cases hn
    obtain ⟨fact, hfact, -⟩ := getChildren_eq_ok.mp hc
    obtain ⟨hl, hr⟩ := hnav.children hfact
    obtain ⟨fl, hfl⟩ := ih hl
    obtain ⟨fr, hfr⟩ := ih hr
    refine ⟨fun k => if k < 2 ^ h then fl k else fr (k - 2 ^ h), fact, hfact, hs.node_hash hfact,
      hfl.congr fun k hk => by simp [hk], hfr.congr fun k hk => by simp⟩

/-- On a content-addressed store, full navigability is being stored with some leaves. -/
theorem fullyNavigable_iff {s : FactStore Leaf} (hs : s.ContentAddressed hashFunc) {h : Nat}
    {t : Bytes} : FullyNavigable s ⟨t, h⟩ h ↔ ∃ f, Rep hashFunc s h t f :=
  ⟨FullyNavigable.rep hs, fun ⟨_, hr⟩ => hr.fullyNavigable⟩

end Rep

end AvailabilityCommittee
