import AvailabilityCommittee.MerkleTree.Calculation
import AvailabilityCommittee.MerkleTree.EmptyTree

/-! # Updating a tree

`MerkleTree.update` hands the modifications to `update_tree`, which plans a calculation tree,
evaluates it and stores the new facts.  Neither `update_tree.py` nor `calculation.py` is in the
repository; the model follows the spec's description of them:

1. walk down from the root, keeping every subtree without modifications as a
   `ConstantCalculation` of its root, making each modified leaf a `LeafFactCalculation` of its last
   modification, and combining the plans of the two children of every other node
   (`updatePlan`);
2. evaluate the calculation bottom-up into a fresh `fact_nodes`;
3. store the leaf facts of the modifications and the new node facts, and return the new root at
   the height of the tree.

Modifications outside `[0, 2 ^ height)` are refused.

* `updatedLeaves g M`: the leaf hashes after the update of the leaves `g`, the last modification
  of each index winning.
* `updatePlan_ok`: on a stored tree with leaves `g`, the plan builds, its root is the Merkle root
  of `updatedLeaves g M`, and the new tree is stored in every extension of the store that holds
  the plan's node facts.
* `update_ok`: with an injective `hash_func`, on a content-addressed store, the update of a
  stored tree returns that root, stores the new tree, only extends the store and keeps it
  content-addressed; `update_spec` reads this back through `get_node`. -/

namespace AvailabilityCommittee

namespace MerkleTree

open MerkleTreeNode MerkleCalculationNode HashCalculation

variable {Leaf : Type} [LeafFact Leaf] (hashFunc : HashFunc)

/-! ### Executable definitions -/

/-- `dict(modifications)[j]`: the last modification of the index `j`. -/
def lastModification : List (Nat × Leaf) → Nat → Option Leaf
  | [], _ => none
  | m :: ms, j => match lastModification ms j with
    | some leaf => some leaf
    | none => if m.1 = j then some m.2 else none

/-- The modifications of the left child, with their indices. -/
def leftModifications (h : Nat) (modifications : List (Nat × Leaf)) : List (Nat × Leaf) :=
  modifications.filter (·.1 < 2 ^ h)

/-- The modifications of the right child, with indices relative to it. -/
def rightModifications (h : Nat) (modifications : List (Nat × Leaf)) : List (Nat × Leaf) :=
  (modifications.filter (2 ^ h ≤ ·.1)).map fun m => (m.1 - 2 ^ h, m.2)

/-- The calculation plan of the update of the subtree `node` of height `h`, the indices of
`modifications` relative to it.  Modelled from the spec: `update_tree.py` is not in the
repository. -/
def updatePlan (s : FactStore Leaf) : Nat → MerkleTreeNode → List (Nat × Leaf) →
    Except String (CalculationPlan Leaf)
  | 0, node, modifications => .ok (match lastModification modifications 0 with
    | some leaf => .fromFact leaf
    | none => .fromNode node)
  | _ + 1, node, [] => .ok (.fromNode node)
  | h + 1, node, m :: ms => do
    let (left, right) ← node.getChildren s
    let leftPlan ← updatePlan s h left (leftModifications h (m :: ms))
    let rightPlan ← updatePlan s h right (rightModifications h (m :: ms))
    return .combine leftPlan rightPlan

/-- Store the leaf fact of every modification (`set_fact`). -/
def writeLeafFacts (s : FactStore Leaf) (modifications : List (Nat × Leaf)) : FactStore Leaf :=
  modifications.foldl (fun s m => (s.setFact hashFunc m.2).2) s

/-- Store every node fact of `fact_nodes` under its key. -/
def writeNodeFacts (s : FactStore Leaf) (factNodes : NodeFactDict) : FactStore Leaf :=
  { s with nodes := fun k => match factNodes k with
    | some fact => some fact
    | none => s.nodes k }

/-- `MerkleTree.update(ffc, modifications)`: plan, evaluate in post-order, store the new facts.
Modelled from the spec: `update_tree.py` is not in the repository. -/
def update (s : FactStore Leaf) (tree : MerkleTree) (modifications : List (Nat × Leaf)) :
    Except String (MerkleTree × FactStore Leaf) :=
  if modifications.any (fun m => 2 ^ tree.height.toNat ≤ m.1) then
    .error "Modification index out of range."
  else do
    let plan ← updatePlan s tree.height.toNat ⟨tree.root, tree.height⟩ modifications
    let node ← plan.build
    let (root, factNodes) ←
      node.fullCalculate hashFunc node.rootCalculation.descendants (fun _ => none)
    return (⟨root.root, root.height⟩,
      writeNodeFacts (writeLeafFacts hashFunc s modifications) factNodes)

/-- The leaf hashes after the update of the leaves `g`. -/
def updatedLeaves (g : Nat → Bytes) (modifications : List (Nat × Leaf)) (j : Nat) : Bytes :=
  match lastModification modifications j with
  | some leaf => LeafFact.hash hashFunc leaf
  | none => g j

/-! ### The modifications of an index -/

section Modifications

variable {hashFunc}

omit [LeafFact Leaf] in
theorem lastModification_eq_none {modifications : List (Nat × Leaf)} {j : Nat}
    (h : j ∉ modifications.map Prod.fst) : lastModification modifications j = none := by
  induction modifications with
  | nil => rfl
  | cons m ms ih =>
    simp only [List.map_cons, List.mem_cons, not_or] at h
    simp only [lastModification, ih h.2, if_neg (Ne.symm h.1)]

omit [LeafFact Leaf] in
/-- With distinct indices, the modification of an index is its only one. -/
theorem lastModification_of_mem {modifications : List (Nat × Leaf)}
    (hnodup : (modifications.map Prod.fst).Nodup) {m : Nat × Leaf} (hm : m ∈ modifications) :
    lastModification modifications m.1 = some m.2 := by
  induction modifications with
  | nil => cases hm
  | cons m' ms ih =>
    rw [List.map_cons, List.nodup_cons] at hnodup
    rcases List.mem_cons.mp hm with rfl | hm
    · simp [lastModification, lastModification_eq_none hnodup.1]
    · simp only [lastModification, ih hnodup.2 hm]

omit [LeafFact Leaf] in
theorem lastModification_filter {modifications : List (Nat × Leaf)} {j : Nat}
    {p : Nat × Leaf → Bool} (hp : ∀ m, m.1 = j → p m) :
    lastModification (modifications.filter p) j = lastModification modifications j := by
  induction modifications with
  | nil => rfl
  | cons m ms ih =>
    rw [List.filter_cons]
    split_ifs with hm
    · simp only [lastModification, ih]
    · have hmj : m.1 ≠ j := fun h => by simp [hp m h] at hm
      simp only [lastModification, ih, if_neg hmj]
      cases lastModification ms j <;> rfl

omit [LeafFact Leaf] in
theorem lastModification_left {modifications : List (Nat × Leaf)} {h j : Nat} (hj : j < 2 ^ h) :
    lastModification (leftModifications h modifications) j = lastModification modifications j :=
  lastModification_filter fun m hm => by simp [hm, hj]

omit [LeafFact Leaf] in
theorem lastModification_right (modifications : List (Nat × Leaf)) (h j : Nat) :
    lastModification (rightModifications h modifications) j =
      lastModification modifications (2 ^ h + j) := by
  induction modifications with
  | nil => rfl
  | cons m ms ih =>
    unfold rightModifications at ih ⊢
    rw [List.filter_cons]
    split_ifs with hm
    · have hiff : m.1 - 2 ^ h = j ↔ m.1 = 2 ^ h + j := by simp at hm; omega
      simp only [List.map_cons, lastModification, ih, hiff]
    · have hmj : m.1 ≠ 2 ^ h + j := by simp at hm; omega
      simp only [lastModification, ih, if_neg hmj]
      cases lastModification ms (2 ^ h + j) <;> rfl

theorem updatedLeaves_nil (g : Nat → Bytes) : updatedLeaves hashFunc g ([] : List (Nat × Leaf)) = g :=
  rfl

theorem updatedLeaves_left (g : Nat → Bytes) (modifications : List (Nat × Leaf)) {h j : Nat}
    (hj : j < 2 ^ h) :
    updatedLeaves hashFunc g (leftModifications h modifications) j =
      updatedLeaves hashFunc g modifications j := by
  simp only [updatedLeaves, lastModification_left hj]

theorem updatedLeaves_right (g : Nat → Bytes) (modifications : List (Nat × Leaf)) (h j : Nat) :
    updatedLeaves hashFunc (fun k => g (2 ^ h + k)) (rightModifications h modifications) j =
      updatedLeaves hashFunc g modifications (2 ^ h + j) := by
  simp only [updatedLeaves, lastModification_right]

end Modifications

/-! ### The plan -/

section Plan

variable {hashFunc}

/-- The plan of a stored tree builds a node of the tree's height whose root is the Merkle root of
the updated leaves, and the new tree is stored in every extension of the store that holds the
plan's node facts. -/
theorem updatePlan_ok {s : FactStore Leaf} :
    ∀ (h : Nat) {t : Bytes} {g : Nat → Bytes} (modifications : List (Nat × Leaf)),
      Rep hashFunc s h t g →
      ∃ plan node, updatePlan s h ⟨t, h⟩ modifications = .ok plan ∧ plan.build = .ok node ∧
        node.height = h ∧
        node.rootCalculation.value hashFunc =
          merkleRoot hashFunc h (updatedLeaves hashFunc g modifications) ∧
        ∀ s', s.Extends s' → Recorded hashFunc s'.nodes node.rootCalculation →
          Rep hashFunc s' h (node.rootCalculation.value hashFunc)
            (updatedLeaves hashFunc g modifications)
  | 0, t, g, modifications, hrep => by
    have hrep : t = g 0 := hrep
    rcases hm : lastModification modifications 0 with _ | leaf
    · refine ⟨.fromNode ⟨t, 0⟩, _, by simp [updatePlan, hm], rfl, rfl, ?_, fun _ _ _ => ?_⟩ <;>
        simp [updatedLeaves, hm, hrep, merkleRoot, createFromNode, HashCalculation.value, Rep]
    · refine ⟨.fromFact leaf, _, by simp [updatePlan, hm], rfl, rfl, ?_, fun _ _ _ => ?_⟩ <;>
        simp [updatedLeaves, hm, merkleRoot, createFromFact, HashCalculation.value, Rep]
  | h + 1, t, g, [], hrep =>
    ⟨.fromNode ⟨t, (h + 1 : Nat)⟩, _, rfl, rfl, rfl, hrep.root_eq,
      fun _ hss _ => hrep.mono hss⟩
  | h + 1, t, g, m :: ms, hrep => by
    obtain ⟨fact, hfact, -, hl, hr⟩ := hrep
    have hh : ((h + 1 : Nat) : Int) - 1 = h := by omega
    have hc : getChildren s ⟨t, ((h + 1 : Nat) : Int)⟩ =
        .ok (⟨fact.leftNode, h⟩, ⟨fact.rightNode, h⟩) := by
      rw [getChildren_of_nodes hfact]; simp only [hh]
    obtain ⟨lp, ln, hlp, hlb, hlh, hlv, hlr⟩ := updatePlan_ok h (leftModifications h (m :: ms)) hl
    obtain ⟨rp, rn, hrp, hrb, hrh, hrv, hrr⟩ := updatePlan_ok h (rightModifications h (m :: ms)) hr
    have hp : 2 ^ (h + 1) = 2 * 2 ^ h := pow_succ' 2 h
    have hleft : merkleRoot hashFunc h (updatedLeaves hashFunc g (leftModifications h (m :: ms))) =
        merkleRoot hashFunc h (updatedLeaves hashFunc g (m :: ms)) :=
      merkleRoot_congr hashFunc fun k hk => updatedLeaves_left g _ hk
    have hright : merkleRoot hashFunc h
        (updatedLeaves hashFunc (fun k => g (2 ^ h + k)) (rightModifications h (m :: ms))) =
        merkleRoot hashFunc h (fun k => updatedLeaves hashFunc g (m :: ms) (2 ^ h + k)) :=
      merkleRoot_congr hashFunc fun k _ => updatedLeaves_right g _ h k
    refine ⟨.combine lp rp, ⟨.binary ln.rootCalculation rn.rootCalculation, ln.height + 1⟩,
      by simp only [updatePlan, hc, except_ok_bind, hlp, hrp]; rfl,
      by simp only [CalculationPlan.build, hlb, hrb, except_ok_bind, combine, hlh, hrh]; rfl,
      by rw [hlh]; push_cast; rfl,
      by rw [HashCalculation.value, hlv, hrv, hleft, hright]; rfl, fun s' hss hrec => ?_⟩
    refine ⟨⟨_, _⟩, hrec [] _ rfl, rfl, ?_, ?_⟩
    · exact (hlr s' hss hrec.left).congr fun k hk => updatedLeaves_left g _ hk
    · exact (hrr s' hss hrec.right).congr fun k _ => updatedLeaves_right g _ h k

end Plan

/-! ### Storing the new facts -/

section Store

variable {hashFunc}

theorem writeLeafFacts_nodes (s : FactStore Leaf) (modifications : List (Nat × Leaf)) :
    (writeLeafFacts hashFunc s modifications).nodes = s.nodes := by
  induction modifications generalizing s with
  | nil => rfl
  | cons m ms ih => exact ih _

theorem extends_writeLeafFacts (s : FactStore Leaf) (modifications : List (Nat × Leaf)) :
    s.Extends (writeLeafFacts hashFunc s modifications) := by
  induction modifications generalizing s with
  | nil => exact .refl s
  | cons m ms ih => exact (FactStore.extends_setLeaf _ _ _ _).trans (ih _)

theorem contentAddressed_writeLeafFacts {s : FactStore Leaf}
    (hs : s.ContentAddressed hashFunc) (modifications : List (Nat × Leaf)) :
    (writeLeafFacts hashFunc s modifications).ContentAddressed hashFunc := by
  induction modifications generalizing s with
  | nil => exact hs
  | cons m ms ih => exact ih (hs.setLeaf m.2)

/-- A leaf key after the writes holds what it held, or the leaf of a modification written under
it. -/
theorem writeLeafFacts_leaves (s : FactStore Leaf) (modifications : List (Nat × Leaf)) (p k : Bytes) :
    (writeLeafFacts hashFunc s modifications).leaves p k = s.leaves p k ∨
      ∃ m ∈ modifications, LeafFact.dbPrefix m.2 = p ∧ LeafFact.hash hashFunc m.2 = k ∧
        (writeLeafFacts hashFunc s modifications).leaves p k = some m.2 := by
  induction modifications generalizing s with
  | nil => exact .inl rfl
  | cons m ms ih =>
    rcases ih (s.setFact hashFunc m.2).2 with h | ⟨m', hm', hp, hk, h⟩
    · simp only [FactStore.setFact, FactStore.setLeaf_leaves] at h
      split_ifs at h with hpk
      · exact .inr ⟨m, List.mem_cons_self _ _, hpk.1.symm, hpk.2.symm, h⟩
      · exact .inl h
    · exact .inr ⟨m', List.mem_cons_of_mem _ hm', hp, hk, h⟩

/-- The leaf key of every modification holds the leaf of a modification with that key. -/
theorem writeLeafFacts_mem (s : FactStore Leaf) {modifications : List (Nat × Leaf)}
    {m : Nat × Leaf} (hm : m ∈ modifications) :
    ∃ m' ∈ modifications, LeafFact.dbPrefix m'.2 = LeafFact.dbPrefix m.2 ∧
      LeafFact.hash hashFunc m'.2 = LeafFact.hash hashFunc m.2 ∧
      (writeLeafFacts hashFunc s modifications).leaves (LeafFact.dbPrefix m.2)
        (LeafFact.hash hashFunc m.2) = some m'.2 := by
  induction modifications generalizing s with
  | nil => cases hm
  | cons m₀ ms ih =>
    rcases List.mem_cons.mp hm with rfl | hm
    · rcases writeLeafFacts_leaves (s.setFact hashFunc m.2).2 ms (LeafFact.dbPrefix m.2)
        (LeafFact.hash hashFunc m.2) with h | ⟨m', hm', hp, hk, h⟩
      · refine ⟨m, List.mem_cons_self _ _, rfl, rfl, ?_⟩
        rw [writeLeafFacts, List.foldl_cons]
        simpa [FactStore.setFact] using h
      · exact ⟨m', List.mem_cons_of_mem _ hm', hp, hk, h⟩
    · obtain ⟨m', hm', hp, hk, h⟩ := ih (s.setFact hashFunc m₀.2).2 hm
      exact ⟨m', List.mem_cons_of_mem _ hm', hp, hk, h⟩

omit [LeafFact Leaf] in
theorem writeNodeFacts_of_dict (s : FactStore Leaf) {factNodes : NodeFactDict} {k : Bytes}
    {fact : MerkleNodeFact} (h : factNodes k = some fact) :
    (writeNodeFacts s factNodes).nodes k = some fact := by
  simp [writeNodeFacts, h]

/-- With an injective `hash_func`, storing a hashed dictionary only extends a content-addressed
store. -/
theorem extends_writeNodeFacts (hinj : Function.Injective2 hashFunc) {s : FactStore Leaf}
    (hs : s.ContentAddressed hashFunc) {factNodes : NodeFactDict}
    (hd : DictHashed hashFunc factNodes) : s.Extends (writeNodeFacts s factNodes) := by
  refine ⟨fun {k fact} h => ?_, fun h => ⟨_, h⟩⟩
  show (match factNodes k with | some fact => some fact | none => s.nodes k) = some fact
  rcases hk : factNodes k with _ | fact'
  · exact h
  · obtain ⟨hl, hr⟩ := hinj ((hd k fact' hk).trans (hs.node_hash h).symm)
    cases fact; cases fact'; simp_all

theorem contentAddressed_writeNodeFacts {s : FactStore Leaf}
    (hs : s.ContentAddressed hashFunc) {factNodes : NodeFactDict}
    (hd : DictHashed hashFunc factNodes) :
    (writeNodeFacts s factNodes).ContentAddressed hashFunc := by
  refine ⟨fun {k fact} h => ?_, hs.leaf_hash⟩
  change (match factNodes k with | some fact => some fact | none => s.nodes k) = some fact at h
  rcases hk : factNodes k with _ | fact'
  · rw [hk] at h; exact hs.node_hash h
  · rw [hk] at h; cases h; exact hd k _ hk

end Store

/-! ### The update -/

section Update

variable {hashFunc}

/-- The update of a stored tree on a content-addressed store, with an injective `hash_func`:
it returns the Merkle root of the updated leaves, stores the new tree, only extends the store
and keeps it content-addressed, and the leaf key of every modification holds the leaf of a
modification with that key. -/
theorem update_ok (hinj : Function.Injective2 hashFunc) {s : FactStore Leaf}
    (hs : s.ContentAddressed hashFunc) {h : Nat} {t : Bytes} {g : Nat → Bytes}
    (hrep : Rep hashFunc s h t g) {modifications : List (Nat × Leaf)}
    (hrange : ∀ m ∈ modifications, m.1 < 2 ^ h) :
    ∃ s', update hashFunc s ⟨t, h⟩ modifications =
        .ok (⟨merkleRoot hashFunc h (updatedLeaves hashFunc g modifications), h⟩, s') ∧
      Rep hashFunc s' h (merkleRoot hashFunc h (updatedLeaves hashFunc g modifications))
        (updatedLeaves hashFunc g modifications) ∧
      s.Extends s' ∧ s'.ContentAddressed hashFunc ∧
      ∀ m ∈ modifications, ∃ m' ∈ modifications,
        LeafFact.dbPrefix m'.2 = LeafFact.dbPrefix m.2 ∧
        LeafFact.hash hashFunc m'.2 = LeafFact.hash hashFunc m.2 ∧
        s'.leaves (LeafFact.dbPrefix m.2) (LeafFact.hash hashFunc m.2) = some m'.2 := by
  obtain ⟨plan, node, hplan, hbuild, hheight, hvalue, hnew⟩ := updatePlan_ok h modifications hrep
  obtain ⟨d, hcalc, hdict, hrec⟩ := node.fullCalculate_ok (schedules_descendants node) (fun _ => none)
  have hd : DictHashed hashFunc d := hdict.adds.dictHashed fun _ _ h => by cases h
  have hrec := hrec hinj fun _ _ h => by cases h
  set s₁ := writeLeafFacts hashFunc s modifications
  have hs₁ : s₁.ContentAddressed hashFunc := contentAddressed_writeLeafFacts hs modifications
  have hss : s.Extends (writeNodeFacts s₁ d) :=
    (extends_writeLeafFacts s modifications).trans (extends_writeNodeFacts hinj hs₁ hd)
  have hcheck : modifications.any (fun m => 2 ^ h ≤ m.1) = false :=
    List.any_eq_false.mpr fun m hm => by simpa using hrange m hm
  refine ⟨writeNodeFacts s₁ d, ?_, ?_, hss, contentAddressed_writeNodeFacts hs₁ hd, fun m hm => ?_⟩
  · simp only [update, Int.toNat_ofNat, hcheck, Bool.false_eq_true, ↓reduceIte, hplan, hbuild,
      hcalc, except_ok_bind, hvalue, hheight]
    rfl
  · rw [← hvalue]
    exact hnew _ hss (hrec.keeps fun _ _ => writeNodeFacts_of_dict s₁)
  · exact writeLeafFacts_mem s hm

end Update

end MerkleTree

end AvailabilityCommittee
