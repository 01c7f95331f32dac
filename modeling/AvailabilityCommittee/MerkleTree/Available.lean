import AvailabilityCommittee.MerkleTree.Update

/-! # Available trees

A tree is *available* in a fact storage when it is stored from its root down, every inner node
under its own hash, and the fact of each of its leaves is stored too: `get_node` then succeeds at
every index, and every leaf it reaches can be produced.

* `Grows s s'`: `s'` keeps every fact of `s` and stores every fact under its own hash.
  Availability survives growth (`Available.mono`).
* `emptyTree_available`: with a collision-free `hash_func`, `empty_tree` grows a content-addressed
  storage and leaves the empty tree available.
* `update_grows`, `update_available`: every update that returns grows a content-addressed
  storage, and the update of an available tree is available.
* `Available.leaf_stored`: every leaf that `get_node` reaches in an available tree is the hash of
  a leaf fact stored under its leaf key. -/

namespace AvailabilityCommittee

open MerkleTreeNode MerkleCalculationNode

variable {Leaf : Type} [LeafFact Leaf] {hashFunc : HashFunc}

/-- `s'` keeps every fact of `s` and stores every fact under its own hash. -/
structure Grows (hashFunc : HashFunc) (s s' : FactStore Leaf) : Prop where
  keeps : s.Extends s'
  contentAddressed : s'.ContentAddressed hashFunc

theorem Grows.refl {s : FactStore Leaf} (hs : s.ContentAddressed hashFunc) : Grows hashFunc s s :=
  ⟨.refl s, hs⟩

theorem Grows.trans {s₁ s₂ s₃ : FactStore Leaf} (h₁ : Grows hashFunc s₁ s₂)
    (h₂ : Grows hashFunc s₂ s₃) : Grows hashFunc s₁ s₃ :=
  ⟨h₁.keeps.trans h₂.keeps, h₂.contentAddressed⟩

/-- A node write grows a content-addressed storage, with a collision-free `hash_func`. -/
theorem grows_writeNodeFact (hinj : Function.Injective2 hashFunc) {s : FactStore Leaf}
    (hs : s.ContentAddressed hashFunc) (fact : MerkleNodeFact) :
    Grows hashFunc s (s.writeNodeFact hashFunc fact).2 :=
  ⟨FactStore.extends_setNode hinj hs fact, hs.setNode fact⟩

/-- `set_fact` grows a content-addressed storage. -/
theorem grows_setFact {s : FactStore Leaf} (hs : s.ContentAddressed hashFunc) (leaf : Leaf) :
    Grows hashFunc s (s.setFact hashFunc leaf).2 :=
  ⟨FactStore.extends_setLeaf _ _ _ _, hs.setLeaf leaf⟩

/-- The tree of height `h` rooted at `root` is stored, and so is the fact of each of its
leaves. -/
def Available (hashFunc : HashFunc) (s : FactStore Leaf) (h : Nat) (root : Bytes) : Prop :=
  ∃ g, Rep hashFunc s h root g ∧ ∀ j < 2 ^ h, ∃ p leaf, s.leaves p (g j) = some leaf

omit [LeafFact Leaf] in
theorem Available.mono {s s' : FactStore Leaf} (hss : s.Extends s') {h : Nat} {root : Bytes}
    (ha : Available hashFunc s h root) : Available hashFunc s' h root := by
  obtain ⟨g, hrep, hleaves⟩ := ha
  refine ⟨g, hrep.mono hss, fun j hj => ?_⟩
  obtain ⟨p, leaf, hl⟩ := hleaves j hj
  obtain ⟨leaf', hl'⟩ := hss.leaves hl
  exact ⟨p, leaf', hl'⟩

/-- Every leaf that `get_node` reaches in an available tree of a content-addressed storage is the
hash of a leaf fact stored under its leaf key. -/
theorem Available.leaf_stored {s : FactStore Leaf} (hs : s.ContentAddressed hashFunc) {h : Nat}
    {root : Bytes} (ha : Available hashFunc s h root) {j : Nat} (hj : j < 2 ^ h) :
    ∃ leaf, getNode s ⟨root, h⟩ (2 ^ h + j) = .ok ⟨LeafFact.hash hashFunc leaf, 0⟩ ∧
      s.leaves (LeafFact.dbPrefix leaf) (LeafFact.hash hashFunc leaf) = some leaf := by
  obtain ⟨g, hrep, hleaves⟩ := ha
  obtain ⟨p, leaf, hl⟩ := hleaves j hj
  obtain ⟨hp, hk⟩ := hs.leaf_hash hl
  exact ⟨leaf, by rw [hrep.getNode_leaf hj, hk], by rw [hp, hk]; exact hl⟩

/-! ### The empty tree -/

theorem emptyTreeLoop_grows (hinj : Function.Injective2 hashFunc) (n : Nat) :
    ∀ acc : MerkleTree × FactStore Leaf, acc.2.ContentAddressed hashFunc →
      Grows hashFunc acc.2 (MerkleTree.emptyTreeLoop hashFunc n acc).2 := by
  induction n with
  | zero => exact fun _ hs => .refl hs
  | succ n ih =>
    intro ⟨t, s⟩ hs
    have hstep := grows_writeNodeFact hinj hs ⟨t.root, t.root⟩
    exact hstep.trans (ih (⟨_, t.height + 1⟩, _) hstep.contentAddressed)

/-- With a collision-free `hash_func`, `empty_tree(h)` grows a content-addressed storage and
leaves the empty tree available. -/
theorem emptyTree_available (hinj : Function.Injective2 hashFunc) {s : FactStore Leaf}
    (hs : s.ContentAddressed hashFunc) (h : Nat) (leafFact : Leaf) :
    ∃ s', MerkleTree.emptyTree hashFunc s h leafFact =
        .ok (⟨MerkleTree.emptyRoot hashFunc (LeafFact.hash hashFunc leafFact) h, h⟩, s') ∧
      Grows hashFunc s s' ∧
      Available hashFunc s' h (MerkleTree.emptyRoot hashFunc (LeafFact.hash hashFunc leafFact) h) := by
  obtain ⟨hrep, hleaf⟩ := MerkleTree.emptyTree_rep (fun _ _ hxy => (hinj hxy).1) s h leafFact
  have hfact := grows_setFact hs leafFact
  exact ⟨_, MerkleTree.emptyTree_eq hashFunc s h leafFact,
    hfact.trans (emptyTreeLoop_grows hinj h (⟨_, 0⟩, _) hfact.contentAddressed), _, hrep h le_rfl,
    fun _ _ => ⟨_, _, hleaf⟩⟩

/-! ### The update -/

omit [LeafFact Leaf] in
theorem mem_of_lastModification {modifications : List (Nat × Leaf)} {j : Nat} {leaf : Leaf}
    (h : MerkleTree.lastModification modifications j = some leaf) : (j, leaf) ∈ modifications := by
  induction modifications with
  | nil => cases h
  | cons m ms ih =>
    rw [MerkleTree.lastModification] at h
    cases hl : MerkleTree.lastModification ms j with
    | some l => rw [hl] at h; cases h; exact List.mem_cons_of_mem _ (ih hl)
    | none =>
      rw [hl] at h
      split_ifs at h with hm
      cases h
      rw [← hm]
      exact List.mem_cons_self _ _

/-- With a collision-free `hash_func`, every update that returns grows a content-addressed
storage: it writes leaf facts under their keys and node facts under their hashes. -/
theorem update_grows (hinj : Function.Injective2 hashFunc) {s s' : FactStore Leaf}
    (hs : s.ContentAddressed hashFunc) {tree tree' : MerkleTree}
    {modifications : List (Nat × Leaf)}
    (hu : MerkleTree.update hashFunc s tree modifications = .ok (tree', s')) :
    Grows hashFunc s s' := by
  unfold MerkleTree.update at hu
  split_ifs at hu
  cases hplan : MerkleTree.updatePlan s tree.height.toNat ⟨tree.root, tree.height⟩ modifications with
  | error e => rw [hplan] at hu; cases hu
  | ok plan =>
    rw [hplan, except_ok_bind] at hu
    cases hbuild : plan.build with
    | error e => rw [hbuild] at hu; cases hu
    | ok node =>
      obtain ⟨d, hcalc, hdict, -⟩ :=
        node.fullCalculate_ok (schedules_descendants node) (fun _ => none)
      rw [hbuild, except_ok_bind, hcalc, except_ok_bind] at hu
      cases hu
      have hd : DictHashed hashFunc d :=
        hdict.adds.dictHashed fun _ _ h => by cases h
      have hs₁ := MerkleTree.contentAddressed_writeLeafFacts hs modifications
      exact ⟨(MerkleTree.extends_writeLeafFacts s modifications).trans
        (MerkleTree.extends_writeNodeFacts hinj hs₁ hd),
        MerkleTree.contentAddressed_writeNodeFacts hs₁ hd⟩

/-- With a collision-free `hash_func`, the update of an available tree keeps its height and is
available: a modified leaf is the hash of the leaf fact the update stores, and every other leaf is
a leaf of the old tree. -/
theorem update_available (hinj : Function.Injective2 hashFunc) {s s' : FactStore Leaf}
    (hs : s.ContentAddressed hashFunc) {h : Nat} {root : Bytes} (ha : Available hashFunc s h root)
    {modifications : List (Nat × Leaf)} {tree : MerkleTree}
    (hu : MerkleTree.update hashFunc s ⟨root, h⟩ modifications = .ok (tree, s')) :
    tree.height = h ∧ Available hashFunc s' h tree.root := by
  obtain ⟨g, hrep, hleaves⟩ := ha
  have hrange : ∀ m ∈ modifications, m.1 < 2 ^ h := by
    intro m hm
    by_contra hlt
    rw [MerkleTree.update, if_pos (List.any_eq_true.mpr ⟨m, hm, by simpa using hlt⟩)] at hu
    cases hu
  obtain ⟨s'', hu', hrep', hss, -, hstored⟩ := MerkleTree.update_ok hinj hs hrep hrange
  rw [hu'] at hu
  cases hu
  refine ⟨rfl, _, hrep', fun j hj => ?_⟩
  unfold MerkleTree.updatedLeaves
  cases hl : MerkleTree.lastModification modifications j with
  | some leaf =>
    obtain ⟨m', -, -, -, hget⟩ := hstored _ (mem_of_lastModification hl)
    exact ⟨_, _, hget⟩
  | none =>
    obtain ⟨p, leaf, hl'⟩ := hleaves j hj
    obtain ⟨leaf', hl''⟩ := hss.leaves hl'
    exact ⟨p, leaf', hl''⟩

end AvailabilityCommittee
