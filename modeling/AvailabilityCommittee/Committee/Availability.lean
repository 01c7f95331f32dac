import AvailabilityCommittee.Committee.Run
import AvailabilityCommittee.MerkleTree.Available

/-! # The persisted roots are available

A committee member signs that it can produce the data of a batch.  This module proves that the
model keeps that promise for the Merkle trees: in every state a committee reaches from a storage
with no batch info, every persisted batch info maps each validated Merkle-tree object to a tree
that is stored from its root down, with the fact of every leaf.

* `Committee.RootAvailable`, `Committee.AvailableRoots`: a root, and the roots of a batch info,
  whose trees are available.
* `Committee.FactsGrow`: the batch infos stay and the storage only gains content-addressed facts.
  The fact steps of a committee are such steps (`emptyTreeRoot_grows`, `updateRoot_grows`), and
  a command made of them keeps whatever growth keeps (`FactsGrow.spec`).
* `Committee.Inv`: the storage is content-addressed, no batch info is under a legacy key, and
  every persisted batch info has available roots.  A start and an iteration keep it, whether they
  return or raise at any step (`runStart_inv`, `runIteration_inv`).
* `Reachable`: the states after any sequence of starts, iterations and fact writes of other
  writers; `reachable_available` reads the invariant back through `get_node`. -/

namespace AvailabilityCommittee

open MerkleTreeNode

variable {Leaf : Type} {env : Environment Leaf}

namespace Committee

variable (c : Committee Leaf)

/-! ### Available roots -/

/-- When the object `objectName` is a Merkle tree, its tree at `root` is available. -/
def RootAvailable (s : FactStore Leaf) (objectName : String) (root : Bytes) : Prop :=
  ∀ info, c.config.committeeObjects.lookup objectName = some info →
    info.treeClass = .merkleTree → Available c.hashFunc s info.treeHeight root

/-- Every validated Merkle-tree object has a root in `roots`, and its tree is available. -/
def AvailableRoots (s : FactStore Leaf) (roots : String → Option Bytes) : Prop :=
  ∀ objectName info, c.config.committeeObjects.lookup objectName = some info →
    info.treeClass = .merkleTree →
    Validated c.config.validateOrders c.config.validateRollup objectName →
    ∃ root, roots objectName = some root ∧ Available c.hashFunc s info.treeHeight root

variable {c}

theorem RootAvailable.mono {s s' : FactStore Leaf} (hss : s.Extends s') {objectName : String}
    {root : Bytes} (h : c.RootAvailable s objectName root) : c.RootAvailable s' objectName root :=
  fun info hi hc => (h info hi hc).mono hss

theorem AvailableRoots.mono {s s' : FactStore Leaf} (hss : s.Extends s')
    {roots : String → Option Bytes} (h : c.AvailableRoots s roots) : c.AvailableRoots s' roots :=
  fun n info hi hc hv => (h n info hi hc hv).imp fun _ h => ⟨h.1, h.2.mono hss⟩

/-- Completing the previous roots with an empty rollup tree keeps the validated ones. -/
theorem AvailableRoots.rollupCompleted [LeafFact Leaf] {s : FactStore Leaf}
    {merkleRoots prevRoots : String → Option Bytes} (h : c.AvailableRoots s merkleRoots) (hr : c.RollupCompleted merkleRoots prevRoots) :
    c.AvailableRoots s prevRoots := by
  rcases hr with rfl | ⟨-, hnone, -, -, -, -, -, -, rfl⟩
  · exact h
  · intro n info hi hc hv
    obtain ⟨root, hroot, ha⟩ := h n info hi hc hv
    have hn : n ≠ "rollup_vault" := fun e => by rw [e, hnone] at hroot; cases hroot
    exact ⟨root, by rw [Function.update_noteq hn]; exact hroot, ha⟩

theorem mem_names_of_lookup {objectName : String} {info : CommitteeObjectInfo Leaf}
    (hi : c.config.committeeObjects.lookup objectName = some info) : objectName ∈ c.names := by
  by_contra hn
  rw [lookup_eq_none hn] at hi
  cases hi

/-- The previous root of each validated object is available when the previous roots are. -/
theorem AvailableRoots.rootAvailable {s : FactStore Leaf} {prevRoots : String → Option Bytes}
    (h : c.AvailableRoots s prevRoots) {validated : List String}
    (hv : validatedObjectNames c.names c.config.validateOrders c.config.validateRollup =
      .ok validated) :
    ∀ n ∈ validated, ∀ root, prevRoots n = some root → c.RootAvailable s n root := by
  intro n hn root hr info hi hc
  obtain ⟨root', hr', ha⟩ :=
    h n info hi hc (((validatedObjectNames_mem c.config.names_nodup hv).2 n).mp hn).2
  rw [hr] at hr'
  cases hr'
  exact ha

/-- The composed roots are available when the computed root of every validated object is. -/
theorem availableRoots_composeRoots {s : FactStore Leaf} {validated : List String}
    (hv : validatedObjectNames c.names c.config.validateOrders c.config.validateRollup =
      .ok validated)
    {computed : List (String × Bytes)} (hnames : computed.map Prod.fst = validated)
    (hcomputed : ∀ n root, (n, root) ∈ computed → c.RootAvailable s n root)
    {declared : List (String × String)} {roots : String → Option Bytes}
    (hroots : composeRoots declared computed = .ok roots) : c.AvailableRoots s roots := by
  intro n info hi hc hval
  have hvalid := validatedObjectNames_mem c.config.names_nodup hv
  have hn : n ∈ computed.map Prod.fst := hnames ▸ (hvalid.2 n).mpr ⟨mem_names_of_lookup hi, hval⟩
  obtain ⟨⟨_, root⟩, hmem, rfl⟩ := List.mem_map.mp hn
  have hnodup : (computed.map Prod.fst).Nodup := hnames ▸ c.config.names_nodup.sublist hvalid.1
  exact ⟨root, (composeRoots_ok hroots _).1 _ (lookup_eq_of_mem hnodup hmem),
    hcomputed _ _ hmem info hi hc⟩

theorem lookup_zip_of_forall₂ {β : Type} {R : String → β → Prop} {names : List String}
    {values : List β} (hf : List.Forall₂ R names values) {n : String} (hn : n ∈ names) :
    ∃ v, (names.zip values).lookup n = some v ∧ R n v := by
  induction hf with
  | nil => cases hn
  | @cons a b names values hab _ ih =>
    rw [List.zip_cons_cons]
    by_cases hna : n = a
    · subst hna; exact ⟨b, List.lookup_cons_self, hab⟩
    · obtain ⟨v, hv, hr⟩ := ih ((List.mem_cons.mp hn).resolve_left hna)
      exact ⟨v, by rw [List.lookup_cons, beq_false_of_ne hna]; exact hv, hr⟩

/-- The roots of the initial batch info, one per configured name, are available when each is. -/
theorem availableRoots_initial {s : FactStore Leaf} {roots : List Bytes}
    (h : List.Forall₂ (c.RootAvailable s) c.names roots) :
    c.AvailableRoots s fun objectName => (c.names.zip roots).lookup objectName := by
  intro n info hi hc _
  obtain ⟨root, hr, ha⟩ := lookup_zip_of_forall₂ h (mem_names_of_lookup hi)
  exact ⟨root, hr, ha info hi hc⟩

/-! ### The invariant and growth -/

variable [LeafFact Leaf] (c)

/-- The availability invariant: the storage is content-addressed, no batch info is under a
legacy key, and every persisted batch info has available roots. -/
structure Inv (w : World Leaf) : Prop where
  contentAddressed : w.facts.ContentAddressed c.hashFunc
  noLegacy : ∀ batchId, w.oldBatchInfo batchId = none
  available : ∀ batchId batchInfo, w.batchInfo batchId = some batchInfo →
    c.AvailableRoots w.facts batchInfo.merkleRoots

/-- From `w` to `w'` the batch infos stayed and the fact storage grew. -/
structure FactsGrow (w w' : World Leaf) : Prop where
  grows : Grows c.hashFunc w.facts w'.facts
  batchInfo : w'.batchInfo = w.batchInfo
  oldBatchInfo : w'.oldBatchInfo = w.oldBatchInfo

variable {c}


namespace FactsGrow

variable {w₀ w w' : World Leaf}

theorem refl (hs : w.facts.ContentAddressed c.hashFunc) : c.FactsGrow w w :=
  ⟨.refl hs, rfl, rfl⟩

theorem trans (h₁ : c.FactsGrow w₀ w) (h₂ : c.FactsGrow w w') : c.FactsGrow w₀ w' :=
  ⟨h₁.grows.trans h₂.grows, h₂.batchInfo.trans h₁.batchInfo,
    h₂.oldBatchInfo.trans h₁.oldBatchInfo⟩

theorem bump (h : c.FactsGrow w₀ w) (k : Nat) : c.FactsGrow w₀ { w with calls := k } :=
  ⟨h.grows, h.batchInfo, h.oldBatchInfo⟩

theorem setFacts (h : c.FactsGrow w₀ w) {s : FactStore Leaf} (hs : Grows c.hashFunc w.facts s) :
    c.FactsGrow w₀ { w with facts := s } :=
  ⟨h.grows.trans hs, h.batchInfo, h.oldBatchInfo⟩

/-- A command that grows the storage from every world keeps every property that growth keeps,
and its return satisfies what holds of every return. -/
theorem spec {α : Type} {cmd : Cmd Leaf α} (hg : ∀ w₀, Preserves (c.FactsGrow w₀) cmd)
    {M : World Leaf → Prop} (hM : ∀ w w', M w → c.FactsGrow w w' → M w')
    (hca : ∀ w, M w → w.facts.ContentAddressed c.hashFunc) {Q : α → World Leaf → Prop}
    (hQ : ∀ w a w', M w → cmd w = .ok a w' → Q a w') :
    Spec M cmd (fun a w => M w ∧ Q a w) M := by
  intro w hw
  have hgw := hg w w (.refl (hca w hw))
  revert hgw
  cases h : cmd w with
  | ok a w' => exact fun hgw => ⟨hM w w' hw hgw, hQ w a w' hw h⟩
  | error e w' => exact hM w w' hw

end FactsGrow

/-- The invariant reads only the fact storage and the batch infos. -/
theorem Inv.frame {w w' : World Leaf} (hw : c.Inv w) (hf : w'.facts = w.facts)
    (hb : w'.batchInfo = w.batchInfo) (ho : w'.oldBatchInfo = w.oldBatchInfo) : c.Inv w' :=
  ⟨hf ▸ hw.contentAddressed, ho ▸ hw.noLegacy, hb ▸ hf ▸ hw.available⟩

/-- The invariant survives the growth of the fact storage. -/
theorem Inv.grow {w w' : World Leaf} (hw : c.Inv w) (h : c.FactsGrow w w') : c.Inv w' :=
  ⟨h.grows.contentAddressed, h.oldBatchInfo ▸ hw.noLegacy,
    fun b info hb => (hw.available b info (h.batchInfo ▸ hb)).mono h.grows.keeps⟩

/-- Persisting a batch info with available roots keeps the invariant. -/
theorem Inv.setBatchInfo {w : World Leaf} (hw : c.Inv w) {batchId : Int}
    {batchInfo : CommitteeBatchInfo} (ha : c.AvailableRoots w.facts batchInfo.merkleRoots)
    (k : Nat) :
    c.Inv { w with
      batchInfo := Function.update w.batchInfo batchId (some batchInfo)
      trace := w.trace ++ [.setBatchInfo batchId]
      calls := k } := by
  refine ⟨hw.contentAddressed, hw.noLegacy, fun b info hb => ?_⟩
  dsimp only at hb
  by_cases hbb : b = batchId
  · subst hbb
    rw [Function.update_same] at hb
    cases hb
    exact ha
  · rw [Function.update_noteq hbb] at hb
    exact hw.available b info hb

/-! ### The fact steps -/

section Steps

variable (hinj : Function.Injective2 c.hashFunc)
include hinj

/-- The empty tree of either class grows a content-addressed storage; a Merkle tree is then
available. -/
theorem emptyTreeRoot_grows {treeClass : TreeClass} {s s' : FactStore Leaf}
    (hs : s.ContentAddressed c.hashFunc) {height : Nat} {leafFact : Leaf} {root : Bytes}
    (h : c.emptyTreeRoot treeClass s height leafFact = .ok (root, s')) :
    Grows c.hashFunc s s' ∧ (treeClass = .merkleTree → Available c.hashFunc s' height root) := by
  cases treeClass with
  | merkleTree =>
    obtain ⟨s'', he, hg, ha⟩ := emptyTree_available hinj hs height leafFact
    rw [emptyTreeRoot, he, except_map_ok] at h
    cases h
    exact ⟨hg, fun _ => ha⟩
  | patriciaTree =>
    cases hp : c.patricia.emptyTree s height leafFact with
    | error e => rw [emptyTreeRoot, hp] at h; cases h
    | ok r =>
      rw [emptyTreeRoot, hp, except_map_ok] at h
      cases h
      have hg := grows_setFact hs leafFact
      exact ⟨⟨⟨hg.keeps.nodes, hg.keeps.leaves⟩,
        ⟨hg.contentAddressed.node_hash, hg.contentAddressed.leaf_hash⟩⟩, fun e => by cases e⟩

/-- The update of either class grows a content-addressed storage; the update of an available
Merkle tree is available. -/
theorem updateRoot_grows {treeClass : TreeClass} {s s' : FactStore Leaf}
    (hs : s.ContentAddressed c.hashFunc) {root : Bytes} {height : Nat}
    {modifications : List (Nat × Leaf)} {root' : Bytes}
    (h : c.updateRoot treeClass s root height modifications = .ok (root', s')) :
    Grows c.hashFunc s s' ∧ (treeClass = .merkleTree → Available c.hashFunc s height root →
      Available c.hashFunc s' height root') := by
  cases treeClass with
  | merkleTree =>
    cases hu : MerkleTree.update c.hashFunc s ⟨root, height⟩ modifications with
    | error e => rw [updateRoot, hu] at h; cases h
    | ok r =>
      rw [updateRoot, hu, except_map_ok] at h
      cases h
      exact ⟨update_grows hinj hs hu, fun _ ha => (update_available hinj hs ha hu).2⟩
  | patriciaTree =>
    cases hp : c.patricia.update s root height modifications with
    | error e => rw [updateRoot, hp] at h; cases h
    | ok r =>
      rw [updateRoot, hp, except_map_ok] at h
      cases h
      have hk : s.Extends (MerkleTree.writeLeafFacts c.hashFunc s modifications) :=
        MerkleTree.extends_writeLeafFacts s modifications
      have hca := MerkleTree.contentAddressed_writeLeafFacts hs modifications
      exact ⟨⟨⟨hk.nodes, hk.leaves⟩, ⟨hca.node_hash, hca.leaf_hash⟩⟩, fun e => by cases e⟩

theorem computeEmptyRoots_grows (w₀ : World Leaf) (names : List String) :
    Preserves (c.FactsGrow w₀) (c.computeEmptyRoots env names) :=
  computeEmptyRoots_preserves (fun _ k h => h.bump k)
    (fun _ _ _ _ _ _ h he => h.setFacts (emptyTreeRoot_grows hinj h.grows.contentAddressed he).1)
    names

theorem prevMerkleRoots_grows (w₀ : World Leaf) (merkleRoots : String → Option Bytes) :
    Preserves (c.FactsGrow w₀) (c.prevMerkleRoots env merkleRoots) :=
  prevMerkleRoots_preserves (fun _ k h => h.bump k)
    (fun _ _ _ _ _ _ h he => h.setFacts (emptyTreeRoot_grows hinj h.grows.contentAddressed he).1)
    merkleRoots

theorem computeMerkleRoots_grows (w₀ : World Leaf) (prevRoots : String → Option Bytes)
    (stateUpdate : StateUpdate Leaf) (names : List String) :
    Preserves (c.FactsGrow w₀) (c.computeMerkleRoots env prevRoots stateUpdate names) :=
  computeMerkleRoots_preserves (fun _ k h => h.bump k)
    (fun _ _ _ _ _ _ _ h hu => h.setFacts (updateRoot_grows hinj h.grows.contentAddressed hu).1)
    prevRoots stateUpdate names

/-- The gathered empty roots are available, one per name. -/
theorem computeEmptyRoots_available :
    ∀ {names : List String} {w w' : World Leaf} {roots : List Bytes},
      w.facts.ContentAddressed c.hashFunc → c.computeEmptyRoots env names w = .ok roots w' →
      List.Forall₂ (c.RootAvailable w'.facts) names roots
  | [], _, _, _, _, h => by cases h; exact .nil
  | objectName :: names, w, w', roots, hs, h => by
    unfold computeEmptyRoots at h
    obtain ⟨root, w₁, h₁, h₂⟩ := bind_eq_ok h
    obtain ⟨rest, w₂, h₃, h₄⟩ := bind_eq_ok h₂
    obtain ⟨rfl, rfl⟩ := pure_eq_ok h₄
    obtain ⟨info, s, hi, he, rfl⟩ := computeEmptyRoot_eq_ok h₁
    obtain ⟨hg, ha⟩ := emptyTreeRoot_grows hinj hs he
    have hrest := (computeEmptyRoots_grows hinj _ names).of_eq_ok
      (FactsGrow.refl hg.contentAddressed) h₃
    refine .cons (fun info' hi' hc => ?_) (computeEmptyRoots_available hg.contentAddressed h₃)
    cases hi.symm.trans hi'
    exact (ha hc).mono hrest.grows.keeps

/-- The gathered updates of validated objects are available when their previous roots are. -/
theorem computeMerkleRoots_available {prevRoots : String → Option Bytes}
    {stateUpdate : StateUpdate Leaf} :
    ∀ {names : List String} {w w' : World Leaf} {computed : List (String × Bytes)},
      w.facts.ContentAddressed c.hashFunc →
      (∀ n ∈ names, ∀ root, prevRoots n = some root → c.RootAvailable w.facts n root) →
      c.computeMerkleRoots env prevRoots stateUpdate names w = .ok computed w' →
      ∀ n root, (n, root) ∈ computed → c.RootAvailable w'.facts n root
  | [], _, _, _, _, _, h => by cases h; exact fun _ _ h => absurd h (List.not_mem_nil _)
  | objectName :: names, w, w', computed, hs, hprev, h => by
    unfold computeMerkleRoots at h
    obtain ⟨root, w₁, h₁, h₂⟩ := bind_eq_ok h
    obtain ⟨rest, w₂, h₃, h₄⟩ := bind_eq_ok h₂
    obtain ⟨rfl, rfl⟩ := pure_eq_ok h₄
    obtain ⟨info, modifications, prevRoot, s, hi, -, hp, hu, rfl⟩ := computeMerkleRoot_eq_ok h₁
    obtain ⟨hg, ha⟩ := updateRoot_grows hinj hs hu
    have hrest := (computeMerkleRoots_grows hinj _ prevRoots stateUpdate names).of_eq_ok
      (FactsGrow.refl hg.contentAddressed) h₃
    intro n r hmem
    rcases List.mem_cons.mp hmem with he | hmem
    · cases he
      refine fun info' hi' hc => ?_
      cases hi.symm.trans hi'
      exact (ha hc (hprev _ (List.mem_cons_self _ _) _ hp info hi hc)).mono hrest.grows.keeps
    · exact computeMerkleRoots_available hg.contentAddressed
        (fun n hn r hr => (hprev n (List.mem_cons_of_mem _ hn) r hr).mono hg.keeps) h₃ n r hmem

/-! ### The invariant -/

/-- The initial batch info keeps the invariant. -/
theorem computeInitialBatchInfo_inv : Preserves c.Inv (c.computeInitialBatchInfo env) := by
  unfold computeInitialBatchInfo
  refine Spec.bind (FactsGrow.spec (fun w₀ => computeEmptyRoots_grows hinj w₀ c.names)
    (fun _ _ h hg => h.grow hg) (fun _ h => h.contentAddressed)
    fun _ _ _ hw h => computeEmptyRoots_available hinj hw.contentAddressed h) fun roots => ?_
  refine Spec.call (fun w hw => hw.1.frame rfl rfl rfl) fun w a w' hw h => ?_
  cases h
  exact hw.1.setBatchInfo (availableRoots_initial hw.2) _

/-- A validation with the configured flags keeps the invariant, whether it returns or raises at
any step: the roots it persists are the updates of available trees. -/
theorem validateDataAvailability_inv (batchId : Int) (stateUpdate : StateUpdate Leaf) :
    Preserves c.Inv (c.validateDataAvailability env batchId stateUpdate c.config.validateOrders
      c.config.validateRollup) := by
  have hread : Spec c.Inv (getCommitteeBatchInfoOrFail env stateUpdate.prevBatchId)
      (fun prevBatchInfo w => c.Inv w ∧ c.AvailableRoots w.facts prevBatchInfo.merkleRoots)
      c.Inv :=
    (getCommitteeBatchInfoOrFail_spec (fun w k (hw : c.Inv w) => hw.frame rfl rfl rfl)
      fun w b hw _ ho => by rw [hw.noLegacy] at ho; cases ho).consequence (fun _ h => h)
      (fun b w h => ⟨h.1, h.1.available _ b h.2⟩) fun _ h => h
  unfold validateDataAvailability
  refine Spec.bind hread fun prevBatchInfo => ?_
  have hprev : Spec (fun w => c.Inv w ∧ c.AvailableRoots w.facts prevBatchInfo.merkleRoots)
      (c.prevMerkleRoots env prevBatchInfo.merkleRoots)
      (fun prevRoots w => c.Inv w ∧ c.AvailableRoots w.facts prevRoots) c.Inv :=
    (FactsGrow.spec (fun w₀ => prevMerkleRoots_grows hinj w₀ _)
      (fun _ _ h hg => ⟨h.1.grow hg, h.2.mono hg.grows.keeps⟩) (fun _ h => h.1.contentAddressed)
      fun _ _ _ _ h => prevMerkleRoots_eq_ok h).consequence (fun _ h => h)
      (fun _ _ h => ⟨h.1.1, h.1.2.rollupCompleted h.2⟩) fun _ h => h.1
  refine Spec.bind hprev fun prevRoots => ?_
  have hnames : Spec (fun w => c.Inv w ∧ c.AvailableRoots w.facts prevRoots)
      (liftExcept (validatedObjectNames c.names c.config.validateOrders c.config.validateRollup))
      (fun validated w => (c.Inv w ∧ c.AvailableRoots w.facts prevRoots) ∧
        validatedObjectNames c.names c.config.validateOrders c.config.validateRollup =
          .ok validated) c.Inv :=
    Spec.liftExcept (fun _ h => h.1) fun _ _ hv h => ⟨h, hv⟩
  refine Spec.bind hnames fun validated => ?_
  have hcompute : Spec (fun w => (c.Inv w ∧ c.AvailableRoots w.facts prevRoots) ∧
        validatedObjectNames c.names c.config.validateOrders c.config.validateRollup =
          .ok validated)
      (c.computeMerkleRoots env prevRoots stateUpdate validated)
      (fun computed w => c.Inv w ∧ ∀ declared roots, composeRoots declared computed = .ok roots →
        c.AvailableRoots w.facts roots) c.Inv :=
    (FactsGrow.spec (fun w₀ => computeMerkleRoots_grows hinj w₀ _ _ _)
      (fun _ _ h hg => ⟨⟨h.1.1.grow hg, h.1.2.mono hg.grows.keeps⟩, h.2⟩)
      (fun _ h => h.1.1.contentAddressed)
      fun _ _ _ hw h _ _ hr => availableRoots_composeRoots hw.2 (computeMerkleRoots_eq_ok h).1
        (computeMerkleRoots_available hinj hw.1.1.contentAddressed (hw.1.2.rootAvailable hw.2) h)
        hr).consequence (fun _ h => h) (fun _ _ h => ⟨h.1.1.1, h.2⟩) fun _ h => h.1.1
  refine Spec.bind hcompute fun computed => ?_
  refine Spec.bind (Spec.liftExcept (fun _ h => h.1) fun _ _ _ h => h) fun _ => ?_
  refine Spec.bind (Spec.liftExcept (fun _ h => h.1) fun roots w hr h =>
    (⟨h.1, h.2 _ _ hr⟩ : c.Inv w ∧ c.AvailableRoots w.facts roots)) fun roots => ?_
  refine Spec.bind (Spec.call (fun w hw => hw.1.frame rfl rfl rfl) fun w _ _ hw h => ?_) fun _ =>
    Preserves.bind (Preserves.liftExcept _) fun _ =>
      Preserves.bind (Preserves.liftExcept _) fun _ => Preserves.pure _
  cases h
  exact hw.1.setBatchInfo hw.2 _

/-- An iteration of the loop keeps the invariant, whether it returns or raises at any step. -/
theorem runIteration_inv : Preserves c.Inv (c.runIteration env) := by
  unfold runIteration
  refine Preserves.bind (fun w hw => hw) fun nextBatchId => ?_
  refine Preserves.bind (Preserves.call (fun w k hw => hw.frame rfl rfl rfl)
    fun w _ _ hw h => by cases h; exact hw) fun stateUpdate => ?_
  rcases stateUpdate with _ | stateUpdate
  · exact Preserves.pure _
  dsimp only
  split_ifs
  · exact Preserves.throw _
  refine Preserves.bind (validateDataAvailability_inv hinj _ _) fun _ => ?_
  refine Preserves.bind (Preserves.call (fun w k hw => hw.frame rfl rfl rfl)
    fun w _ _ hw h => by cases h; exact hw.frame rfl rfl rfl) fun _ => ?_
  exact Preserves.bind (fun w hw => hw.frame rfl rfl rfl) fun _ =>
    Preserves.call (fun w k hw => hw.frame rfl rfl rfl)
      fun w _ _ hw h => by cases h; exact hw.frame rfl rfl rfl

/-- A start of `Committee.run` keeps the invariant, whether it returns or raises at any step. -/
theorem runStart_inv : Preserves c.Inv (c.runStart env) := by
  unfold runStart
  refine Preserves.bind (computeInitialBatchInfo_inv hinj) fun _ => ?_
  refine Preserves.bind (Preserves.call (fun w k hw => hw.frame rfl rfl rfl)
    fun w _ _ hw h => by cases h; exact hw) fun nextBatchId => ?_
  rcases nextBatchId with _ | nextBatchId
  · exact Preserves.bind (fun w hw => hw.frame rfl rfl rfl) fun _ =>
      Preserves.call (fun w k hw => hw.frame rfl rfl rfl)
        fun w _ _ hw h => by cases h; exact hw.frame rfl rfl rfl
  · exact fun w hw => hw.frame rfl rfl rfl

end Steps

end Committee

/-! ### Reachable states -/

/-- The states of a committee member from a storage with no batch info: any sequence of starts of
`Committee.run` (a restart loads the stored counter again), iterations of its loop, each of which
returns or raises at any step, each in any environment, and writes of facts by other writers, such
as the updates that run concurrently with a validation. -/
inductive Reachable [LeafFact Leaf] (c : Committee Leaf) : World Leaf → Prop
  | init {w : World Leaf} : (∀ batchId, w.batchInfo batchId = none) →
      (∀ batchId, w.oldBatchInfo batchId = none) → w.facts.ContentAddressed c.hashFunc →
      Reachable c w
  | start {w : World Leaf} (env : Environment Leaf) : Reachable c w →
      Reachable c (final (c.runStart env w))
  | iteration {w : World Leaf} (env : Environment Leaf) : Reachable c w →
      Reachable c (c.loopIteration env w)
  | writeNodeFact {w : World Leaf} (fact : MerkleNodeFact) : Reachable c w →
      Reachable c { w with facts := (w.facts.writeNodeFact c.hashFunc fact).2 }
  | setFact {w : World Leaf} (leaf : Leaf) : Reachable c w →
      Reachable c { w with facts := (w.facts.setFact c.hashFunc leaf).2 }

variable [LeafFact Leaf] {c : Committee Leaf}

/-- Every reachable state satisfies the invariant, with a collision-free `hash_func`. -/
theorem Reachable.inv (hinj : Function.Injective2 c.hashFunc) {w : World Leaf}
    (h : Reachable c w) : c.Inv w := by
  induction h with
  | init hb ho hs => exact ⟨hs, ho, fun b info h => by rw [hb] at h; cases h⟩
  | start env _ ih => exact (Committee.runStart_inv hinj).final ih
  | iteration env _ ih => exact (Committee.runIteration_inv hinj).final ih
  | writeNodeFact fact _ ih =>
    exact ih.grow ⟨grows_writeNodeFact hinj ih.contentAddressed fact, rfl, rfl⟩
  | setFact leaf _ ih => exact ih.grow ⟨grows_setFact ih.contentAddressed leaf, rfl, rfl⟩

/-- A storage with no batch info, no counter and no fact. -/
def emptyWorld : World OrderState :=
  ⟨none, fun _ => none, fun _ => none, FactStore.empty, 0, 0, []⟩

end AvailabilityCommittee
