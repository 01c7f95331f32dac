import AvailabilityCommittee.Committee.World

/-! # Validating a batch

`Committee.validate_data_availability` and the storage steps it is made of:

1. read the previous batch info at `prev_batch_id`, from the new key or else from the legacy
   key, which is then copied to the new key (`getCommitteeBatchInfo`);
2. add the empty rollup root when `rollup_vault` is configured and the previous info lacks it
   (`prevMerkleRoots`);
3. update the tree of every validated object from its previous root, in the order of
   `asyncio.gather` (`computeMerkleRoots`);
4. compare, compose and persist the new batch info under `batch_id`; then hash and sign the
   claim.

The per-object updates run concurrently in the code; the model runs them one after the other.
Each update only adds content-addressed facts, and the root it computes depends only on the
tree it starts from (`MerkleTree.update_ok`), so the order changes neither the roots nor what the
fact storage holds at the end.

`validateDataAvailability_spec` reads back what a returning validation has done. -/

namespace AvailabilityCommittee

variable {Leaf : Type} [LeafFact Leaf] (env : Environment Leaf)

/-! ### Executable definitions -/

/-- `Committee.get_committee_batch_info`: the batch info under the new key, or else the one under
the legacy key, which is copied to the new key. -/
def getCommitteeBatchInfo (batchId : Int) : Cmd Leaf (Option CommitteeBatchInfo) := do
  match ← getBatchInfoValue env batchId with
  | some batchInfo => pure (some batchInfo)
  | none =>
    match ← getOldBatchInfoValue env batchId with
    | some batchInfo => do
      setBatchInfoValue env batchId batchInfo
      pure (some batchInfo)
    | none => pure none

/-- `Committee.get_committee_batch_info_or_fail`. -/
def getCommitteeBatchInfoOrFail (batchId : Int) : Cmd Leaf CommitteeBatchInfo := do
  match ← getCommitteeBatchInfo env batchId with
  | some batchInfo => pure batchInfo
  | none => throw s!"No batch info at index {batchId} exists in storage."

namespace Committee

variable (c : Committee Leaf)

/-- `Committee._compute_empty_root`: store the empty tree of the object and return its root. -/
def computeEmptyRoot (objectName : String) : Cmd Leaf Bytes := do
  let info ← liftExcept (getItem (c.config.committeeObjects.lookup objectName) objectName)
  onFacts env fun s => c.emptyTreeRoot info.treeClass s info.treeHeight info.stateClassEmpty

/-- The empty roots of the objects, gathered in order. -/
def computeEmptyRoots : List String → Cmd Leaf (List Bytes)
  | [] => pure []
  | objectName :: objectNames => do
    let root ← computeEmptyRoot env c objectName
    let roots ← computeEmptyRoots objectNames
    pure (root :: roots)

/-- `Committee.compute_initial_batch_info`: the empty roots of all objects under batch `-1`, with
sequence number `-1`. -/
def computeInitialBatchInfo : Cmd Leaf Unit := do
  let rootsList ← computeEmptyRoots env c c.names
  setBatchInfoValue env (-1) ⟨fun objectName => (c.names.zip rootsList).lookup objectName, -1⟩

/-- The previous roots, with the empty rollup root when `rollup_vault` is configured and
missing. -/
def prevMerkleRoots (merkleRoots : String → Option Bytes) : Cmd Leaf (String → Option Bytes) :=
  if "rollup_vault" ∈ c.names ∧ merkleRoots "rollup_vault" = none then do
    let root ← computeEmptyRoot env c "rollup_vault"
    pure (Function.update merkleRoots "rollup_vault" (some root))
  else pure merkleRoots

/-- `compute_merkle_root`: update the object's tree from its previous root. -/
def computeMerkleRoot (prevRoots : String → Option Bytes) (stateUpdate : StateUpdate Leaf)
    (objectName : String) : Cmd Leaf Bytes := do
  let info ← liftExcept (getItem (c.config.committeeObjects.lookup objectName) objectName)
  let objectStateUpdate ← liftExcept (getItem (stateUpdate.objects.lookup objectName) objectName)
  let prevRoot ← liftExcept (getItem (prevRoots objectName) objectName)
  onFacts env fun s => c.updateRoot info.treeClass s prevRoot info.treeHeight objectStateUpdate

/-- The `(object_name, root)` pairs of `asyncio.gather` over `compute_merkle_root`, in order. -/
def computeMerkleRoots (prevRoots : String → Option Bytes) (stateUpdate : StateUpdate Leaf) :
    List String → Cmd Leaf (List (String × Bytes))
  | [] => pure []
  | objectName :: objectNames => do
    let root ← computeMerkleRoot env c prevRoots stateUpdate objectName
    let roots ← computeMerkleRoots prevRoots stateUpdate objectNames
    pure ((objectName, root) :: roots)

/-- `Committee.validate_data_availability`: recompute the validated roots, compare them with the
declared ones, persist the new batch info and sign its claim. -/
def validateDataAvailability (batchId : Int) (stateUpdate : StateUpdate Leaf)
    (validateOrders : Bool) (validateRollup : Option Bool) : Cmd Leaf (String × String) := do
  let prevBatchInfo ← getCommitteeBatchInfoOrFail env stateUpdate.prevBatchId
  let prevRoots ← prevMerkleRoots env c prevBatchInfo.merkleRoots
  let validatedNames ← liftExcept (validatedObjectNames c.names validateOrders validateRollup)
  let rootsList ← computeMerkleRoots env c prevRoots stateUpdate validatedNames
  liftExcept (checkRoots stateUpdate.roots validatedNames rootsList c.names)
  let roots ← liftExcept (composeRoots stateUpdate.roots rootsList)
  let batchInfo : CommitteeBatchInfo := ⟨roots, prevBatchInfo.sequenceNumber + 1⟩
  setBatchInfoValue env batchId batchInfo
  let availabilityClaim ← liftExcept
    (computeHashAvailabilityClaim c.hashAvailabilityClaim c.config.committeeObjects batchInfo)
  let signature ← liftExcept (c.sign availabilityClaim)
  pure (signature, availabilityClaim.hex)

end Committee

/-! ### What a returning validation establishes -/

/-- `batchInfo` is stored at `batchId`, under the new key or else under the legacy one. -/
def StoredAt (w : World Leaf) (batchId : Int) (batchInfo : CommitteeBatchInfo) : Prop :=
  w.batchInfo batchId = some batchInfo ∨
    (w.batchInfo batchId = none ∧ w.oldBatchInfo batchId = some batchInfo)

/-- Each computed root matches the declared root of its object, unless that is the obsolete
order root. -/
def RootsMatch (declared : List (String × String)) (computed : List (String × Bytes)) : Prop :=
  ∀ n root, (n, root) ∈ computed → ∃ text, declared.lookup n = some text ∧
    (¬ (n = "order" ∧ text = obsoleteOrderTreeRootStr) → root.hex = text)

/-- `roots` maps each computed object to its root, and every other declared object to its decoded
root. -/
def ComposedRoots (declared : List (String × String)) (validated : List String)
    (computed : List (String × Bytes)) (roots : String → Option Bytes) : Prop :=
  (∀ n root, (n, root) ∈ computed → roots n = some root) ∧
    (∀ k text, k ∉ validated → declared.lookup k = some text →
      ∃ root, Bytes.fromhex text = .ok root ∧ roots k = some root) ∧
    (∀ k, k ∉ validated → declared.lookup k = none → roots k = none)

namespace Committee

variable (c : Committee Leaf)

/-- `prevRoots` are `merkleRoots`, with the root of the empty `rollup_vault` tree added when that
object is configured and missing. -/
def RollupCompleted (merkleRoots prevRoots : String → Option Bytes) : Prop :=
  prevRoots = merkleRoots ∨
    ("rollup_vault" ∈ c.names ∧ merkleRoots "rollup_vault" = none ∧
      ∃ info root s s', c.config.committeeObjects.lookup "rollup_vault" = some info ∧
        c.emptyTreeRoot info.treeClass s info.treeHeight info.stateClassEmpty = .ok (root, s') ∧
        prevRoots = Function.update merkleRoots "rollup_vault" (some root))

/-- Each computed root is the root of an update of its object's tree, from its previous root, by
the object's modifications in the state update. -/
def UpdatedRoots (prevRoots : String → Option Bytes) (stateUpdate : StateUpdate Leaf)
    (computed : List (String × Bytes)) : Prop :=
  ∀ n root, (n, root) ∈ computed → ∃ info modifications prevRoot s s',
    c.config.committeeObjects.lookup n = some info ∧
    stateUpdate.objects.lookup n = some modifications ∧ prevRoots n = some prevRoot ∧
    c.updateRoot info.treeClass s prevRoot info.treeHeight modifications = .ok (root, s')

/-- `claim` is the hex of `hash_availability_claim` over the vault (or position) root and the
order root of `batchInfo`, their tree heights and its sequence number, and `signature` signs
that hash. -/
def SignedClaim (batchInfo : CommitteeBatchInfo) (signature claim : String) : Prop :=
  ∃ vaultsObjectName vaultsRoot tradesRoot vaultsInfo tradesInfo,
    (vaultsObjectName = "vault" ∨ vaultsObjectName = "position") ∧
    batchInfo.merkleRoots vaultsObjectName = some vaultsRoot ∧
    batchInfo.merkleRoots "order" = some tradesRoot ∧
    c.config.committeeObjects.lookup vaultsObjectName = some vaultsInfo ∧
    c.config.committeeObjects.lookup "order" = some tradesInfo ∧
    claim = (c.hashAvailabilityClaim vaultsRoot vaultsInfo.treeHeight tradesRoot
      tradesInfo.treeHeight batchInfo.sequenceNumber).hex ∧
    c.sign (c.hashAvailabilityClaim vaultsRoot vaultsInfo.treeHeight tradesRoot
      tradesInfo.treeHeight batchInfo.sequenceNumber) = .ok signature

end Committee

/-! ### What a returning step has done -/

section Returns

variable {env} {w w' : World Leaf}

omit [LeafFact Leaf] in

theorem getCommitteeBatchInfo_eq_ok {batchId : Int} {r : Option CommitteeBatchInfo}
    (h : getCommitteeBatchInfo env batchId w = .ok r w') :
    ∀ batchInfo, r = some batchInfo → w.batchInfo batchId = some batchInfo ∨
      (w.batchInfo batchId = none ∧ w.oldBatchInfo batchId = some batchInfo) := by
  unfold getCommitteeBatchInfo at h
  obtain ⟨v, w₁, h₁, h₂⟩ := bind_eq_ok h
  obtain ⟨rfl, rfl⟩ := getBatchInfoValue_eq_ok h₁
  cases hv : w.batchInfo batchId with
  | some b => rw [hv] at h₂; obtain ⟨rfl, -⟩ := pure_eq_ok h₂; exact fun _ e => .inl e
  | none =>
    rw [hv] at h₂
    obtain ⟨o, w₂, h₃, h₄⟩ := bind_eq_ok h₂
    obtain ⟨rfl, rfl⟩ := getOldBatchInfoValue_eq_ok h₃
    cases ho : w.oldBatchInfo batchId with
    | none => rw [ho] at h₄; obtain ⟨rfl, -⟩ := pure_eq_ok h₄; intro _ e; cases e
    | some b =>
      rw [ho] at h₄
      obtain ⟨_, _, -, h₅⟩ := bind_eq_ok h₄
      obtain ⟨rfl, -⟩ := pure_eq_ok h₅
      exact fun _ e => .inr ⟨rfl, e ▸ rfl⟩

omit [LeafFact Leaf] in
theorem getCommitteeBatchInfoOrFail_eq_ok {batchId : Int} {batchInfo : CommitteeBatchInfo}
    (h : getCommitteeBatchInfoOrFail env batchId w = .ok batchInfo w') :
    StoredAt w batchId batchInfo := by
  unfold getCommitteeBatchInfoOrFail at h
  obtain ⟨r, w₁, h₁, h₂⟩ := bind_eq_ok h
  cases r with
  | none => cases h₂
  | some b => obtain ⟨rfl, -⟩ := pure_eq_ok h₂; exact getCommitteeBatchInfo_eq_ok h₁ _ rfl

namespace Committee

variable {c : Committee Leaf}

theorem computeEmptyRoot_eq_ok {objectName : String} {root : Bytes}
    (h : c.computeEmptyRoot env objectName w = .ok root w') :
    ∃ info s', c.config.committeeObjects.lookup objectName = some info ∧
      c.emptyTreeRoot info.treeClass w.facts info.treeHeight info.stateClassEmpty = .ok (root, s') ∧
      w' = { w with facts := s', calls := w.calls + 1 } := by
  unfold computeEmptyRoot at h
  obtain ⟨info, w₁, h₁, h₂⟩ := bind_eq_ok h
  obtain ⟨hi, rfl⟩ := liftExcept_eq_ok h₁
  obtain ⟨s', he, rfl⟩ := onFacts_eq_ok h₂
  exact ⟨info, s', getItem_eq_ok.mp hi, he, rfl⟩

theorem prevMerkleRoots_eq_ok {merkleRoots prevRoots : String → Option Bytes}
    (h : c.prevMerkleRoots env merkleRoots w = .ok prevRoots w') :
    c.RollupCompleted merkleRoots prevRoots := by
  unfold prevMerkleRoots at h
  split_ifs at h with hr
  · obtain ⟨root, w₁, h₁, h₂⟩ := bind_eq_ok h
    obtain ⟨info, s', hi, he, -⟩ := computeEmptyRoot_eq_ok h₁
    exact .inr ⟨hr.1, hr.2, info, root, _, s', hi, he, (pure_eq_ok h₂).1.symm⟩
  · exact .inl (pure_eq_ok h).1.symm

theorem computeMerkleRoot_eq_ok {prevRoots : String → Option Bytes} {stateUpdate : StateUpdate Leaf}
    {objectName : String} {root : Bytes}
    (h : c.computeMerkleRoot env prevRoots stateUpdate objectName w = .ok root w') :
    ∃ info modifications prevRoot s',
      c.config.committeeObjects.lookup objectName = some info ∧
      stateUpdate.objects.lookup objectName = some modifications ∧
      prevRoots objectName = some prevRoot ∧
      c.updateRoot info.treeClass w.facts prevRoot info.treeHeight modifications = .ok (root, s') ∧
      w' = { w with facts := s', calls := w.calls + 1 } := by
  unfold computeMerkleRoot at h
  obtain ⟨info, w₁, h₁, h₂⟩ := bind_eq_ok h
  obtain ⟨hi, rfl⟩ := liftExcept_eq_ok h₁
  obtain ⟨mods, w₂, h₃, h₄⟩ := bind_eq_ok h₂
  obtain ⟨hm, rfl⟩ := liftExcept_eq_ok h₃
  obtain ⟨prevRoot, w₃, h₅, h₆⟩ := bind_eq_ok h₄
  obtain ⟨hp, rfl⟩ := liftExcept_eq_ok h₅
  obtain ⟨s', hu, rfl⟩ := onFacts_eq_ok h₆
  exact ⟨info, mods, prevRoot, s', getItem_eq_ok.mp hi, getItem_eq_ok.mp hm,
    getItem_eq_ok.mp hp, hu, rfl⟩

/-- The gathered roots are one per name, in order, each the root of an update of the object's
tree from its previous root. -/
theorem computeMerkleRoots_eq_ok {prevRoots : String → Option Bytes}
    {stateUpdate : StateUpdate Leaf} :
    ∀ {names : List String} {w w' : World Leaf} {computed : List (String × Bytes)},
      c.computeMerkleRoots env prevRoots stateUpdate names w = .ok computed w' →
      computed.map Prod.fst = names ∧ c.UpdatedRoots prevRoots stateUpdate computed
  | [], _, _, _, h => by cases h; exact ⟨rfl, fun _ _ h => absurd h (List.not_mem_nil _)⟩
  | objectName :: names, w, w', computed, h => by
    unfold computeMerkleRoots at h
    obtain ⟨root, w₁, h₁, h₃⟩ := bind_eq_ok h
    obtain ⟨roots, w₂, h₂, h₄⟩ := bind_eq_ok h₃
    obtain ⟨rfl, -⟩ := pure_eq_ok h₄
    obtain ⟨hnames, hroots⟩ := computeMerkleRoots_eq_ok h₂
    refine ⟨by simp [hnames], fun n r hmem => ?_⟩
    rcases List.mem_cons.mp hmem with he | hmem
    · cases he
      obtain ⟨info, mods, prevRoot, s', hi, hm, hp, hu, -⟩ := computeMerkleRoot_eq_ok h₁
      exact ⟨info, mods, prevRoot, _, s', hi, hm, hp, hu⟩
    · exact hroots n r hmem

/-- What a returning validation has done, step by step: it read the previous batch info,
completed its roots, updated the validated trees, passed the comparison, persisted the new batch
info under `batch_id` and signed the hash of its claim. -/
theorem validateDataAvailability_eq_ok {batchId : Int} {stateUpdate : StateUpdate Leaf}
    {validateOrders : Bool} {validateRollup : Option Bool} {signature claim : String}
    (h : c.validateDataAvailability env batchId stateUpdate validateOrders validateRollup w =
      .ok (signature, claim) w') :
    ∃ (prevBatchInfo : CommitteeBatchInfo) (prevRoots : String → Option Bytes)
      (validated : List String) (computed : List (String × Bytes))
      (roots : String → Option Bytes) (availabilityClaim : Bytes) (w₁ w₂ w₃ : World Leaf),
      getCommitteeBatchInfoOrFail env stateUpdate.prevBatchId w = .ok prevBatchInfo w₁ ∧
      c.prevMerkleRoots env prevBatchInfo.merkleRoots w₁ = .ok prevRoots w₂ ∧
      validatedObjectNames c.names validateOrders validateRollup = .ok validated ∧
      c.computeMerkleRoots env prevRoots stateUpdate validated w₂ = .ok computed w₃ ∧
      checkRoots stateUpdate.roots validated computed c.names = .ok () ∧
      composeRoots stateUpdate.roots computed = .ok roots ∧
      w' = { w₃ with
        batchInfo := Function.update w₃.batchInfo batchId
          (some ⟨roots, prevBatchInfo.sequenceNumber + 1⟩)
        trace := w₃.trace ++ [.setBatchInfo batchId]
        calls := w₃.calls + 1 } ∧
      computeHashAvailabilityClaim c.hashAvailabilityClaim c.config.committeeObjects
        ⟨roots, prevBatchInfo.sequenceNumber + 1⟩ = .ok availabilityClaim ∧
      c.sign availabilityClaim = .ok signature ∧ claim = availabilityClaim.hex := by
  unfold validateDataAvailability at h
  obtain ⟨prevBatchInfo, w₁, h₁, h₂⟩ := bind_eq_ok h
  obtain ⟨prevRoots, w₂, h₃, h₄⟩ := bind_eq_ok h₂
  obtain ⟨validated, w₃, h₅, h₆⟩ := bind_eq_ok h₄
  obtain ⟨hv, rfl⟩ := liftExcept_eq_ok h₅
  obtain ⟨computed, w₄, h₇, h₈⟩ := bind_eq_ok h₆
  obtain ⟨u, w₅, h₉, h₁₀⟩ := bind_eq_ok h₈
  obtain ⟨hc, rfl⟩ := liftExcept_eq_ok h₉
  obtain ⟨roots, w₆, h₁₁, h₁₂⟩ := bind_eq_ok h₁₀
  obtain ⟨hr, rfl⟩ := liftExcept_eq_ok h₁₁
  obtain ⟨u', w₇, h₁₃, h₁₄⟩ := bind_eq_ok h₁₂
  have hw₇ := setBatchInfoValue_eq_ok h₁₃
  obtain ⟨availabilityClaim, w₈, h₁₅, h₁₆⟩ := bind_eq_ok h₁₄
  obtain ⟨ha, rfl⟩ := liftExcept_eq_ok h₁₅
  obtain ⟨sig, w₉, h₁₇, h₁₈⟩ := bind_eq_ok h₁₆
  obtain ⟨hs, rfl⟩ := liftExcept_eq_ok h₁₇
  obtain ⟨he, rfl⟩ := pure_eq_ok h₁₈
  cases he
  exact ⟨prevBatchInfo, prevRoots, validated, computed, roots, availabilityClaim, _, _, _,
    h₁, h₃, hv, h₇, hc, hr, hw₇, ha, hs, rfl⟩

end Committee

omit [LeafFact Leaf] in
theorem lookup_eq_of_mem {β : Type} :
    ∀ {items : List (String × β)}, (items.map Prod.fst).Nodup → ∀ {key : String} {b : β},
      (key, b) ∈ items → items.lookup key = some b
  | [], _, _, _, h => absurd h (List.not_mem_nil _)
  | (name, value) :: items, hnodup, key, b, h => by
    rw [List.map_cons, List.nodup_cons] at hnodup
    rcases List.mem_cons.mp h with h | h
    · cases h; simp
    · have hk : key ≠ name := fun e =>
        hnodup.1 (e ▸ (List.mem_map_of_mem Prod.fst h : key ∈ items.map Prod.fst))
      simpa [List.lookup_cons, beq_false_of_ne hk] using lookup_eq_of_mem hnodup.2 h

omit [LeafFact Leaf] in
theorem lookup_eq_none {β : Type} {items : List (String × β)} {key : String}
    (h : key ∉ items.map Prod.fst) : items.lookup key = none :=
  List.lookup_eq_none_iff.mpr fun item hi =>
    bne_iff_ne.mpr fun (e : key = item.1) => h (e ▸ List.mem_map_of_mem Prod.fst hi)

namespace Committee

variable {c : Committee Leaf}

omit [LeafFact Leaf] in
/-- A claim computed and signed is a signed claim. -/
theorem signedClaim_of_ok {batchInfo : CommitteeBatchInfo} {availabilityClaim : Bytes}
    {signature : String}
    (hclaim : computeHashAvailabilityClaim c.hashAvailabilityClaim c.config.committeeObjects
      batchInfo = .ok availabilityClaim)
    (hsign : c.sign availabilityClaim = .ok signature) :
    c.SignedClaim batchInfo signature availabilityClaim.hex := by
  obtain ⟨vaultsObjectName, vaultsRoot, tradesRoot, vaultsInfo, tradesInfo, hname, hvr, htr,
    hvi, hti, rfl⟩ := computeHashAvailabilityClaim_ok hclaim
  exact ⟨vaultsObjectName, vaultsRoot, tradesRoot, vaultsInfo, tradesInfo, hname, hvr, htr, hvi,
    hti, rfl, hsign⟩

/-- A returning validation has stored under `batch_id` a batch info whose claim it signed. -/
theorem validateDataAvailability_persists {batchId : Int} {stateUpdate : StateUpdate Leaf}
    {validateOrders : Bool} {validateRollup : Option Bool} {signature claim : String}
    (h : c.validateDataAvailability env batchId stateUpdate validateOrders validateRollup w =
      .ok (signature, claim) w') :
    ∃ batchInfo, w'.batchInfo batchId = some batchInfo ∧ c.SignedClaim batchInfo signature claim := by
  obtain ⟨prevBatchInfo, -, -, -, roots, availabilityClaim, -, -, w₃, -, -, -, -, -, -, rfl, hclaim,
    hsign, rfl⟩ := validateDataAvailability_eq_ok h
  exact ⟨_, by simp, signedClaim_of_ok hclaim hsign⟩

end Committee

end Returns

/-! ### What every step keeps -/

section Preservation

variable {env} {I : World Leaf → Prop}

omit [LeafFact Leaf] in
/-- `get_committee_batch_info` keeps an invariant that ignores the count of calls and that the
copy from the legacy key keeps; the batch info it returns is then stored under the new key. -/
theorem getCommitteeBatchInfo_spec {batchId : Int} (hbump : ∀ w k, I w → I { w with calls := k })
    (hcopy : ∀ w b, I w → w.batchInfo batchId = none → w.oldBatchInfo batchId = some b →
      I { w with
        batchInfo := Function.update w.batchInfo batchId (some b)
        trace := w.trace ++ [.setBatchInfo batchId] }) :
    Spec I (getCommitteeBatchInfo env batchId)
      (fun r w => I w ∧ ∀ b, r = some b → w.batchInfo batchId = some b) I := by
  have hget : Spec I (getBatchInfoValue env batchId) (fun v w => I w ∧ v = w.batchInfo batchId) I :=
    Spec.call (fun w hw => hbump w _ hw) fun w a w' hw h => by cases h; exact ⟨hbump w _ hw, rfl⟩
  refine Spec.bind hget fun v => ?_
  rcases v with _ | b
  · have hold : Spec (fun w => I w ∧ none = w.batchInfo batchId) (getOldBatchInfoValue env batchId)
        (fun o w => I w ∧ w.batchInfo batchId = none ∧ o = w.oldBatchInfo batchId) I :=
      Spec.call (fun w hw => hbump w _ hw.1) fun w a w' hw h => by
        cases h; exact ⟨hbump w _ hw.1, hw.2.symm, rfl⟩
    refine Spec.bind hold fun o => ?_
    rcases o with _ | b
    · exact Spec.pure fun w hw => ⟨hw.1, fun b e => by cases e⟩
    · refine Spec.bind (Spec.call (fun w hw => hbump w _ hw.1) fun w a w' hw h => ?_)
        fun _ => Spec.pure fun w hw => hw
      cases h
      exact ⟨hbump _ _ (hcopy w b hw.1 hw.2.1 hw.2.2.symm), fun b' e => by cases e; simp⟩
  · exact Spec.pure fun w hw => ⟨hw.1, fun b' e => by cases e; exact hw.2.symm⟩

omit [LeafFact Leaf] in
theorem getCommitteeBatchInfoOrFail_spec {batchId : Int}
    (hbump : ∀ w k, I w → I { w with calls := k })
    (hcopy : ∀ w b, I w → w.batchInfo batchId = none → w.oldBatchInfo batchId = some b →
      I { w with
        batchInfo := Function.update w.batchInfo batchId (some b)
        trace := w.trace ++ [.setBatchInfo batchId] }) :
    Spec I (getCommitteeBatchInfoOrFail env batchId)
      (fun b w => I w ∧ w.batchInfo batchId = some b) I := by
  refine Spec.bind (getCommitteeBatchInfo_spec hbump hcopy) fun r => ?_
  rcases r with _ | b
  · exact Spec.throw fun w hw => hw.1
  · exact Spec.pure fun w hw => ⟨hw.1, hw.2 b rfl⟩

omit [LeafFact Leaf] in
/-- A step on the fact storage keeps an invariant that ignores the count of calls and that every
returning step keeps. -/
theorem onFacts_preserves {α : Type} {f : FactStore Leaf → Except String (α × FactStore Leaf)}
    (hbump : ∀ w k, I w → I { w with calls := k })
    (hf : ∀ w a s, I w → f w.facts = .ok (a, s) → I { w with facts := s }) :
    Preserves I (onFacts env f) := by
  refine Preserves.call hbump fun w a w' hw h => ?_
  cases hr : f w.facts with
  | error e => rw [hr] at h; cases h
  | ok r => rw [hr] at h; cases h; exact hf w r.1 r.2 hw hr

namespace Committee

variable {c : Committee Leaf} (hbump : ∀ w k, I w → I { w with calls := k })
  (hempty : ∀ w treeClass height leafFact root s, I w →
    c.emptyTreeRoot treeClass w.facts height leafFact = .ok (root, s) → I { w with facts := s })
  (hupdate : ∀ w treeClass root height modifications root' s, I w →
    c.updateRoot treeClass w.facts root height modifications = .ok (root', s) →
      I { w with facts := s })

include hbump hempty in
theorem computeEmptyRoot_preserves (objectName : String) :
    Preserves I (c.computeEmptyRoot env objectName) :=
  Preserves.bind (Preserves.liftExcept _) fun _ =>
    onFacts_preserves hbump fun w _ _ hw h => hempty w _ _ _ _ _ hw h

include hbump hempty in
theorem computeEmptyRoots_preserves :
    ∀ names, Preserves I (c.computeEmptyRoots env names)
  | [] => Preserves.pure _
  | _ :: names => Preserves.bind (computeEmptyRoot_preserves hbump hempty _) fun _ =>
    Preserves.bind (computeEmptyRoots_preserves names) fun _ => Preserves.pure _

include hbump hempty in
theorem prevMerkleRoots_preserves (merkleRoots : String → Option Bytes) :
    Preserves I (c.prevMerkleRoots env merkleRoots) := by
  unfold prevMerkleRoots
  split_ifs
  · exact Preserves.bind (computeEmptyRoot_preserves hbump hempty _) fun _ => Preserves.pure _
  · exact Preserves.pure _

include hbump hupdate in
theorem computeMerkleRoots_preserves (prevRoots : String → Option Bytes)
    (stateUpdate : StateUpdate Leaf) :
    ∀ names, Preserves I (c.computeMerkleRoots env prevRoots stateUpdate names)
  | [] => Preserves.pure _
  | _ :: names => Preserves.bind (Preserves.bind (Preserves.liftExcept _) fun _ =>
      Preserves.bind (Preserves.liftExcept _) fun _ =>
        Preserves.bind (Preserves.liftExcept _) fun _ =>
          onFacts_preserves hbump fun w _ _ hw h => hupdate w _ _ _ _ _ _ hw h) fun _ =>
    Preserves.bind (computeMerkleRoots_preserves prevRoots stateUpdate names) fun _ =>
      Preserves.pure _

end Committee

end Preservation

/-! ### Two trees of height `0` -/

/-- A committee over a vault tree and an order tree of height `0`, with the escaping
`hash_func`, the concatenation of the two roots as claim hash and the hex of the claim as
signature. -/
def twoTreeCommittee : Committee OrderState where
  config := ⟨[("vault", ⟨OrderState.empty, 0, .merkleTree⟩),
    ("order", ⟨OrderState.empty, 0, .merkleTree⟩)], true, none, by decide⟩
  hashFunc := escapePair
  patricia := ⟨fun _ _ _ => .error "", fun _ _ _ _ => .error ""⟩
  hashAvailabilityClaim := fun vaultsRoot _ tradesRoot _ _ => vaultsRoot ++ tradesRoot
  sign := fun claim => .ok claim.hex
  address := "0"

/-- A storage holding only the batch info `-1`, with both roots `[7]`. -/
def twoTreeWorld : World OrderState :=
  ⟨none, fun b => if b = -1 then
    some ⟨fun n => if n = "vault" ∨ n = "order" then some [7] else none, -1⟩ else none,
    fun _ => none, FactStore.empty, 0, 0, []⟩

/-- A state update on batch `-1` with no modifications, declaring both roots unchanged. -/
def twoTreeUpdate : StateUpdate OrderState :=
  ⟨-1, [("vault", []), ("order", [])], [("vault", "07"), ("order", "07")], by decide⟩

end AvailabilityCommittee
