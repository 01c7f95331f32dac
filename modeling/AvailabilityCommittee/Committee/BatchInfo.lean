import AvailabilityCommittee.MerkleTree.Update
import AvailabilityCommittee.Objects.StarkexState

/-! # Committee objects, batch infos and state updates

The data of `committee.py` and the steps of `validate_data_availability` and
`compute_hash_availability_claim` that do not touch the storage:

* `CommitteeConfig`: the configured objects (`committee_objects_info`) in order, each with the
  empty leaf of its state class, its tree height and its tree class, and the two validation
  flags;
* `CommitteeBatchInfo`: the roots of a batch by object name and its sequence number;
* `StateUpdate`: a state update through its `objects` and `roots` properties;
* `Committee`: a committee member, its configuration and the functions it is built with.

`validatedObjectNames_mem` says which names are validated; `checkRoots_ok` and
`composeRoots_ok` read back the comparison loop and the composition of the new roots;
`computeHashAvailabilityClaim_ok` reads back the claim. -/

namespace AvailabilityCommittee

/-- `CommitteeBatchInfo`: the roots of a batch by object name, and its sequence number. -/
structure CommitteeBatchInfo where
  merkleRoots : String → Option Bytes
  sequenceNumber : Int

/-- The tree classes of the configured objects (`BinaryFactTree.from_config`). -/
inductive TreeClass
  | merkleTree
  | patriciaTree
deriving DecidableEq, Repr

/-- `CommitteeObjectInfo`: the empty leaf of the object's state class (`state_class.empty()`),
the height of its tree and its tree class. -/
structure CommitteeObjectInfo (Leaf : Type) where
  stateClassEmpty : Leaf
  treeHeight : Nat
  treeClass : TreeClass

/-- The configuration a committee keeps: `committee_objects_info`, a dictionary and so with
distinct names, and the flags `validate_orders` and `validate_rollup`. -/
structure CommitteeConfig (Leaf : Type) where
  committeeObjects : List (String × CommitteeObjectInfo Leaf)
  validateOrders : Bool
  validateRollup : Option Bool
  names_nodup : (committeeObjects.map Prod.fst).Nodup

/-- A state update (`StateUpdateBase`) through its properties: `prev_batch_id`, the
modifications of each object (`objects`) and the declared root of each object, as hexadecimal
text (`roots`, a dictionary). -/
structure StateUpdate (Leaf : Type) where
  prevBatchId : Int
  objects : List (String × List (Nat × Leaf))
  roots : List (String × String)
  roots_nodup : (roots.map Prod.fst).Nodup

/-- The class `PatriciaTree`, which is not in the repository: its empty tree and its update give
the new root and the new map of the facts it keeps under its own prefix.  Like the Merkle tree,
it stores its leaves with `set_fact`. -/
structure PatriciaTree (Leaf : Type) where
  emptyTree : FactStore Leaf → Nat → Leaf → Except String (Bytes × (Bytes → Option Bytes))
  update : FactStore Leaf → Bytes → Nat → List (Nat × Leaf) →
    Except String (Bytes × (Bytes → Option Bytes))

/-- A committee member (`Committee`): its configuration, `hash_func`, the Patricia tree class,
`hash_availability_claim`, the signer of its account (`eth.Account._sign_hash(...).signature.hex()`)
and the account's address.  `hash_availability_claim` is not in the repository. -/
structure Committee (Leaf : Type) where
  config : CommitteeConfig Leaf
  hashFunc : HashFunc
  patricia : PatriciaTree Leaf
  hashAvailabilityClaim : Bytes → Nat → Bytes → Nat → Int → Bytes
  sign : Bytes → Except String String
  address : String

/-! ### Executable definitions -/

/-- `d[key]`: the value, or a `KeyError`. -/
def getItem {β : Type} (value : Option β) (key : String) : Except String β :=
  match value with
  | some b => .ok b
  | none => .error s!"KeyError: {key}"

@[simp] theorem getItem_eq_ok {β : Type} {value : Option β} {key : String} {b : β} :
    getItem value key = .ok b ↔ value = some b := by
  unfold getItem; split <;> simp_all

/-- `names.remove(name)`: drop the first occurrence, or raise when there is none. -/
def removeName (names : List String) (name : String) : Except String (List String) :=
  if name ∈ names then .ok (names.erase name) else .error "list.remove(x): x not in list"

/-- The names `validate_data_availability` recomputes: all configured names, but `order` when
orders are not validated and `rollup_vault` when `validate_rollup` is `False`; with
`validate_rollup` `None`, `rollup_vault` must not be configured. -/
def validatedObjectNames (names : List String) (validateOrders : Bool)
    (validateRollup : Option Bool) : Except String (List String) :=
  (if validateOrders then .ok names else removeName names "order") >>= fun names =>
    match validateRollup with
    | some false => removeName names "rollup_vault"
    | none => if "rollup_vault" ∈ names then .error "" else .ok names
    | some true => .ok names

/-- The comparison loop of `validate_data_availability` over the configured `names`: the declared
root must be the hex of the computed root of every validated object, but an obsolete order root
is signed blindly. -/
def checkRoots (declared : List (String × String)) (validated : List String)
    (computed : List (String × Bytes)) : List String → Except String Unit
  | [] => .ok ()
  | name :: names => do
    let expectedRoot ← getItem (declared.lookup name) name
    if name = "order" ∧ expectedRoot = obsoleteOrderTreeRootStr then
      checkRoots declared validated computed names
    else if name ∈ validated then
      let root ← getItem (computed.lookup name) name
      if root.hex = expectedRoot then checkRoots declared validated computed names
      else .error s!"{name} root mismatch"
    else checkRoots declared validated computed names

/-- `roots = {key: bytes.fromhex(value) for key, value in state_update.roots.items()}`, then
`roots.update(roots_dict)`. -/
def composeRoots (declared : List (String × String)) (computed : List (String × Bytes)) :
    Except String (String → Option Bytes) := do
  let decoded ← declared.mapM fun item => (item.1, ·) <$> Bytes.fromhex item.2
  return fun key => match computed.lookup key with
    | some root => some root
    | none => decoded.lookup key

/-- `compute_hash_availability_claim`: `hash_availability_claim` of the vault (or position) root,
the order root, their tree heights and the sequence number. -/
def computeHashAvailabilityClaim {Leaf : Type}
    (hashAvailabilityClaim : Bytes → Nat → Bytes → Nat → Int → Bytes)
    (objects : List (String × CommitteeObjectInfo Leaf)) (batchInfo : CommitteeBatchInfo) :
    Except String Bytes := do
  let hashObjectNames := (objects.map Prod.fst).filter (· != "rollup_vault")
  if hashObjectNames.length ≠ 2 then
    throw s!"Unexpected number of objects: {hashObjectNames}."
  else
  let vaultsObjectName := if "vault" ∈ hashObjectNames then "vault" else "position"
  if "order" ∉ hashObjectNames then throw "" else
  let vaultsRoot ← getItem (batchInfo.merkleRoots vaultsObjectName) vaultsObjectName
  let vaultsInfo ← getItem (objects.lookup vaultsObjectName) vaultsObjectName
  let tradesRoot ← getItem (batchInfo.merkleRoots "order") "order"
  let tradesInfo ← getItem (objects.lookup "order") "order"
  return hashAvailabilityClaim vaultsRoot vaultsInfo.treeHeight tradesRoot tradesInfo.treeHeight
    batchInfo.sequenceNumber

namespace Committee

variable {Leaf : Type} [LeafFact Leaf] (c : Committee Leaf)

/-- The configured names, in order. -/
def names : List String := c.config.committeeObjects.map Prod.fst

/-- `tree_class.empty_tree(ffc, height, leaf_fact).root`, with the new fact store. -/
def emptyTreeRoot (treeClass : TreeClass) (s : FactStore Leaf) (height : Nat) (leafFact : Leaf) :
    Except String (Bytes × FactStore Leaf) :=
  match treeClass with
  | .merkleTree => (fun r => (r.1.root, r.2)) <$> MerkleTree.emptyTree c.hashFunc s height leafFact
  | .patriciaTree => (fun r => (r.1, { (s.setFact c.hashFunc leafFact).2 with other := r.2 })) <$>
      c.patricia.emptyTree s height leafFact

/-- `tree_class(root=root, height=height).update(ffc, modifications).root`, with the new fact
store. -/
def updateRoot (treeClass : TreeClass) (s : FactStore Leaf) (root : Bytes) (height : Nat)
    (modifications : List (Nat × Leaf)) : Except String (Bytes × FactStore Leaf) :=
  match treeClass with
  | .merkleTree => (fun r => (r.1.root, r.2)) <$>
      MerkleTree.update c.hashFunc s ⟨root, height⟩ modifications
  | .patriciaTree =>
    (fun r => (r.1, { MerkleTree.writeLeafFacts c.hashFunc s modifications with other := r.2 })) <$>
      c.patricia.update s root height modifications

end Committee

/-! ### The validated names -/

/-- An object is validated under the flags: `order` only when orders are validated,
`rollup_vault` only when `validate_rollup` is `True`. -/
def Validated (validateOrders : Bool) (validateRollup : Option Bool) (name : String) : Prop :=
  (name = "order" → validateOrders = true) ∧ (name = "rollup_vault" → validateRollup = some true)

instance (validateOrders : Bool) (validateRollup : Option Bool) (name : String) :
    Decidable (Validated validateOrders validateRollup name) :=
  inferInstanceAs (Decidable (_ ∧ _))

theorem removeName_eq_ok {names names' : List String} {name : String}
    (h : removeName names name = .ok names') : names' = names.erase name := by
  unfold removeName at h
  split_ifs at h
  exact (Except.ok.inj h).symm

/-- The validated names are the configured names that `Validated` allows, in order. -/
theorem validatedObjectNames_mem {names validated : List String} (hnodup : names.Nodup)
    {validateOrders : Bool} {validateRollup : Option Bool}
    (h : validatedObjectNames names validateOrders validateRollup = .ok validated) :
    validated.Sublist names ∧
      ∀ name, name ∈ validated ↔ name ∈ names ∧ Validated validateOrders validateRollup name := by
  unfold validatedObjectNames at h
  cases h₁ : (if validateOrders then Except.ok names else removeName names "order") with
  | error e => rw [h₁] at h; cases h
  | ok names₁ =>
  rw [h₁, except_ok_bind] at h
  have hs₁ : names₁.Sublist names ∧
      ∀ n, n ∈ names₁ ↔ n ∈ names ∧ (n = "order" → validateOrders) := by
    split_ifs at h₁ with hv
    · cases h₁; exact ⟨List.Sublist.refl _, fun n => by simp [hv]⟩
    · rw [removeName_eq_ok h₁]
      exact ⟨List.erase_sublist _ _, fun n => by rw [hnodup.mem_erase_iff]; simp [hv, and_comm]⟩
  have hn₁ : names₁.Nodup := hnodup.sublist hs₁.1
  rcases validateRollup with _ | _ | _
  · split_ifs at h with hr
    cases h
    refine ⟨hs₁.1, fun n => ⟨fun hm => ?_, fun hm => (hs₁.2 n).2 ⟨hm.1, hm.2.1⟩⟩⟩
    exact ⟨((hs₁.2 n).1 hm).1, ((hs₁.2 n).1 hm).2, fun e => absurd (e ▸ hm) hr⟩
  · rw [removeName_eq_ok h]
    exact ⟨(List.erase_sublist _ _).trans hs₁.1, fun n => by
      rw [hn₁.mem_erase_iff, hs₁.2]; simp [Validated]; tauto⟩
  · cases h
    exact ⟨hs₁.1, fun n => by rw [hs₁.2]; simp [Validated]⟩

/-! ### The comparison and the new roots -/

/-- The loop passes exactly when every configured name has a declared root and, unless it is an
obsolete order root, every validated name has a computed root whose hex is the declared root. -/
theorem checkRoots_ok {declared : List (String × String)} {validated : List String}
    {computed : List (String × Bytes)} :
    ∀ {names : List String}, checkRoots declared validated computed names = .ok () →
      ∀ name ∈ names, ∃ expectedRoot, declared.lookup name = some expectedRoot ∧
        (¬ (name = "order" ∧ expectedRoot = obsoleteOrderTreeRootStr) → name ∈ validated →
          ∃ root, computed.lookup name = some root ∧ root.hex = expectedRoot)
  | [], _ => by simp
  | name :: names, h => by
    simp only [checkRoots] at h
    cases hd : getItem (declared.lookup name) name with
    | error e => rw [hd] at h; cases h
    | ok expectedRoot =>
      rw [hd, except_ok_bind] at h
      have hrest : checkRoots declared validated computed names = .ok () := by
        split_ifs at h with ho hv
        · exact h
        · revert h; cases getItem (computed.lookup name) name <;> simp only [except_ok_bind,
            except_error_bind, reduceCtorEq, false_imp_iff]
          split_ifs <;> simp
        · exact h
      intro n hn
      rcases List.mem_cons.mp hn with rfl | hn
      · refine ⟨expectedRoot, getItem_eq_ok.mp hd, fun ho hv => ?_⟩
        rw [if_neg ho, if_pos hv] at h
        cases hc : getItem (computed.lookup n) n with
        | error e => rw [hc] at h; cases h
        | ok root =>
          rw [hc, except_ok_bind] at h
          split_ifs at h with hr
          exact ⟨root, getItem_eq_ok.mp hc, hr⟩
      · exact checkRoots_ok hrest n hn

theorem lookup_mapM_fromhex {declared : List (String × String)} :
    ∀ {decoded : List (String × Bytes)},
      declared.mapM (fun item => (item.1, ·) <$> Bytes.fromhex item.2) = .ok decoded →
      ∀ key, (declared.lookup key = none → decoded.lookup key = none) ∧
        ∀ text, declared.lookup key = some text →
          ∃ root, Bytes.fromhex text = .ok root ∧ decoded.lookup key = some root := by
  induction declared with
  | nil => intro decoded h key; rw [mapM_nil_eq_ok.mp h]; simp
  | cons item declared ih =>
    obtain ⟨name, text⟩ := item
    intro decoded h key
    obtain ⟨b, rest, hb, hrest, rfl⟩ := mapM_cons_eq_ok.mp h
    cases hf : Bytes.fromhex text with
    | error e => rw [hf] at hb; cases hb
    | ok root =>
      rw [hf, except_map_ok] at hb
      cases hb
      by_cases hk : key = name
      · subst hk; simp [hf]
      · have hk' : (key == name) = false := by simpa using hk
        simpa only [List.lookup_cons, hk'] using ih hrest key

/-- The new roots are the computed roots, and the decoded declared roots of the other names. -/
theorem composeRoots_ok {declared : List (String × String)} {computed : List (String × Bytes)}
    {roots : String → Option Bytes} (h : composeRoots declared computed = .ok roots) (key : String) :
    (∀ root, computed.lookup key = some root → roots key = some root) ∧
      (computed.lookup key = none → declared.lookup key = none → roots key = none) ∧
      (computed.lookup key = none → ∀ text, declared.lookup key = some text →
        ∃ root, Bytes.fromhex text = .ok root ∧ roots key = some root) := by
  unfold composeRoots at h
  cases hd : declared.mapM (fun item => (item.1, ·) <$> Bytes.fromhex item.2) with
  | error e => rw [hd] at h; cases h
  | ok decoded =>
    rw [hd, except_ok_bind] at h
    cases h
    have := lookup_mapM_fromhex hd key
    refine ⟨fun root hr => by simp [hr], fun hc hn => by simp [hc, this.1 hn], fun hc text ht => ?_⟩
    simpa [hc] using this.2 text ht

/-- The claim is `hash_availability_claim` of the roots of `vault` (or `position`) and `order`,
their heights and the sequence number. -/
theorem computeHashAvailabilityClaim_ok {Leaf : Type}
    {hashAvailabilityClaim : Bytes → Nat → Bytes → Nat → Int → Bytes}
    {objects : List (String × CommitteeObjectInfo Leaf)} {batchInfo : CommitteeBatchInfo}
    {claim : Bytes}
    (h : computeHashAvailabilityClaim hashAvailabilityClaim objects batchInfo = .ok claim) :
    ∃ vaultsObjectName vaultsRoot tradesRoot vaultsInfo tradesInfo,
      (vaultsObjectName = "vault" ∨ vaultsObjectName = "position") ∧
      batchInfo.merkleRoots vaultsObjectName = some vaultsRoot ∧
      batchInfo.merkleRoots "order" = some tradesRoot ∧
      objects.lookup vaultsObjectName = some vaultsInfo ∧ objects.lookup "order" = some tradesInfo ∧
      claim = hashAvailabilityClaim vaultsRoot vaultsInfo.treeHeight tradesRoot
        tradesInfo.treeHeight batchInfo.sequenceNumber := by
  unfold computeHashAvailabilityClaim at h
  dsimp only at h
  obtain ⟨vaultsObjectName, hname, hv⟩ : ∃ name, (name = "vault" ∨ name = "position") ∧
      (if "vault" ∈ (objects.map Prod.fst).filter (· != "rollup_vault") then "vault"
        else "position") = name := ⟨_, by split_ifs <;> simp, rfl⟩
  rw [hv] at h
  split_ifs at h
  cases h₁ : getItem (batchInfo.merkleRoots vaultsObjectName) vaultsObjectName <;>
    cases h₂ : getItem (objects.lookup vaultsObjectName) vaultsObjectName <;>
    cases h₃ : getItem (batchInfo.merkleRoots "order") "order" <;>
    cases h₄ : getItem (objects.lookup "order") "order" <;>
    simp only [h₁, h₂, h₃, h₄, except_ok_bind, except_error_bind, reduceCtorEq] at h
  exact ⟨_, _, _, _, _, hname, getItem_eq_ok.mp h₁, getItem_eq_ok.mp h₃, getItem_eq_ok.mp h₂,
    getItem_eq_ok.mp h₄, (Except.ok.inj h).symm⟩

end AvailabilityCommittee
