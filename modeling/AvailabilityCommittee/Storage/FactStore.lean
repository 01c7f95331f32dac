import AvailabilityCommittee.Storage.Bytes
import Mathlib.Logic.Function.Basic

/-! # The fact storage

The Merkle trees live in the content-addressed part of the storage (`FactFetchingContext`):

* an inner node `MerkleNodeFact(left_node, right_node)` is stored under
  `b"merkle_node:" ‖ hash_func(left_node, right_node)` (`write_node_fact`, `read_node_fact`);
* a leaf fact `v` is stored under `v.prefix() ‖ b":" ‖ v._hash(hash_func)` (`set_fact`);
* the facts of other tree classes (the Patricia tree's nodes) are kept under their own prefixes.

Keys with different prefixes are different keys, so the store is a record of three maps keyed
by hash.  It keeps node facts rather than their bytes `MerkleNodeFact.serialize`: every byte
string `deserialize` accepts is the serialization of what it reads (`serialize_deserialize`), and a
fact comes back from its serialization exactly when both of its children are `HASH_BYTES` long
(`deserialize_serialize_iff`), as every hash of the storage is.  `CachedStorage`, the LRU read-through cache in front of the committee's fact storage,
is write-through and every write to the fact storage goes through it, so the model reads the
backing store directly.

* `ContentAddressed`: every entry is stored under its own hash.  Writing a fact under its hash
  keeps it (`ContentAddressed.setNode`, `ContentAddressed.setLeaf`), whatever the hash function.
* `Extends s s'`: every node entry of `s` is still in `s'` and every leaf key of `s` is still
  filled.  When `hash_func` is injective, a node write on a content-addressed store only
  extends it (`extends_setNode`): the write can only land on an entry it agrees with. -/

namespace AvailabilityCommittee

section ExceptLemmas

variable {ε α β : Type}

theorem except_pure (a : α) : (pure a : Except ε α) = .ok a := rfl

@[simp] theorem except_ok_bind (a : α) (f : α → Except ε β) : (Except.ok a >>= f) = f a := rfl

@[simp] theorem except_error_bind (e : ε) (f : α → Except ε β) :
    (Except.error e >>= f : Except ε β) = .error e := rfl

theorem except_bind_eq_ok {x : Except ε α} {f : α → Except ε β} {b : β} :
    (x >>= f) = .ok b ↔ ∃ a, x = .ok a ∧ f a = .ok b := by
  cases x <;> simp

@[simp] theorem except_map_ok (g : α → β) (a : α) : (g <$> Except.ok a : Except ε β) = .ok (g a) :=
  rfl

@[simp] theorem except_map_error (g : α → β) (e : ε) :
    (g <$> Except.error e : Except ε β) = .error e := rfl

theorem mapM_nil_eq_ok {f : α → Except ε β} {bs : List β} :
    ([] : List α).mapM f = .ok bs ↔ bs = [] :=
  ⟨fun h => (Except.ok.inj h).symm, fun h => h ▸ rfl⟩

theorem mapM_cons_eq_ok {f : α → Except ε β} {a : α} {l : List α} {bs : List β} :
    (a :: l).mapM f = .ok bs ↔ ∃ b bs', f a = .ok b ∧ l.mapM f = .ok bs' ∧ bs = b :: bs' := by
  rw [List.mapM_cons]
  rcases ha : f a with e | b
  · simp only [except_error_bind, reduceCtorEq, false_and, exists_false, iff_false]
  · rcases hl : l.mapM f with e | bs'
    · simp only [except_ok_bind, except_error_bind, reduceCtorEq, false_and, and_false,
        exists_false, iff_false]
    · simp only [except_ok_bind, Except.ok.injEq, exists_and_left, exists_eq_left']
      exact ⟨fun h => (Except.ok.inj h).symm, fun h => h ▸ rfl⟩

/-- A loop over `a :: l` succeeds when its first iteration does and the loop over `l` from there
does. -/
theorem foldlM_cons_eq_ok {f : β → α → Except ε β} {b c : β} {a : α} {l : List α} :
    (a :: l).foldlM f b = .ok c ↔ ∃ b', f b a = .ok b' ∧ l.foldlM f b' = .ok c := by
  rw [List.foldlM_cons]
  rcases f b a with e | b' <;> simp

end ExceptLemmas

/-- `HashFunctionType`: the fact fetching context's two-to-one hash `hash_func`. -/
abbrev HashFunc := Bytes → Bytes → Bytes

/-- A collision-free two-to-one function on byte strings, to instantiate the collision-freeness
assumptions in examples: every byte of the left input escaped by a `1`, then a `0`, then the right
input. -/
def escapePair : HashFunc := fun x y => x.flatMap (fun b => [1, b]) ++ 0 :: y

theorem escapePair_injective2 : Function.Injective2 escapePair := by
  intro x x' y y' h
  induction x generalizing x' with
  | nil => cases x' with
    | nil => exact ⟨rfl, List.cons_injective h⟩
    | cons b xs => simp [escapePair] at h
  | cons b xs ih => cases x' with
    | nil => simp [escapePair] at h
    | cons b' xs' =>
      simp only [escapePair, List.flatMap_cons, List.cons_append, List.nil_append,
        List.cons.injEq, true_and] at h
      obtain ⟨rfl, h⟩ := h
      obtain ⟨rfl, rfl⟩ := ih h
      exact ⟨rfl, rfl⟩

/-- A leaf fact (`LeafFact`): a state object hashed with the context's hash function and persisted
under the storage prefix of its class. -/
class LeafFact (α : Type) where
  /-- `_hash(hash_func)`. -/
  hash : HashFunc → α → Bytes
  /-- `prefix()`, the storage namespace of the object's class. -/
  dbPrefix : α → Bytes

/-- `MerkleNodeFact`: an inner node, the hashes of its two children. -/
structure MerkleNodeFact where
  leftNode : Bytes
  rightNode : Bytes
deriving DecidableEq, Repr

/-- `MerkleNodeFact._hash`. -/
def MerkleNodeFact.hash (hashFunc : HashFunc) (fact : MerkleNodeFact) : Bytes :=
  hashFunc fact.leftNode fact.rightNode

namespace MerkleNodeFact

/-- `MerkleNodeFact.serialize`: `to_bytes(from_bytes(left_node)) + to_bytes(from_bytes(right_node))`,
each at the default length `HASH_BYTES`. -/
def serialize (fact : MerkleNodeFact) : Except String Bytes := do
  let left ← toHashBytes (fromBytes fact.leftNode)
  let right ← toHashBytes (fromBytes fact.rightNode)
  return left ++ right

/-- `MerkleNodeFact.deserialize`: the bare `assert` raises an `AssertionError` with no message. -/
def deserialize (data : Bytes) : Except String MerkleNodeFact :=
  if data.length = 2 * hashBytes then .ok ⟨data.take hashBytes, data.drop hashBytes⟩ else .error ""

theorem toHashBytes_fromBytes {data : Bytes} (h : data.length = hashBytes) :
    toHashBytes (fromBytes data) = .ok data := by
  have hlt := fromBytes_lt data
  rw [toHashBytes, toBytes_of_lt (by omega) (by rw [h] at hlt; exact_mod_cast hlt), Int.toNat_natCast, ← h,
    bytesBE_fromBytes]

theorem serialize_deserialize {data : Bytes} {fact : MerkleNodeFact}
    (h : deserialize data = .ok fact) : fact.serialize = .ok data := by
  unfold deserialize at h
  split_ifs at h with hl
  cases h
  rw [serialize, toHashBytes_fromBytes (by simp [hl]; omega),
    toHashBytes_fromBytes (by simp [hl]; omega)]
  simp [except_pure]

theorem serialize_deserialize_zeros :
    deserialize (List.replicate 64 0) = .ok ⟨List.replicate 32 0, List.replicate 32 0⟩ ∧
      (⟨List.replicate 32 0, List.replicate 32 0⟩ : MerkleNodeFact).serialize =
        .ok (List.replicate 64 0) :=
  ⟨rfl, serialize_deserialize rfl⟩

theorem deserialize_serialize_iff (fact : MerkleNodeFact) :
    (∃ data, fact.serialize = .ok data ∧ deserialize data = .ok fact) ↔
      fact.leftNode.length = hashBytes ∧ fact.rightNode.length = hashBytes := by
  constructor
  · rintro ⟨data, hs, hd⟩
    simp only [serialize, except_bind_eq_ok, except_pure, Except.ok.injEq] at hs
    obtain ⟨left, hL, right, hR, rfl⟩ := hs
    have hl : left.length = hashBytes := length_of_toBytes hL
    unfold deserialize at hd
    split_ifs at hd
    cases fact
    cases hd
    simp [List.take_left' hl, List.drop_left' hl, hl, length_of_toBytes hR]
  · rintro ⟨hl, hr⟩
    refine ⟨fact.leftNode ++ fact.rightNode, ?_, ?_⟩
    · rw [serialize, toHashBytes_fromBytes hl, toHashBytes_fromBytes hr]; rfl
    · rw [deserialize, if_pos (by simp [hl, hr]; omega), List.take_left' hl, List.drop_left' hl]

end MerkleNodeFact

/-- The fact storage: node facts and leaf facts by hash, and the facts of other tree classes. -/
structure FactStore (Leaf : Type) where
  nodes : Bytes → Option MerkleNodeFact
  leaves : Bytes → Bytes → Option Leaf
  other : Bytes → Option Bytes

namespace FactStore

variable {Leaf : Type}

/-- The empty storage. -/
def empty : FactStore Leaf := ⟨fun _ => none, fun _ _ => none, fun _ => none⟩

/-- `storage.set_value(b"merkle_node:" ‖ key, fact)`. -/
def setNode (s : FactStore Leaf) (key : Bytes) (fact : MerkleNodeFact) : FactStore Leaf :=
  { s with nodes := fun k => if k = key then some fact else s.nodes k }

/-- `storage.set_value(dbPrefix ‖ b":" ‖ key, leaf)`. -/
def setLeaf (s : FactStore Leaf) (dbPrefix key : Bytes) (leaf : Leaf) : FactStore Leaf :=
  { s with leaves := fun p k => if p = dbPrefix ∧ k = key then some leaf else s.leaves p k }

@[simp] theorem setNode_nodes (s : FactStore Leaf) (key k : Bytes) (fact : MerkleNodeFact) :
    (s.setNode key fact).nodes k = if k = key then some fact else s.nodes k := rfl

@[simp] theorem setNode_leaves (s : FactStore Leaf) (key : Bytes) (fact : MerkleNodeFact) :
    (s.setNode key fact).leaves = s.leaves := rfl

@[simp] theorem setLeaf_nodes (s : FactStore Leaf) (p key : Bytes) (leaf : Leaf) :
    (s.setLeaf p key leaf).nodes = s.nodes := rfl

@[simp] theorem setLeaf_leaves (s : FactStore Leaf) (p key p' k : Bytes) (leaf : Leaf) :
    (s.setLeaf p key leaf).leaves p' k = if p' = p ∧ k = key then some leaf else s.leaves p' k :=
  rfl

/-- `read_node_fact`: the node fact stored under `key`; `get_or_fail` raises when there is none. -/
def readNodeFact (s : FactStore Leaf) (key : Bytes) : Except String MerkleNodeFact :=
  match s.nodes key with
  | some fact => .ok fact
  | none => .error "MerkleNodeFact does not exist in storage."

theorem readNodeFact_eq_ok {s : FactStore Leaf} {key : Bytes} {fact : MerkleNodeFact} :
    s.readNodeFact key = .ok fact ↔ s.nodes key = some fact := by
  unfold readNodeFact
  split <;> simp_all

/-- `s'` keeps every node entry of `s` and fills every leaf key `s` fills. -/
structure Extends (s s' : FactStore Leaf) : Prop where
  nodes : ∀ {k fact}, s.nodes k = some fact → s'.nodes k = some fact
  leaves : ∀ {p k leaf}, s.leaves p k = some leaf → ∃ leaf', s'.leaves p k = some leaf'

@[refl] theorem Extends.refl (s : FactStore Leaf) : Extends s s :=
  ⟨id, fun h => ⟨_, h⟩⟩

theorem Extends.trans {s₁ s₂ s₃ : FactStore Leaf} (h₁ : Extends s₁ s₂) (h₂ : Extends s₂ s₃) :
    Extends s₁ s₃ :=
  ⟨fun h => h₂.nodes (h₁.nodes h), fun h => (h₁.leaves h).elim fun _ h' => h₂.leaves h'⟩

theorem extends_setLeaf (s : FactStore Leaf) (p key : Bytes) (leaf : Leaf) :
    Extends s (s.setLeaf p key leaf) := by
  refine ⟨fun h => h, fun {p' k l} h => ?_⟩
  simp only [setLeaf_leaves]
  split_ifs
  · exact ⟨_, rfl⟩
  · exact ⟨_, h⟩

variable [LeafFact Leaf] (hashFunc : HashFunc)

/-- `write_node_fact`: store the fact under its hash and return the hash. -/
def writeNodeFact (s : FactStore Leaf) (fact : MerkleNodeFact) : Bytes × FactStore Leaf :=
  (fact.hash hashFunc, s.setNode (fact.hash hashFunc) fact)

/-- `LeafFact.set_fact`: store the leaf under its prefix and hash and return the hash. -/
def setFact (s : FactStore Leaf) (leaf : Leaf) : Bytes × FactStore Leaf :=
  (LeafFact.hash hashFunc leaf, s.setLeaf (LeafFact.dbPrefix leaf) (LeafFact.hash hashFunc leaf) leaf)

/-- Every fact is stored under its own hash. -/
structure ContentAddressed (s : FactStore Leaf) : Prop where
  node_hash : ∀ {k fact}, s.nodes k = some fact → fact.hash hashFunc = k
  leaf_hash : ∀ {p k leaf}, s.leaves p k = some leaf →
    LeafFact.dbPrefix leaf = p ∧ LeafFact.hash hashFunc leaf = k

theorem contentAddressed_empty : (empty : FactStore Leaf).ContentAddressed hashFunc :=
  ⟨fun h => (by cases h), fun h => (by cases h)⟩

variable {hashFunc}

theorem ContentAddressed.setNode {s : FactStore Leaf} (hs : s.ContentAddressed hashFunc)
    (fact : MerkleNodeFact) : (s.setNode (fact.hash hashFunc) fact).ContentAddressed hashFunc := by
  refine ⟨fun {k f} h => ?_, fun h => hs.leaf_hash h⟩
  simp only [setNode_nodes] at h
  split_ifs at h with hk
  · cases h; exact hk.symm
  · exact hs.node_hash h

theorem ContentAddressed.setLeaf {s : FactStore Leaf} (hs : s.ContentAddressed hashFunc)
    (leaf : Leaf) :
    (s.setLeaf (LeafFact.dbPrefix leaf) (LeafFact.hash hashFunc leaf) leaf).ContentAddressed
      hashFunc := by
  refine ⟨fun h => hs.node_hash h, fun {p k l} h => ?_⟩
  simp only [setLeaf_leaves] at h
  split_ifs at h with hk
  · cases h; exact ⟨hk.1.symm, hk.2.symm⟩
  · exact hs.leaf_hash h

/-- With an injective `hash_func`, a node write on a content-addressed store keeps every entry. -/
theorem extends_setNode (hinj : Function.Injective2 hashFunc) {s : FactStore Leaf}
    (hs : s.ContentAddressed hashFunc) (fact : MerkleNodeFact) :
    Extends s (s.setNode (fact.hash hashFunc) fact) := by
  refine ⟨fun {k f} h => ?_, fun h => ⟨_, h⟩⟩
  simp only [setNode_nodes]
  split_ifs with hk
  · have hf := hs.node_hash h
    obtain ⟨hl, hr⟩ := hinj (hf.trans hk)
    rw [← h]; cases f; cases fact; simp_all
  · exact h

end FactStore

end AvailabilityCommittee
