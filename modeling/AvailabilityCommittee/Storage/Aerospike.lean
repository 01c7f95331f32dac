import AvailabilityCommittee.Storage.Bytes
import Mathlib.Data.Finset.Card

/-! # The bucketed Aerospike storage

`AerospikeLayeredStorage` keeps the key `k` in the record `get_bucket_key(k)` (the low
`index_bits` bits of `sha1(k)`), as an entry of that record's map bin `"value"`.  The client is
modelled as records keyed by record key, each holding that map; a write policy with
`exists=CREATE` refuses the write when the record exists, whatever keys its map holds.

* `sync_set` is `map_put` with the caller's policy and answers `False` on `RecordExistsError`;
  `set_value` uses `exists=IGNORE`, `setnx_value` uses `exists=CREATE`.
* `sync_get` is `map_get_by_key`, `sync_del` is `map_remove_by_key`; a missing record reads as no
  value.

The specification is a flat map from key to value (`FlatStorage`).  The bucketed store reads
through `view` (the value of `k` in the map of its bucket):

* `runLayered_eq_runFlat`: for every sequence of `set_value`, `get_value` and `del_value` calls,
  whatever keys share buckets, the bucketed store answers as the flat map and its view is the
  flat map;
* `setnxValue_iff`: `setnx_value(k, v)` succeeds, and stores `v`, exactly when the bucket of `k` has
  no record, not when `k` has no value;
* `setnxValue_shared_bucket`: so after `set_value` of one key, `setnx_value` of another key of the
  same bucket answers `False` and stores nothing, where the flat map answers `True`.

The calls themselves belong to the base class `AerospikeThreadedStorageBase`, over the `sync_*`
methods of an implementation (`SyncMethods`); `AerospikeStorage` keeps one record per key
(`AerospikeRecords`), so its `exists=CREATE` applies to the key:

* `AerospikeStorage.run_eq_runFlat`: the flat store answers every sequence of calls, `setnx_value`
  included, as the flat map of its records;
* `AerospikeLayeredStorage.methods_idempotent`, `AerospikeStorage.methods_idempotent`: on both
  stores, every call made twice leaves the client as made once.

`setnxValue_collision` puts the divergence under the bucket key of `get_bucket_key`: whatever
`sha1` and `index_bits`, among any `2 ^ index_bits + 1` distinct keys two share a bucket, and
`setnx_value` of one answers `False` after `set_value` of the other. -/

namespace AvailabilityCommittee

/-- The client errors the storage catches. -/
inductive AerospikeError where
  /-- `RecordExistsError`. -/
  | recordExists
  /-- `RecordNotFound`. -/
  | recordNotFound
deriving DecidableEq, Repr

/-- The `exists` field of a write policy. -/
inductive ExistsPolicy where
  /-- `POLICY_EXISTS_IGNORE`: write whether the record exists or not. -/
  | ignore
  /-- `POLICY_EXISTS_CREATE`: refuse to write an existing record. -/
  | create
deriving DecidableEq, Repr

/-- The records of the set, by record key; a record is its map bin `"value"`. -/
structure AerospikeClient where
  records : Bytes → Option (Bytes → Option Bytes)

namespace AerospikeClient

/-- No records. -/
def empty : AerospikeClient := ⟨fun _ => none⟩

/-- The record `recordKey` replaced by `record`. -/
def setRecord (c : AerospikeClient) (recordKey : Bytes) (record : Bytes → Option Bytes) :
    AerospikeClient :=
  ⟨fun r => if r = recordKey then some record else c.records r⟩

/-- `client.map_put(record_key, "value", key, value, policy)`: the policy applies to the
record. -/
def mapPut (c : AerospikeClient) (recordKey key value : Bytes) (policy : ExistsPolicy) :
    Except AerospikeError AerospikeClient :=
  match c.records recordKey, policy with
  | some _, .create => .error .recordExists
  | record, _ => .ok (c.setRecord recordKey
      fun k => if k = key then some value else (record.getD fun _ => none) k)

/-- `client.map_get_by_key(record_key, "value", key, MAP_RETURN_KEY_VALUE)`. -/
def mapGetByKey (c : AerospikeClient) (recordKey key : Bytes) :
    Except AerospikeError (List (Bytes × Bytes)) :=
  match c.records recordKey with
  | none => .error .recordNotFound
  | some record => .ok ((record key).toList.map (key, ·))

/-- `client.map_remove_by_key(record_key, "value", key, MAP_RETURN_KEY_VALUE)`: the removed
pairs. -/
def mapRemoveByKey (c : AerospikeClient) (recordKey key : Bytes) :
    Except AerospikeError (List (Bytes × Bytes) × AerospikeClient) :=
  match c.records recordKey with
  | none => .error .recordNotFound
  | some record => .ok ((record key).toList.map (key, ·),
      c.setRecord recordKey fun k => if k = key then none else record k)

theorem mapPut_ignore (c : AerospikeClient) (recordKey key value : Bytes) :
    c.mapPut recordKey key value .ignore = .ok (c.setRecord recordKey
      fun k => if k = key then some value else (c.records recordKey).bind (· k)) := by
  unfold mapPut
  cases c.records recordKey <;> rfl

theorem mapPut_create (c : AerospikeClient) (recordKey key value : Bytes) :
    c.mapPut recordKey key value .create = match c.records recordKey with
      | some _ => .error .recordExists
      | none => .ok (c.setRecord recordKey fun k => if k = key then some value else none) := by
  unfold mapPut
  cases c.records recordKey <;> rfl

end AerospikeClient

/-- A call of the storage interface. -/
inductive StorageCall where
  /-- `set_value(key, value)`. -/
  | setValue (key value : Bytes)
  /-- `setnx_value(key, value)`. -/
  | setnxValue (key value : Bytes)
  /-- `get_value(key)`. -/
  | getValue (key : Bytes)
  /-- `del_value(key)`. -/
  | delValue (key : Bytes)
deriving DecidableEq, Repr

/-- What a call returns. -/
inductive Answer where
  | none
  | bool (b : Bool)
  | value (v : Option Bytes)
deriving DecidableEq, Repr

/-! ### The flat specification -/

/-- The contract of the storage: a flat map from key to value. -/
abbrev FlatStorage := Bytes → Option Bytes

namespace FlatStorage

/-- `key` set to `value`. -/
def set (s : FlatStorage) (key : Bytes) (value : Option Bytes) : FlatStorage :=
  fun k => if k = key then value else s k

/-- One call on the flat map: `set_if_absent` writes exactly when the key has no value. -/
def step (s : FlatStorage) : StorageCall → Answer × FlatStorage
  | .setValue key value => (.none, s.set key (some value))
  | .setnxValue key value =>
    if s key = none then (.bool true, s.set key (some value)) else (.bool false, s)
  | .getValue key => (.value (s key), s)
  | .delValue key => (.bool (s key).isSome, s.set key none)

/-- The answers of a sequence of calls on the flat map. -/
def run : FlatStorage → List StorageCall → List Answer × FlatStorage
  | s, [] => ([], s)
  | s, call :: calls =>
    let (answer, s') := s.step call
    let (answers, s'') := run s' calls
    (answer :: answers, s'')

end FlatStorage

namespace AerospikeLayeredStorage

open AerospikeClient

/-! ### Executable definitions

`bucketKey` is `get_bucket_key`; `sha1` is outside the repository, so it is any function. -/

variable (bucketKey : Bytes → Bytes)

/-- `AerospikeLayeredStorage.sync_set`. -/
def syncSet (c : AerospikeClient) (key value : Bytes) (policy : ExistsPolicy) :
    Bool × AerospikeClient :=
  match c.mapPut (bucketKey key) key value policy with
  | .ok c' => (true, c')
  | .error _ => (false, c)

/-- `AerospikeLayeredStorage.sync_get`. -/
def syncGet (c : AerospikeClient) (key : Bytes) : Option Bytes :=
  match c.mapGetByKey (bucketKey key) key with
  | .ok [] => none
  | .ok ((_, value) :: _) => some value
  | .error _ => none

/-- `AerospikeLayeredStorage.sync_del`. -/
def syncDel (c : AerospikeClient) (key : Bytes) : Bool × AerospikeClient :=
  match c.mapRemoveByKey (bucketKey key) key with
  | .ok (removed, c') => (decide (0 < removed.length), c')
  | .error _ => (false, c)

/-- One call on the bucketed store. -/
def step (c : AerospikeClient) : StorageCall → Answer × AerospikeClient
  | .setValue key value => (.none, (syncSet bucketKey c key value .ignore).2)
  | .setnxValue key value =>
    let (written, c') := syncSet bucketKey c key value .create
    (.bool written, c')
  | .getValue key => (.value (syncGet bucketKey c key), c)
  | .delValue key =>
    let (removed, c') := syncDel bucketKey c key
    (.bool removed, c')

/-- The answers of a sequence of calls on the bucketed store. -/
def runLayered : AerospikeClient → List StorageCall → List Answer × AerospikeClient
  | c, [] => ([], c)
  | c, call :: calls =>
    let (answer, c') := step bucketKey c call
    let (answers, c'') := runLayered c' calls
    (answer :: answers, c'')

/-- The value the bucketed store holds for `key`: its entry in the map of its bucket. -/
def view (c : AerospikeClient) : FlatStorage :=
  fun key => (c.records (bucketKey key)).bind (· key)

end AerospikeLayeredStorage

namespace AerospikeLayeredStorage

open AerospikeClient

variable {bucketKey : Bytes → Bytes}

/-! ### One call -/

theorem view_setRecord (c : AerospikeClient) (r : Bytes) (record : Bytes → Option Bytes)
    (key : Bytes) :
    view bucketKey (c.setRecord r record) key =
      if bucketKey key = r then record key else view bucketKey c key := by
  unfold view setRecord
  split_ifs with h <;> simp [h]

/-- Writing `key` into its bucket changes the view at `key` only. -/
theorem view_put (c : AerospikeClient) (key value : Bytes) (record : Bytes → Option Bytes)
    (hrecord : ∀ k, k ≠ key → bucketKey k = bucketKey key → record k = view bucketKey c k) :
    view bucketKey (c.setRecord (bucketKey key)
        fun k => if k = key then some value else record k) =
      (view bucketKey c).set key (some value) := by
  funext k
  rw [view_setRecord, FlatStorage.set]
  by_cases hk : k = key
  · simp [hk]
  · split_ifs with hb
    · exact hrecord k hk hb
    · rfl

/-- `set_value` sets the key and no other. -/
theorem view_setValue (c : AerospikeClient) (key value : Bytes) :
    view bucketKey (step bucketKey c (.setValue key value)).2 =
      (view bucketKey c).set key (some value) := by
  simp only [step, syncSet, mapPut_ignore]
  exact view_put c key value _ fun k _ hb => by simp [view, hb]

/-- `get_value` reads the view. -/
theorem step_getValue (c : AerospikeClient) (key : Bytes) :
    step bucketKey c (.getValue key) = (.value (view bucketKey c key), c) := by
  simp only [step, syncGet, mapGetByKey, view]
  rcases c.records (bucketKey key) with _ | record
  · rfl
  · cases hk : record key <;> simp [hk]

/-- `del_value` answers whether the key had a value and removes it, and no other key. -/
theorem step_delValue (c : AerospikeClient) (key : Bytes) :
    (step bucketKey c (.delValue key)).1 = .bool (view bucketKey c key).isSome ∧
      view bucketKey (step bucketKey c (.delValue key)).2 = (view bucketKey c).set key none := by
  simp only [step, syncDel, mapRemoveByKey]
  rcases hr : c.records (bucketKey key) with _ | record
  · refine ⟨by simp [view, hr], funext fun k => ?_⟩
    by_cases hk : k = key
    · subst hk; simp [view, hr, FlatStorage.set]
    · simp [FlatStorage.set, hk]
  · refine ⟨by cases h : record key <;> simp [view, hr, h], funext fun k => ?_⟩
    rw [view_setRecord, FlatStorage.set]
    by_cases hk : k = key
    · simp [hk]
    · split_ifs with hb
      · simp [view, hb, hr, hk]
      · rfl

/-! ### Whole runs -/

/-- A sequence without `setnx_value`. -/
def NoSetnx : List StorageCall → Prop
  | [] => True
  | .setnxValue _ _ :: _ => False
  | _ :: calls => NoSetnx calls

/-- For every sequence of `set_value`, `get_value` and `del_value` calls, whatever keys share
buckets, the bucketed store answers as the flat map it views, and keeps viewing the flat map's
state. -/
theorem runLayered_eq_runFlat :
    ∀ (calls : List StorageCall) (c : AerospikeClient), NoSetnx calls →
      (runLayered bucketKey c calls).1 = (FlatStorage.run (view bucketKey c) calls).1 ∧
        view bucketKey (runLayered bucketKey c calls).2 =
          (FlatStorage.run (view bucketKey c) calls).2
  | [], _, _ => ⟨rfl, rfl⟩
  | .setValue key value :: calls, c, h => by
    have ih := runLayered_eq_runFlat calls (step bucketKey c (.setValue key value)).2 h
    rw [view_setValue] at ih
    exact ⟨congrArg (Answer.none :: ·) ih.1, ih.2⟩
  | .getValue key :: calls, c, h => by
    have ih := runLayered_eq_runFlat calls c h
    simp only [runLayered, step_getValue, FlatStorage.run, FlatStorage.step]
    exact ⟨congrArg _ ih.1, ih.2⟩
  | .delValue key :: calls, c, h => by
    obtain ⟨h1, h2⟩ : (step bucketKey c (.delValue key)).1 = _ ∧ _ := step_delValue c key
    have ih := runLayered_eq_runFlat calls (step bucketKey c (.delValue key)).2 h
    rw [h2] at ih
    simp only [runLayered, FlatStorage.run, FlatStorage.step]
    exact ⟨by rw [← h1, ← ih.1], ih.2⟩
  | .setnxValue _ _ :: _, _, h => h.elim

/-- The theorem on `set_value`, `get_value`, `del_value` of two keys in one bucket. -/
theorem runLayered_eq_runFlat_one_bucket :
    (runLayered (fun _ => [0]) AerospikeClient.empty
        [.setValue [1] [5], .setValue [2] [6], .delValue [1], .getValue [2], .getValue [1]]).1 =
      (FlatStorage.run (view (fun _ => [0]) AerospikeClient.empty)
        [.setValue [1] [5], .setValue [2] [6], .delValue [1], .getValue [2], .getValue [1]]).1 ∧
    view (fun _ => [0]) (runLayered (fun _ => [0]) AerospikeClient.empty
        [.setValue [1] [5], .setValue [2] [6], .delValue [1], .getValue [2], .getValue [1]]).2 =
      (FlatStorage.run (view (fun _ => [0]) AerospikeClient.empty)
        [.setValue [1] [5], .setValue [2] [6], .delValue [1], .getValue [2], .getValue [1]]).2 :=
  runLayered_eq_runFlat _ _ trivial

/-- The divergence: with every key in one bucket (the bucket key of `index_bits = 0`),
`setnx_value` of a key with no value answers `False` after `set_value` of another key, where the
flat map answers `True`. -/
theorem setnxValue_shared_bucket :
    (runLayered (fun _ => [0, 0, 0, 0, 0, 0, 0, 0]) AerospikeClient.empty
        [.setValue [1] [5], .setnxValue [2] [6], .getValue [2]]).1 =
      [.none, .bool false, .value none] ∧
    (FlatStorage.run (fun _ => none) [.setValue [1] [5], .setnxValue [2] [6], .getValue [2]]).1 =
      [.none, .bool true, .value (some [6])] := by
  constructor <;> decide

end AerospikeLayeredStorage

namespace FlatStorage

@[simp] theorem set_apply (s : FlatStorage) (key : Bytes) (value : Option Bytes) (k : Bytes) :
    s.set key value k = if k = key then value else s k := rfl

@[simp] theorem set_set (s : FlatStorage) (key : Bytes) (value value' : Option Bytes) :
    (s.set key value).set key value' = s.set key value' := by
  funext k; simp only [set_apply]; split_ifs <;> rfl

theorem set_self (s : FlatStorage) (key : Bytes) : s.set key (s key) = s := by
  funext k; simp only [set_apply]; split_ifs with h <;> simp [h]

end FlatStorage

/-! ### The base class and the flat store -/

/-- The `sync_*` methods an implementation of `AerospikeThreadedStorageBase` supplies, over the
state `σ` of its client. -/
structure SyncMethods (σ : Type) where
  syncSet : σ → Bytes → Bytes → ExistsPolicy → Bool × σ
  syncGet : σ → Bytes → Option Bytes
  syncDel : σ → Bytes → Bool × σ

namespace SyncMethods

variable {σ : Type}

/-- `setnx_value`, `set_value`, `get_value` and `del_value` of `AerospikeThreadedStorageBase`:
`setnx_value` passes the write policy `exists=CREATE`, `set_value` the policy `exists=IGNORE`. -/
def step (m : SyncMethods σ) (s : σ) : StorageCall → Answer × σ
  | .setValue key value => (.none, (m.syncSet s key value .ignore).2)
  | .setnxValue key value =>
    let (written, s') := m.syncSet s key value .create
    (.bool written, s')
  | .getValue key => (.value (m.syncGet s key), s)
  | .delValue key =>
    let (removed, s') := m.syncDel s key
    (.bool removed, s')

/-- The answers of a sequence of calls. -/
def run (m : SyncMethods σ) : σ → List StorageCall → List Answer × σ
  | s, [] => ([], s)
  | s, call :: calls =>
    let (answer, s') := m.step s call
    let (answers, s'') := m.run s' calls
    (answer :: answers, s'')

/-- A run simulates the flat map when each call does: each answers as the flat map `flat s` of
the state and leaves a state whose flat map is the flat map's. -/
theorem run_simulates (m : SyncMethods σ) (flat : σ → FlatStorage)
    (h : ∀ s call, (m.step s call).1 = ((flat s).step call).1 ∧
      flat (m.step s call).2 = ((flat s).step call).2) :
    ∀ (calls : List StorageCall) (s : σ), (m.run s calls).1 = (FlatStorage.run (flat s) calls).1 ∧
      flat (m.run s calls).2 = (FlatStorage.run (flat s) calls).2
  | [], _ => ⟨rfl, rfl⟩
  | call :: calls, s => by
    have ih := run_simulates m flat h calls (m.step s call).2
    rw [(h s call).2] at ih
    simp only [run, FlatStorage.run]
    exact ⟨by rw [(h s call).1, ih.1], ih.2⟩

end SyncMethods

/-- The `sync_*` methods of `AerospikeLayeredStorage`. -/
def AerospikeLayeredStorage.methods (bucketKey : Bytes → Bytes) : SyncMethods AerospikeClient :=
  ⟨syncSet bucketKey, syncGet bucketKey, syncDel bucketKey⟩

theorem AerospikeLayeredStorage.step_eq_methods (bucketKey : Bytes → Bytes) (c : AerospikeClient)
    (call : StorageCall) : step bucketKey c call = (methods bucketKey).step c call := by
  cases call <;> rfl

/-- The records of the set `AerospikeStorage` writes, by key: each is its bin `"value"`. -/
structure AerospikeRecords where
  records : FlatStorage

namespace AerospikeRecords

/-- `client.put(key, {"value": value}, policy)`. -/
def put (c : AerospikeRecords) (key value : Bytes) (policy : ExistsPolicy) :
    Except AerospikeError AerospikeRecords :=
  match c.records key, policy with
  | some _, .create => .error .recordExists
  | _, _ => .ok ⟨c.records.set key (some value)⟩

/-- `client.get(key)`: the bin `"value"` of the record. -/
def get (c : AerospikeRecords) (key : Bytes) : Except AerospikeError Bytes :=
  match c.records key with
  | none => .error .recordNotFound
  | some value => .ok value

/-- `client.remove(key)`. -/
def remove (c : AerospikeRecords) (key : Bytes) : Except AerospikeError AerospikeRecords :=
  match c.records key with
  | none => .error .recordNotFound
  | some _ => .ok ⟨c.records.set key none⟩

end AerospikeRecords

namespace AerospikeStorage

/-- `AerospikeStorage.sync_set`. -/
def syncSet (c : AerospikeRecords) (key value : Bytes) (policy : ExistsPolicy) :
    Bool × AerospikeRecords :=
  match c.put key value policy with
  | .ok c' => (true, c')
  | .error _ => (false, c)

/-- `AerospikeStorage.sync_get`. -/
def syncGet (c : AerospikeRecords) (key : Bytes) : Option Bytes :=
  match c.get key with
  | .ok value => some value
  | .error _ => none

/-- `AerospikeStorage.sync_del`. -/
def syncDel (c : AerospikeRecords) (key : Bytes) : Bool × AerospikeRecords :=
  match c.remove key with
  | .ok c' => (true, c')
  | .error _ => (false, c)

/-- The `sync_*` methods of `AerospikeStorage`. -/
def methods : SyncMethods AerospikeRecords := ⟨syncSet, syncGet, syncDel⟩

/-- One call on the flat store is the call on the flat map of its records. -/
theorem step_eq_flat (c : AerospikeRecords) (call : StorageCall) :
    methods.step c call =
      ((c.records.step call).1, ⟨(c.records.step call).2⟩) := by
  cases call with
  | setValue key value =>
    simp only [SyncMethods.step, methods, syncSet, AerospikeRecords.put, FlatStorage.step]
    cases c.records key <;> rfl
  | setnxValue key value =>
    simp only [SyncMethods.step, methods, syncSet, AerospikeRecords.put, FlatStorage.step]
    cases h : c.records key <;> simp
  | getValue key =>
    simp only [SyncMethods.step, methods, syncGet, AerospikeRecords.get, FlatStorage.step]
    cases c.records key <;> rfl
  | delValue key =>
    simp only [SyncMethods.step, methods, syncDel, AerospikeRecords.remove, FlatStorage.step]
    cases h : c.records key
    · simp only [Option.isSome_none, Prod.mk.injEq, true_and]
      rw [← h, FlatStorage.set_self]
    · rfl

/-- The flat store meets the contract: for every sequence of calls, `setnx_value` included, it
answers as the flat map of its records and its records follow the flat map. -/
theorem run_eq_runFlat (calls : List StorageCall) (c : AerospikeRecords) :
    (methods.run c calls).1 = (FlatStorage.run c.records calls).1 ∧
      (methods.run c calls).2.records = (FlatStorage.run c.records calls).2 :=
  methods.run_simulates AerospikeRecords.records (fun c call => by rw [step_eq_flat]; exact ⟨rfl, rfl⟩)
    calls c

end AerospikeStorage

/-! ### Calls made twice -/

namespace AerospikeClient

@[simp] theorem setRecord_records_self (c : AerospikeClient) (r : Bytes)
    (record : Bytes → Option Bytes) : (c.setRecord r record).records r = some record :=
  if_pos rfl

@[simp] theorem setRecord_setRecord (c : AerospikeClient) (r : Bytes)
    (record record' : Bytes → Option Bytes) :
    (c.setRecord r record).setRecord r record' = c.setRecord r record' := by
  unfold setRecord
  congr 1
  funext r'
  by_cases h : r' = r <;> simp [h]

end AerospikeClient

/-- Every call leaves the client as it leaves it when made twice. -/
def SyncMethods.Idempotent {σ : Type} (m : SyncMethods σ) : Prop :=
  ∀ s call, (m.step (m.step s call).2 call).2 = (m.step s call).2

open AerospikeClient in
theorem AerospikeLayeredStorage.methods_idempotent (bucketKey : Bytes → Bytes) :
    (methods bucketKey).Idempotent := by
  intro c call
  cases call with
  | setValue key value =>
    simp only [SyncMethods.step, methods, syncSet, mapPut_ignore, setRecord_records_self,
      Option.some_bind, setRecord_setRecord]
    congr 2
    funext k
    split_ifs <;> rfl
  | setnxValue key value =>
    simp only [SyncMethods.step, methods, syncSet, mapPut_create]
    cases h : c.records (bucketKey key) <;> simp [h]
  | getValue key => rfl
  | delValue key =>
    simp only [SyncMethods.step, methods, syncDel, mapRemoveByKey]
    cases h : c.records (bucketKey key) with
    | none => simp [h]
    | some record =>
      simp only [setRecord_records_self, setRecord_setRecord]
      congr 2
      funext k
      split_ifs <;> rfl

theorem FlatStorage.step_idempotent (s : FlatStorage) (call : StorageCall) :
    ((s.step call).2.step call).2 = (s.step call).2 := by
  cases call with
  | setValue key value => exact set_set s key _ _
  | setnxValue key value => by_cases h : s key = none <;> simp [step, h]
  | getValue key => rfl
  | delValue key => exact set_set s key _ _

theorem AerospikeStorage.methods_idempotent : methods.Idempotent := by
  intro c call
  simp only [step_eq_flat, FlatStorage.step_idempotent]

/-! ### Bucket keys -/

namespace AerospikeLayeredStorage

open AerospikeClient

/-- `AerospikeLayeredStorage.get_bucket_key`: the low `index_bits` bits of `sha1(key)` read little
endian, written as 8 little-endian bytes (the byte lists reversed around the big-endian
`from_bytes` and `to_bytes`). -/
def getBucketKey (sha1 : Bytes → Bytes) (indexBits : Nat) (key : Bytes) : Except String Bytes :=
  let x := fromBytes (sha1 key).reverse
  List.reverse <$> toBytes (x &&& ((1 <<< indexBits) - 1) : Nat) 8

theorem getBucketKey_eq (sha1 : Bytes → Bytes) (indexBits : Nat) (key : Bytes) :
    getBucketKey sha1 indexBits key =
      List.reverse <$> toBytes (fromBytes (sha1 key).reverse % 2 ^ indexBits : Nat) 8 := by
  rw [getBucketKey, Nat.shiftLeft_eq, one_mul, Nat.and_pow_two_sub_one_eq_mod]

variable {bucketKey : Bytes → Bytes}

theorem step_setValue_records (c : AerospikeClient) (key value : Bytes) :
    (step bucketKey c (.setValue key value)).2.records (bucketKey key) ≠ none := by
  simp [step, syncSet, mapPut_ignore]

theorem step_setnxValue_of_records {c : AerospikeClient} {key : Bytes}
    (h : c.records (bucketKey key) ≠ none) (value : Bytes) :
    step bucketKey c (.setnxValue key value) = (.bool false, c) := by
  obtain ⟨record, hr⟩ := Option.ne_none_iff_exists'.mp h
  simp [step, syncSet, mapPut_create, hr]

/-- The divergence of `setnx_value` happens with the bucket key of `get_bucket_key`, whatever
`sha1` and `index_bits`: any more than `2 ^ index_bits` distinct keys hold two keys `k₁ ≠ k₂`
such that, from every client, `set_value(k₁)` leaves the value of `k₂` as it was and then
`setnx_value(k₂)` answers `False` and writes nothing, even where `k₂` has no value. -/
theorem setnxValue_collision (sha1 : Bytes → Bytes) (indexBits : Nat)
    (hbucket : ∀ key, getBucketKey sha1 indexBits key = .ok (bucketKey key))
    (keys : List Bytes) (hnodup : keys.Nodup) (hkeys : 2 ^ indexBits < keys.length) :
    ∃ k₁ ∈ keys, ∃ k₂ ∈ keys, k₁ ≠ k₂ ∧ ∀ (c : AerospikeClient) (v₁ v₂ : Bytes),
      view bucketKey (step bucketKey c (.setValue k₁ v₁)).2 k₂ = view bucketKey c k₂ ∧
        step bucketKey (step bucketKey c (.setValue k₁ v₁)).2 (.setnxValue k₂ v₂) =
          (.bool false, (step bucketKey c (.setValue k₁ v₁)).2) := by
  have hcard : (Finset.range (2 ^ indexBits)).card < keys.toFinset.card := by
    rwa [Finset.card_range, List.toFinset_card_of_nodup hnodup]
  have hmaps : ∀ k ∈ keys.toFinset,
      fromBytes (sha1 k).reverse % 2 ^ indexBits ∈ Finset.range (2 ^ indexBits) :=
    fun _ _ => Finset.mem_range.mpr (Nat.mod_lt _ (by positivity))
  obtain ⟨k₁, h₁, k₂, h₂, hne, hmod⟩ := Finset.exists_ne_map_eq_of_card_lt_of_maps_to hcard hmaps
  have hsame : bucketKey k₂ = bucketKey k₁ := Except.ok.inj <| by
    rw [← hbucket, ← hbucket, getBucketKey_eq, getBucketKey_eq, hmod]
  refine ⟨k₁, List.mem_toFinset.mp h₁, k₂, List.mem_toFinset.mp h₂, hne, fun c v₁ v₂ => ⟨?_, ?_⟩⟩
  · rw [view_setValue, FlatStorage.set, if_neg (Ne.symm hne)]
  · exact step_setnxValue_of_records (by rw [hsame]; exact step_setValue_records c k₁ v₁) v₂

/-- The theorem with `index_bits = 0`, where every key has the bucket key `0`. -/
theorem setnxValue_collision_one_bucket :
    (∀ key, getBucketKey (fun _ => []) 0 key = .ok [0, 0, 0, 0, 0, 0, 0, 0]) ∧
    [[1], [2]].Nodup ∧ 2 ^ 0 < [[1], [2]].length ∧
    ∃ k₁ ∈ [[1], [2]], ∃ k₂ ∈ [[1], [2]], k₁ ≠ k₂ ∧ ∀ (c : AerospikeClient) (v₁ v₂ : Bytes),
      view (fun _ => [0, 0, 0, 0, 0, 0, 0, 0])
          (step (fun _ => [0, 0, 0, 0, 0, 0, 0, 0]) c (.setValue k₁ v₁)).2 k₂ =
        view (fun _ => [0, 0, 0, 0, 0, 0, 0, 0]) c k₂ ∧
      step (fun _ => [0, 0, 0, 0, 0, 0, 0, 0])
          (step (fun _ => [0, 0, 0, 0, 0, 0, 0, 0]) c (.setValue k₁ v₁)).2 (.setnxValue k₂ v₂) =
        (.bool false, (step (fun _ => [0, 0, 0, 0, 0, 0, 0, 0]) c (.setValue k₁ v₁)).2) :=
  have hbucket : ∀ key, getBucketKey (fun _ => []) 0 key = .ok [0, 0, 0, 0, 0, 0, 0, 0] :=
    fun _ => by
      rw [getBucketKey_eq, pow_zero, Nat.mod_one, toBytes_of_lt (by norm_num) (by norm_num)]
      rfl
  ⟨hbucket, by decide, by decide,
    setnxValue_collision (fun _ => []) 0 hbucket [[1], [2]] (by decide) (by decide)⟩

end AerospikeLayeredStorage

end AvailabilityCommittee
