import AvailabilityCommittee.Storage.Aerospike
import Mathlib.Logic.Function.Iterate

/-! # Retries on timeouts

`run_with_retry_on_timeouts(count, fail_value, reraise_on_fail)` decorates every `sync_*` method
of both Aerospike stores, with `count = RETRY_COUNT`: `sync_set` and `sync_get` with
`reraise_on_fail=True`, `sync_del` with `fail_value=False`.  A timeout does not say whether the
server applied the call, so the fate of each attempt is an input (`Attempt`), and every theorem
holds for every list of fates, of any length `count`.

* `retryOnTimeouts_snd`, `retryOnTimeouts_fst`: the wrapper leaves the effect of the call once for
  each applied attempt, and answers as the first delivered attempt;
* `SyncMethods.retriedStep_eq_error_iff`: a retried call raises exactly when it is not
  `del_value` and all of its attempts timed out, so a timed-out `del_value` never surfaces;
* `AerospikeLayeredStorage.retriedStep_atMostOnce`: every call of the bucketed store is safe to
  retry, it acts as at most one attempt;
* `AerospikeStorage.retriedRun_records`: whatever the timeouts, the flat store holds the flat
  map's state after the calls the server applied;
* `AerospikeStorage.retriedSetnx_iff`: but `setnx_value` answers `True` only when no earlier
  attempt was applied, so a lost answer makes it answer `False` although it wrote the value. -/

namespace AvailabilityCommittee

/-- How one attempt of a storage call fares: its answer comes back, or the client times out after
the server applied the call, or before the server received it. -/
inductive Attempt where
  /-- The call returned its answer. -/
  | delivered
  /-- `TimeoutError`, after the server applied the call. -/
  | timedOutApplied
  /-- `TimeoutError`, and the server never applied the call. -/
  | timedOutLost
deriving DecidableEq, Repr

/-- `run_with_retry_on_timeouts(count, fail_value, reraise_on_fail)` around `func`, its attempts
faring as `attempts`, one for each of the `count` iterations of the loop.  A delivered attempt
returns its answer; after a timeout the loop sleeps and tries again, except that the last attempt
re-raises the `TimeoutError` when `reraise_on_fail`; after `count` timeouts the call returns
`fail_value`.  An attempt the server applied leaves its effect, whether or not its answer came
back. -/
def retryOnTimeouts {σ α : Type} (func : σ → α × σ) (failValue : α) (reraiseOnFail : Bool) :
    List Attempt → σ → Except String α × σ
  | [], s => (.ok failValue, s)
  | .delivered :: _, s => (.ok (func s).1, (func s).2)
  | attempt :: rest, s =>
    let s' := if attempt = .timedOutApplied then (func s).2 else s
    if rest = [] ∧ reraiseOnFail = true then (.error "TimeoutError", s')
    else retryOnTimeouts func failValue reraiseOnFail rest s'

/-- How many attempts the server applied before the wrapper returned or raised: those up to the
first delivered one. -/
def appliedCount : List Attempt → Nat
  | [] => 0
  | .delivered :: _ => 1
  | .timedOutApplied :: rest => appliedCount rest + 1
  | .timedOutLost :: rest => appliedCount rest

theorem appliedCount_pos {attempts : List Attempt} (h : .delivered ∈ attempts) :
    0 < appliedCount attempts := by
  induction attempts with
  | nil => cases h
  | cons a rest ih =>
    cases a with
    | delivered => exact Nat.one_pos
    | timedOutApplied => exact Nat.succ_pos _
    | timedOutLost => exact ih (List.mem_of_ne_of_mem (by decide) h)

/-- The calls of which the server applied some attempt. -/
def appliedCalls (calls : List (StorageCall × List Attempt)) : List StorageCall :=
  (calls.filter fun call => 0 < appliedCount call.2).map Prod.fst

section Wrapper

variable {σ α : Type} (func : σ → α × σ) (failValue : α) (reraiseOnFail : Bool)

theorem appliedCount_cons {a : Attempt} (ha : a ≠ .delivered) (rest : List Attempt) :
    appliedCount (a :: rest) = appliedCount rest + appliedCount [a] := by
  cases a <;> first | exact absurd rfl ha | rfl

/-- A timed-out attempt: the store as the server left it, then a re-raise or the next attempt. -/
theorem retryOnTimeouts_timeout {a : Attempt} (ha : a ≠ .delivered) (rest : List Attempt) (s : σ) :
    retryOnTimeouts func failValue reraiseOnFail (a :: rest) s =
      if rest = [] ∧ reraiseOnFail = true then
        (.error "TimeoutError", (fun s => (func s).2)^[appliedCount [a]] s)
      else retryOnTimeouts func failValue reraiseOnFail rest ((fun s => (func s).2)^[appliedCount [a]] s) := by
  cases a <;> first | exact absurd rfl ha | rfl

/-- The wrapper leaves the effect of the wrapped call once for each attempt the server
applied. -/
theorem retryOnTimeouts_snd (attempts : List Attempt) (s : σ) :
    (retryOnTimeouts func failValue reraiseOnFail attempts s).2 =
      (fun s => (func s).2)^[appliedCount attempts] s := by
  induction attempts generalizing s with
  | nil => rfl
  | cons a rest ih =>
    by_cases ha : a = .delivered
    · subst ha; rfl
    rw [retryOnTimeouts_timeout func failValue reraiseOnFail ha, appliedCount_cons ha rest,
      Function.iterate_add_apply]
    split_ifs with h
    · rw [h.1]; rfl
    · exact ih _

/-- The wrapper answers as the first delivered attempt, made on the store the earlier attempts
left; with no delivered attempt it re-raises or returns `fail_value`. -/
theorem retryOnTimeouts_fst (attempts : List Attempt) (s : σ) :
    (retryOnTimeouts func failValue reraiseOnFail attempts s).1 =
      if .delivered ∈ attempts then
        .ok (func ((fun s => (func s).2)^[appliedCount attempts - 1] s)).1
      else if reraiseOnFail = true ∧ attempts ≠ [] then .error "TimeoutError"
      else .ok failValue := by
  induction attempts generalizing s with
  | nil => simp [retryOnTimeouts]
  | cons a rest ih =>
    by_cases ha : a = .delivered
    · subst ha; simp [retryOnTimeouts, appliedCount]
    rw [retryOnTimeouts_timeout func failValue reraiseOnFail ha, appliedCount_cons ha rest]
    simp only [List.mem_cons, Ne.symm ha, false_or, ne_eq, reduceCtorEq, not_false_eq_true,
      and_true]
    by_cases h : rest = [] ∧ reraiseOnFail = true
    · obtain ⟨rfl, hr⟩ := h
      simp [hr]
    rw [if_neg h, ih]
    by_cases hd : .delivered ∈ rest
    · rw [if_pos hd, if_pos hd, ← Function.iterate_add_apply,
        Nat.sub_add_comm (appliedCount_pos hd)]
    · rw [if_neg hd, if_neg hd]
      cases reraiseOnFail <;> simp_all

end Wrapper

/-! ### The decorated calls -/

namespace StorageCall

/-- `reraise_on_fail` of the decorator on the `sync_*` method the call runs: `sync_set` and
`sync_get` re-raise the last timeout, `sync_del` is decorated with `fail_value=False` alone. -/
def reraiseOnFail : StorageCall → Bool
  | .delValue _ => false
  | _ => true

/-- The call's answer when its method returns its `fail_value`: `None`, or `False` for
`sync_del`. -/
def failAnswer : StorageCall → Answer
  | .getValue _ => .value none
  | .delValue _ => .bool false
  | _ => .none

theorem reraiseOnFail_eq_true (call : StorageCall) :
    call.reraiseOnFail = true ↔ ∀ key, call ≠ .delValue key := by
  cases call <;> simp [reraiseOnFail]

end StorageCall

namespace SyncMethods

variable {σ : Type} (m : SyncMethods σ)

/-- A call whose `sync_*` method is decorated with `run_with_retry_on_timeouts(count=RETRY_COUNT,
...)`, its attempts faring as `attempts`.  The call maps the method's answer and does nothing
else, so retrying the method is retrying the call. -/
def retriedStep (attempts : List Attempt) (s : σ) (call : StorageCall) :
    Except String Answer × σ :=
  retryOnTimeouts (m.step · call) call.failAnswer call.reraiseOnFail attempts s

/-- Calls made one after another, each with the fate of its attempts; a call that raises does not
stop the next one. -/
def retriedRun : σ → List (StorageCall × List Attempt) → List (Except String Answer) × σ
  | s, [] => ([], s)
  | s, (call, attempts) :: calls =>
    let (answer, s') := m.retriedStep attempts s call
    let (answers, s'') := retriedRun s' calls
    (answer :: answers, s'')

section Idempotent

variable {m} (hm : m.Idempotent)
include hm

theorem iterate_step (n : Nat) (s : σ) (call : StorageCall) :
    (fun s => (m.step s call).2)^[n] s = if n = 0 then s else (m.step s call).2 := by
  cases n with
  | zero => rfl
  | succ n => rw [Function.iterate_succ_apply, Function.iterate_fixed (hm s call)]; rfl

/-- A retried call leaves the state as no attempt, or as one attempt, of the call leaves it. -/
theorem retriedStep_snd (attempts : List Attempt) (s : σ) (call : StorageCall) :
    (m.retriedStep attempts s call).2 =
      if 0 < appliedCount attempts then (m.step s call).2 else s := by
  rw [retriedStep, retryOnTimeouts_snd, iterate_step hm]
  split_ifs <;> first | rfl | omega

/-- A retried call answers as one attempt, made on the state as the call found it or as one
earlier attempt of it left it. -/
theorem retriedStep_fst (attempts : List Attempt) (s : σ) (call : StorageCall) :
    (m.retriedStep attempts s call).1 =
      if .delivered ∈ attempts then
        .ok (m.step (if appliedCount attempts = 1 then s else (m.step s call).2) call).1
      else if call.reraiseOnFail = true ∧ attempts ≠ [] then .error "TimeoutError"
      else .ok call.failAnswer := by
  rw [retriedStep, retryOnTimeouts_fst]
  split_ifs with hd h1 h0 <;> try rfl
  all_goals rw [iterate_step hm]
  · rw [if_pos (by omega)]
  · have := appliedCount_pos hd
    rw [if_neg (by omega)]

/-- A run of retried calls leaves the state as the calls of which the server applied an attempt,
each made once. -/
theorem retriedRun_snd : ∀ (calls : List (StorageCall × List Attempt)) (s : σ),
    (m.retriedRun s calls).2 = (m.run s (appliedCalls calls)).2
  | [], _ => rfl
  | (call, attempts) :: calls, s => by
    simp only [retriedRun, appliedCalls, List.filter_cons]
    rw [retriedRun_snd calls, retriedStep_snd hm]
    by_cases h : 0 < appliedCount attempts <;> simp [h, run, appliedCalls]

end Idempotent

end SyncMethods

/-! ### The two stores -/

namespace AerospikeLayeredStorage

/-- Retrying is safe on the bucketed store: whatever the fate of its attempts, a call leaves the
client as no attempt or one attempt of it leaves it, and answers, when it does not raise, as one
attempt made on the client as the call found it or as one earlier attempt left it. -/
theorem retriedStep_atMostOnce (bucketKey : Bytes → Bytes) (attempts : List Attempt)
    (c : AerospikeClient) (call : StorageCall) :
    ((methods bucketKey).retriedStep attempts c call).2 =
        (if 0 < appliedCount attempts then (step bucketKey c call).2 else c) ∧
      ((methods bucketKey).retriedStep attempts c call).1 =
        if .delivered ∈ attempts then
          .ok (step bucketKey (if appliedCount attempts = 1 then c else (step bucketKey c call).2)
            call).1
        else if call.reraiseOnFail = true ∧ attempts ≠ [] then .error "TimeoutError"
        else .ok call.failAnswer := by
  simp only [step_eq_methods]
  exact ⟨SyncMethods.retriedStep_snd (methods_idempotent bucketKey) attempts c call,
    SyncMethods.retriedStep_fst (methods_idempotent bucketKey) attempts c call⟩

end AerospikeLayeredStorage

namespace AerospikeStorage

/-- Whatever the timeouts, the records of the flat store are those the flat map holds after the
calls of which the server applied an attempt. -/
theorem retriedRun_records (calls : List (StorageCall × List Attempt)) (c : AerospikeRecords) :
    (methods.retriedRun c calls).2.records = (FlatStorage.run c.records (appliedCalls calls)).2 := by
  rw [SyncMethods.retriedRun_snd methods_idempotent]
  exact (methods.run_simulates AerospikeRecords.records
    (fun c call => by rw [step_eq_flat]; exact ⟨rfl, rfl⟩) _ c).2

/-- `setnx_value` on the flat store under timeouts: it answers `True` exactly when the key had no
record, an attempt was delivered and no earlier attempt was applied; it writes the value when the
key had no record and the server applied an attempt, so an attempt whose answer was lost makes the
call answer `False` (or raise) although it wrote the value. -/
theorem retriedSetnx_iff (attempts : List Attempt) (c : AerospikeRecords) (key value : Bytes) :
    ((methods.retriedStep attempts c (.setnxValue key value)).1 = .ok (.bool true) ↔
        c.records key = none ∧ .delivered ∈ attempts ∧ appliedCount attempts = 1) ∧
      (methods.retriedStep attempts c (.setnxValue key value)).2.records =
        if c.records key = none ∧ 0 < appliedCount attempts then c.records.set key (some value)
        else c.records := by
  rw [SyncMethods.retriedStep_fst methods_idempotent, SyncMethods.retriedStep_snd methods_idempotent]
  simp only [step_eq_flat, FlatStorage.step]
  refine ⟨?_, by split_ifs <;> simp_all⟩
  by_cases hd : .delivered ∈ attempts
  · by_cases h1 : appliedCount attempts = 1 <;> by_cases hk : c.records key = none <;>
      simp [hd, h1, hk]
  · simp only [if_neg hd, StorageCall.failAnswer]
    split_ifs <;> simp [hd]

example :
    (methods.retriedStep [.timedOutApplied, .delivered] ⟨fun _ => none⟩ (.setnxValue [1] [5])).1 =
      .ok (.bool false) ∧
    (methods.retriedStep [.timedOutApplied, .delivered] ⟨fun _ => none⟩
      (.setnxValue [1] [5])).2.records [1] = some [5] := ⟨rfl, rfl⟩

end AerospikeStorage

end AvailabilityCommittee
