import AvailabilityCommittee.Storage.Aerospike

/-! # The Aerospike lock manager

`AerospikeLockManager` keeps a lock as a record of its name, written by `try_lock` with the policy
`exists=CREATE` and a ttl; Aerospike drops the record once the ttl has elapsed.  `extend` touches
the record with the manager's `ttl`, whatever ttl the lock was taken with, and leaving the
`async with` block of a lock object removes the record.  Both go by the name only: nothing checks
that the record is the one the lock object wrote.

Time is explicit: `LockRecords` is the records at the time `now`, and `tick` lets time pass; the
tries of `lock` are `tryLock` events and its sleeps are ticks, between which other clients act.
`LockObject` adds what the holder of a lock object knows: the end of its lease (the time of its
`try_lock` or last `extend` plus the ttl used), and whether it has left its block.

* `Reachable.inv`: along every run in which holders extend and leave their block only within
  their lease (`Timely`), the record of a name is the lease of the one lock object of that name
  that holds a lease;
* `lock_exclusive`: so two lock objects of one name never hold a lease at the same time;
* `unlock_other_breaks_exclusion`: the timeliness is needed: the late exit of a lock object whose
  lease has ended removes the record of the current holder, and a third `try_lock` succeeds while
  the current lease lasts. -/

namespace AvailabilityCommittee

/-- The lock records at the time `now`, in seconds: the time at which the record of each name
expires. -/
structure LockRecords where
  now : Nat
  expiry : String → Option Nat

namespace LockRecords

/-- The record of `name` exists and its ttl has not elapsed. -/
def live (r : LockRecords) (name : String) : Bool :=
  match r.expiry name with
  | some t => decide (r.now < t)
  | none => false

/-- The record of `name` set to expire at `t`, or removed. -/
def setExpiry (r : LockRecords) (name : String) (t : Option Nat) : LockRecords :=
  ⟨r.now, fun n => if n = name then t else r.expiry n⟩

/-- `client.put(key, {"value": "1"}, policy={"exists": POLICY_EXISTS_CREATE},
meta={"ttl": ttl})`. -/
def put (r : LockRecords) (name : String) (ttl : Nat) : Except AerospikeError LockRecords :=
  if r.live name then .error .recordExists else .ok (r.setExpiry name (some (r.now + ttl)))

/-- `client.touch(key, ttl)`. -/
def touch (r : LockRecords) (name : String) (ttl : Nat) : Except AerospikeError LockRecords :=
  if r.live name then .ok (r.setExpiry name (some (r.now + ttl))) else .error .recordNotFound

/-- `client.remove(key)`. -/
def remove (r : LockRecords) (name : String) : Except AerospikeError LockRecords :=
  if r.live name then .ok (r.setExpiry name none) else .error .recordNotFound

@[simp] theorem setExpiry_now (r : LockRecords) (name : String) (t : Option Nat) :
    (r.setExpiry name t).now = r.now := rfl

@[simp] theorem setExpiry_expiry (r : LockRecords) (name : String) (t : Option Nat) (n : String) :
    (r.setExpiry name t).expiry n = if n = name then t else r.expiry n := rfl

theorem live_of_expiry {r : LockRecords} {name : String} {t : Nat} (h : r.expiry name = some t)
    (ht : r.now < t) : r.live name = true := by
  simp [live, h, ht]

end LockRecords

/-- What a call of the lock manager raises: `LockError`, or an exception of the client that it
lets through. -/
inductive LockFailure where
  | lockError
  | client (e : AerospikeError)
deriving DecidableEq, Repr

/-- The setting of an `AerospikeLockManager` that its calls read. -/
structure AerospikeLockManager where
  ttl : Nat := 30

namespace AerospikeLockManager

variable (m : AerospikeLockManager)

/-- `try_lock(name, ttl)`; with `ttl=None` the manager's. -/
def tryLock (r : LockRecords) (name : String) (ttl : Option Nat) :
    Except LockFailure LockRecords :=
  match r.put name (ttl.getD m.ttl) with
  | .ok r' => .ok r'
  | .error _ => .error .lockError

/-- `_extend(name)`: with the manager's `ttl`, whatever ttl the lock was taken with. -/
def extend (r : LockRecords) (name : String) : Except LockFailure LockRecords :=
  (r.touch name m.ttl).mapError .client

/-- `_unlock(name)`. -/
def unlock (r : LockRecords) (name : String) : Except LockFailure LockRecords :=
  (r.remove name).mapError .client

end AerospikeLockManager

/-- An `AerospikeLockObject`, with what its holder knows of it. -/
structure LockObject where
  name : String
  /-- The end of its lease: the time of its `try_lock` or last `extend` plus the ttl used. -/
  deadline : Nat
  /-- Its holder has left the `async with` block. -/
  released : Bool

/-- The object holds a lease at the time `now`. -/
def LockObject.holds (o : LockObject) (now : Nat) : Bool := !o.released && decide (now < o.deadline)

@[simp] theorem LockObject.holds_iff (o : LockObject) (now : Nat) :
    o.holds now = true ↔ o.released = false ∧ now < o.deadline := by
  simp [LockObject.holds]

/-- The lock records, and every lock object handed out so far. -/
structure LockSystem where
  records : LockRecords
  objects : List LockObject

/-- What can happen next: a call of one client, or time passing. -/
inductive LockEvent where
  /-- `try_lock(name, ttl)`; a try of `lock(name)` is `try_lock(name)`. -/
  | tryLock (name : String) (ttl : Option Nat)
  /-- `extend()` of the lock object `obj`. -/
  | extend (obj : Nat)
  /-- `__aexit__` of the lock object `obj`. -/
  | unlock (obj : Nat)
  /-- Time passes, as in the sleeps of `lock` between its tries. -/
  | tick (seconds : Nat)

namespace LockSystem

variable (m : AerospikeLockManager)

/-- One event.  A call that raises changes no record; a holder that leaves its block has left it,
whether `_unlock` raised or not. -/
def step (s : LockSystem) : LockEvent → LockSystem
  | .tryLock name ttl =>
    match m.tryLock s.records name ttl with
    | .ok r => ⟨r, s.objects ++ [⟨name, s.records.now + ttl.getD m.ttl, false⟩]⟩
    | .error _ => s
  | .extend i =>
    match s.objects[i]? with
    | some o =>
      match m.extend s.records o.name with
      | .ok r => ⟨r, s.objects.set i { o with deadline := s.records.now + m.ttl }⟩
      | .error _ => s
    | none => s
  | .unlock i =>
    match s.objects[i]? with
    | some o => ⟨(AerospikeLockManager.unlock s.records o.name).toOption.getD s.records,
        s.objects.set i { o with released := true }⟩
    | none => s
  | .tick seconds => ⟨⟨s.records.now + seconds, s.records.expiry⟩, s.objects⟩

/-- Holders extend their lock, and leave their block, only while their lease lasts. -/
def Timely (s : LockSystem) : LockEvent → Prop
  | .extend i | .unlock i => ∃ o, s.objects[i]? = some o ∧ o.holds s.records.now
  | _ => True

/-- The states reached by timely events from no records, at any time. -/
inductive Reachable : LockSystem → Prop
  | init (now : Nat) : Reachable ⟨⟨now, fun _ => none⟩, []⟩
  | step {s : LockSystem} {e : LockEvent} : Reachable s → Timely s e → Reachable (s.step m e)

/-- The record of the name of a lock object holding a lease is its lease, and no other lock object
of that name holds one. -/
def Inv (s : LockSystem) : Prop :=
  ∀ (i : Nat) (o : LockObject), s.objects[i]? = some o → o.holds s.records.now →
    s.records.expiry o.name = some o.deadline ∧
      ∀ (j : Nat) (o' : LockObject), s.objects[j]? = some o' → o'.name = o.name → o'.holds s.records.now → j = i

theorem step_tryLock (s : LockSystem) (name : String) (ttl : Option Nat) :
    s.step m (.tryLock name ttl) =
      if s.records.live name then s
      else ⟨s.records.setExpiry name (some (s.records.now + ttl.getD m.ttl)),
        s.objects ++ [⟨name, s.records.now + ttl.getD m.ttl, false⟩]⟩ := by
  simp only [step, AerospikeLockManager.tryLock, LockRecords.put]
  split_ifs <;> rfl

theorem step_extend {s : LockSystem} {i : Nat} {o : LockObject} (hi : s.objects[i]? = some o)
    (hlive : s.records.live o.name = true) :
    s.step m (.extend i) = ⟨s.records.setExpiry o.name (some (s.records.now + m.ttl)),
      s.objects.set i { o with deadline := s.records.now + m.ttl }⟩ := by
  simp [step, hi, AerospikeLockManager.extend, LockRecords.touch, hlive]
  rfl

theorem step_unlock {s : LockSystem} {i : Nat} {o : LockObject} (hi : s.objects[i]? = some o)
    (hlive : s.records.live o.name = true) :
    s.step m (.unlock i) = ⟨s.records.setExpiry o.name none,
      s.objects.set i { o with released := true }⟩ := by
  simp [step, hi, AerospikeLockManager.unlock, LockRecords.remove, hlive]
  rfl

/-! ### The invariant -/

theorem getElem?_concat_eq_some {l : List LockObject} {a b : LockObject} {k : Nat} :
    (l ++ [a])[k]? = some b ↔ l[k]? = some b ∨ (k = l.length ∧ b = a) := by
  rw [List.getElem?_append]
  split_ifs with h
  · exact ⟨.inl, by rintro (h' | ⟨rfl, -⟩) <;> first | exact h' | omega⟩
  · rw [List.getElem?_eq_none (by omega : l.length ≤ k)]
    by_cases hk : k = l.length
    · subst hk
      simp [eq_comm]
    · rw [List.getElem?_eq_none (by simp only [List.length_singleton]; omega)]
      simp [hk]

theorem getElem?_set_eq_some {l : List LockObject} {i k : Nat} {a₀ a b : LockObject}
    (hi : l[i]? = some a₀) :
    (l.set i a)[k]? = some b ↔ (k = i ∧ b = a) ∨ (k ≠ i ∧ l[k]? = some b) := by
  have hlt : i < l.length := (List.getElem?_eq_some_iff.mp hi).1
  by_cases hk : k = i
  · subst hk
    simp [List.getElem?_set, hlt, eq_comm]
  · rw [List.getElem?_set_ne (Ne.symm hk)]
    simp [hk]

variable {m}

theorem Inv.live {s : LockSystem} (hs : Inv s) {i : Nat} {o : LockObject}
    (hi : s.objects[i]? = some o) (ho : o.holds s.records.now) : s.records.live o.name = true :=
  LockRecords.live_of_expiry (hs i o hi ho).1 ((o.holds_iff _).mp ho).2

/-- An event that changes the record of the name of a lock object `o` holding a lease, and `o`
alone among the lock objects, keeps the invariant if the new `o` holds a lease only as the new
record says. -/
theorem Inv.update {s : LockSystem} (hs : Inv s) {i : Nat} {o : LockObject}
    (hi : s.objects[i]? = some o) (ho : o.holds s.records.now) (r : LockRecords)
    (hnow : r.now = s.records.now) (hframe : ∀ n, n ≠ o.name → r.expiry n = s.records.expiry n)
    (o' : LockObject) (hname : o'.name = o.name)
    (hrecord : o'.holds r.now → r.expiry o.name = some o'.deadline) :
    Inv ⟨r, s.objects.set i o'⟩ := by
  intro k ok hk hh
  simp only at hk hh ⊢
  rcases (getElem?_set_eq_some hi).mp hk with ⟨rfl, rfl⟩ | ⟨hki, hk⟩
  · refine ⟨hname ▸ hrecord hh, fun j oj hj hjn hjh => ?_⟩
    rcases (getElem?_set_eq_some hi).mp hj with ⟨rfl, -⟩ | ⟨hji, hj⟩
    · rfl
    · rw [hnow] at hjh
      exact absurd ((hs k o hi ho).2 j oj hj (hjn.trans hname) hjh) hji
  · rw [hnow] at hh ⊢
    have hne : ok.name ≠ o.name := fun h => hki ((hs i o hi ho).2 k ok hk h hh)
    obtain ⟨hexp, huniq⟩ := hs k ok hk hh
    refine ⟨(hframe _ hne).trans hexp, fun j oj hj hjn hjh => ?_⟩
    rcases (getElem?_set_eq_some hi).mp hj with ⟨rfl, rfl⟩ | ⟨-, hj⟩
    · exact absurd (hjn.symm.trans hname) hne
    · exact huniq j oj hj hjn hjh

theorem Inv.tryLock {s : LockSystem} (hs : Inv s) (name : String) (ttl : Option Nat) :
    Inv (s.step m (.tryLock name ttl)) := by
  rw [step_tryLock]
  split_ifs with hlive
  · exact hs
  have hfree : ∀ (k : Nat) (ok : LockObject), s.objects[k]? = some ok → ok.holds s.records.now → ok.name ≠ name :=
    fun k ok hk hh h => hlive (h ▸ hs.live hk hh)
  intro k ok hk hh
  simp only [LockRecords.setExpiry_now] at hh ⊢
  rcases getElem?_concat_eq_some.mp hk with hk | ⟨rfl, rfl⟩
  · have hne := hfree k ok hk hh
    obtain ⟨hexp, huniq⟩ := hs k ok hk hh
    refine ⟨by simp [hne, hexp], fun j oj hj hjn hjh => ?_⟩
    rcases getElem?_concat_eq_some.mp hj with hj | ⟨rfl, rfl⟩
    · exact huniq j oj hj hjn hjh
    · exact absurd hjn.symm hne
  · refine ⟨by simp, fun j oj hj hjn hjh => ?_⟩
    rcases getElem?_concat_eq_some.mp hj with hj | ⟨rfl, -⟩
    · exact absurd hjn (hfree j oj hj hjh)
    · rfl

theorem Inv.tick {s : LockSystem} (hs : Inv s) (seconds : Nat) :
    Inv (s.step m (.tick seconds)) := by
  have hmono : ∀ o : LockObject, o.holds (s.records.now + seconds) → o.holds s.records.now :=
    fun o h => by simp only [LockObject.holds_iff] at h ⊢; exact ⟨h.1, by omega⟩
  intro k ok hk hh
  obtain ⟨hexp, huniq⟩ := hs k ok hk (hmono ok hh)
  exact ⟨hexp, fun j oj hj hjn hjh => huniq j oj hj hjn (hmono oj hjh)⟩

/-- Every timely event keeps the invariant. -/
theorem Inv.step {s : LockSystem} (hs : Inv s) {e : LockEvent} (ht : Timely s e) :
    Inv (s.step m e) := by
  cases e with
  | tryLock name ttl => exact hs.tryLock name ttl
  | extend i =>
    obtain ⟨o, hi, ho⟩ := ht
    rw [step_extend m hi (hs.live hi ho)]
    exact hs.update hi ho (s.records.setExpiry o.name (some (s.records.now + m.ttl))) rfl
      (fun n hn => by simp [hn]) { o with deadline := s.records.now + m.ttl } rfl fun _ => by simp
  | unlock i =>
    obtain ⟨o, hi, ho⟩ := ht
    rw [step_unlock m hi (hs.live hi ho)]
    exact hs.update hi ho (s.records.setExpiry o.name none) rfl (fun n hn => by simp [hn])
      { o with released := true } rfl fun h => by simp at h
  | tick seconds => exact hs.tick seconds

theorem Reachable.inv {s : LockSystem} (h : Reachable m s) : Inv s := by
  induction h with
  | init now => intro i o hi; simp at hi
  | step _ ht ih => exact ih.step ht

/-! ### Mutual exclusion -/

/-- Mutual exclusion: in every state reached by timely events, two lock objects of one name that
hold a lease at the same time are the same object, and the record of the name is its lease. -/
theorem lock_exclusive {s : LockSystem} (hs : Reachable m s) {i j : Nat} {o o' : LockObject}
    (hi : s.objects[i]? = some o) (hj : s.objects[j]? = some o') (hname : o'.name = o.name)
    (ho : o.holds s.records.now) (ho' : o'.holds s.records.now) :
    j = i ∧ s.records.expiry o.name = some o.deadline :=
  ⟨(hs.inv i o hi ho).2 j o' hj hname ho', (hs.inv i o hi ho).1⟩

/-- The lock object of `"batch"` taken at time `0` with the default ttl. -/
def batchLock : LockObject := ⟨"batch", 30, false⟩

/-- The state after that `try_lock`. -/
def batchLocked : LockSystem :=
  LockSystem.step {} ⟨⟨0, fun _ => none⟩, []⟩ (.tryLock "batch" none)

theorem lock_exclusive_batch :
    Reachable {} batchLocked ∧ batchLocked.objects[0]? = some batchLock ∧
      batchLock.holds batchLocked.records.now = true ∧
      (0 = 0 ∧ batchLocked.records.expiry batchLock.name = some batchLock.deadline) :=
  have hs : Reachable {} batchLocked := .step (.init 0) trivial
  have hi : batchLocked.objects[0]? = some batchLock := rfl
  have ho : batchLock.holds batchLocked.records.now = true := rfl
  ⟨hs, hi, ho, lock_exclusive hs hi hi rfl ho ho⟩

/-- Exclusion needs timely holders, since `_unlock` goes by the name only: from every state reached
by timely events in which a lock object holds the lease of a name, the exit of another lock object
of that name removes the record, and a `try_lock` of the name then succeeds while the first lease
lasts, so that two lock objects hold a lease of one name. -/
theorem unlock_other_breaks_exclusion {s : LockSystem} (hs : Reachable m s) {i j : Nat}
    {o o' : LockObject} (hi : s.objects[i]? = some o) (hj : s.objects[j]? = some o')
    (hji : j ≠ i) (hname : o'.name = o.name) (ho' : o'.holds s.records.now) (ttl : Nat)
    (httl : 0 < ttl) :
    ((s.step m (.unlock i)).step m (.tryLock o.name (some ttl))).objects[j]? = some o' ∧
      ((s.step m (.unlock i)).step m (.tryLock o.name (some ttl))).objects[s.objects.length]? =
        some ⟨o.name, s.records.now + ttl, false⟩ ∧
      o'.holds ((s.step m (.unlock i)).step m (.tryLock o.name (some ttl))).records.now ∧
      (⟨o.name, s.records.now + ttl, false⟩ : LockObject).holds
        ((s.step m (.unlock i)).step m (.tryLock o.name (some ttl))).records.now := by
  have hlive : s.records.live o.name = true := hname ▸ hs.inv.live hj ho'
  have hjlt : j < s.objects.length := (List.getElem?_eq_some_iff.mp hj).1
  rw [step_unlock m hi hlive, step_tryLock, if_neg (by simp [LockRecords.live])]
  simp only [LockRecords.setExpiry_now, Option.getD_some]
  refine ⟨?_, ?_, ho', by simpa using httl⟩
  · rw [List.getElem?_append_left (by simpa using hjlt), List.getElem?_set_ne (Ne.symm hji), hj]
  · rw [← List.length_set s.objects i { o with released := true }, List.getElem?_concat_length]

/-- Lock object `0` takes `"batch"` for one second; at time `2`, lock object `1` takes it with the
default ttl. -/
def batchTakenOver : LockSystem :=
  ((LockSystem.step {} ⟨⟨0, fun _ => none⟩, []⟩ (.tryLock "batch" (some 1))).step {}
    (.tick 2)).step {} (.tryLock "batch" none)

theorem unlock_other_breaks_exclusion_batch :
    Reachable {} batchTakenOver ∧ batchTakenOver.objects[0]? = some ⟨"batch", 1, false⟩ ∧
      batchTakenOver.objects[1]? = some ⟨"batch", 32, false⟩ ∧ (1 : Nat) ≠ 0 ∧
      (⟨"batch", 32, false⟩ : LockObject).name = (⟨"batch", 1, false⟩ : LockObject).name ∧
      (⟨"batch", 32, false⟩ : LockObject).holds batchTakenOver.records.now = true ∧ 0 < 5 ∧
      (((batchTakenOver.step {} (.unlock 0)).step {} (.tryLock "batch" (some 5))).objects[1]? =
          some ⟨"batch", 32, false⟩ ∧
        ((batchTakenOver.step {} (.unlock 0)).step {} (.tryLock "batch" (some 5))).objects[2]? =
          some ⟨"batch", 2 + 5, false⟩ ∧
        (⟨"batch", 32, false⟩ : LockObject).holds
          ((batchTakenOver.step {} (.unlock 0)).step {} (.tryLock "batch" (some 5))).records.now ∧
        (⟨"batch", 2 + 5, false⟩ : LockObject).holds
          ((batchTakenOver.step {} (.unlock 0)).step {} (.tryLock "batch" (some 5))).records.now) :=
  have hs : Reachable {} batchTakenOver := .step (.step (.step (.init 0) trivial) trivial) trivial
  have hi : batchTakenOver.objects[0]? = some ⟨"batch", 1, false⟩ := rfl
  have hj : batchTakenOver.objects[1]? = some ⟨"batch", 32, false⟩ := rfl
  have ho' : (⟨"batch", 32, false⟩ : LockObject).holds batchTakenOver.records.now = true := rfl
  ⟨hs, hi, hj, by decide, rfl, ho', by decide,
    unlock_other_breaks_exclusion hs hi hj (by decide) rfl ho' 5 (by decide)⟩

end LockSystem

end AvailabilityCommittee
