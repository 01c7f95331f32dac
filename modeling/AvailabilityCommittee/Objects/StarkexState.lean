import AvailabilityCommittee.Storage.FactStore

/-! # StarkEx state objects

The leaves of the StarkEx vault and order trees (`starkex_state.py`):

* `VaultState(stark_key, token, balance)`: `__post_init__` requires `0 ≤ balance < MAX_AMOUNT`,
  clears the key and the token of a vault with zero balance, and requires both of a vault with a
  positive one.  `VaultState.create` is that constructor; the checks it makes are fields of the
  structure.  `_hash` is `hash_func(hash_func(to_bytes(stark_key), to_bytes(token)),
  to_bytes(balance))`; `to_bytes` raises outside `[0, 2 ^ 256)`, and the model's vaults are the
  ones whose hash can be taken (`create` rejects the others, which the code only finds when it
  hashes them).
* `OrderState(fulfilled_amount)` with `0 ≤ fulfilled_amount < MAX_AMOUNT`; its hash is
  `to_bytes(fulfilled_amount)` itself.
* `OBSOLETE_ORDER_TREE_ROOT_STR = "DEADBEEF" * 8`, the declared order root of obsolete batches.

* `VaultState.add(change)` and `OrderState.add(change)` apply one update to a leaf, through the
  constructor and its checks.

`VaultState.hash_inj`: with an injective `hash_func` two vaults with one hash are equal, so a
vault hashes like the empty vault exactly when it is empty (`VaultState.hash_eq_empty_iff`); an
order does so for every `hash_func` (`OrderState.hash_eq_empty_iff`).

Over a run of updates, from one successful `add` (`VaultState.add_eq_ok`, `OrderState.add_eq_ok`)
to the next:

* `VaultState.add_run_owner`: the balance moves by the sum of the diffs, and a vault passes from one
  stark key or token to another only through the empty vault;
* `OrderState.add_run_capacity`: the fulfilled amount grows by the sum of the diffs and never passes a
  capacity that bounds every update. -/

namespace AvailabilityCommittee

/-- `MAX_AMOUNT`. -/
def maxAmount : Int := 2 ^ 63

/-- `VaultState`. -/
structure VaultState where
  starkKey : Int
  token : Int
  balance : Int
  balance_range : 0 ≤ balance ∧ balance < maxAmount
  empty_cleared : balance = 0 → starkKey = 0 ∧ token = 0
  nonempty_set : balance ≠ 0 → starkKey ≠ 0 ∧ token ≠ 0
  key_range : 0 ≤ starkKey ∧ starkKey < 2 ^ 256 ∧ 0 ≤ token ∧ token < 2 ^ 256

namespace VaultState

@[ext] theorem ext' {v w : VaultState} (hk : v.starkKey = w.starkKey) (ht : v.token = w.token)
    (hb : v.balance = w.balance) : v = w := by
  cases v; cases w; simp_all

/-- `VaultState(stark_key, token, balance)`, with its `__post_init__` checks. -/
def create (starkKey token balance : Int) : Except String VaultState :=
  if hr : 0 ≤ balance ∧ balance < maxAmount then
    if hb : balance = 0 then .ok ⟨0, 0, balance, hr, fun _ => ⟨rfl, rfl⟩, fun h => absurd hb h,
      by norm_num⟩
    else if hk : starkKey = 0 then .error "A non empty vault cannot have an empty stark key"
    else if ht : token = 0 then .error "A non empty vault cannot have an empty token"
    else if hh : 0 ≤ starkKey ∧ starkKey < 2 ^ 256 ∧ 0 ≤ token ∧ token < 2 ^ 256 then
      .ok ⟨starkKey, token, balance, hr, fun h => absurd h hb, fun _ => ⟨hk, ht⟩, hh⟩
    else .error "int too big to convert"
  else .error "Balance is negative or out of range"

/-- `VaultState.empty()`. -/
def empty : VaultState := ⟨0, 0, 0, by norm_num [maxAmount], fun _ => ⟨rfl, rfl⟩,
  fun h => absurd rfl h, by norm_num⟩

/-- `VaultState.is_empty`. -/
def isEmpty (v : VaultState) : Bool := v.starkKey = 0 ∧ v.token = 0 ∧ v.balance = 0

/-- `VaultState._hash`. -/
def hash (hashFunc : HashFunc) (v : VaultState) : Bytes :=
  hashFunc (hashFunc (bytesBE hashBytes v.starkKey.toNat) (bytesBE hashBytes v.token.toNat))
    (bytesBE hashBytes v.balance.toNat)

instance : LeafFact VaultState := ⟨hash, fun _ => asciiBytes "vault"⟩

theorem isEmpty_iff (v : VaultState) : v.isEmpty ↔ v = empty := by
  constructor
  · intro h; simp [isEmpty] at h; exact ext' h.1 h.2.1 h.2.2
  · rintro rfl; simp [isEmpty, empty]

/-- With an injective `hash_func`, a vault is determined by its hash. -/
theorem hash_inj {hashFunc : HashFunc} (hinj : Function.Injective2 hashFunc) {v w : VaultState}
    (h : v.hash hashFunc = w.hash hashFunc) : v = w := by
  obtain ⟨h1, h2⟩ := hinj h
  obtain ⟨h3, h4⟩ := hinj h1
  have lt : ∀ x : Int, 0 ≤ x → x < 2 ^ 256 → x.toNat < 2 ^ (8 * hashBytes) := by
    intro x h0 hx; simp only [hashBytes]; omega
  have hv := v.key_range; have hw := w.key_range
  have bv := v.balance_range; have bw := w.balance_range
  simp only [maxAmount] at bv bw
  have key : ∀ x y : Int, 0 ≤ x → x < 2 ^ 256 → 0 ≤ y → y < 2 ^ 256 →
      bytesBE hashBytes x.toNat = bytesBE hashBytes y.toNat → x = y := by
    intro x y hx0 hx hy0 hy hxy
    have := bytesBE_inj (by simp only [hashBytes]; omega) (by simp only [hashBytes]; omega) hxy
    omega
  exact ext' (key _ _ hv.1 hv.2.1 hw.1 hw.2.1 h3) (key _ _ hv.2.2.1 hv.2.2.2 hw.2.2.1 hw.2.2.2 h4)
    (key _ _ bv.1 (by omega) bw.1 (by omega) h2)

theorem hash_eq_empty_iff {hashFunc : HashFunc} (hinj : Function.Injective2 hashFunc)
    (v : VaultState) : v.hash hashFunc = empty.hash hashFunc ↔ v.isEmpty := by
  rw [isEmpty_iff]
  exact ⟨hash_inj hinj, fun h => h ▸ rfl⟩

end VaultState

/-! ### Vault updates -/

/-- `VaultUpdateData(vault_id, stark_key, token, diff)`. -/
structure VaultUpdateData where
  vaultId : Int
  starkKey : Int
  token : Int
  diff : Int
deriving DecidableEq, Repr

namespace VaultState

/-- `VaultState.add(change)`: a vault with a positive balance only takes a change with its own stark
key and token; the new balance must lie in `[0, MAX_AMOUNT)`; and the new vault is
`VaultState(change.stark_key, change.token, new_balance)`, through `__post_init__`.  The error is
the `message` of the failed `stark_assert`: `error_handling.py` is not in the repository. -/
def add (v : VaultState) (change : VaultUpdateData) : Except String VaultState :=
  if 0 < v.balance ∧ v.starkKey ≠ change.starkKey then .error "Vault does not match stark_key"
  else if 0 < v.balance ∧ v.token ≠ change.token then .error "Vault does not match token"
  else if 0 ≤ v.balance + change.diff ∧ v.balance + change.diff < maxAmount then
    create change.starkKey change.token (v.balance + change.diff)
  else .error ("Vault change in vault " ++ toString change.vaultId ++
    " causes balance to be negative or out of range (adding a diff of " ++ toString change.diff ++
    " to current balance of " ++ toString v.balance ++ ")")

theorem eq_empty_of_balance {v : VaultState} (h : v.balance = 0) : v = empty :=
  ext' (v.empty_cleared h).1 (v.empty_cleared h).2 h

theorem create_eq_ok {starkKey token balance : Int} {w : VaultState}
    (h : create starkKey token balance = .ok w) :
    w.balance = balance ∧ (balance ≠ 0 → w.starkKey = starkKey ∧ w.token = token) := by
  unfold create at h
  split_ifs at h with hr hb <;> cases h
  · exact ⟨rfl, fun h => absurd hb h⟩
  · exact ⟨rfl, fun _ => ⟨rfl, rfl⟩⟩

/-- What a successful `add` does: a vault with a positive balance took a change with its own
stark key and token, the balance moved by the diff, and a non-empty result carries the change's
key and token. -/
theorem add_eq_ok {v w : VaultState} {change : VaultUpdateData} (h : v.add change = .ok w) :
    (0 < v.balance → change.starkKey = v.starkKey ∧ change.token = v.token) ∧
      w.balance = v.balance + change.diff ∧
      (w.balance ≠ 0 → w.starkKey = change.starkKey ∧ w.token = change.token) := by
  unfold add at h
  split_ifs at h with h1 h2 h3
  obtain ⟨hb, hk⟩ := create_eq_ok h
  exact ⟨fun hp => ⟨(not_not.mp (not_and.mp h1 hp)).symm, (not_not.mp (not_and.mp h2 hp)).symm⟩,
    hb, fun hw => hk (hb ▸ hw)⟩

/-- Along a run of `add`, the balance moves by the sum of the diffs, and the stark key or the token
of the vault changes only through the empty vault: some prefix of the run ends in it. -/
theorem add_run_owner {v w : VaultState} {changes : List VaultUpdateData}
    (h : changes.foldlM add v = .ok w) :
    w.balance = v.balance + (changes.map VaultUpdateData.diff).sum ∧
      (w.starkKey ≠ v.starkKey ∨ w.token ≠ v.token →
        ∃ k, (changes.take k).foldlM add v = .ok empty) := by
  induction changes generalizing v with
  | nil =>
    cases h
    simp
  | cons c cs ih =>
    obtain ⟨u, hu, hw⟩ := foldlM_cons_eq_ok.mp h
    obtain ⟨hmatch, hbal, howner⟩ := add_eq_ok hu
    obtain ⟨ihbal, ihowner⟩ := ih hw
    refine ⟨by rw [ihbal, hbal, List.map_cons, List.sum_cons]; omega, fun hne => ?_⟩
    by_cases hv : v.balance = 0
    · exact ⟨0, by rw [eq_empty_of_balance hv]; rfl⟩
    by_cases hu0 : u.balance = 0
    · exact ⟨1, foldlM_cons_eq_ok.mpr ⟨u, hu, by rw [eq_empty_of_balance hu0]; rfl⟩⟩
    obtain ⟨hk, ht⟩ := hmatch (lt_of_le_of_ne v.balance_range.1 (Ne.symm hv))
    obtain ⟨hk', ht'⟩ := howner hu0
    obtain ⟨k, hk⟩ := ihowner (by rw [hk', ht', hk, ht]; exact hne)
    exact ⟨k + 1, foldlM_cons_eq_ok.mpr ⟨u, hu, hk⟩⟩

end VaultState

/-- A vault with stark key `1`, token `1` and balance `5`. -/
def vaultFive : VaultState :=
  ⟨1, 1, 5, by norm_num [maxAmount], fun h => absurd h (by norm_num), fun _ => ⟨by norm_num, by norm_num⟩,
    by norm_num⟩

/-- A vault with stark key `2`, token `3` and balance `7`. -/
def vaultSeven : VaultState :=
  ⟨2, 3, 7, by norm_num [maxAmount], fun h => absurd h (by norm_num), fun _ => ⟨by norm_num, by norm_num⟩,
    by norm_num⟩

/-- `vaultFive` is emptied by its owner and then taken by another key. -/
theorem VaultState.handover_run :
    [⟨0, 1, 1, -5⟩, ⟨0, 2, 3, 7⟩].foldlM VaultState.add vaultFive = .ok vaultSeven := by
  simp [VaultState.add, VaultState.create, vaultFive, vaultSeven, VaultState.empty, maxAmount]

theorem VaultState.add_run_owner_handover :
    vaultSeven.balance = vaultFive.balance +
        (([⟨0, 1, 1, -5⟩, ⟨0, 2, 3, 7⟩] : List VaultUpdateData).map VaultUpdateData.diff).sum ∧
      (vaultSeven.starkKey ≠ vaultFive.starkKey ∨ vaultSeven.token ≠ vaultFive.token →
        ∃ k, (([⟨0, 1, 1, -5⟩, ⟨0, 2, 3, 7⟩] : List VaultUpdateData).take k).foldlM
          VaultState.add vaultFive = .ok VaultState.empty) :=
  VaultState.add_run_owner VaultState.handover_run

/-- `OrderState`: the fulfilled (or minted) amount of an order. -/
structure OrderState where
  fulfilledAmount : Int
  amount_range : 0 ≤ fulfilledAmount ∧ fulfilledAmount < maxAmount

namespace OrderState

/-- `OrderState(fulfilled_amount)`, with its `__post_init__` check. -/
def create (fulfilledAmount : Int) : Except String OrderState :=
  if h : 0 ≤ fulfilledAmount ∧ fulfilledAmount < maxAmount then .ok ⟨fulfilledAmount, h⟩
  else .error "Fulfilled order amount / mint amount is negative or out of range"

/-- `OrderState.empty()`. -/
def empty : OrderState := ⟨0, by norm_num [maxAmount]⟩

/-- `OrderState.is_empty`. -/
def isEmpty (o : OrderState) : Bool := o.fulfilledAmount = 0

/-- `OrderState._hash`: `to_bytes(fulfilled_amount)`, no hashing. -/
def hash (_hashFunc : HashFunc) (o : OrderState) : Bytes := bytesBE hashBytes o.fulfilledAmount.toNat

instance : LeafFact OrderState := ⟨hash, fun _ => asciiBytes "order"⟩

/-- An order hashes like the empty order exactly when it is empty: `to_bytes` is injective on
amounts below `MAX_AMOUNT`. -/
theorem hash_eq_empty_iff (hashFunc : HashFunc) (o : OrderState) :
    o.hash hashFunc = empty.hash hashFunc ↔ o.isEmpty := by
  have ho := o.amount_range
  simp only [maxAmount] at ho
  simp only [hash, isEmpty, empty, decide_eq_true_eq]
  constructor
  · intro h
    have := bytesBE_inj (by simp only [hashBytes]; omega) (by simp only [hashBytes]; omega) h
    omega
  · intro h; rw [h]

end OrderState

/-! ### Order updates -/

/-- `OrderUpdateData(updating_tx, tree_index, diff, capacity)`.  The class of the transaction is not
in the repository; `add` shows it only in the text of its errors, through the update's repr. -/
structure OrderUpdateData where
  treeIndex : Int
  diff : Int
  capacity : Int
deriving DecidableEq, Repr

namespace OrderState

/-- `OrderState.add(change)`: the diff must lie in `[0, MAX_AMOUNT)` and the new amount must not
exceed the change's capacity; `reprChange` is the text `{change}` of the messages. -/
def add (reprChange : OrderUpdateData → String) (o : OrderState) (change : OrderUpdateData) :
    Except String OrderState :=
  if ¬(0 ≤ change.diff ∧ change.diff < maxAmount) then
    .error ("Negative or out of range order/mint amount. Update: " ++ reprChange change ++ ".")
  else if ¬(o.fulfilledAmount + change.diff ≤ change.capacity) then
    .error ("Either attempted to mint previously minted asset, or order change exceeds " ++
      "capacity (potential replay or over-subscription). Update: " ++ reprChange change ++ ".")
  else create (o.fulfilledAmount + change.diff)

theorem create_eq_ok {fulfilledAmount : Int} {o : OrderState}
    (h : create fulfilledAmount = .ok o) : o.fulfilledAmount = fulfilledAmount := by
  unfold create at h
  split_ifs at h; cases h; rfl

theorem add_eq_ok {reprChange : OrderUpdateData → String} {o o' : OrderState}
    {change : OrderUpdateData} (h : o.add reprChange change = .ok o') :
    0 ≤ change.diff ∧ o'.fulfilledAmount = o.fulfilledAmount + change.diff ∧
      o'.fulfilledAmount ≤ change.capacity := by
  unfold add at h
  split_ifs at h with h1 h2
  rw [create_eq_ok h]
  exact ⟨h1.1, rfl, h2⟩

/-- Along a run of `add`, the fulfilled amount grows by the sum of the diffs, and never beyond a
capacity that bounds every update of the run: replayed or over-subscribed updates are refused. -/
theorem add_run_capacity {reprChange : OrderUpdateData → String} {o o' : OrderState}
    {changes : List OrderUpdateData} (h : changes.foldlM (add reprChange) o = .ok o') :
    o'.fulfilledAmount = o.fulfilledAmount + (changes.map OrderUpdateData.diff).sum ∧
      o.fulfilledAmount ≤ o'.fulfilledAmount ∧
      ∀ capacity, (∀ c ∈ changes, c.capacity ≤ capacity) → changes ≠ [] →
        o'.fulfilledAmount ≤ capacity := by
  induction changes generalizing o with
  | nil => cases h; simp
  | cons c cs ih =>
    obtain ⟨u, hu, hw⟩ := foldlM_cons_eq_ok.mp h
    obtain ⟨hdiff, hamount, hcap⟩ := add_eq_ok hu
    obtain ⟨ihamount, ihmono, ihcap⟩ := ih hw
    refine ⟨by rw [ihamount, hamount, List.map_cons, List.sum_cons]; omega, by omega,
      fun capacity hc _ => ?_⟩
    rcases cs with _ | ⟨c', cs'⟩
    · cases hw; exact hcap.trans (hc c (List.mem_cons_self _ _))
    · exact ihcap capacity (fun x hx => hc x (List.mem_cons_of_mem _ hx)) (List.cons_ne_nil _ _)

end OrderState

/-- An order with fulfilled amount `5`. -/
def orderFive : OrderState := ⟨5, by norm_num [maxAmount]⟩

/-- Two updates of capacity `5` fulfil the empty order to `5`. -/
theorem OrderState.capacity_run :
    [⟨0, 2, 5⟩, ⟨0, 3, 5⟩].foldlM (OrderState.add fun _ => "") OrderState.empty = .ok orderFive := by
  simp [OrderState.add, OrderState.create, orderFive, OrderState.empty, maxAmount]

theorem OrderState.add_run_capacity_five :
    orderFive.fulfilledAmount = OrderState.empty.fulfilledAmount +
        (([⟨0, 2, 5⟩, ⟨0, 3, 5⟩] : List OrderUpdateData).map OrderUpdateData.diff).sum ∧
      OrderState.empty.fulfilledAmount ≤ orderFive.fulfilledAmount ∧
      ∀ capacity, (∀ c ∈ ([⟨0, 2, 5⟩, ⟨0, 3, 5⟩] : List OrderUpdateData), c.capacity ≤ capacity) →
        ([⟨0, 2, 5⟩, ⟨0, 3, 5⟩] : List OrderUpdateData) ≠ [] → orderFive.fulfilledAmount ≤ capacity :=
  OrderState.add_run_capacity OrderState.capacity_run

/-- `OBSOLETE_ORDER_TREE_ROOT_STR`. -/
def obsoleteOrderTreeRootStr : String := "DEADBEEFDEADBEEFDEADBEEFDEADBEEFDEADBEEFDEADBEEFDEADBEEFDEADBEEF"

end AvailabilityCommittee
