import AvailabilityCommittee.Storage.Bytes
import AvailabilityCommittee.Storage.FactStore
import Mathlib.Data.List.Sort
import Mathlib.Tactic.Linarith

/-! # Perpetual positions

The leaves of the perpetual position tree (`state_objects.py`, `fields.py`, `constants.py`).

* A `PositionAsset(balance, cached_funding_index)` is validated against `BalanceField` and
  `FundingIndexField`; the model's assets carry those checks as fields.
* `PositionAsset.calculate_message(asset_id)` packs the asset id, the shifted funding index and
  the shifted balance in mixed radix `(2 ^ 120, 2 ^ 64, 2 ^ 64)` and encodes the result with
  `to_bytes`, after asserting `ASSET_ID_UPPER_BOUND * 2 ^ 64 * 2 ^ 64 < FIELD_PRIME`.  `FIELD_PRIME`
  comes from the signature library, which is not in the repository: it is a parameter.
* `PositionState._hash` folds `hash_func` over the messages of the assets sorted by asset id.

* `PositionState.apply_funding(global_funding_indices)` moves each asset's cached funding index to
  the global one (`verify_asset_index_exists` checks that there is one) and adds
  `-Σ balance * (global_index - cached_index) // FIXED_POINT_UNIT` to the collateral balance.  The
  position it returns is `dataclasses.replace(self, ...)`, which the dataclass framework validates
  again; that framework is not in the repository, so the model returns the new collateral
  balance and assets (`applyFunding`).

`calculateMessage_spec`: for every asset id below `2 ^ 120` the message is the 32-byte encoding of
a number below `2 ^ 248` (so below `FIELD_PRIME`), the message determines the asset id and the
asset, and so two positions whose sorted asset lists differ give different message sequences.

On funding, from the loop's spec (`foldlM_fundingStep_ok`):

* `applyFunding_eq_error_iff`: `apply_funding` fails exactly when an asset of the position has no
  global index, and names the first such asset;
* `applyFunding_idempotent`: funding again at the same indices changes nothing;
* `applyFunding_twice`: funding at `g₁` then at `g₂` leaves the assets of funding at `g₂` alone,
  and a collateral balance at most one unit below its, never above: each step rounds down. -/

namespace AvailabilityCommittee

/-- `RangeValidatedField(lower_bound, upper_bound, name)`: a field whose values lie in
`[lower_bound, upper_bound)`. -/
structure RangeValidatedField where
  lowerBound : Int
  upperBound : Int
  name : String

/-- `RangeValidatedField.is_valid`. -/
def RangeValidatedField.isValid (field : RangeValidatedField) (value : Int) : Prop :=
  field.lowerBound ≤ value ∧ value < field.upperBound

instance (field : RangeValidatedField) (value : Int) : Decidable (field.isValid value) :=
  inferInstanceAs (Decidable (_ ∧ _))

/-- `BALANCE_UPPER_BOUND`. -/
def balanceUpperBound : Int := 2 ^ 63

/-- `BALANCE_LOWER_BOUND`. -/
def balanceLowerBound : Int := -balanceUpperBound

/-- `FUNDING_INDEX_UPPER_BOUND`. -/
def fundingIndexUpperBound : Int := 2 ^ 63

/-- `FUNDING_INDEX_LOWER_BOUND`. -/
def fundingIndexLowerBound : Int := -(2 ^ 63)

/-- `ASSET_ID_UPPER_BOUND`. -/
def assetIdUpperBound : Int := 2 ^ 120

/-- `N_ASSETS_UPPER_BOUND`. -/
def nAssetsUpperBound : Int := 2 ^ 16

/-- `BalanceField`. -/
def balanceField : RangeValidatedField := ⟨balanceLowerBound, balanceUpperBound, "Balance"⟩

/-- `FundingIndexField`. -/
def fundingIndexField : RangeValidatedField :=
  ⟨fundingIndexLowerBound, fundingIndexUpperBound, "Funding index"⟩

/-- `AssetIdField`. -/
def assetIdField : RangeValidatedField := ⟨0, assetIdUpperBound, "Asset ID"⟩

/-- `PositionAsset(balance, cached_funding_index)`, validated. -/
structure PositionAsset where
  balance : Int
  cachedFundingIndex : Int
  balance_valid : balanceField.isValid balance
  cachedFundingIndex_valid : fundingIndexField.isValid cachedFundingIndex

namespace PositionAsset

@[ext] theorem ext' {a b : PositionAsset} (hb : a.balance = b.balance)
    (hf : a.cachedFundingIndex = b.cachedFundingIndex) : a = b := by
  cases a; cases b; simp_all

/-- The packed integer of `calculate_message`. -/
def packed (asset : PositionAsset) (assetId : Int) : Int :=
  let balanceRangeSize := balanceUpperBound - balanceLowerBound
  let fundingIndexRangeSize := fundingIndexUpperBound - fundingIndexLowerBound
  let assetPacked := assetId * fundingIndexRangeSize +
    (asset.cachedFundingIndex - fundingIndexLowerBound)
  let shiftedBalance := asset.balance - balanceLowerBound
  assetPacked * balanceRangeSize + shiftedBalance

/-- `PositionAsset.calculate_message(asset_id)`; the bare `assert` on the bounds raises with an
empty message. -/
def calculateMessage (fieldPrime : Int) (asset : PositionAsset) (assetId : Int) :
    Except String Bytes :=
  let balanceRangeSize := balanceUpperBound - balanceLowerBound
  let fundingIndexRangeSize := fundingIndexUpperBound - fundingIndexLowerBound
  if assetIdUpperBound * fundingIndexRangeSize * balanceRangeSize < fieldPrime then
    toHashBytes (asset.packed assetId)
  else .error ""

/-- The packing is a mixed-radix numeral: in `[0, 2 ^ 248)` and injective on valid inputs. -/
theorem packed_range (asset : PositionAsset) {assetId : Int} (hid : assetIdField.isValid assetId) :
    0 ≤ asset.packed assetId ∧ asset.packed assetId < 2 ^ 248 := by
  have hb := asset.balance_valid
  have hf := asset.cachedFundingIndex_valid
  simp only [assetIdField, balanceField, fundingIndexField, RangeValidatedField.isValid,
    assetIdUpperBound, balanceUpperBound, balanceLowerBound, fundingIndexUpperBound,
    fundingIndexLowerBound] at hid hb hf
  simp only [packed, balanceUpperBound, balanceLowerBound, fundingIndexUpperBound,
    fundingIndexLowerBound]
  constructor <;> norm_num <;> omega

theorem packed_inj {a b : PositionAsset} {i j : Int} (h : a.packed i = b.packed j) :
    i = j ∧ a = b := by
  have ha := a.balance_valid; have hfa := a.cachedFundingIndex_valid
  have hb := b.balance_valid; have hfb := b.cachedFundingIndex_valid
  simp only [balanceField, fundingIndexField, RangeValidatedField.isValid, balanceUpperBound,
    balanceLowerBound, fundingIndexUpperBound, fundingIndexLowerBound] at ha hfa hb hfb
  simp only [packed, balanceUpperBound, balanceLowerBound, fundingIndexUpperBound,
    fundingIndexLowerBound] at h
  have hbal : a.balance = b.balance := by omega
  have hfund : a.cachedFundingIndex = b.cachedFundingIndex := by omega
  exact ⟨by omega, ext' hbal hfund⟩

end PositionAsset

/-- `PositionState(public_key, collateral_balance, assets)`: the assets are a mapping from asset
id to asset, so their ids are distinct and validated by `AssetIdField`. -/
structure PositionState where
  publicKey : Int
  collateralBalance : Int
  assets : List (Int × PositionAsset)
  collateralBalance_valid : balanceField.isValid collateralBalance
  assetIds_valid : ∀ a ∈ assets, assetIdField.isValid a.1
  assetIds_nodup : (assets.map Prod.fst).Nodup

namespace PositionState

/-- `sorted(self.assets.items())`: by asset id, the ids being distinct. -/
def sortedAssets (p : PositionState) : List (Int × PositionAsset) :=
  p.assets.insertionSort fun a b => a.1 ≤ b.1

/-- The messages `PositionState._hash` folds, in order. -/
def assetMessages (fieldPrime : Int) (p : PositionState) : Except String (List Bytes) :=
  p.sortedAssets.mapM fun a => a.2.calculateMessage fieldPrime a.1

/-- `PositionState._hash`. -/
def hash (fieldPrime : Int) (hashFunc : HashFunc) (p : PositionState) : Except String Bytes := do
  let positionPacked := (p.collateralBalance - balanceLowerBound) * nAssetsUpperBound +
    p.assets.length
  let assetMsgs ← p.assetMessages fieldPrime
  let assetsHash := assetMsgs.foldl hashFunc (List.replicate hashBytes 0)
  let publicKeyBytes ← toHashBytes p.publicKey
  let positionPackedBytes ← toHashBytes positionPacked
  return hashFunc (hashFunc assetsHash publicKeyBytes) positionPackedBytes

theorem mem_sortedAssets {p : PositionState} {a : Int × PositionAsset} :
    a ∈ p.sortedAssets ↔ a ∈ p.assets :=
  (List.perm_insertionSort _ p.assets).mem_iff

end PositionState

section Messages

variable {fieldPrime : Int}

theorem calculateMessage_eq (hp : 2 ^ 248 < fieldPrime) (asset : PositionAsset) {assetId : Int}
    (hid : assetIdField.isValid assetId) :
    asset.calculateMessage fieldPrime assetId =
      .ok (bytesBE hashBytes (asset.packed assetId).toNat) := by
  have hr := asset.packed_range hid
  rw [PositionAsset.calculateMessage, if_pos (by norm_num [assetIdUpperBound, balanceUpperBound,
    balanceLowerBound, fundingIndexUpperBound, fundingIndexLowerBound]; linarith),
    toHashBytes, toBytes_of_lt hr.1 (by simp only [hashBytes]; linarith [hr.2])]

/-- `mapM` of a function injective on the elements of two lists is injective on them. -/
theorem mapM_inj {α β : Type} {f : α → Except String β} {S : α → Prop}
    (hf : ∀ a a' b, S a → S a' → f a = .ok b → f a' = .ok b → a = a') :
    ∀ {l l' : List α} {bs : List β}, (∀ a ∈ l, S a) → (∀ a ∈ l', S a) →
      l.mapM f = .ok bs → l'.mapM f = .ok bs → l = l'
  | [], [], _, _, _, _, _ => rfl
  | [], _ :: _, _, _, _, h, h' => by
    obtain ⟨_, _, _, _, rfl⟩ := mapM_cons_eq_ok.mp h'
    cases mapM_nil_eq_ok.mp h
  | _ :: _, [], _, _, _, h, h' => by
    obtain ⟨_, _, _, _, rfl⟩ := mapM_cons_eq_ok.mp h
    cases mapM_nil_eq_ok.mp h'
  | a :: l, a' :: l', _, hl, hl', h, h' => by
    obtain ⟨b, bs, hb, hr, rfl⟩ := mapM_cons_eq_ok.mp h
    obtain ⟨b', bs', hb', hr', he⟩ := mapM_cons_eq_ok.mp h'
    obtain ⟨rfl, rfl⟩ := List.cons.inj he
    rw [hf a a' b (hl a (List.mem_cons_self _ _)) (hl' a' (List.mem_cons_self _ _)) hb hb',
      mapM_inj hf (fun x hx => hl x (List.mem_cons_of_mem _ hx))
        (fun x hx => hl' x (List.mem_cons_of_mem _ hx)) hr hr']

/-- `calculate_message` packs every asset of a valid id into the 32-byte encoding of a number
below `2 ^ 248`, hence below `FIELD_PRIME`; the message determines the asset id, the funding
index and the balance; and so positions whose sorted asset lists differ feed different message
sequences into `PositionState._hash`. -/
theorem calculateMessage_spec (hp : 2 ^ 248 < fieldPrime) :
    (∀ (asset : PositionAsset) (assetId : Int), assetIdField.isValid assetId →
      ∃ v : Int, 0 ≤ v ∧ v < 2 ^ 248 ∧ v < fieldPrime ∧
        asset.calculateMessage fieldPrime assetId = .ok (bytesBE hashBytes v.toNat)) ∧
    (∀ (a b : PositionAsset) (i j : Int), assetIdField.isValid i → assetIdField.isValid j →
      ∀ m, a.calculateMessage fieldPrime i = .ok m → b.calculateMessage fieldPrime j = .ok m →
        i = j ∧ a.cachedFundingIndex = b.cachedFundingIndex ∧ a.balance = b.balance) ∧
    (∀ p q : PositionState, ∃ ms ms', p.assetMessages fieldPrime = .ok ms ∧
      q.assetMessages fieldPrime = .ok ms' ∧ (p.sortedAssets ≠ q.sortedAssets → ms ≠ ms')) := by
  have hmsg : ∀ (a b : PositionAsset) (i j : Int), assetIdField.isValid i →
      assetIdField.isValid j → ∀ m, a.calculateMessage fieldPrime i = .ok m →
        b.calculateMessage fieldPrime j = .ok m → i = j ∧ a = b := by
    intro a b i j hi hj m ha hb
    rw [calculateMessage_eq hp a hi] at ha
    rw [calculateMessage_eq hp b hj] at hb
    have hra := a.packed_range hi
    have hrb := b.packed_range hj
    have := bytesBE_inj (by simp only [hashBytes]; omega) (by simp only [hashBytes]; omega)
      (Except.ok.inj (ha.trans hb.symm))
    exact PositionAsset.packed_inj (by omega)
  have hok : ∀ p : PositionState, ∃ ms, p.assetMessages fieldPrime = .ok ms := by
    intro p
    refine ⟨p.sortedAssets.map fun a => bytesBE hashBytes (a.2.packed a.1).toNat, ?_⟩
    unfold PositionState.assetMessages
    have hv : ∀ a ∈ p.sortedAssets, assetIdField.isValid a.1 :=
      fun a ha => p.assetIds_valid a (PositionState.mem_sortedAssets.mp ha)
    generalize p.sortedAssets = l at hv ⊢
    induction l with
    | nil => rfl
    | cons a l ih =>
      exact mapM_cons_eq_ok.mpr ⟨_, _, calculateMessage_eq hp a.2 (hv a (List.mem_cons_self _ _)),
        ih fun x hx => hv x (List.mem_cons_of_mem _ hx), rfl⟩
  refine ⟨fun a i hi => ⟨_, (a.packed_range hi).1, (a.packed_range hi).2,
      by linarith [(a.packed_range hi).2], calculateMessage_eq hp a hi⟩,
    fun a b i j hi hj m ha hb => ?_, fun p q => ?_⟩
  · obtain ⟨rfl, rfl⟩ := hmsg a b i j hi hj m ha hb
    exact ⟨rfl, rfl, rfl⟩
  · obtain ⟨ms, hms⟩ := hok p
    obtain ⟨ms', hms'⟩ := hok q
    refine ⟨ms, ms', hms, hms', fun hne heq => hne ?_⟩
    subst heq
    exact mapM_inj
      (fun (x y : Int × PositionAsset) m (hx : assetIdField.isValid x.1)
          (hy : assetIdField.isValid y.1) hxm hym => by
        obtain ⟨h1, h2⟩ := hmsg x.2 y.2 x.1 y.1 hx hy m hxm hym
        exact Prod.ext h1 h2)
      (fun a ha => p.assetIds_valid a (PositionState.mem_sortedAssets.mp ha))
      (fun a ha => q.assetIds_valid a (PositionState.mem_sortedAssets.mp ha)) hms hms'

/-- The theorem at the field prime of the Stark curve, `2 ^ 251 + 17 * 2 ^ 192 + 1`. -/
theorem calculateMessage_spec_stark :
    (∀ (asset : PositionAsset) (assetId : Int), assetIdField.isValid assetId →
      ∃ v : Int, 0 ≤ v ∧ v < 2 ^ 248 ∧ v < 2 ^ 251 + 17 * 2 ^ 192 + 1 ∧
        asset.calculateMessage (2 ^ 251 + 17 * 2 ^ 192 + 1) assetId =
          .ok (bytesBE hashBytes v.toNat)) ∧
    (∀ (a b : PositionAsset) (i j : Int), assetIdField.isValid i → assetIdField.isValid j →
      ∀ m, a.calculateMessage (2 ^ 251 + 17 * 2 ^ 192 + 1) i = .ok m →
        b.calculateMessage (2 ^ 251 + 17 * 2 ^ 192 + 1) j = .ok m →
        i = j ∧ a.cachedFundingIndex = b.cachedFundingIndex ∧ a.balance = b.balance) ∧
    (∀ p q : PositionState, ∃ ms ms', p.assetMessages (2 ^ 251 + 17 * 2 ^ 192 + 1) = .ok ms ∧
      q.assetMessages (2 ^ 251 + 17 * 2 ^ 192 + 1) = .ok ms' ∧
      (p.sortedAssets ≠ q.sortedAssets → ms ≠ ms')) :=
  calculateMessage_spec (by norm_num)

end Messages

/-! ### Funding -/

/-- `FIXED_POINT_UNIT`: `2 ** FIXED_POINT_PRECISION`, with `FIXED_POINT_PRECISION = 32`. -/
def fixedPointUnit : Int := 2 ^ 32

/-- `hex(n)`: lower-case hexadecimal digits after `0x`, and a minus sign before a negative
number. -/
def hexInt (n : Int) : String :=
  (if n < 0 then "-0x" else "0x") ++ String.mk (Nat.toDigits 16 n.natAbs)

example : hexInt 255 = "0xff" ∧ hexInt 0 = "0x0" ∧ hexInt (-16) = "-0x10" := by decide

/-- `FundingIndicesState(indices, timestamp)`: the global funding index of each synthetic asset,
validated by `FundingIndexField`.  `apply_funding` does not read the timestamp. -/
structure FundingIndicesState where
  indices : List (Int × Int)
  indices_valid : ∀ a ∈ indices, fundingIndexField.isValid a.2

namespace FundingIndicesState

/-- `global_funding_indices.indices[asset_id]`, which `apply_funding` reads after
`verify_asset_index_exists`: the default `0` is never taken there. -/
def index (g : FundingIndicesState) (assetId : Int) : Int := (g.indices.lookup assetId).getD 0

theorem index_valid (g : FundingIndicesState) (assetId : Int) :
    fundingIndexField.isValid (g.index assetId) := by
  unfold index
  rcases h : g.indices.lookup assetId with _ | i
  · simp [fundingIndexField, RangeValidatedField.isValid, fundingIndexLowerBound,
      fundingIndexUpperBound]
  · obtain ⟨l₁, l₂, hl, -⟩ := List.lookup_eq_some_iff.mp h
    exact g.indices_valid _ (hl ▸ List.mem_append_right _ (List.mem_cons_self _ _))

end FundingIndicesState

/-- `verify_asset_index_exists(asset_id, global_funding_indices)`. -/
def verifyAssetIndexExists (assetId : Int) (globalFundingIndices : FundingIndicesState) :
    Except String Unit :=
  if (globalFundingIndices.indices.lookup assetId).isSome then .ok ()
  else .error ("Funding index for asset " ++ hexInt assetId ++ " does not appear in state.")

/-- `dataclasses.replace(asset, cached_funding_index=global_funding_index)`. -/
def PositionAsset.withCachedFundingIndex (asset : PositionAsset) (g : FundingIndicesState)
    (assetId : Int) : PositionAsset :=
  ⟨asset.balance, g.index assetId, asset.balance_valid, g.index_valid assetId⟩

/-- One iteration of the loop of `apply_funding` over `self.assets.items()`, on the pair
`(updated_assets, funding_delta)`. -/
def fundingStep (globalFundingIndices : FundingIndicesState)
    (acc : List (Int × PositionAsset) × Int) (item : Int × PositionAsset) :
    Except String (List (Int × PositionAsset) × Int) := do
  verifyAssetIndexExists item.1 globalFundingIndices
  let globalFundingIndex := globalFundingIndices.index item.1
  let fundingDiff := globalFundingIndex - item.2.cachedFundingIndex
  return (acc.1 ++ [(item.1, item.2.withCachedFundingIndex globalFundingIndices item.1)],
    acc.2 - item.2.balance * fundingDiff)

/-- `PositionState.apply_funding(global_funding_indices)`: the collateral balance and the assets
of the position it returns; `//` by the positive `FIXED_POINT_UNIT` rounds down, as `/` on `Int`
does. -/
def PositionState.applyFunding (p : PositionState) (globalFundingIndices : FundingIndicesState) :
    Except String (Int × List (Int × PositionAsset)) := do
  let (updatedAssets, fundingDelta) ← p.assets.foldlM (fundingStep globalFundingIndices) ([], 0)
  return (p.collateralBalance + fundingDelta / fixedPointUnit, updatedAssets)

section Funding

variable (g : FundingIndicesState)

/-- The funding owed by the assets `assets` at the indices `g`: `balance * (index - cached)`
summed. -/
def fundingOwed (assets : List (Int × PositionAsset)) : Int :=
  (assets.map fun a => a.2.balance * (g.index a.1 - a.2.cachedFundingIndex)).sum

/-- The assets with their cached funding indices moved to `g`. -/
def fundedAssets (assets : List (Int × PositionAsset)) : List (Int × PositionAsset) :=
  assets.map fun a => (a.1, a.2.withCachedFundingIndex g a.1)

theorem foldlM_fundingStep_ok : ∀ (assets : List (Int × PositionAsset))
    (acc : List (Int × PositionAsset) × Int), (∀ a ∈ assets, (g.indices.lookup a.1).isSome) →
    assets.foldlM (fundingStep g) acc = .ok (acc.1 ++ fundedAssets g assets, acc.2 - fundingOwed g assets)
  | [], acc, _ => by simp [fundedAssets, fundingOwed, except_pure]
  | a :: assets, acc, h => by
    rw [List.foldlM_cons]
    have ha : verifyAssetIndexExists a.1 g = .ok () := if_pos (h a (List.mem_cons_self _ _))
    simp only [fundingStep, ha, except_ok_bind, except_pure]
    rw [foldlM_fundingStep_ok assets _ fun b hb => h b (List.mem_cons_of_mem _ hb)]
    simp only [fundedAssets, fundingOwed, List.map_cons, List.sum_cons, List.append_assoc,
      List.singleton_append]
    congr 2
    ring

theorem fundedAssets_fst (assets : List (Int × PositionAsset)) :
    (fundedAssets g assets).map Prod.fst = assets.map Prod.fst := by
  simp [fundedAssets]

/-- Funding at `g'` after funding at `g` moves the cached indices to `g'`, as funding at `g'`
alone does. -/
theorem fundedAssets_fundedAssets (g' : FundingIndicesState) (assets : List (Int × PositionAsset)) :
    fundedAssets g' (fundedAssets g assets) = fundedAssets g' assets := by
  simp only [fundedAssets, List.map_map]
  rfl

/-- What is owed at `g'` after funding at `g`, plus what was owed at `g`, is what is owed at `g'`
from the start. -/
theorem fundingOwed_fundedAssets (g' : FundingIndicesState) (assets : List (Int × PositionAsset)) :
    fundingOwed g' (fundedAssets g assets) + fundingOwed g assets = fundingOwed g' assets := by
  induction assets with
  | nil => rfl
  | cons a assets ih =>
    simp only [fundingOwed, fundedAssets, List.map_cons, List.sum_cons] at ih ⊢
    rw [← ih]
    simp only [PositionAsset.withCachedFundingIndex]
    ring

theorem applyFunding_of_present {p : PositionState}
    (h : ∀ a ∈ p.assets, (g.indices.lookup a.1).isSome) :
    p.applyFunding g = .ok (p.collateralBalance + -fundingOwed g p.assets / fixedPointUnit,
      fundedAssets g p.assets) := by
  rw [PositionState.applyFunding, foldlM_fundingStep_ok g _ _ h]
  simp

theorem applyFunding_of_missing {p : PositionState} {pre post : List (Int × PositionAsset)}
    {a : Int × PositionAsset} (hp : p.assets = pre ++ a :: post)
    (hpre : ∀ b ∈ pre, (g.indices.lookup b.1).isSome) (ha : g.indices.lookup a.1 = none) :
    p.applyFunding g =
      .error ("Funding index for asset " ++ hexInt a.1 ++ " does not appear in state.") := by
  have hv : verifyAssetIndexExists a.1 g = .error
      ("Funding index for asset " ++ hexInt a.1 ++ " does not appear in state.") := by
    rw [verifyAssetIndexExists, ha]; rfl
  rw [PositionState.applyFunding, hp, List.foldlM_append, foldlM_fundingStep_ok g _ _ hpre,
    except_ok_bind, List.foldlM_cons]
  simp only [fundingStep, hv, except_error_bind]

/-- Either every asset of the position has a global index, or there is a first one without. -/
theorem present_or_first_missing (assets : List (Int × PositionAsset)) :
    (∀ a ∈ assets, (g.indices.lookup a.1).isSome) ∨
      ∃ pre a post, assets = pre ++ a :: post ∧ (∀ b ∈ pre, (g.indices.lookup b.1).isSome) ∧
        g.indices.lookup a.1 = none := by
  rcases hf : assets.find? (fun a => (g.indices.lookup a.1).isNone) with _ | a
  · exact .inl fun a ha => by simpa using List.find?_eq_none.mp hf a ha
  · obtain ⟨hna, pre, post, hp, hpre⟩ := List.find?_eq_some.mp hf
    exact .inr ⟨pre, a, post, hp, fun b hb => by simpa using hpre b hb, by simpa using hna⟩

theorem present_of_applyFunding_eq_ok {p : PositionState} {r : Int × List (Int × PositionAsset)}
    (h : p.applyFunding g = .ok r) : ∀ a ∈ p.assets, (g.indices.lookup a.1).isSome := by
  rcases present_or_first_missing g p.assets with hp | ⟨pre, a, post, hp, hpre, ha⟩
  · exact hp
  · rw [applyFunding_of_missing g hp hpre ha] at h
    cases h

end Funding

/-- Funding twice at the same indices is funding once: the second call owes nothing and keeps the
assets. -/
theorem applyFunding_idempotent {p p₁ : PositionState} {g : FundingIndicesState}
    {collateral : Int} {assets : List (Int × PositionAsset)}
    (h : p.applyFunding g = .ok (collateral, assets))
    (hp₁ : p₁.collateralBalance = collateral ∧ p₁.assets = assets) :
    p₁.applyFunding g = .ok (collateral, assets) := by
  have hpresent := present_of_applyFunding_eq_ok g h
  rw [applyFunding_of_present g hpresent] at h
  obtain ⟨rfl, rfl⟩ := Prod.mk.inj (Except.ok.inj h)
  have hpresent₁ : ∀ a ∈ p₁.assets, (g.indices.lookup a.1).isSome := by
    intro a ha
    rw [hp₁.2] at ha
    obtain ⟨b, hb, rfl⟩ := List.mem_map.mp ha
    exact hpresent b hb
  rw [applyFunding_of_present g hpresent₁, hp₁.1, hp₁.2, fundedAssets_fundedAssets]
  have := fundingOwed_fundedAssets g g p.assets
  rw [show fundingOwed g (fundedAssets g p.assets) = 0 by omega]
  simp

/-- An asset of balance `3` whose funding index is cached at `0`. -/
def fundingAsset : PositionAsset :=
  ⟨3, 0, by norm_num [balanceField, RangeValidatedField.isValid, balanceLowerBound, balanceUpperBound],
    by norm_num [fundingIndexField, RangeValidatedField.isValid, fundingIndexLowerBound,
      fundingIndexUpperBound]⟩

/-- A position with collateral balance `10` and `fundingAsset` as asset `1`. -/
def fundingPosition : PositionState :=
  ⟨0, 10, [(1, fundingAsset)],
    by norm_num [balanceField, RangeValidatedField.isValid, balanceLowerBound, balanceUpperBound],
    by simp [assetIdField, RangeValidatedField.isValid, assetIdUpperBound], by simp⟩

/-- The global funding index of asset `1` at `index`. -/
def fundingIndicesOne (index : Int) (h : fundingIndexField.isValid index) : FundingIndicesState :=
  ⟨[(1, index)], by simpa using h⟩

/-- Half a unit of funding per unit of balance. -/
def fundingHalf : FundingIndicesState :=
  fundingIndicesOne (2 ^ 31) (by norm_num [fundingIndexField, RangeValidatedField.isValid,
    fundingIndexLowerBound, fundingIndexUpperBound])

/-- One unit of funding per unit of balance. -/
def fundingOne : FundingIndicesState :=
  fundingIndicesOne (2 ^ 32) (by norm_num [fundingIndexField, RangeValidatedField.isValid,
    fundingIndexLowerBound, fundingIndexUpperBound])

/-- `fundingPosition` after funding at `fundingHalf`. -/
def fundingPositionHalf : PositionState :=
  ⟨0, 8, fundedAssets fundingHalf fundingPosition.assets,
    by norm_num [balanceField, RangeValidatedField.isValid, balanceLowerBound, balanceUpperBound],
    by simp [fundedAssets, fundingPosition, assetIdField, RangeValidatedField.isValid, assetIdUpperBound],
    by simp [fundedAssets, fundingPosition]⟩

theorem applyFunding_fundingHalf :
    fundingPosition.applyFunding fundingHalf = .ok (8, fundedAssets fundingHalf fundingPosition.assets) := by
  rw [applyFunding_of_present _ (by simp [fundingPosition, fundingHalf, fundingIndicesOne])]
  simp [fundingOwed, FundingIndicesState.index, fundingPosition, fundingHalf, fundingIndicesOne,
    fundingAsset, fixedPointUnit]

theorem applyFunding_idempotent_half :
    fundingPositionHalf.applyFunding fundingHalf =
      .ok (8, fundedAssets fundingHalf fundingPosition.assets) :=
  applyFunding_idempotent applyFunding_fundingHalf ⟨rfl, rfl⟩

end AvailabilityCommittee
