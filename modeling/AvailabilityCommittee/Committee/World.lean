import AvailabilityCommittee.Committee.BatchInfo

/-! # The committee's world and its commands

`Committee` talks to three things: its storage (the batch infos and `committee_next_batch_id`),
its fact storage (the trees) and the availability gateway.  A `World` holds what the storage
and the fact storage contain, the loop's in-memory `next_batch_id`, and the events an observer
sees: every write to the storage and every signature the gateway accepted.

Every call to the outside may raise (a storage error, a gateway timeout, a refused signature).
Which ones do is fixed by an `Environment`, as is what the gateway answers, both indexed by the
number of calls made so far; a theorem over every environment is a theorem over every run.  A
command is an `EStateM String World`: as in Python, the writes made before an exception stay.

`Spec P c Q E` is the Hoare triple of a command with a postcondition `Q` on return and `E` on
exception.  Its rules (`Spec.bind`, `Spec.call`, `Spec.liftExcept`, …) are the only place that
unfolds `EStateM`. -/

namespace AvailabilityCommittee

/-- What an observer of the committee sees, in order: the writes to its storage and the
signatures the gateway accepted (`send_signature` returned). -/
inductive Event
  | setNextBatchId (value : Int)
  | setBatchInfo (batchId : Int)
  | signatureAccepted (batchId : Int) (signature memberKey claimHash : String)
deriving DecidableEq, Repr

/-- The committee's storage: `committee_next_batch_id`, `new_committee_batch_info:<id>` and the
legacy `committee_batch_info:<id>`; its fact storage; the in-memory `next_batch_id` of the running
loop; the number of external calls made; and the events so far. -/
structure World (Leaf : Type) where
  nextBatchIdValue : Option Int
  batchInfo : Int → Option CommitteeBatchInfo
  oldBatchInfo : Int → Option CommitteeBatchInfo
  facts : FactStore Leaf
  nextBatchId : Int
  calls : Nat
  trace : List Event

/-- The committee's surroundings: whether the `n`-th external call raises, and the gateway's
answer to a `get_batch_data(batch_id)` made as the `n`-th call. -/
structure Environment (Leaf : Type) where
  fails : Nat → Bool
  batchData : Nat → Int → Option (StateUpdate Leaf)

/-- A step of the committee: it returns or raises, and its writes stay either way. -/
abbrev Cmd (Leaf α : Type) := EStateM String (World Leaf) α

section Commands

variable {Leaf α : Type} (env : Environment Leaf)

/-! ### Executable definitions -/

/-- One call to the storage, the fact storage or the gateway, with effect `f`: it raises, with
no effect, when the environment fails it or `f` raises. -/
def call (f : World Leaf → Except String (α × World Leaf)) : Cmd Leaf α := fun w =>
  if env.fails w.calls then .error "external call failed" { w with calls := w.calls + 1 }
  else match f w with
    | .ok (a, w') => .ok a { w' with calls := w.calls + 1 }
    | .error e => .error e { w with calls := w.calls + 1 }

/-- A local computation: it raises when `x` does. -/
def liftExcept (x : Except String α) : Cmd Leaf α := fun w =>
  match x with
  | .ok a => .ok a w
  | .error e => .error e w

/-- The loop's `next_batch_id`. -/
def readNextBatchId : Cmd Leaf Int := fun w => .ok w.nextBatchId w

/-- `next_batch_id = value`. -/
def assignNextBatchId (value : Int) : Cmd Leaf Unit := fun w =>
  .ok () { w with nextBatchId := value }

theorem readNextBatchId_apply (w : World Leaf) : readNextBatchId w = .ok w.nextBatchId w := rfl

theorem assignNextBatchId_apply (value : Int) (w : World Leaf) :
    assignNextBatchId value w = .ok () { w with nextBatchId := value } := rfl

/-- `storage.get_value(committee_batch_info_key(batch_id))`. -/
def getBatchInfoValue (batchId : Int) : Cmd Leaf (Option CommitteeBatchInfo) :=
  call env fun w => .ok (w.batchInfo batchId, w)

/-- `storage.get_value(old_committee_batch_info_key(batch_id))`. -/
def getOldBatchInfoValue (batchId : Int) : Cmd Leaf (Option CommitteeBatchInfo) :=
  call env fun w => .ok (w.oldBatchInfo batchId, w)

/-- `storage.set_value(committee_batch_info_key(batch_id), batch_info)`. -/
def setBatchInfoValue (batchId : Int) (batchInfo : CommitteeBatchInfo) : Cmd Leaf Unit :=
  call env fun w => .ok ((), { w with
    batchInfo := Function.update w.batchInfo batchId (some batchInfo)
    trace := w.trace ++ [.setBatchInfo batchId] })

/-- `storage.get_int(next_batch_id_key())`. -/
def getNextBatchIdValue : Cmd Leaf (Option Int) :=
  call env fun w => .ok (w.nextBatchIdValue, w)

/-- `storage.set_int(next_batch_id_key(), value)`. -/
def setNextBatchIdValue (value : Int) : Cmd Leaf Unit :=
  call env fun w => .ok ((), { w with
    nextBatchIdValue := some value
    trace := w.trace ++ [.setNextBatchId value] })

/-- A computation on the fact storage (through the fact fetching context). -/
def onFacts (f : FactStore Leaf → Except String (α × FactStore Leaf)) : Cmd Leaf α :=
  call env fun w => (fun r => (r.1, { w with facts := r.2 })) <$> f w.facts

/-- `availability_gateway.get_batch_data(batch_id, validate_rollup)`. -/
def getBatchData (batchId : Int) : Cmd Leaf (Option (StateUpdate Leaf)) :=
  call env fun w => .ok (env.batchData w.calls batchId, w)

/-- `availability_gateway.send_signature(batch_id, sig, member_key, claim_hash)`: it returns
when the gateway answers `signature accepted`. -/
def sendSignature (batchId : Int) (signature memberKey claimHash : String) : Cmd Leaf Unit :=
  call env fun w => .ok ((), { w with
    trace := w.trace ++ [.signatureAccepted batchId signature memberKey claimHash] })

end Commands

/-! ### Triples -/

section Spec

variable {Leaf α β : Type}

/-- What a result satisfies: `Q` of the value and the final world, or `E` of the world the
exception left. -/
def Holds (Q : α → World Leaf → Prop) (E : World Leaf → Prop) :
    EStateM.Result String (World Leaf) α → Prop
  | .ok a w => Q a w
  | .error _ w => E w

/-- From every world satisfying `P`, the command returns a value `a` in a world satisfying
`Q a`, or raises in a world satisfying `E`. -/
def Spec (P : World Leaf → Prop) (c : Cmd Leaf α) (Q : α → World Leaf → Prop)
    (E : World Leaf → Prop) : Prop :=
  ∀ w, P w → Holds Q E (c w)

variable {P : World Leaf → Prop} {Q : α → World Leaf → Prop} {E : World Leaf → Prop}

theorem Spec.pure {a : α} (h : ∀ w, P w → Q a w) : Spec P (Pure.pure a) Q E := h

theorem Spec.bind {x : Cmd Leaf α} {f : α → Cmd Leaf β} {R : β → World Leaf → Prop}
    (hx : Spec P x Q E) (hf : ∀ a, Spec (Q a) (f a) R E) : Spec P (x >>= f) R E := by
  intro w hw
  have hxw := hx w hw
  show Holds R E (EStateM.bind x f w)
  unfold EStateM.bind
  cases h : x w with
  | ok a w' => rw [h] at hxw; exact hf a w' hxw
  | error e w' => rw [h] at hxw; exact hxw

theorem Spec.consequence {c : Cmd Leaf α} {P' : World Leaf → Prop} {Q' : α → World Leaf → Prop}
    {E' : World Leaf → Prop} (h : Spec P c Q E) (hP : ∀ w, P' w → P w)
    (hQ : ∀ a w, Q a w → Q' a w) (hE : ∀ w, E w → E' w) : Spec P' c Q' E' := by
  intro w hw
  have := h w (hP w hw)
  revert this
  cases c w with
  | ok a w' => exact hQ a w'
  | error e w' => exact hE w'

theorem Spec.throw {e : String} (h : ∀ w, P w → E w) :
    Spec P (MonadExcept.throw e : Cmd Leaf α) Q E := h

theorem Spec.liftExcept {x : Except String α} (herr : ∀ w, P w → E w)
    (hok : ∀ a w, x = .ok a → P w → Q a w) : Spec P (liftExcept x) Q E := by
  intro w hw
  cases hx : x with
  | ok a => simpa only [AvailabilityCommittee.liftExcept, hx, Holds] using hok a w hx hw
  | error e => simpa only [AvailabilityCommittee.liftExcept, hx, Holds] using herr w hw

theorem Spec.readNextBatchId {Q : Int → World Leaf → Prop} (h : ∀ w, P w → Q w.nextBatchId w) :
    Spec P readNextBatchId Q E := h

theorem Spec.assignNextBatchId {Q : Unit → World Leaf → Prop} {value : Int}
    (h : ∀ w, P w → Q () { w with nextBatchId := value }) :
    Spec P (assignNextBatchId value) Q E := h

/-- A call raises with only its count of calls changed, or returns with the effect of `f`. -/
theorem Spec.call {env : Environment Leaf} {f : World Leaf → Except String (α × World Leaf)}
    (herr : ∀ w, P w → E { w with calls := w.calls + 1 })
    (hok : ∀ w a w', P w → f w = .ok (a, w') → Q a { w' with calls := w.calls + 1 }) :
    Spec P (call env f) Q E := by
  intro w hw
  unfold AvailabilityCommittee.call
  split_ifs
  · exact herr w hw
  · cases hf : f w with
    | ok r => exact hok w r.1 r.2 hw hf
    | error e => exact herr w hw

/-- The world a step leaves, whether it returned or raised. -/
def final : EStateM.Result String (World Leaf) α → World Leaf
  | .ok _ w => w
  | .error _ w => w

theorem final_bind {x : Cmd Leaf α} {f : α → Cmd Leaf β} {w : World Leaf} :
    final ((x >>= f) w) = match x w with
      | .ok a w₁ => final (f a w₁)
      | .error _ w₁ => w₁ := by
  show final (EStateM.bind x f w) = _
  unfold EStateM.bind
  cases x w <;> rfl

theorem final_bind_ok {x : Cmd Leaf α} {f : α → Cmd Leaf β} {w w₁ : World Leaf} {a : α}
    (h : x w = .ok a w₁) : final ((x >>= f) w) = final (f a w₁) := by
  rw [final_bind, h]

theorem final_bind_error {x : Cmd Leaf α} {f : α → Cmd Leaf β} {w w₁ : World Leaf} {e : String}
    (h : x w = .error e w₁) : final ((x >>= f) w) = w₁ := by
  rw [final_bind, h]

/-- A call that raises has changed only the count of calls. -/
theorem call_eq_error {env : Environment Leaf} {f : World Leaf → Except String (α × World Leaf)}
    {w w' : World Leaf} {e : String} (h : call env f w = .error e w') :
    w' = { w with calls := w.calls + 1 } := by
  unfold call at h
  split_ifs at h
  · cases h; rfl
  · cases hf : f w with
    | ok r => rw [hf] at h; cases h
    | error e => rw [hf] at h; cases h; rfl

/-- A step keeps `I`, whether it returns or raises. -/
def Preserves (I : World Leaf → Prop) (c : Cmd Leaf α) : Prop :=
  Spec I c (fun _ => I) I

variable {I : World Leaf → Prop}

theorem Preserves.final {c : Cmd Leaf α} (h : Preserves I c) {w : World Leaf} (hw : I w) :
    I (AvailabilityCommittee.final (c w)) := by
  have := h w hw
  revert this
  cases c w <;> exact id

/-- The world a returning command leaves keeps what the command keeps. -/
theorem Preserves.of_eq_ok {c : Cmd Leaf α} (h : Preserves I c) {w w' : World Leaf} {a : α}
    (hw : I w) (hc : c w = .ok a w') : I w' := by
  have := h w hw
  rwa [hc] at this

theorem Preserves.bind {x : Cmd Leaf α} {f : α → Cmd Leaf β} (hx : Preserves I x)
    (hf : ∀ a, Preserves I (f a)) : Preserves I (x >>= f) :=
  Spec.bind hx hf

theorem Preserves.pure (a : α) : Preserves I (Pure.pure a : Cmd Leaf α) := fun _ h => h

theorem Preserves.liftExcept (x : Except String α) : Preserves I (liftExcept x) :=
  Spec.liftExcept (fun _ h => h) (fun _ _ _ h => h)

theorem Preserves.throw (e : String) : Preserves I (MonadExcept.throw e : Cmd Leaf α) :=
  fun _ h => h

/-- A call keeps an invariant that ignores the count of calls and that its effect keeps. -/
theorem Preserves.call {env : Environment Leaf} {f : World Leaf → Except String (α × World Leaf)}
    (hbump : ∀ w k, I w → I { w with calls := k })
    (hf : ∀ w a w', I w → f w = .ok (a, w') → I w') : Preserves I (call env f) :=
  Spec.call (fun w hw => hbump w _ hw) fun w a w' hw h => hbump w' _ (hf w a w' hw h)

end Spec

/-! ### Inversion on return -/

section Inversion

variable {Leaf α β : Type} {env : Environment Leaf} {w w' : World Leaf}

theorem bind_eq_ok {x : Cmd Leaf α} {f : α → Cmd Leaf β} {b : β}
    (h : (x >>= f) w = .ok b w') : ∃ a w₁, x w = .ok a w₁ ∧ f a w₁ = .ok b w' := by
  change EStateM.bind x f w = _ at h
  unfold EStateM.bind at h
  cases hx : x w with
  | ok a w₁ => rw [hx] at h; exact ⟨a, w₁, rfl, h⟩
  | error e w₁ => rw [hx] at h; cases h

theorem pure_eq_ok {a b : α} (h : (Pure.pure a : Cmd Leaf α) w = .ok b w') : a = b ∧ w' = w := by
  cases h; exact ⟨rfl, rfl⟩

theorem liftExcept_eq_ok {x : Except String α} {a : α} (h : liftExcept x w = .ok a w') :
    x = .ok a ∧ w' = w := by
  unfold liftExcept at h
  cases x with
  | ok b => cases h; exact ⟨rfl, rfl⟩
  | error e => cases h

theorem call_eq_ok {f : World Leaf → Except String (α × World Leaf)} {a : α}
    (h : call env f w = .ok a w') : ∃ w₁, f w = .ok (a, w₁) ∧ w' = { w₁ with calls := w.calls + 1 } := by
  unfold call at h
  split_ifs at h
  cases hf : f w with
  | ok r => rw [hf] at h; cases h; exact ⟨r.2, rfl, rfl⟩
  | error e => rw [hf] at h; cases h

theorem getBatchInfoValue_eq_ok {batchId : Int} {v : Option CommitteeBatchInfo}
    (h : getBatchInfoValue env batchId w = .ok v w') :
    v = w.batchInfo batchId ∧ w' = { w with calls := w.calls + 1 } := by
  obtain ⟨w₁, h₁, rfl⟩ := call_eq_ok h; cases h₁; exact ⟨rfl, rfl⟩

theorem getOldBatchInfoValue_eq_ok {batchId : Int} {v : Option CommitteeBatchInfo}
    (h : getOldBatchInfoValue env batchId w = .ok v w') :
    v = w.oldBatchInfo batchId ∧ w' = { w with calls := w.calls + 1 } := by
  obtain ⟨w₁, h₁, rfl⟩ := call_eq_ok h; cases h₁; exact ⟨rfl, rfl⟩

theorem setBatchInfoValue_eq_ok {batchId : Int} {batchInfo : CommitteeBatchInfo} {u : Unit}
    (h : setBatchInfoValue env batchId batchInfo w = .ok u w') :
    w' = { w with
      batchInfo := Function.update w.batchInfo batchId (some batchInfo)
      trace := w.trace ++ [.setBatchInfo batchId]
      calls := w.calls + 1 } := by
  obtain ⟨w₁, h₁, rfl⟩ := call_eq_ok h; cases h₁; rfl

theorem getNextBatchIdValue_eq_ok {v : Option Int} (h : getNextBatchIdValue env w = .ok v w') :
    v = w.nextBatchIdValue ∧ w' = { w with calls := w.calls + 1 } := by
  obtain ⟨w₁, h₁, rfl⟩ := call_eq_ok h; cases h₁; exact ⟨rfl, rfl⟩

theorem setNextBatchIdValue_eq_ok {value : Int} {u : Unit}
    (h : setNextBatchIdValue env value w = .ok u w') :
    w' = { w with
      nextBatchIdValue := some value
      trace := w.trace ++ [.setNextBatchId value]
      calls := w.calls + 1 } := by
  obtain ⟨w₁, h₁, rfl⟩ := call_eq_ok h; cases h₁; rfl

theorem onFacts_eq_ok {f : FactStore Leaf → Except String (α × FactStore Leaf)} {a : α}
    (h : onFacts env f w = .ok a w') :
    ∃ s, f w.facts = .ok (a, s) ∧ w' = { w with facts := s, calls := w.calls + 1 } := by
  obtain ⟨w₁, h₁, rfl⟩ := call_eq_ok h
  cases hf : f w.facts with
  | error e => rw [hf] at h₁; cases h₁
  | ok r => rw [hf] at h₁; cases h₁; exact ⟨r.2, rfl, rfl⟩

theorem getBatchData_eq_ok {batchId : Int} {v : Option (StateUpdate Leaf)}
    (h : getBatchData env batchId w = .ok v w') :
    v = env.batchData w.calls batchId ∧ w' = { w with calls := w.calls + 1 } := by
  obtain ⟨w₁, h₁, rfl⟩ := call_eq_ok h; cases h₁; exact ⟨rfl, rfl⟩

theorem sendSignature_eq_ok {batchId : Int} {signature memberKey claimHash : String} {u : Unit}
    (h : sendSignature env batchId signature memberKey claimHash w = .ok u w') :
    w' = { w with
      trace := w.trace ++ [.signatureAccepted batchId signature memberKey claimHash]
      calls := w.calls + 1 } := by
  obtain ⟨w₁, h₁, rfl⟩ := call_eq_ok h; cases h₁; rfl

end Inversion

end AvailabilityCommittee
