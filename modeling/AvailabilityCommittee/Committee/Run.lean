import AvailabilityCommittee.Committee.Validate

/-! # The committee's loop

`Committee.run` stores the initial batch info, loads `next_batch_id` (storing `0` when it is
absent), and loops: it asks the gateway for batch `next_batch_id`, and when there is one it
validates it, sends the signature, and once the gateway has accepted it moves `next_batch_id`
one up and stores it.  An exception anywhere in an iteration is logged and the loop goes on with
the same batch; `stop()` ends the loop between iterations.  A run is therefore its start followed
by any number of iterations (`runLoop`), each in any environment.

* `WritesBatchInfo b w w'`: the storage changed only by batch info writes under `b` or under keys
  that held none.  A validation of batch `b` makes no other write, whether it returns or raises
  (`validateDataAvailability_writes`).
* `IterationStep`: what one iteration can do, `loopIteration_step`: nothing beyond such writes,
  or such writes followed by the acceptance of the signature of the batch info then under
  `next_batch_id`, the move of the counter and at most the storing of its new value.
* `runLoop_accepted`: over a whole run, the accepted signatures are those of the consecutive
  batches from the loaded `next_batch_id`, each backed by the batch info it signs, which no later
  step writes again, and the stored counter never passes the in-memory one. -/

namespace AvailabilityCommittee

variable {Leaf : Type} [LeafFact Leaf] (env : Environment Leaf)

/-! ### Executable definitions -/

/-- `custom_validation.is_valid`: the hook for third-party validation accepts every state
update. -/
def isValid (_stateUpdate : StateUpdate Leaf) (_batchId : Int) : Bool := true

/-- The batch ids of the accepted signatures among the events, in order. -/
def acceptedBatchIds (events : List Event) : List Int :=
  events.filterMap fun
    | .signatureAccepted batchId _ _ _ => some batchId
    | _ => none

namespace Committee

variable (c : Committee Leaf)

/-- The start of `Committee.run`: the initial batch info, then `next_batch_id` from the storage,
or `0`, stored. -/
def runStart : Cmd Leaf Unit := do
  computeInitialBatchInfo env c
  match ← getNextBatchIdValue env with
  | some nextBatchId => assignNextBatchId nextBatchId
  | none => do
    assignNextBatchId 0
    setNextBatchIdValue env 0

/-- One iteration of the loop of `Committee.run`. -/
def runIteration : Cmd Leaf Unit := do
  let nextBatchId ← readNextBatchId
  match ← getBatchData env nextBatchId with
  | none => pure ()
  | some availabilityUpdate =>
    if !isValid availabilityUpdate nextBatchId then throw "Third party validation failed." else
    let (signature, availabilityClaim) ← validateDataAvailability env c nextBatchId
      availabilityUpdate c.config.validateOrders c.config.validateRollup
    sendSignature env nextBatchId signature c.address availabilityClaim
    assignNextBatchId (nextBatchId + 1)
    setNextBatchIdValue env (nextBatchId + 1)

/-- One turn of the loop: the world an iteration leaves, whether it returned or raised. -/
def loopIteration (w : World Leaf) : World Leaf := final (runIteration env c w)

/-- `n` turns of the loop. -/
def runLoop : Nat → World Leaf → World Leaf
  | 0, w => w
  | n + 1, w => runLoop n (loopIteration env c w)

theorem runLoop_succ (n : Nat) (w : World Leaf) :
    runLoop env c (n + 1) w = loopIteration env c (runLoop env c n w) := by
  induction n generalizing w with
  | zero => rfl
  | succ n ih => exact ih (loopIteration env c w)

end Committee

/-! ### The writes of a validation -/

/-- From `w` to `w'` the storage changed only by batch info writes, each under `batchId` or under a
key that held none and each recorded, and neither counter changed. -/
structure WritesBatchInfo (batchId : Int) (w w' : World Leaf) : Prop where
  trace : ∃ events, w'.trace = w.trace ++ events ∧
    ∀ e ∈ events, ∃ k, e = .setBatchInfo k ∧ (k = batchId ∨ w.batchInfo k = none)
  batchInfo : ∀ k, k ≠ batchId → w.batchInfo k ≠ none → w'.batchInfo k = w.batchInfo k
  nextBatchIdValue : w'.nextBatchIdValue = w.nextBatchIdValue
  nextBatchId : w'.nextBatchId = w.nextBatchId

namespace WritesBatchInfo

variable {batchId : Int} {w₁ w₂ w₃ : World Leaf}

omit [LeafFact Leaf] in
theorem refl (batchId : Int) (w : World Leaf) : WritesBatchInfo batchId w w :=
  ⟨⟨[], by simp, by simp⟩, fun _ _ _ => rfl, rfl, rfl⟩

omit [LeafFact Leaf] in
theorem trans (h₁ : WritesBatchInfo batchId w₁ w₂) (h₂ : WritesBatchInfo batchId w₂ w₃) :
    WritesBatchInfo batchId w₁ w₃ := by
  obtain ⟨events₁, he₁, hw₁⟩ := h₁.trace
  obtain ⟨events₂, he₂, hw₂⟩ := h₂.trace
  have hnone : ∀ k, k ≠ batchId → w₂.batchInfo k = none → w₁.batchInfo k = none := fun k hk h => by
    by_contra hne; rw [h₁.batchInfo k hk hne] at h; exact hne h
  refine ⟨⟨events₁ ++ events₂, by rw [he₂, he₁, List.append_assoc], fun e he => ?_⟩,
    fun k hk hne => ?_, h₂.nextBatchIdValue.trans h₁.nextBatchIdValue,
    h₂.nextBatchId.trans h₁.nextBatchId⟩
  · rcases List.mem_append.mp he with he | he
    · exact hw₁ e he
    · obtain ⟨k, rfl, hk⟩ := hw₂ e he
      by_cases hkb : k = batchId
      · exact ⟨k, rfl, .inl hkb⟩
      · exact ⟨k, rfl, .inr (hnone k hkb (hk.resolve_left hkb))⟩
  · rw [h₂.batchInfo k hk (by rwa [h₁.batchInfo k hk hne]), h₁.batchInfo k hk hne]

omit [LeafFact Leaf] in
theorem facts_calls (h : WritesBatchInfo batchId w₁ w₂) (s : FactStore Leaf) (k : Nat) :
    WritesBatchInfo batchId w₁ { w₂ with facts := s, calls := k } :=
  ⟨h.trace, h.batchInfo, h.nextBatchIdValue, h.nextBatchId⟩

omit [LeafFact Leaf] in
theorem setBatchInfo (h : WritesBatchInfo batchId w₁ w₂) {k : Int}
    (hk : k = batchId ∨ w₂.batchInfo k = none) (batchInfo : CommitteeBatchInfo) :
    WritesBatchInfo batchId w₁ { w₂ with
      batchInfo := Function.update w₂.batchInfo k (some batchInfo)
      trace := w₂.trace ++ [.setBatchInfo k] } := by
  obtain ⟨events, he, hw⟩ := h.trace
  have hk₁ : k = batchId ∨ w₁.batchInfo k = none := by
    rcases eq_or_ne k batchId with hkb | hkb
    · exact .inl hkb
    · refine .inr (by_contra fun hne => hne ?_)
      rw [← h.batchInfo k hkb hne]; exact hk.resolve_left hkb
  refine ⟨⟨events ++ [.setBatchInfo k], by simp [he], fun e he' => ?_⟩, fun k' hk' hne => ?_,
    h.nextBatchIdValue, h.nextBatchId⟩
  · rcases List.mem_append.mp he' with he' | he'
    · exact hw e he'
    · exact ⟨k, List.mem_singleton.mp he', hk₁⟩
  · have hkk : k' ≠ k := fun e => by
      subst e
      rcases hk₁ with rfl | hn
      · exact hk' rfl
      · exact hne hn
    simp [Function.update_noteq hkk, h.batchInfo k' hk' hne]

end WritesBatchInfo

namespace Committee

variable {env} {c : Committee Leaf}

/-- A validation of batch `batchId` writes batch infos only under `batchId`, or under the key it
copies from the legacy one, which held none; whether it returns or raises. -/
theorem validateDataAvailability_writes (env : Environment Leaf) (c : Committee Leaf)
    (w₀ : World Leaf) (batchId : Int)
    (stateUpdate : StateUpdate Leaf) (validateOrders : Bool) (validateRollup : Option Bool) :
    Preserves (WritesBatchInfo batchId w₀)
      (c.validateDataAvailability env batchId stateUpdate validateOrders validateRollup) := by
  have hI : ∀ w s, WritesBatchInfo batchId w₀ w →
      WritesBatchInfo batchId w₀ { w with facts := s } := fun w s h => h.facts_calls s w.calls
  have hbump : ∀ w k, WritesBatchInfo batchId w₀ w →
      WritesBatchInfo batchId w₀ { w with calls := k } := fun w k h => h.facts_calls w.facts k
  unfold validateDataAvailability
  refine Preserves.bind ((getCommitteeBatchInfoOrFail_spec hbump fun w b h hn _ =>
    h.setBatchInfo (.inr hn) b).consequence (fun _ h => h) (fun _ _ h => h.1) fun _ h => h)
    fun _ => ?_
  refine Preserves.bind (prevMerkleRoots_preserves hbump (fun w _ _ _ _ s h _ => hI w s h) _)
    fun prevRoots => ?_
  refine Preserves.bind (Preserves.liftExcept _) fun validated => ?_
  refine Preserves.bind (computeMerkleRoots_preserves hbump (fun w _ _ _ _ _ s h _ => hI w s h)
      prevRoots stateUpdate validated)
    fun _ => ?_
  refine Preserves.bind (Preserves.liftExcept _) fun _ => ?_
  refine Preserves.bind (Preserves.liftExcept _) fun _ => ?_
  refine Preserves.bind (Preserves.call hbump fun w _ w' h e => ?_) fun _ =>
    Preserves.bind (Preserves.liftExcept _) fun _ =>
      Preserves.bind (Preserves.liftExcept _) fun _ => Preserves.pure _
  cases e
  exact h.setBatchInfo (.inl rfl) _

end Committee

/-! ### One iteration -/

/-- What one iteration from `w` to `w'` can do.  Either the storage changed only by batch info
writes under the in-memory `next_batch_id` or under keys that held none, and neither counter
moved.  Or, after such writes leading to `w₁`, the batch info stored under `next_batch_id` in `w₁`
is one whose claim the gateway accepted signed: the acceptance is the next event, the in-memory
counter moves one up, and the only other event is the storing of its new value. -/
def IterationStep (c : Committee Leaf) (w w' : World Leaf) : Prop :=
  WritesBatchInfo w.nextBatchId w w' ∨
    ∃ w₁ batchInfo signature claim, WritesBatchInfo w.nextBatchId w w₁ ∧
      w₁.batchInfo w.nextBatchId = some batchInfo ∧ c.SignedClaim batchInfo signature claim ∧
      w'.batchInfo = w₁.batchInfo ∧ w'.nextBatchId = w.nextBatchId + 1 ∧
      ((w'.trace = w₁.trace ++ [.signatureAccepted w.nextBatchId signature c.address claim] ∧
          w'.nextBatchIdValue = w₁.nextBatchIdValue) ∨
        (w'.trace = w₁.trace ++ [.signatureAccepted w.nextBatchId signature c.address claim,
            .setNextBatchId (w.nextBatchId + 1)] ∧
          w'.nextBatchIdValue = some (w.nextBatchId + 1)))

namespace Committee

variable {env} {c : Committee Leaf}

/-- Every iteration is an `IterationStep`, in every environment. -/
theorem loopIteration_step (w : World Leaf) : IterationStep c w (c.loopIteration env w) := by
  have hbump : ∀ {w'} k, WritesBatchInfo w.nextBatchId w w' →
      WritesBatchInfo w.nextBatchId w { w' with calls := k } := fun k h => h.facts_calls _ k
  unfold loopIteration runIteration
  rw [final_bind_ok (readNextBatchId_apply w)]
  cases h₁ : getBatchData env w.nextBatchId w with
  | error e w₁ =>
    rw [final_bind_error h₁, call_eq_error h₁]
    exact .inl (hbump _ (.refl _ _))
  | ok v w₁ =>
    rw [final_bind_ok h₁]
    obtain ⟨-, rfl⟩ := getBatchData_eq_ok h₁
    have hw₁ : WritesBatchInfo w.nextBatchId w { w with calls := w.calls + 1 } := hbump _ (.refl _ _)
    rcases v with _ | stateUpdate
    · exact .inl hw₁
    · simp only [isValid, Bool.not_true, Bool.false_eq_true, ↓reduceIte]
      have hv := validateDataAvailability_writes env c { w with calls := w.calls + 1 } w.nextBatchId
        stateUpdate c.config.validateOrders c.config.validateRollup
        { w with calls := w.calls + 1 } (.refl _ _)
      cases h₂ : c.validateDataAvailability env w.nextBatchId stateUpdate c.config.validateOrders
        c.config.validateRollup { w with calls := w.calls + 1 } with
      | error e w₂ =>
        rw [h₂] at hv
        rw [final_bind_error h₂]
        exact .inl (hw₁.trans hv)
      | ok r w₂ =>
        obtain ⟨signature, claim⟩ := r
        rw [h₂] at hv
        have hw₂ : WritesBatchInfo w.nextBatchId w w₂ := hw₁.trans hv
        obtain ⟨batchInfo, hstored, hsigned⟩ := validateDataAvailability_persists h₂
        rw [final_bind_ok h₂]
        cases h₃ : sendSignature env w.nextBatchId signature c.address claim w₂ with
        | error e w₃ =>
          rw [final_bind_error h₃, call_eq_error h₃]
          exact .inl (hbump _ hw₂)
        | ok u w₃ =>
          rw [final_bind_ok h₃, sendSignature_eq_ok h₃]
          rw [final_bind_ok (assignNextBatchId_apply _ _)]
          have hnext := hw₂.nextBatchId
          cases h₄ : setNextBatchIdValue env (w.nextBatchId + 1) _ with
          | error e w₄ =>
            rw [call_eq_error h₄]
            exact .inr ⟨w₂, batchInfo, signature, claim, hw₂, hstored, hsigned, rfl, rfl,
              .inl ⟨rfl, rfl⟩⟩
          | ok u' w₄ =>
            rw [setNextBatchIdValue_eq_ok h₄]
            exact .inr ⟨w₂, batchInfo, signature, claim, hw₂, hstored, hsigned, rfl, rfl,
              .inr ⟨by simp [final], rfl⟩⟩

end Committee

/-! ### The start -/

namespace Committee

variable {env} {c : Committee Leaf}

/-- A start that returns has loaded the stored `next_batch_id`, or `0`, and stored it. -/
theorem runStart_eq_ok {w₀ w₁ : World Leaf} (h : c.runStart env w₀ = .ok () w₁) :
    w₁.nextBatchId = w₀.nextBatchIdValue.getD 0 ∧ w₁.nextBatchIdValue = some w₁.nextBatchId := by
  unfold runStart at h
  obtain ⟨_, wa, ha, h₂⟩ := bind_eq_ok h
  have hkeep : Preserves (fun w => w.nextBatchIdValue = w₀.nextBatchIdValue)
      (c.computeInitialBatchInfo env) :=
    Preserves.bind (computeEmptyRoots_preserves (fun _ _ h => h) (fun _ _ _ _ _ _ h _ => h) _)
      fun _ => Preserves.call (fun _ _ h => h) fun w _ w' h e => by cases e; exact h
  have hva : wa.nextBatchIdValue = w₀.nextBatchIdValue := by
    simpa [ha] using hkeep.final rfl
  obtain ⟨v, wb, hb, h₃⟩ := bind_eq_ok h₂
  obtain ⟨rfl, rfl⟩ := getNextBatchIdValue_eq_ok hb
  cases hv : wa.nextBatchIdValue with
  | some value =>
    rw [hv] at h₃
    cases h₃
    exact ⟨by simp [← hva, hv], rfl⟩
  | none =>
    rw [hv] at h₃
    obtain ⟨_, wc, hc, h₄⟩ := bind_eq_ok h₃
    cases hc
    rw [setNextBatchIdValue_eq_ok h₄]
    exact ⟨by simp [← hva, hv], rfl⟩

end Committee

/-! ### A whole run -/

omit [LeafFact Leaf] in
theorem acceptedBatchIds_append (events events' : List Event) :
    acceptedBatchIds (events ++ events') = acceptedBatchIds events ++ acceptedBatchIds events' :=
  List.filterMap_append _ _ _

omit [LeafFact Leaf] in
/-- Events none of which is an acceptance accept no signature. -/
theorem acceptedBatchIds_eq_nil {events : List Event}
    (h : ∀ e ∈ events, acceptedBatchIds [e] = []) : acceptedBatchIds events = [] := by
  induction events with
  | nil => rfl
  | cons e events ih =>
    rw [← List.singleton_append, acceptedBatchIds_append, h e (List.mem_cons_self _ _),
      ih fun e he => h e (List.mem_cons_of_mem _ he), List.nil_append]

omit [LeafFact Leaf] in
theorem mem_acceptedBatchIds {events : List Event} {batchId : Int} {signature memberKey claim : String}
    (h : Event.signatureAccepted batchId signature memberKey claim ∈ events) :
    batchId ∈ acceptedBatchIds events :=
  List.mem_filterMap.mpr ⟨_, h, rfl⟩

omit [LeafFact Leaf] in
/-- An event of `events ++ new` is one of `events`, or one of `new`. -/
theorem append_eq_append_cons {events new pre post : List Event} {e : Event}
    (h : events ++ new = pre ++ e :: post) :
    (∃ post₀, events = pre ++ e :: post₀ ∧ post = post₀ ++ new) ∨
      ∃ pre₁, pre = events ++ pre₁ ∧ new = pre₁ ++ e :: post := by
  rcases List.append_eq_append_iff.mp h.symm with ⟨a', he, hn⟩ | ⟨c', hp, hn⟩
  · rcases a' with _ | ⟨x, a''⟩
    · exact .inr ⟨[], by simpa using he.symm, by simpa using hn.symm⟩
    · obtain ⟨rfl, rfl⟩ := List.cons_eq_cons.mp hn
      exact .inl ⟨a'', he, rfl⟩
  · exact .inr ⟨c', hp, hn⟩

/-- What holds after the iterations of a run whose start left `w₁`: the accepted signatures are
those of consecutive batches from the loaded counter, one per move of the in-memory counter; each
is the committee's, backed by the batch info it signs, and followed by no write of that batch
info; and the stored counter is at most the in-memory one. -/
def RunInvariant (c : Committee Leaf) (w₁ w : World Leaf) : Prop :=
  ∃ events, w.trace = w₁.trace ++ events ∧
    acceptedBatchIds events =
      (List.range (acceptedBatchIds events).length).map (fun (i : Nat) => w₁.nextBatchId + (i : Int)) ∧
    w.nextBatchId = w₁.nextBatchId + (acceptedBatchIds events).length ∧
    (∀ pre post batchId signature memberKey claim,
      events = pre ++ .signatureAccepted batchId signature memberKey claim :: post →
        memberKey = c.address ∧ .setBatchInfo batchId ∉ post ∧
        ∃ batchInfo, w.batchInfo batchId = some batchInfo ∧
          c.SignedClaim batchInfo signature claim) ∧
    ∃ stored, w.nextBatchIdValue = some stored ∧ stored ≤ w.nextBatchId

namespace RunInvariant

variable {c : Committee Leaf} {w₁ w w' : World Leaf}

omit [LeafFact Leaf] in
theorem start (h : w₁.nextBatchIdValue = some w₁.nextBatchId) : RunInvariant c w₁ w₁ :=
  ⟨[], by simp, by simp [acceptedBatchIds], by simp [acceptedBatchIds],
    fun pre post _ _ _ _ he => absurd he (by simp), _, h, le_rfl⟩

/-- Consecutive batch ids from `start` are below `start` plus their number. -/
theorem lt_of_mem_consecutive {start batchId : Int} {ids : List Int}
    (hids : ids = (List.range ids.length).map (fun (i : Nat) => start + (i : Int))) (hb : batchId ∈ ids) :
    batchId < start + ids.length := by
  rw [hids] at hb
  obtain ⟨i, hi, rfl⟩ := List.mem_map.mp hb
  have := List.mem_range.mp hi
  omega

omit [LeafFact Leaf] in
/-- An iteration that writes only batch infos keeps the invariant. -/
theorem writes (hinv : RunInvariant c w₁ w) (hw : WritesBatchInfo w.nextBatchId w w') :
    RunInvariant c w₁ w' := by
  obtain ⟨events, he, hids, hnext, hback, stored, hs, hle⟩ := hinv
  have hlt : ∀ b, b ∈ acceptedBatchIds events → b < w.nextBatchId :=
    fun b hb => hnext ▸ lt_of_mem_consecutive hids hb
  obtain ⟨new, hnew, hwr⟩ := hw.trace
  have hnil : acceptedBatchIds new = [] :=
    acceptedBatchIds_eq_nil fun e h => by obtain ⟨k, rfl, -⟩ := hwr e h; rfl
  refine ⟨events ++ new, by rw [hnew, he, List.append_assoc], ?_, ?_, fun pre post b sig mk cl h => ?_,
    stored, hw.nextBatchIdValue ▸ hs, by rw [hw.nextBatchId]; exact hle⟩
  · rw [acceptedBatchIds_append, hnil, List.append_nil]; exact hids
  · rw [acceptedBatchIds_append, hnil, List.append_nil, hw.nextBatchId]; exact hnext
  · rcases append_eq_append_cons h with ⟨post₀, hpre, rfl⟩ | ⟨pre₁, -, hpost⟩
    · obtain ⟨rfl, hnot, info, hinfo, hsigned⟩ := hback pre post₀ b sig mk cl hpre
      have hb : b < w.nextBatchId :=
        hlt b (mem_acceptedBatchIds (hpre ▸ List.mem_append_right _ (List.mem_cons_self _ _)))
      refine ⟨rfl, fun hmem => ?_, info, ?_, hsigned⟩
      · rcases List.mem_append.mp hmem with hmem | hmem
        · exact hnot hmem
        · obtain ⟨k, hk, hk'⟩ := hwr _ hmem
          cases hk
          rcases hk' with rfl | hn
          · exact lt_irrefl _ hb
          · simp [hn] at hinfo
      · rw [hw.batchInfo b (ne_of_lt hb) (by simp [hinfo]), hinfo]
    · obtain ⟨k, hk, -⟩ := hwr _ (hpost ▸ List.mem_append_right _ (List.mem_cons_self _ _))
      cases hk

omit [LeafFact Leaf] in
/-- An iteration whose signature was accepted keeps the invariant. -/
theorem accept (hinv : RunInvariant c w₁ w) {w₂ : World Leaf}
    (hw : WritesBatchInfo w.nextBatchId w w₂) {batchInfo : CommitteeBatchInfo}
    {signature claim : String} (hstored : w₂.batchInfo w.nextBatchId = some batchInfo)
    (hsigned : c.SignedClaim batchInfo signature claim) (hbi : w'.batchInfo = w₂.batchInfo)
    (hnext' : w'.nextBatchId = w.nextBatchId + 1) {tail : List Event}
    (htail : ∀ e ∈ tail, e = .setNextBatchId (w.nextBatchId + 1))
    (htrace : w'.trace =
      w₂.trace ++ .signatureAccepted w.nextBatchId signature c.address claim :: tail)
    (hvalue : ∃ stored, w'.nextBatchIdValue = some stored ∧ stored ≤ w'.nextBatchId) :
    RunInvariant c w₁ w' := by
  obtain ⟨events, he, hids, hnext, hback, -⟩ := hinv
  have hlt : ∀ b, b ∈ acceptedBatchIds events → b < w.nextBatchId :=
    fun b hb => hnext ▸ lt_of_mem_consecutive hids hb
  obtain ⟨new, hnew, hwr⟩ := hw.trace
  have hnil : acceptedBatchIds new = [] :=
    acceptedBatchIds_eq_nil fun e h => by obtain ⟨k, rfl, -⟩ := hwr e h; rfl
  have htailnil : acceptedBatchIds tail = [] :=
    acceptedBatchIds_eq_nil fun e h => by rw [htail e h]; rfl
  have hids' : acceptedBatchIds (events ++ (new ++ .signatureAccepted w.nextBatchId signature
      c.address claim :: tail)) = acceptedBatchIds events ++ [w.nextBatchId] := by
    rw [acceptedBatchIds_append, acceptedBatchIds_append, hnil, ← List.singleton_append,
      acceptedBatchIds_append, htailnil]
    rfl
  refine ⟨events ++ (new ++ .signatureAccepted w.nextBatchId signature c.address claim :: tail),
    by rw [htrace, hnew, he, List.append_assoc, List.append_assoc], ?_, ?_,
    fun pre post b sig mk cl h => ?_, hvalue⟩
  · rw [hids', List.length_append, List.length_singleton, List.range_succ, List.map_append,
      ← hids, hnext]
    rfl
  · rw [hids', List.length_append, List.length_singleton, hnext', hnext]
    push_cast
    ring
  · rcases append_eq_append_cons h with ⟨post₀, hpre, rfl⟩ | ⟨pre₁, -, hpost⟩
    · obtain ⟨rfl, hnot, info, hinfo, hsigned'⟩ := hback pre post₀ b sig mk cl hpre
      have hb : b < w.nextBatchId :=
        hlt b (mem_acceptedBatchIds (hpre ▸ List.mem_append_right _ (List.mem_cons_self _ _)))
      refine ⟨rfl, fun hmem => ?_, info, ?_, hsigned'⟩
      · simp only [List.mem_append, List.mem_cons] at hmem
        rcases hmem with hmem | hmem | hmem | hmem
        · exact hnot hmem
        · obtain ⟨k, hk, hk'⟩ := hwr _ hmem
          cases hk
          rcases hk' with rfl | hn
          · exact lt_irrefl _ hb
          · simp [hn] at hinfo
        · cases hmem
        · cases htail _ hmem
      · rw [hbi, hw.batchInfo b (ne_of_lt hb) (by simp [hinfo]), hinfo]
    · rcases append_eq_append_cons hpost with ⟨post₀, hnew₀, -⟩ | ⟨pre₂, -, hcons⟩
      · obtain ⟨k, hk, -⟩ := hwr _ (hnew₀ ▸ List.mem_append_right _ (List.mem_cons_self _ _))
        cases hk
      · rcases pre₂ with _ | ⟨x, pre₃⟩
        · obtain ⟨he₁, rfl⟩ := List.cons_eq_cons.mp hcons
          cases he₁
          exact ⟨rfl, fun hmem => (by cases htail _ hmem), batchInfo, (by rw [hbi]; exact hstored),
            hsigned⟩
        · simp only [List.cons_append, List.cons.injEq] at hcons
          have hmem : Event.signatureAccepted b sig mk cl ∈ tail := by
            rw [hcons.2]; exact List.mem_append_right _ (List.mem_cons_self _ _)
          cases htail _ hmem

omit [LeafFact Leaf] in
/-- Every iteration keeps the invariant. -/
theorem step (hinv : RunInvariant c w₁ w) (hstep : IterationStep c w w') :
    RunInvariant c w₁ w' := by
  rcases hstep with hw | ⟨w₂, batchInfo, signature, claim, hw, hstored, hsigned, hbi, hnext', hrest⟩
  · exact hinv.writes hw
  · obtain ⟨stored, hs, hle⟩ : ∃ stored, w.nextBatchIdValue = some stored ∧
        stored ≤ w.nextBatchId := by
      obtain ⟨_, _, _, _, _, h⟩ := hinv; exact h
    rcases hrest with ⟨htrace, hvalue⟩ | ⟨htrace, hvalue⟩
    · exact hinv.accept hw hstored hsigned hbi hnext'
        (fun e (h : e ∈ ([] : List Event)) => absurd h (List.not_mem_nil e)) htrace
        ⟨stored, by rw [hvalue, hw.nextBatchIdValue, hs], by rw [hnext']; omega⟩
    · exact hinv.accept hw hstored hsigned hbi hnext'
        (fun e (h : e ∈ [Event.setNextBatchId (w.nextBatchId + 1)]) => List.mem_singleton.mp h)
        htrace ⟨_, hvalue, by rw [hnext']⟩

end RunInvariant

namespace Committee

variable {env} {c : Committee Leaf}

/-- A run of `Committee.run` that started in any world and went through `n` iterations, in any
environment: the in-memory `next_batch_id` started at the stored one (`0` when absent); every
iteration either wrote batch infos only under that counter or under empty keys, leaving it alone,
or moved it one up right after the gateway accepted the signature of the batch info then stored
under it; and at the end the accepted signatures are those of consecutive batches from the
starting counter, each backed by the batch info it signs and never written again, while the stored
counter is at most the in-memory one. -/
theorem runLoop_accepted {w₀ w₁ : World Leaf} (hstart : c.runStart env w₀ = .ok () w₁) (n : Nat) :
    w₁.nextBatchId = w₀.nextBatchIdValue.getD 0 ∧
      (∀ i < n, IterationStep c (c.runLoop env i w₁) (c.runLoop env (i + 1) w₁)) ∧
      RunInvariant c w₁ (c.runLoop env n w₁) := by
  obtain ⟨hnext, hstored⟩ := runStart_eq_ok hstart
  refine ⟨hnext, fun i _ => runLoop_succ env c i w₁ ▸ loopIteration_step _, ?_⟩
  induction n with
  | zero => exact RunInvariant.start hstored
  | succ n ih => rw [runLoop_succ]; exact ih.step (loopIteration_step _)

end Committee

/-- The theorem for the two trees of height `0`, started on the storage holding batch `-1`, over
one iteration with a gateway that has no batch yet. -/
theorem runLoop_accepted_twoTrees :
    ∃ w₁, twoTreeCommittee.runStart ⟨fun _ => false, fun _ _ => none⟩ twoTreeWorld = .ok () w₁ ∧
      w₁.nextBatchId = twoTreeWorld.nextBatchIdValue.getD 0 ∧
      (∀ i < 1, IterationStep twoTreeCommittee
        (twoTreeCommittee.runLoop ⟨fun _ => false, fun _ _ => none⟩ i w₁)
        (twoTreeCommittee.runLoop ⟨fun _ => false, fun _ _ => none⟩ (i + 1) w₁)) ∧
      RunInvariant twoTreeCommittee w₁
        (twoTreeCommittee.runLoop ⟨fun _ => false, fun _ _ => none⟩ 1 w₁) := by
  have h : twoTreeCommittee.runStart ⟨fun _ => false, fun _ _ => none⟩ twoTreeWorld = .ok () _ :=
    rfl
  exact ⟨_, h, Committee.runLoop_accepted h 1⟩

end AvailabilityCommittee
