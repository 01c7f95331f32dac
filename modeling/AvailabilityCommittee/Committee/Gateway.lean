import Mathlib.Data.List.Basic
import Mathlib.Order.Basic

/-! # The gateway client and its HTTP retries

`HttpRetryPolicy.send_http_request` makes `retry_count` attempts in a loop, then a last one.  An
attempt that fails with an exception the policy retries (a status of `retry_error_codes`, or a
timeout) is followed by a sleep of `timeout_gen(n)` seconds; any other exception is raised at once,
and any exception of the last attempt is raised as `TooManyAttempts`.  How each attempt ends is an
input (`outcome`), and the results hold for every one.

* `HttpRetryPolicy.sendHttpRequest_spec`: a request stops at the first attempt within the budget that does not fail
  with a retried exception, and returns its text or raises as said, after a sleep after each
  earlier attempt;
* `AvailabilityGatewayClient.retryPolicy_sleep_le`: with the gateway client's policy
  (`retry_count=9`, `timeout_gen = i + 1`) a request sleeps at most `1 + 2 + ... + 9 = 45`
  seconds, all of them exactly when its first nine attempts fail with retried exceptions;
* `AvailabilityGatewayClient.sendSignature_eq_ok_iff`: `send_signature` returns exactly when one of
  the first ten attempts is answered `signature accepted` with status `OK`, after retried failures
  only. -/

namespace AvailabilityCommittee

/-- How one HTTP attempt ends: a response with its status and text, the timeout of the request
(`asyncio.TimeoutError`), or another exception. -/
inductive HttpOutcome where
  | response (status : Nat) (text : String)
  | timeout
  | otherError
deriving DecidableEq, Repr

/-- The exception of one attempt. -/
inductive HttpError where
  /-- `BadHttpRequest(status_code, text, url)`: a response without the success code. -/
  | badHttpRequest (status : Nat) (text : String)
  | timeout
  | otherError
deriving DecidableEq, Repr

/-- What `send_http_request` raises. -/
inductive RequestFailure where
  /-- The exception of an attempt the policy does not retry, raised as it is. -/
  | raised (e : HttpError)
  /-- `TooManyAttempts(retry_count, url, ex)`, with the exception of the last attempt. -/
  | tooManyAttempts (attempts : Nat) (last : HttpError)
deriving DecidableEq, Repr

/-- The settings of an `HttpRetryPolicy` that `send_http_request` reads; `timeout_gen(n)` is the
sleep, in seconds, after the failed attempt `n`. -/
structure HttpRetryPolicy where
  successCode : Nat
  retryErrorCodes : List Nat
  retryCount : Nat := 0
  timeoutGen : Nat → Nat := fun _ => 1

namespace HttpRetryPolicy

variable (p : HttpRetryPolicy)

/-- `_send_single_http_request`: the text of a response with the success code. -/
def sendSingle : HttpOutcome → Except HttpError String
  | .response status text =>
    if status = p.successCode then .ok text else .error (.badHttpRequest status text)
  | .timeout => .error .timeout
  | .otherError => .error .otherError

/-- `retry_exception`. -/
def retryException : HttpError → Bool
  | .badHttpRequest status _ => decide (status ∈ p.retryErrorCodes)
  | .timeout => true
  | .otherError => false

/-- The attempt failed with an exception the policy retries. -/
def retried (outcome : HttpOutcome) : Bool :=
  match p.sendSingle outcome with
  | .ok _ => false
  | .error e => p.retryException e

/-- The loop of `send_http_request` from the attempt `attempt`, with `k` iterations left, the
attempts ending as `outcome` says: the result and the seconds slept. -/
def sendFrom (outcome : Nat → HttpOutcome) (attempt : Nat) : Nat → Except RequestFailure String × Nat
  | 0 =>
    match p.sendSingle (outcome attempt) with
    | .ok text => (.ok text, 0)
    | .error e => (.error (.tooManyAttempts p.retryCount e), 0)
  | k + 1 =>
    match p.sendSingle (outcome attempt) with
    | .ok text => (.ok text, 0)
    | .error e =>
      if p.retryException e then
        let (result, slept) := sendFrom outcome (attempt + 1) k
        (result, p.timeoutGen attempt + slept)
      else (.error (.raised e), 0)

/-- `send_http_request`: `retry_count` tries in the loop, then a last one. -/
def sendHttpRequest (outcome : Nat → HttpOutcome) : Except RequestFailure String × Nat :=
  p.sendFrom outcome 0 p.retryCount

/-- The attempts from `attempt` on that fail with an exception the policy retries, at most
`k`. -/
def leadingRetries (outcome : Nat → HttpOutcome) (attempt : Nat) : Nat → Nat
  | 0 => 0
  | k + 1 => if p.retried (outcome attempt) then leadingRetries outcome (attempt + 1) k + 1 else 0

theorem retried_iff (o : HttpOutcome) :
    p.retried o = true ↔ ∃ e, p.sendSingle o = .error e ∧ p.retryException e = true := by
  unfold retried
  cases p.sendSingle o <;> simp

/-- The result of the attempt `attempt` when the loop stops there: its text, or its exception,
raised as it is inside the loop and as `TooManyAttempts` at the last attempt. -/
def stopAt (outcome : Nat → HttpOutcome) (attempt : Nat) (last : Bool) : Except RequestFailure String :=
  match p.sendSingle (outcome attempt) with
  | .ok text => .ok text
  | .error e => .error (if last then .tooManyAttempts p.retryCount e else .raised e)

/-- The seconds slept after the `m` attempts from `attempt` on: `timeout_gen(attempt) + ... +
timeout_gen(attempt + m - 1)`. -/
def sleptFrom : Nat → Nat → Nat
  | _, 0 => 0
  | attempt, m + 1 => p.timeoutGen attempt + sleptFrom (attempt + 1) m

theorem sendFrom_succ (outcome : Nat → HttpOutcome) (attempt k : Nat) :
    p.sendFrom outcome attempt (k + 1) =
      if p.retried (outcome attempt) then
        ((p.sendFrom outcome (attempt + 1) k).1,
          p.timeoutGen attempt + (p.sendFrom outcome (attempt + 1) k).2)
      else (p.stopAt outcome attempt false, 0) := by
  simp only [sendFrom, retried, stopAt]
  cases p.sendSingle (outcome attempt) with
  | ok text => rfl
  | error e => cases p.retryException e <;> rfl

/-- The loop in closed form: it stops at the first attempt that does not fail with an exception
it retries, or at the last attempt, after sleeping once for each attempt before. -/
theorem sendFrom_eq (outcome : Nat → HttpOutcome) : ∀ (k attempt : Nat),
    p.sendFrom outcome attempt k =
      (p.stopAt outcome (attempt + p.leadingRetries outcome attempt k)
          (p.leadingRetries outcome attempt k = k),
        p.sleptFrom attempt (p.leadingRetries outcome attempt k))
  | 0, attempt => by
    simp only [sendFrom, leadingRetries, stopAt, Nat.add_zero, decide_eq_true_eq, if_true]
    cases p.sendSingle (outcome attempt) <;> rfl
  | k + 1, attempt => by
    rw [sendFrom_succ, leadingRetries]
    by_cases hr : p.retried (outcome attempt)
    · rw [if_pos hr, if_pos hr, sendFrom_eq outcome k (attempt + 1)]
      simp only [Nat.add_right_cancel_iff, Prod.mk.injEq]
      exact ⟨by rw [Nat.add_assoc, Nat.add_comm 1], rfl⟩
    · rw [if_neg hr, if_neg hr]
      simp [sleptFrom]

theorem leadingRetries_le (outcome : Nat → HttpOutcome) : ∀ (k attempt : Nat),
    p.leadingRetries outcome attempt k ≤ k
  | 0, _ => le_rfl
  | k + 1, attempt => by
    have := leadingRetries_le outcome k (attempt + 1)
    rw [leadingRetries]
    split_ifs <;> omega

/-- The attempts before the stop fail with an exception the policy retries; the stop, if inside
the loop, does not. -/
theorem leadingRetries_spec (outcome : Nat → HttpOutcome) : ∀ (k attempt : Nat),
    (∀ i < p.leadingRetries outcome attempt k, p.retried (outcome (attempt + i)) = true) ∧
      (p.leadingRetries outcome attempt k < k →
        p.retried (outcome (attempt + p.leadingRetries outcome attempt k)) = false)
  | 0, _ => ⟨fun _ h => absurd h (Nat.not_lt_zero _), fun h => absurd h (Nat.lt_irrefl 0)⟩
  | k + 1, attempt => by
    obtain ⟨hall, hstop⟩ := leadingRetries_spec outcome k (attempt + 1)
    rw [leadingRetries]
    by_cases hr : p.retried (outcome attempt)
    · rw [if_pos hr]
      refine ⟨fun i hi => ?_, fun h => ?_⟩
      · rcases i with _ | i
        · exact hr
        · rw [show attempt + (i + 1) = attempt + 1 + i by omega]
          exact hall i (by omega)
      · rw [show attempt + (p.leadingRetries outcome (attempt + 1) k + 1) =
          attempt + 1 + p.leadingRetries outcome (attempt + 1) k by omega]
        exact hstop (by omega)
    · rw [if_neg hr]
      exact ⟨fun _ h => absurd h (Nat.not_lt_zero _), fun _ => by simpa using hr⟩

theorem leadingRetries_eq_iff (outcome : Nat → HttpOutcome) (k attempt : Nat) :
    p.leadingRetries outcome attempt k = k ↔ ∀ i < k, p.retried (outcome (attempt + i)) = true := by
  obtain ⟨hall, hstop⟩ := p.leadingRetries_spec outcome k attempt
  refine ⟨fun h => h ▸ hall, fun h => ?_⟩
  by_contra hne
  have hlt := lt_of_le_of_ne (p.leadingRetries_le outcome k attempt) hne
  exact absurd (hstop hlt) (by simp [h _ hlt])

theorem stopAt_eq_ok_iff (outcome : Nat → HttpOutcome) (attempt : Nat) (last : Bool)
    (text : String) :
    p.stopAt outcome attempt last = .ok text ↔ p.sendSingle (outcome attempt) = .ok text := by
  unfold stopAt
  cases p.sendSingle (outcome attempt) <;> simp

theorem retried_of_sendSingle_ok {o : HttpOutcome} {text : String}
    (h : p.sendSingle o = .ok text) : p.retried o = false := by
  simp [retried, h]

/-- A request returns a text exactly when an attempt within the budget answers it with the success
code after attempts that all failed with exceptions the policy retries. -/
theorem sendHttpRequest_eq_ok_iff (outcome : Nat → HttpOutcome) (text : String) :
    (p.sendHttpRequest outcome).1 = .ok text ↔
      ∃ n ≤ p.retryCount, p.sendSingle (outcome n) = .ok text ∧
        ∀ a < n, p.retried (outcome a) = true := by
  obtain ⟨hall, hstop⟩ := p.leadingRetries_spec outcome p.retryCount 0
  have hle := p.leadingRetries_le outcome p.retryCount 0
  simp only [Nat.zero_add] at hall hstop
  rw [sendHttpRequest, p.sendFrom_eq, Nat.zero_add, stopAt_eq_ok_iff]
  refine ⟨fun h => ⟨_, hle, h, hall⟩, fun ⟨n, hn, hok, hbefore⟩ => ?_⟩
  rcases lt_trichotomy n (p.leadingRetries outcome 0 p.retryCount) with hlt | rfl | hgt
  · exact absurd (hall n hlt) (by simp [p.retried_of_sendSingle_ok hok])
  · exact hok
  · have := hbefore _ hgt
    rw [hstop (by omega)] at this
    cases this

/-- `send_http_request` stops at the first attempt `m ≤ retry_count` that does not fail with an
exception the policy retries: it returns that attempt's text, or raises its exception, as
`TooManyAttempts` when `m` is the last attempt, after sleeping `timeout_gen(i)` seconds after each
attempt `i < m`. -/
theorem sendHttpRequest_spec (outcome : Nat → HttpOutcome) :
    ∃ m ≤ p.retryCount, (∀ i < m, p.retried (outcome i) = true) ∧
      (m < p.retryCount → p.retried (outcome m) = false) ∧
      p.sendHttpRequest outcome =
        (p.stopAt outcome m (m = p.retryCount), p.sleptFrom 0 m) := by
  obtain ⟨hall, hstop⟩ := p.leadingRetries_spec outcome p.retryCount 0
  refine ⟨_, p.leadingRetries_le outcome p.retryCount 0, by simpa using hall,
    by simpa using hstop, ?_⟩
  rw [sendHttpRequest, p.sendFrom_eq, Nat.zero_add]

end HttpRetryPolicy

/-- What a call of the gateway client raises. -/
inductive GatewayFailure where
  | request (failure : RequestFailure)
  /-- `assert False, "Signature was not accepted"`. -/
  | assertion (message : String)
deriving DecidableEq, Repr

namespace AvailabilityGatewayClient

/-- `AvailabilityGatewayClient.retry_policy`: success `OK`; retries on `BAD_GATEWAY`,
`SERVICE_UNAVAILABLE`, `GATEWAY_TIMEOUT` and timeouts; `retry_count=9` and
`timeout_gen=lambda i: i + 1`. -/
def retryPolicy : HttpRetryPolicy := ⟨200, [502, 503, 504], 9, fun i => i + 1⟩

theorem sleptFrom_le : ∀ m ≤ 9,
    retryPolicy.sleptFrom 0 m ≤ 45 ∧ (retryPolicy.sleptFrom 0 m = 45 ↔ m = 9) := by
  decide

/-- A request of the gateway client sleeps at most `1 + 2 + ... + 9 = 45` seconds between its
attempts, and all of them exactly when its first nine attempts fail with exceptions it retries. -/
theorem retryPolicy_sleep_le (outcome : Nat → HttpOutcome) :
    (retryPolicy.sendHttpRequest outcome).2 ≤ 45 ∧
      ((retryPolicy.sendHttpRequest outcome).2 = 45 ↔
        ∀ a < 9, retryPolicy.retried (outcome a) = true) := by
  have hle := retryPolicy.leadingRetries_le outcome 9 0
  rw [HttpRetryPolicy.sendHttpRequest, retryPolicy.sendFrom_eq]
  have hiff := retryPolicy.leadingRetries_eq_iff outcome 9 0
  simp only [Nat.zero_add] at hiff
  obtain ⟨h45, heq⟩ := sleptFrom_le _ hle
  exact ⟨h45, heq.trans hiff⟩

/-- `AvailabilityGatewayClient.send_signature`, the attempts of its request ending as
`outcome`. -/
def sendSignature (outcome : Nat → HttpOutcome) : Except GatewayFailure Unit :=
  match (retryPolicy.sendHttpRequest outcome).1 with
  | .ok answer =>
    if answer = "signature accepted" then .ok () else .error (.assertion "Signature was not accepted")
  | .error failure => .error (.request failure)

/-- A signature counts as sent exactly when one of the first ten attempts gets the answer
`signature accepted` with status `OK`, after attempts that all failed with exceptions the gateway
client retries. -/
theorem sendSignature_eq_ok_iff (outcome : Nat → HttpOutcome) :
    sendSignature outcome = .ok () ↔
      ∃ n ≤ 9, outcome n = .response 200 "signature accepted" ∧
        ∀ a < n, retryPolicy.retried (outcome a) = true := by
  have hok : sendSignature outcome = .ok () ↔
      (retryPolicy.sendHttpRequest outcome).1 = .ok "signature accepted" := by
    unfold sendSignature
    rcases (retryPolicy.sendHttpRequest outcome).1 with f | answer
    · simp
    · by_cases h : answer = "signature accepted" <;> simp [h]
  have hsingle : ∀ o : HttpOutcome, retryPolicy.sendSingle o = .ok "signature accepted" ↔
      o = .response 200 "signature accepted" := by
    intro o
    cases o with
    | response status text =>
      by_cases h : status = 200 <;> simp [HttpRetryPolicy.sendSingle, retryPolicy, h, eq_comm]
    | _ => simp [HttpRetryPolicy.sendSingle]
  rw [hok, retryPolicy.sendHttpRequest_eq_ok_iff]
  simp only [hsingle]
  rfl

end AvailabilityGatewayClient

end AvailabilityCommittee
