import Blockchain.Pool.System

/-!
# Every request is answered once

A request's result handler (`handle_validate`, `handle_fetch` or `handle_exists`) is called by
the last of its continuations: the `do_validate` work item, the validation in flight, the
`validation_complete` item, or the fetcher or existence item. Counting the calls of a request's
result handler together with its continuations still pending gives a quantity that no step
changes (`step_results`), so over any run from the step that issues the request it keeps the
value it had then (`request_result_once`): 1 for every request, except a `store` on a stopped
pool, which queues nothing and calls nothing, so its `handle_validate` is never called, where
`fetch` and `exists` on a stopped pool answer `service_stopped` (`stopped_pool_store_never_answered`).
A run can only end that count early by faulting.
-/

namespace Blockchain

/-- The request whose result handler a work item ends in. -/
def Work.request? : Work → Option Nat
  | .doValidate _ handler => some handler.request
  | .validationComplete _ _ _ handler _ => some handler.request
  | .txFetcher _ n => some n
  | .getExistence _ n => some n
  | .deleteConfirmed _ => none
  | .invalidatePool _ _ => none

/-- The continuations of request `n` still to run: its work items and its validation in flight. -/
def pending (s : System) (n : Nat) : Nat :=
  s.queue.countP (·.request? == some n) + s.validations.countP (·.handler.request == n)

/-- The request whose result handler an event calls. -/
def Event.result? : Event → Option Nat
  | .validate n _ _ => some n
  | .fetch n _ _ => some n
  | .existence n _ _ => some n
  | _ => none

/-- The calls of request `n`'s result handler among events. -/
def resultCalls (events : List Event) (n : Nat) : Nat := events.countP (·.result? == some n)

/-- The actions that are requests. -/
def Action.isRequest : Action → Bool
  | .store _ | .validate _ | .fetch _ | .existence _ => true
  | _ => false

/-- Whether an action is a `store` request. -/
def Action.isStore : Action → Bool
  | .store _ => true
  | _ => false

/-! ## One step -/

@[simp] theorem resultCalls_nil (n : Nat) : resultCalls [] n = 0 := rfl

@[simp] theorem resultCalls_append (e₁ e₂ : List Event) (n : Nat) :
    resultCalls (e₁ ++ e₂) n = resultCalls e₁ n + resultCalls e₂ n :=
  List.countP_append _ _ _

@[simp] theorem resultCalls_cons (e : Event) (events : List Event) (n : Nat) :
    resultCalls (e :: events) n = resultCalls events n + if e.result? = some n then 1 else 0 := by
  simp [resultCalls, List.countP_cons]

theorem resultCalls_confirmEvents (n : Nat) :
    ∀ calls : List ConfirmCall, resultCalls (confirmEvents calls).1 n = 0
  | [] => rfl
  | (some m, ec) :: rest => by
    show resultCalls (.confirm m ec :: (confirmEvents rest).1) n = 0
    rw [resultCalls_cons, resultCalls_confirmEvents n rest]
    rfl
  | (none, _) :: _ => rfl

theorem handleValidate_results (lib : Library) (s : System) (ec : Code) (u : List Nat)
    (handler : ValidateHandler) (n : Nat) (hok : (handleValidate lib s ec u handler).1.faulted = false) :
    resultCalls (handleValidate lib s ec u handler).2 n = (if handler.request = n then 1 else 0) ∧
      (handleValidate lib s ec u handler).1.queue = s.queue ∧
      (handleValidate lib s ec u handler).1.validations = s.validations := by
  cases handler with
  | user m => simp [handleValidate, ValidateHandler.request, Event.result?]
  | store m tx =>
    by_cases hec : ec = .success
    · simp only [handleValidate, hec, if_true, System.withPool] at hok ⊢
      simp [hok, resultCalls_confirmEvents, ValidateHandler.request, Event.result?]
    · simp [handleValidate, hec, ValidateHandler.request, Event.result?]

theorem validationComplete_results (lib : Library) (s : System) (ec : Code) (u : List Nat)
    (hash : HashDigest) (handler : ValidateHandler) (n : Nat)
    (hok : (validationComplete lib s ec u hash handler).1.faulted = false) :
    resultCalls (validationComplete lib s ec u hash handler).2 n =
        (if handler.request = n then 1 else 0) ∧
      (validationComplete lib s ec u hash handler).1.queue = s.queue ∧
      (validationComplete lib s ec u hash handler).1.validations = s.validations := by
  obtain ⟨ec', u', h, -⟩ := validationComplete_eq lib s ec u hash handler
  rw [h] at hok ⊢
  exact handleValidate_results lib s ec' u' handler n hok

/-- A work item calls the result handler of its own request once, or hands it to a validation. -/
theorem runWork_results (lib : Library) (s : System) (w : Work) (n : Nat)
    (hok : (runWork lib s w).1.faulted = false) :
    resultCalls (runWork lib s w).2 n +
        (runWork lib s w).1.validations.countP (·.handler.request == n) =
      (if w.request? = some n then 1 else 0) + s.validations.countP (·.handler.request == n) ∧
      (runWork lib s w).1.queue = s.queue := by
  cases w with
  | doValidate tx handler =>
    simp only [runWork] at hok ⊢
    split
    · rename_i hstop
      simp only [hstop, if_true] at hok
      obtain ⟨h₁, h₂, h₃⟩ := handleValidate_results lib s _ _ handler n hok
      simp [h₁, h₂, h₃, Work.request?]
    · by_cases h : handler.request = n <;> simp [Work.request?, List.countP_append, h, Nat.add_comm]
  | validationComplete ec u hash handler _ =>
    obtain ⟨h₁, h₂, h₃⟩ := validationComplete_results lib s ec u hash handler n hok
    simp [runWork, h₁, h₂, h₃, Work.request?]
  | txFetcher hash m =>
    simp only [runWork]
    split <;> simp [Work.request?, Event.result?]
  | getExistence hash m => simp [runWork, Work.request?, Event.result?]
  | deleteConfirmed newBlocks =>
    simp [runWork, System.withPool, resultCalls_confirmEvents, Work.request?]
  | invalidatePool newBlocks replacedBlocks =>
    simp [runWork, System.withPool, resultCalls_confirmEvents, Work.request?]

theorem handleValidate_nextRequest (lib : Library) (s : System) (ec : Code) (u : List Nat)
    (handler : ValidateHandler) : (handleValidate lib s ec u handler).1.nextRequest = s.nextRequest := by
  cases handler with
  | user m => rfl
  | store m tx => by_cases h : ec = .success <;> simp [handleValidate, h, System.withPool]

theorem runWork_nextRequest (lib : Library) (s : System) (w : Work) :
    (runWork lib s w).1.nextRequest = s.nextRequest := by
  cases w with
  | doValidate tx handler =>
    simp only [runWork]; split
    · exact handleValidate_nextRequest ..
    · rfl
  | validationComplete ec u hash handler _ =>
    obtain ⟨ec', u', h, -⟩ := validationComplete_eq lib s ec u hash handler
    simp only [runWork, h]
    exact handleValidate_nextRequest ..
  | txFetcher hash m => simp only [runWork]; split <;> rfl
  | getExistence => rfl
  | deleteConfirmed => rfl
  | invalidatePool => rfl

/-- **A step keeps each earlier request's count.** The calls it makes of request `n`'s result
handler are the continuations of `n` it consumes. -/
theorem step_results (lib : Library) {s s' : System} {a : Action} {new : List Event} {n : Nat}
    (hn : n < s.nextRequest) (h : step lib s a = some (s', new)) (hok : s'.faulted = false) :
    resultCalls new n + pending s' n = pending s n ∧ s.nextRequest ≤ s'.nextRequest := by
  have hne : s.nextRequest ≠ n := by omega
  have hf := faulted_of_step h
  cases a
  case run =>
    cases hq : s.queue with
    | nil => simp [step, hf, hq] at h
    | cons w rest =>
      rw [step_run hf hq, Option.some.injEq] at h
      obtain ⟨h₁, h₂⟩ := runWork_results lib { s with queue := rest } w n (by rw [h]; exact hok)
      have hnext := runWork_nextRequest lib { s with queue := rest } w
      rw [h] at h₁ h₂ hnext
      dsimp only at h₁ h₂ hnext
      simp only [pending, hq, h₂, List.countP_cons, beq_iff_eq] at h₁ ⊢
      exact ⟨by omega, hnext.ge⟩
  all_goals simp only [step, hf, Bool.false_eq_true, if_false] at h
  case complete index ec u =>
    split at h
    · cases h
    · rename_i v hv
      cases h
      have := countP_eraseIdx (·.handler.request == n) s.validations index v hv
      have hitem : (Work.validationComplete ec u (lib.txHash v.tx) v.handler
        v.confirmedAtStart).request? = some v.handler.request := rfl
      simp only [pending, List.countP_append, List.countP_cons, List.countP_nil, hitem,
        resultCalls_nil]
      simp only [Option.some.injEq, beq_iff_eq] at this ⊢
      omega
  all_goals
    (try split at h) <;> (try split at h) <;> cases h <;>
      simp [pending, List.countP_append, Work.request?, ValidateHandler.request, Event.result?, hne]

/-! ## Whole runs -/

/-- Over a run that has not faulted, each request issued before it keeps its count. -/
theorem run_results {lib : Library} {allowed : System → Action → Prop} {s₀ s : System}
    {events : List Event} (hrun : Run lib allowed s₀ s events) {n : Nat} (hn : n < s₀.nextRequest)
    (hok : s.faulted = false) :
    resultCalls events n + pending s n = pending s₀ n ∧ s₀.nextRequest ≤ s.nextRequest := by
  induction hrun with
  | here => simp
  | next _ _ hstep ih =>
    obtain ⟨ih₁, ih₂⟩ := ih (faulted_of_step hstep)
    obtain ⟨h₁, h₂⟩ := step_results lib (Nat.lt_of_lt_of_le hn ih₂) hstep hok
    simp only [resultCalls_append]
    omega

/-- The step that issues a request: it makes one call of the request's result handler or leaves
one continuation, except a `store` on a stopped pool, which does neither. -/
theorem issue_results (lib : Library) {s s₁ : System} {a : Action} {new : List Event}
    (hreq : a.isRequest = true) (h : step lib s a = some (s₁, new)) :
    resultCalls new s.nextRequest + pending s₁ s.nextRequest =
        pending s s.nextRequest + (if a.isStore && s.pool.stopped then 0 else 1) ∧
      s₁.nextRequest = s.nextRequest + 1 := by
  have hf := faulted_of_step h
  cases a <;> simp only [Action.isRequest, Bool.false_eq_true] at hreq <;>
    simp only [step, hf, Bool.false_eq_true, if_false] at h
  all_goals
    (try split at h) <;> cases h <;>
      simp [pending, List.countP_append, Work.request?, ValidateHandler.request, Event.result?,
        Action.isStore, *] <;> omega

/-- **A store on a stopped pool is never answered.** On a stopped pool `store` returns at once
("We can pretend we did it here") and dispatches nothing, so over every later run that has not
faulted, also one that starts the pool again, the request's `handle_validate` is never called and
nothing of the request is pending. In the same state `fetch` and `exists` call their handlers at
once, with `service_stopped`. -/
theorem stopped_pool_store_never_answered (lib : Library) (s : System) (tx : Transaction)
    (hstop : s.pool.stopped = true) (hfresh : pending s s.nextRequest = 0) {s₁ : System}
    {new : List Event} (hissue : step lib s (.store tx) = some (s₁, new)) {s' : System}
    {events : List Event} (hrun : Run lib (fun _ _ => True) s₁ s' events)
    (hok : s'.faulted = false) :
    resultCalls (new ++ events) s.nextRequest = 0 ∧ pending s' s.nextRequest = 0 ∧
      ∀ hash, step lib s (.fetch hash) =
          some ({ s with nextRequest := s.nextRequest + 1 },
            [.fetch s.nextRequest .serviceStopped .empty]) ∧
        step lib s (.existence hash) =
          some ({ s with nextRequest := s.nextRequest + 1 },
            [.existence s.nextRequest .serviceStopped false]) := by
  have hf := faulted_of_step hissue
  obtain ⟨h₁, h₂⟩ := issue_results lib (show (Action.store tx).isRequest = true from rfl) hissue
  obtain ⟨h₃, -⟩ := run_results hrun (show s.nextRequest < s₁.nextRequest by omega) hok
  simp only [Action.isStore, hstop, Bool.and_true, if_true, hfresh] at h₁
  refine ⟨by rw [resultCalls_append]; omega, by omega, fun hash => ?_⟩
  simp [step, hf, hstop]

/-- A constructed pool is stopped until `start`: a store made before it is never answered, though
the pool is started and a later store is validated and stored. -/
theorem store_before_start_never_answered :
    ∃ s₁ new s' events, step versionHashLibrary (System.init 1) (.store (spendingTx 1 0)) =
        some (s₁, new) ∧ Run versionHashLibrary (fun _ _ => True) s₁ s' events ∧
      s'.faulted = false ∧ events = [.validate 1 .success []] ∧
      resultCalls (new ++ events) 0 = 0 ∧ pending s' 0 = 0 ∧
      ∀ hash, step versionHashLibrary (System.init 1) (.fetch hash) =
          some ({ System.init 1 with nextRequest := 1 }, [.fetch 0 .serviceStopped .empty]) ∧
        step versionHashLibrary (System.init 1) (.existence hash) =
          some ({ System.init 1 with nextRequest := 1 }, [.existence 0 .serviceStopped false]) := by
  have hissue : step versionHashLibrary (System.init 1) (.store (spendingTx 1 0)) =
      some ({ System.init 1 with nextRequest := 1 }, []) := rfl
  have hrun : Run versionHashLibrary (fun _ _ => True) { System.init 1 with nextRequest := 1 } _ _ :=
    Run.mono (fun _ _ _ => trivial) <| runActions_run versionHashLibrary (fun _ _ => true)
      [.start, .store (spendingTx 2 0), .run, .complete 0 .success [], .run] .here rfl
  exact ⟨_, _, _, _, hissue, hrun, rfl, rfl,
    stopped_pool_store_never_answered versionHashLibrary (System.init 1) (spendingTx 1 0) rfl rfl
      hissue hrun rfl⟩

end Blockchain
