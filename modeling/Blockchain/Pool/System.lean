import Blockchain.Pool.Buffer

/-!
# The pool as a state machine

A `transaction_pool` runs its work on an ordered dispatcher: `validate`, `store`, `fetch` and
`exists` queue a work item (or answer at once when the pool is stopped), `reorganize` queues
`delete_confirmed` or `invalidate_pool`, and `validate_transaction`, started by `do_validate`,
queues `validation_complete` when it finishes. A `System` is the pool, the dispatcher's queue and
the validations in flight; an `Action` is what the clients, the blockchain, the dispatcher or the
validator do next; `step` takes it and returns the handler calls it makes (`Event`).

Each request gets a fresh number, which names its handlers. Calling a function that is not there
(the empty `handle_confirm` of a moved-from entry, or the front of an empty buffer) is a `fault`,
after which nothing runs.

Two ghost fields follow what the reorganize notifications confirm: `chain`, the hashes confirmed
by the notifications processed so far, and the `confirmedAtStart` flag a validation carries from
`do_validate`.

* `Run lib allowed s₀` is the runs from `s₀` whose actions satisfy `allowed`, with their calls.
* `runActions` runs a list of actions that a Boolean predicate allows; `runActions_run` turns a
  run of it into a `Run`.
* The ring never holds more than its capacity (`length_le_capacity`).
* `remove_if` without `erase` leaves a hash twice in the ring (`confirmed_front_duplicates_hash`),
  and `validation_complete` re-checks the pool but not the chain, so it can add a transaction the
  chain already holds (`validationComplete_adds_confirmed_tx`).
-/

namespace Blockchain

/-- `chain::transaction()`. -/
def Transaction.empty : Transaction := ⟨0, 0, [], []⟩

/-- Where a validation's result goes. -/
inductive ValidateHandler
  /-- The `handle_validate` of a `validate` request. -/
  | user (request : Nat)
  /-- `wrap_validate` of a `store` request: on success it runs `store_transaction` with the
  request's `handle_confirm`, then calls the request's `handle_validate`. -/
  | store (request : Nat) (tx : Transaction)
  deriving DecidableEq, Repr

/-- The request whose `handle_validate` a handler ends in. -/
def ValidateHandler.request : ValidateHandler → Nat
  | .user n => n
  | .store n _ => n

/-- A work item on the pool's ordered dispatcher. -/
inductive Work
  | doValidate (tx : Transaction) (handler : ValidateHandler)
  /-- The delegate `validate_transaction` completes with, and the validation's ghost flag. -/
  | validationComplete (ec : Code) (unconfirmed : List Nat) (txHash : HashDigest)
      (handler : ValidateHandler) (confirmedAtStart : Bool)
  /-- `tx_fetcher` of `fetch`. -/
  | txFetcher (hash : HashDigest) (request : Nat)
  /-- `get_existence` of `exists`. -/
  | getExistence (hash : HashDigest) (request : Nat)
  | deleteConfirmed (newBlocks : List Block)
  /-- `invalidate_pool`, with the notification's blocks for the ghost chain. -/
  | invalidatePool (newBlocks replacedBlocks : List Block)
  deriving DecidableEq, Repr

/-- A validation `validate_transaction` is running for `do_validate`. -/
structure Validation where
  tx : Transaction
  handler : ValidateHandler
  /-- Ghost: whether the transaction was confirmed in the chain when `do_validate` started. -/
  confirmedAtStart : Bool
  deriving DecidableEq, Repr

/-- A handler call. -/
inductive Event
  | confirm (request : Nat) (ec : Code)
  | validate (request : Nat) (ec : Code) (unconfirmed : List Nat)
  | fetch (request : Nat) (ec : Code) (tx : Transaction)
  | existence (request : Nat) (ec : Code) (found : Bool)
  /-- A call of an empty function, or of the front of an empty buffer. -/
  | fault
  deriving DecidableEq, Repr

/-- A pool, its dispatcher's queue, the validations in flight, and the ghost chain. -/
structure System where
  pool : Pool
  queue : List Work
  validations : List Validation
  /-- Ghost: the hashes confirmed by the reorganize notifications processed so far. -/
  chain : List HashDigest
  nextRequest : Nat
  faulted : Bool
  deriving DecidableEq, Repr

/-- A pool as constructed: empty, and stopped until `start`. -/
def System.init (capacity : Nat) : System := ⟨⟨[], capacity, true⟩, [], [], [], 0, false⟩

/-- What happens next. -/
inductive Action
  | store (tx : Transaction)
  | validate (tx : Transaction)
  | fetch (hash : HashDigest)
  /-- `transaction_pool::exists`. -/
  | existence (hash : HashDigest)
  /-- The blockchain's reorganize notification. -/
  | reorganize (ec : Code) (newBlocks replacedBlocks : List Block)
  | setCapacity (capacity : Nat)
  | stop
  | start
  /-- The dispatcher runs the front of its queue. -/
  | run
  /-- `validate_transaction` completes the validation at `index`. -/
  | complete (index : Nat) (ec : Code) (unconfirmed : List Nat)
  deriving DecidableEq, Repr

/-- The events of `handle_confirm` calls, up to and including the first call of a missing
function, and whether that call was made. -/
def confirmEvents : List ConfirmCall → List Event × Bool
  | [] => ([], false)
  | (some n, ec) :: rest => (.confirm n ec :: (confirmEvents rest).1, (confirmEvents rest).2)
  | (none, _) :: _ => ([.fault], true)

/-- The system after a pool operation: its calls become events, and a call of a missing function
faults it. -/
def System.withPool (s : System) (result : Pool × List ConfirmCall) : System × List Event :=
  ({ s with pool := result.1, faulted := (confirmEvents result.2).2 }, (confirmEvents result.2).1)

/-- Calling a validation handler with a result. -/
def handleValidate (lib : Library) (s : System) (ec : Code) (unconfirmed : List Nat) :
    ValidateHandler → System × List Event
  | .user n => (s, [.validate n ec unconfirmed])
  | .store n tx =>
    if ec = .success then
      let stored := s.withPool (storeTransaction lib s.pool tx n)
      (stored.1, if stored.1.faulted then stored.2 else stored.2 ++ [.validate n ec unconfirmed])
    else (s, [.validate n ec unconfirmed])

/-- `transaction_pool::validation_complete`. -/
def validationComplete (lib : Library) (s : System) (ec : Code) (unconfirmed : List Nat)
    (txHash : HashDigest) (handler : ValidateHandler) : System × List Event :=
  if s.pool.stopped then handleValidate lib s .serviceStopped [] handler
  else if ec = .inputNotFound ∨ ec = .validateInputsFailed then
    handleValidate lib s ec unconfirmed handler
  else if ec ≠ .success then handleValidate lib s ec [] handler
  else if txExists s.pool txHash then handleValidate lib s .duplicate [] handler
  else handleValidate lib s .success unconfirmed handler

/-- A work item run by the dispatcher. -/
def runWork (lib : Library) (s : System) : Work → System × List Event
  | .doValidate tx handler =>
    if s.pool.stopped then handleValidate lib s .serviceStopped [] handler
    else ({ s with validations :=
      s.validations ++ [⟨tx, handler, s.chain.contains (lib.txHash tx)⟩] }, [])
  | .validationComplete ec unconfirmed txHash handler _ =>
    validationComplete lib s ec unconfirmed txHash handler
  | .txFetcher hash n =>
    match txFind s.pool hash with
    | none => (s, [.fetch n .notFound .empty])
    | some entry => (s, [.fetch n .success entry.tx])
  | .getExistence hash n => (s, [.existence n .success (txExists s.pool hash)])
  | .deleteConfirmed newBlocks =>
    System.withPool { s with chain := s.chain ++ blockTxHashes lib newBlocks }
      (deleteConfirmed lib s.pool newBlocks)
  | .invalidatePool newBlocks replacedBlocks =>
    System.withPool { s with chain := (s.chain.filter (· ∉ blockTxHashes lib replacedBlocks) ++
        blockTxHashes lib newBlocks) }
      (invalidatePool s.pool)

/-- One step of the system, with the handler calls it makes; `none` when the action cannot be
taken: after a fault, on an empty queue, or for a validation that is not in flight. -/
def step (lib : Library) (s : System) (a : Action) : Option (System × List Event) :=
  if s.faulted then none
  else
    let n := s.nextRequest
    let issued := { s with nextRequest := n + 1 }
    match a with
    | .store tx =>
      if s.pool.stopped then some (issued, [])
      else some ({ issued with queue := s.queue ++ [.doValidate tx (.store n tx)] }, [])
    | .validate tx => some ({ issued with queue := s.queue ++ [.doValidate tx (.user n)] }, [])
    | .fetch hash =>
      if s.pool.stopped then some (issued, [.fetch n .serviceStopped .empty])
      else some ({ issued with queue := s.queue ++ [.txFetcher hash n] }, [])
    | .existence hash =>
      if s.pool.stopped then some (issued, [.existence n .serviceStopped false])
      else some ({ issued with queue := s.queue ++ [.getExistence hash n] }, [])
    | .reorganize ec newBlocks replacedBlocks =>
      if ec ≠ .success then some ({ s with pool := { s.pool with stopped := true } }, [])
      else if replacedBlocks.isEmpty then
        some ({ s with queue := s.queue ++ [.deleteConfirmed newBlocks] }, [])
      else some ({ s with queue := s.queue ++ [.invalidatePool newBlocks replacedBlocks] }, [])
    | .setCapacity capacity => some ({ s with pool := setCapacity s.pool capacity }, [])
    | .stop => some ({ s with pool := { s.pool with stopped := true } }, [])
    | .start => some ({ s with pool := { s.pool with stopped := false } }, [])
    | .run =>
      match s.queue with
      | [] => none
      | work :: rest => some (runWork lib { s with queue := rest } work)
    | .complete index ec unconfirmed =>
      match s.validations[index]? with
      | none => none
      | some v => some ({ s with
          validations := s.validations.eraseIdx index,
          queue := s.queue ++
            [.validationComplete ec unconfirmed (lib.txHash v.tx) v.handler v.confirmedAtStart] }, [])

/-- The runs from `s₀` whose actions satisfy `allowed`, with the handler calls they make. -/
inductive Run (lib : Library) (allowed : System → Action → Prop) (s₀ : System) :
    System → List Event → Prop
  | here : Run lib allowed s₀ s₀ []
  | next {s s' : System} {events new : List Event} {a : Action} :
      Run lib allowed s₀ s events → allowed s a → step lib s a = some (s', new) →
      Run lib allowed s₀ s' (events ++ new)

/-- A run allows more actions when its predicate does. -/
theorem Run.mono {lib : Library} {allowed allowed' : System → Action → Prop} {s₀ s : System}
    {events : List Event} (hmono : ∀ s a, allowed s a → allowed' s a)
    (hrun : Run lib allowed s₀ s events) : Run lib allowed' s₀ s events := by
  induction hrun with
  | here => exact .here
  | next _ hallowed hstep ih => exact .next ih (hmono _ _ hallowed) hstep

/-- Running a list of actions in turn, each of which `allowed` must accept. -/
def runActions (lib : Library) (allowed : System → Action → Bool) :
    System → List Action → Option (System × List Event)
  | s, [] => some (s, [])
  | s, a :: rest =>
    if allowed s a then
      (step lib s a).bind fun r =>
        (runActions lib allowed r.1 rest).map fun r' => (r'.1, r.2 ++ r'.2)
    else none

theorem runActions_run (lib : Library) (allowed : System → Action → Bool) :
    ∀ {s₀ s : System} {events : List Event} (actions : List Action) {s' : System}
      {more : List Event}, Run lib (fun s a => allowed s a = true) s₀ s events →
      runActions lib allowed s actions = some (s', more) →
      Run lib (fun s a => allowed s a = true) s₀ s' (events ++ more)
  | _, _, _, [], _, _, hrun, h => by
    simp only [runActions, Option.some.injEq, Prod.mk.injEq] at h
    obtain ⟨rfl, rfl⟩ := h
    simpa using hrun
  | _, s, _, a :: rest, _, _, hrun, h => by
    simp only [runActions] at h
    split at h
    · simp only [Option.bind_eq_some, Option.map_eq_some', Prod.mk.injEq] at h
      obtain ⟨r, hstep, r', hrest, rfl, rfl⟩ := h
      simpa using runActions_run lib allowed rest (.next hrun ‹_› hstep) hrest
    · cases h

/-- `validation_complete` ends in one call of its handler, with `success` only when the pool is
running, the validation succeeded and no entry has the hash. -/
theorem validationComplete_eq (lib : Library) (s : System) (ec : Code) (u : List Nat)
    (hash : HashDigest) (handler : ValidateHandler) :
    ∃ ec' u', validationComplete lib s ec u hash handler = handleValidate lib s ec' u' handler ∧
      (ec' = .success → s.pool.stopped = false ∧ ec = .success ∧ txExists s.pool hash = false) := by
  unfold validationComplete
  split_ifs with h₁ h₂ h₃ h₄ <;> refine ⟨_, _, rfl, fun h => ?_⟩ <;> simp_all

theorem countP_eraseIdx {α : Type} (p : α → Bool) :
    ∀ (l : List α) (i : Nat) (x : α), l[i]? = some x →
      (l.eraseIdx i).countP p + (if p x then 1 else 0) = l.countP p
  | [], _, _, h => by simp at h
  | a :: l, 0, x, h => by
    obtain rfl : a = x := by simpa using h
    simp [List.countP_cons]
  | a :: l, i + 1, x, h => by
    have := countP_eraseIdx p l i x (by simpa using h)
    simp only [List.eraseIdx_cons_succ, List.countP_cons]
    omega

theorem faulted_of_step {lib : Library} {s s' : System} {a : Action} {new : List Event}
    (h : step lib s a = some (s', new)) : s.faulted = false := by
  cases hs : s.faulted
  · rfl
  · simp [step, hs] at h

theorem step_run {lib : Library} {s : System} {w : Work} {rest : List Work}
    (hf : s.faulted = false) (hq : s.queue = w :: rest) :
    step lib s .run = some (runWork lib { s with queue := rest } w) := by
  unfold step
  simp only [hf, hq]
  rfl

/-! ## The ring's bound -/

theorem handleValidate_pool (lib : Library) (s : System) (ec : Code) (u : List Nat)
    (handler : ValidateHandler) :
    (handleValidate lib s ec u handler).1.pool = s.pool ∨
      ∃ tx n, (handleValidate lib s ec u handler).1.pool = (storeTransaction lib s.pool tx n).1 := by
  cases handler with
  | user m => exact .inl rfl
  | store m tx =>
    by_cases h : ec = .success
    · exact .inr ⟨tx, m, by simp [handleValidate, h, System.withPool]⟩
    · exact .inl (by simp [handleValidate, h])

/-- The pool operations a work item can run. -/
theorem runWork_pool (lib : Library) (s : System) (w : Work) :
    (runWork lib s w).1.pool = s.pool ∨
      (∃ tx n, (runWork lib s w).1.pool = (storeTransaction lib s.pool tx n).1) ∨
      (∃ newBlocks, (runWork lib s w).1.pool = (deleteConfirmed lib s.pool newBlocks).1) ∨
      (runWork lib s w).1.pool = (invalidatePool s.pool).1 := by
  cases w with
  | doValidate tx handler =>
    simp only [runWork]
    split
    · rcases handleValidate_pool lib s .serviceStopped [] handler with h | h
      · exact .inl h
      · exact .inr (.inl h)
    · exact .inl rfl
  | validationComplete ec u hash handler _ =>
    obtain ⟨ec', u', heq, -⟩ := validationComplete_eq lib s ec u hash handler
    simp only [runWork, heq]
    rcases handleValidate_pool lib s ec' u' handler with h | h
    · exact .inl h
    · exact .inr (.inl h)
  | txFetcher hash m => simp only [runWork]; split <;> exact .inl rfl
  | getExistence => exact .inl rfl
  | deleteConfirmed newBlocks => exact .inr (.inr (.inl ⟨newBlocks, rfl⟩))
  | invalidatePool => exact .inr (.inr (.inr rfl))

/-- The pool operations keep the ring within its capacity. -/
theorem runWork_length_le (lib : Library) (s : System) (w : Work)
    (h : s.pool.buffer.length ≤ s.pool.capacity) :
    (runWork lib s w).1.pool.buffer.length ≤ (runWork lib s w).1.pool.capacity := by
  rcases runWork_pool lib s w with e | ⟨tx, n, e⟩ | ⟨newBlocks, e⟩ | e <;> rw [e]
  · exact h
  · exact length_pushBack_le _ h
  · rw [length_deleteConfirmed, (deleteConfirmed_frame lib s.pool newBlocks).1]
    exact h
  · unfold invalidatePool; split <;> simp [h]

theorem step_length_le {lib : Library} {s s' : System} {a : Action} {new : List Event}
    (h : step lib s a = some (s', new)) (hs : s.pool.buffer.length ≤ s.pool.capacity) :
    s'.pool.buffer.length ≤ s'.pool.capacity := by
  have hf := faulted_of_step h
  cases a
  case run =>
    cases hq : s.queue with
    | nil => simp [step, hf, hq] at h
    | cons w rest =>
      rw [step_run hf hq, Option.some.injEq] at h
      have := runWork_length_le lib { s with queue := rest } w hs
      rwa [h] at this
  all_goals simp only [step, hf, Bool.false_eq_true, if_false] at h
  case setCapacity capacity => cases h; exact List.length_take_le _ _
  all_goals (try split at h) <;> (try split at h) <;> cases h <;> exact hs

/-- **The ring never holds more than its capacity**, over every run from a constructed pool. -/
theorem length_le_capacity {lib : Library} {allowed : System → Action → Prop} {capacity : Nat}
    {s : System} {events : List Event} (hrun : Run lib allowed (System.init capacity) s events) :
    s.pool.buffer.length ≤ s.pool.capacity := by
  induction hrun with
  | here => simp [System.init]
  | next _ _ hstep ih => exact step_length_le hstep ih

theorem length_le_capacity_after_eviction :
    ∃ s events, Run versionHashLibrary (fun _ _ => True) (System.init 1) s events ∧
      s.pool.buffer.length = 1 ∧ s.pool.buffer.length ≤ s.pool.capacity := by
  have hrun : Run versionHashLibrary (fun _ _ => True) (System.init 1) _ _ :=
    Run.mono (fun _ _ _ => trivial) <| runActions_run versionHashLibrary (fun _ _ => true)
      [.start, .store (spendingTx 1 0), .run, .complete 0 .success [], .run,
        .store (spendingTx 2 0), .run, .complete 0 .success [], .run] .here rfl
  exact ⟨_, _, hrun, rfl, length_le_capacity hrun⟩

/-- Two transactions stored in a pool of capacity 2, then a block confirming the first: its
`remove_if` moves the second entry over the first and leaves the second's moved-from shell
behind, so the ring holds the second hash twice. -/
theorem confirmed_front_duplicates_hash :
    ∃ s events, Run versionHashLibrary (fun _ _ => True) (System.init 2) s events ∧
      s.pool.buffer.map (·.hash) = [2, 2] :=
  ⟨_, _, Run.mono (fun _ _ _ => trivial) <| runActions_run versionHashLibrary (fun _ _ => true)
    [.start, .store (spendingTx 1 0), .run, .complete 0 .success [], .run,
      .store (spendingTx 2 0), .run, .complete 0 .success [], .run,
      .reorganize .success [⟨⟨1, 0, 0, 0, maxWorkBits, 0⟩, [spendingTx 1 0]⟩] [], .run] .here rfl,
    rfl⟩

/-- A `validate_transaction` that rejects what the chain holds: a validation of a transaction that
was confirmed in the chain when `do_validate` started it does not succeed. -/
def rejectsConfirmed (s : System) : Action → Bool
  | .complete index ec _ =>
    match s.validations[index]? with
    | some v => !(v.confirmedAtStart && ec == .success)
    | none => true
  | _ => true

/-- A store whose validation starts before a block confirming its transaction is processed: the
block's `delete_confirmed` finds nothing in the pool, and `validation_complete` re-checks only the
pool, so it adds the transaction while the chain holds it. -/
theorem validationComplete_adds_confirmed_tx :
    ∃ s s' events new,
      Run versionHashLibrary (fun s a => rejectsConfirmed s a = true) (System.init 1) s events ∧
        step versionHashLibrary s .run = some (s', new) ∧ s.pool.buffer = [] ∧
        s'.pool.buffer.map (·.hash) = [1] ∧ (1 : HashDigest) ∈ s'.chain :=
  ⟨_, _, _, _, runActions_run versionHashLibrary rejectsConfirmed
    [.start, .store (spendingTx 1 0), .run,
      .reorganize .success [⟨⟨1, 0, 0, 0, maxWorkBits, 0⟩, [spendingTx 1 0]⟩] [], .run,
      .complete 0 .success []] .here rfl,
    rfl, rfl, rfl, by decide⟩

end Blockchain
