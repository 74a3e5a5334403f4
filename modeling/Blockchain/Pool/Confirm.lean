import Blockchain.Pool.System

/-!
# Notifying pooled transactions

A stored entry carries the `handle_confirm` of its store request. The pool calls it when a store
at capacity evicts the entry (`pool_filled`), when `invalidate_pool` clears the ring
(`blockchain_reorganized`), and when `try_delete_tx` matches its hash (`success`); a shrinking
`set_capacity` drops entries from the back and calls nothing.

Two slips break the rest of the picture. A store at capacity 0 calls the front of an empty
buffer, and `try_delete_tx` runs `remove_if` without `erase`, so a matched entry can stay in the
ring after its call, and moved-from shells with empty functions are left behind
(`pool_notifies_twice_and_calls_empty_front`). The runs that avoid both (`NoSlip`) keep
`ConfirmInv` (`ConfirmInv.of_step`, `ConfirmInv.of_run`), from which
`confirm_once_without_slips`: no call is ever made of a missing function; each request's
`handle_confirm` is called at most once, and not while its entry is in the ring; and in each step
it is called exactly when its entry leaves the ring, with the code of the way it left
(`leaveCode`), and not at all when `set_capacity` drops it.
-/

namespace Blockchain

/-- The requests whose `handle_confirm` the ring's entries carry, front first. -/
def handlers (s : System) : List Nat := s.pool.buffer.filterMap (·.handleConfirm)

/-- The request whose `handle_confirm` an event calls. -/
def Event.confirm? : Event → Option Nat
  | .confirm n _ => some n
  | _ => none

/-- The calls of request `n`'s `handle_confirm` among events. -/
def confirmCalls (events : List Event) (n : Nat) : Nat := events.countP (·.confirm? == some n)

/-- The store request a validation handler stores for. -/
def ValidateHandler.stores? : ValidateHandler → Option Nat
  | .store n _ => some n
  | .user _ => none

/-- The store request a work item can still store for. -/
def Work.stores? : Work → Option Nat
  | .doValidate _ handler => handler.stores?
  | .validationComplete _ _ _ handler _ => handler.stores?
  | _ => none

/-- The continuations of store request `n` that can still store its transaction. -/
def storesPending (s : System) (n : Nat) : Nat :=
  s.queue.countP (·.stores? == some n) + s.validations.countP (·.handler.stores? == some n)

/-- The steps that avoid the pool's two slips: running a `validation_complete` that stores while
the capacity is 0, which reads the front of an empty buffer, and running a `delete_confirmed`
that finds a pooled hash, whose `remove_if` is not followed by `erase`. -/
def NoSlip (lib : Library) (s : System) : Action → Prop
  | .run =>
    match s.queue with
    | .validationComplete .success _ hash (.store _ _) _ :: _ =>
      s.pool.stopped = false → txExists s.pool hash = false → s.pool.capacity ≠ 0
    | .deleteConfirmed newBlocks :: _ =>
      s.pool.stopped = false → ∀ e ∈ s.pool.buffer, e.hash ∉ blockTxHashes lib newBlocks
    | _ => True
  | _ => True

/-- Whether a step avoids the slips can be decided, so a run can be checked as it is taken. -/
instance (lib : Library) (s : System) (a : Action) : Decidable (NoSlip lib s a) := by
  unfold NoSlip
  split
  · split <;> infer_instance
  · infer_instance

/-- The code an entry's `handle_confirm` gets when a step removes it; `none` for a step that
removes entries without a call. -/
def leaveCode (s : System) : Action → Option Code
  | .run =>
    match s.queue with
    | .validationComplete .. :: _ => some .poolFilled
    | .deleteConfirmed _ :: _ => some .success
    | .invalidatePool _ _ :: _ => some .blockchainReorganized
    | _ => none
  | _ => none

/-- The `handle_confirm` calls of a step are those of the requests whose entries it removes, with
the code of the way they leave. -/
def CallsOnLeave (s s' : System) (a : Action) (new : List Event) : Prop :=
  ∀ n ec, Event.confirm n ec ∈ new ↔ n ∈ handlers s ∧ n ∉ handlers s' ∧ leaveCode s a = some ec

/-- What every run without the slips keeps. -/
structure ConfirmInv (s : System) (events : List Event) : Prop where
  running : s.faulted = false
  noFault : Event.fault ∉ events
  noEmpty : ∀ e ∈ s.pool.buffer, e.handleConfirm ≠ none
  atMostOnce : ∀ n, (handlers s).count n + confirmCalls events n + storesPending s n ≤ 1
  fresh : ∀ n, s.nextRequest ≤ n →
    (handlers s).count n + confirmCalls events n + storesPending s n = 0

/-! ## Calls and counts -/

@[simp] theorem stores?_store (n : Nat) (tx : Transaction) :
    (ValidateHandler.store n tx).stores? = some n := rfl

@[simp] theorem stores?_user (n : Nat) : (ValidateHandler.user n).stores? = none := rfl

@[simp] theorem stores?_doValidate (tx : Transaction) (handler : ValidateHandler) :
    (Work.doValidate tx handler).stores? = handler.stores? := rfl

@[simp] theorem stores?_validationComplete (ec : Code) (u : List Nat) (hash : HashDigest)
    (handler : ValidateHandler) (g : Bool) :
    (Work.validationComplete ec u hash handler g).stores? = handler.stores? := rfl

@[simp] theorem stores?_txFetcher (hash : HashDigest) (n : Nat) :
    (Work.txFetcher hash n).stores? = none := rfl

@[simp] theorem stores?_getExistence (hash : HashDigest) (n : Nat) :
    (Work.getExistence hash n).stores? = none := rfl

@[simp] theorem stores?_deleteConfirmed (newBlocks : List Block) :
    (Work.deleteConfirmed newBlocks).stores? = none := rfl

@[simp] theorem stores?_invalidatePool (newBlocks replacedBlocks : List Block) :
    (Work.invalidatePool newBlocks replacedBlocks).stores? = none := rfl

@[simp] theorem confirmCalls_nil (n : Nat) : confirmCalls [] n = 0 := rfl

@[simp] theorem confirmCalls_append (e₁ e₂ : List Event) (n : Nat) :
    confirmCalls (e₁ ++ e₂) n = confirmCalls e₁ n + confirmCalls e₂ n :=
  List.countP_append _ _ _

@[simp] theorem confirmCalls_cons (e : Event) (events : List Event) (n : Nat) :
    confirmCalls (e :: events) n = confirmCalls events n + if e.confirm? = some n then 1 else 0 := by
  simp [confirmCalls, List.countP_cons]

theorem confirmCalls_map (ns : List Nat) (ec : Code) (n : Nat) :
    confirmCalls (ns.map (.confirm · ec)) n = ns.count n := by
  induction ns with
  | nil => rfl
  | cons m ns ih => simp [ih, Event.confirm?, List.count_cons]

/-- The calls on entries that all carry a function. -/
theorem confirmEvents_map (es : List Entry) (ec : Code) (h : ∀ e ∈ es, e.handleConfirm ≠ none) :
    confirmEvents (es.map (·.handleConfirm, ec)) =
      ((es.filterMap (·.handleConfirm)).map (.confirm · ec), false) := by
  induction es with
  | nil => rfl
  | cons e es ih =>
    obtain ⟨m, hm⟩ := Option.ne_none_iff_exists'.1 (h e (List.mem_cons_self e es))
    simp [confirmEvents, hm, ih fun x hx => h x (List.mem_cons_of_mem e hx)]

/-! ## Steps -/

/-- A step keeps the invariant when, for every request, the entries carrying its function, the
calls of it the step makes and its pending stores add up to no more than before, apart from the
requests the step issues. -/
theorem ConfirmInv.of_counts {s s' : System} {events new : List Event} (hinv : ConfirmInv s events)
    (hf : s'.faulted = false) (hfault : Event.fault ∉ new)
    (hempty : ∀ e ∈ s'.pool.buffer, e.handleConfirm ≠ none) (hnext : s.nextRequest ≤ s'.nextRequest)
    (hcount : ∀ n, (handlers s').count n + confirmCalls new n + storesPending s' n ≤
      (handlers s).count n + storesPending s n +
        if s.nextRequest ≤ n ∧ n < s'.nextRequest then 1 else 0) :
    ConfirmInv s' (events ++ new) := by
  refine ⟨hf, fun h => ?_, hempty, fun n => ?_, fun n hn => ?_⟩
  · rcases List.mem_append.1 h with h | h
    · exact hinv.noFault h
    · exact hfault h
  · have h₁ := hinv.atMostOnce n
    have h₂ := hinv.fresh n
    have h₃ := hcount n
    rw [confirmCalls_append]
    split at h₃ <;> omega
  · have h₁ := hinv.fresh n (by omega)
    have h₃ := hcount n
    rw [confirmCalls_append]
    split at h₃ <;> omega

theorem callsOnLeave_quiet {s s' : System} {a : Action} {new : List Event}
    (hh : handlers s' = handlers s) (hnew : ∀ e ∈ new, e.confirm? = none) :
    CallsOnLeave s s' a new := fun n ec =>
  ⟨fun h => by simpa [Event.confirm?] using hnew _ h, fun ⟨h₁, h₂, _⟩ => absurd (hh ▸ h₁) h₂⟩

/-- A step that keeps the ring, calls no `handle_confirm` and adds continuations only for the
requests it issues. -/
theorem ConfirmInv.quiet {s s' : System} {events new : List Event} {a : Action}
    (hinv : ConfirmInv s events) (hbuf : s'.pool.buffer = s.pool.buffer) (hf : s'.faulted = false)
    (hnew : ∀ e ∈ new, e.confirm? = none ∧ e ≠ .fault) (hnext : s.nextRequest ≤ s'.nextRequest)
    (hpend : ∀ n, storesPending s' n ≤
      storesPending s n + if s.nextRequest ≤ n ∧ n < s'.nextRequest then 1 else 0) :
    ConfirmInv s' (events ++ new) ∧ CallsOnLeave s s' a new := by
  have hh : handlers s' = handlers s := by rw [handlers, hbuf, handlers]
  have hcalls (n : Nat) : confirmCalls new n = 0 :=
    List.countP_eq_zero.2 fun e he => by simp [(hnew e he).1]
  refine ⟨hinv.of_counts hf (fun h => (hnew _ h).2 rfl) (hbuf ▸ hinv.noEmpty) hnext
    fun n => ?_, callsOnLeave_quiet hh fun e he => (hnew e he).1⟩
  have := hpend n
  rw [hh, hcalls]
  omega

/-- `set_capacity` drops entries from the back, calling nothing. -/
theorem ConfirmInv.of_setCapacity {s : System} {events : List Event} (hinv : ConfirmInv s events)
    (capacity : Nat) :
    ConfirmInv { s with pool := setCapacity s.pool capacity } (events ++ []) ∧
      CallsOnLeave s { s with pool := setCapacity s.pool capacity } (.setCapacity capacity) [] := by
  have hsub : (handlers { s with pool := setCapacity s.pool capacity }).Sublist (handlers s) :=
    (List.take_sublist _ _).filterMap _
  refine ⟨hinv.of_counts hinv.running (by simp)
    (fun e he => hinv.noEmpty e (List.mem_of_mem_take he)) le_rfl fun n => ?_,
    fun n ec => by simp [leaveCode]⟩
  have := hsub.count_le n
  simp only [confirmCalls_nil, storesPending]
  omega

/-- `invalidate_pool` on a running pool calls every entry's `handle_confirm` and clears the
ring. -/
theorem ConfirmInv.clear {s : System} {events new : List Event} (hinv : ConfirmInv s events)
    (s' : System) (ec : Code) (hbuf : s'.pool.buffer = []) (hf : s'.faulted = false)
    (hnew : new = (handlers s).map (.confirm · ec)) (hnext : s.nextRequest ≤ s'.nextRequest)
    (hpend : ∀ n, storesPending s' n ≤ storesPending s n) :
    ConfirmInv s' (events ++ new) ∧
      ∀ n e, Event.confirm n e ∈ new ↔ n ∈ handlers s ∧ n ∉ handlers s' ∧ e = ec := by
  have hh : handlers s' = [] := by simp [handlers, hbuf]
  subst hnew
  refine ⟨hinv.of_counts hf (by simp) (by simp [hbuf]) hnext fun n => ?_, fun n e => ?_⟩
  · have := hpend n
    rw [hh, confirmCalls_map, List.count_nil]
    omega
  · simp only [hh, List.mem_map, Event.confirm.injEq, List.not_mem_nil, not_false_eq_true,
      true_and]
    constructor
    · rintro ⟨m, hm, rfl, rfl⟩
      exact ⟨hm, rfl⟩
    · rintro ⟨hm, rfl⟩
      exact ⟨n, hm, rfl, rfl⟩

theorem storesPending_pop {s : System} {w : Work} {rest : List Work} (hq : s.queue = w :: rest)
    (n : Nat) :
    storesPending { s with queue := rest } n + (if w.stores? = some n then 1 else 0) =
      storesPending s n := by
  simp only [storesPending, hq, List.countP_cons, beq_iff_eq]
  omega

/-- A store's continuation that runs `store_transaction`: the entries of the requests `dropped`
leave from the front with `pool_filled`, the request's own entry joins the back, and its
`handle_validate` is called. -/
theorem ConfirmInv.push {s s' : System} {events : List Event} {w : Work} {rest : List Work}
    {n : Nat} (u : List Nat) (hinv : ConfirmInv s events) (hq : s.queue = w :: rest)
    (hw : w.stores? = some n) {dropped kept : List Nat} (hhs : handlers s = dropped ++ kept)
    (hhs' : handlers s' = kept ++ [n]) (hempty : ∀ e ∈ s'.pool.buffer, e.handleConfirm ≠ none)
    (hf : s'.faulted = false) (hnext : s'.nextRequest = s.nextRequest)
    (hpend : ∀ k, storesPending s' k = storesPending { s with queue := rest } k) :
    ConfirmInv s' (events ++ (dropped.map (.confirm · .poolFilled) ++ [.validate n .success u])) ∧
      ∀ k e, Event.confirm k e ∈ dropped.map (.confirm · .poolFilled) ++ [.validate n .success u] ↔
        k ∈ handlers s ∧ k ∉ handlers s' ∧ e = .poolFilled := by
  have hpop (k : Nat) : storesPending s' k + (if n = k then 1 else 0) = storesPending s k := by
    simpa [hw, hpend k] using storesPending_pop hq k
  have hone (k : Nat) : dropped.count k + kept.count k + storesPending s k ≤ 1 := by
    have := hinv.atMostOnce k
    rw [hhs, List.count_append] at this
    omega
  have hn : n ∉ dropped ++ kept := fun h => by
    have := List.count_pos_iff.2 h
    have := hone n
    have := hpop n
    simp only [List.count_append, if_true] at *
    omega
  refine ⟨hinv.of_counts hf (by simp) hempty hnext.ge fun k => ?_, fun k e => ?_⟩
  · have := hpop k
    rw [hhs, hhs', confirmCalls_append, confirmCalls_map, List.count_append, List.count_append,
      List.count_singleton']
    simp only [confirmCalls_cons, confirmCalls_nil, Event.confirm?, reduceCtorEq, if_false]
    split_ifs at this ⊢ <;> omega
  · rw [hhs, hhs']
    simp only [List.mem_append, List.mem_map, List.mem_singleton, Event.confirm.injEq,
      reduceCtorEq, or_false, not_or]
    constructor
    · rintro ⟨m, hm, rfl, rfl⟩
      have := hone m
      have := List.count_pos_iff.2 hm
      exact ⟨.inl hm, ⟨fun h => by have := List.count_pos_iff.2 h; omega,
        fun h => hn (h ▸ List.mem_append_left kept hm)⟩, rfl⟩
    · rintro ⟨hk | hk, ⟨hk', -⟩, rfl⟩
      · exact ⟨k, hk, rfl, rfl⟩
      · exact absurd hk hk'

/-- A store on a running pool of nonzero capacity: at capacity the front's `handle_confirm` gets
`pool_filled` and the front leaves; the new entry joins the back. -/
theorem ConfirmInv.store {lib : Library} {s : System} {events : List Event}
    (hinv : ConfirmInv s events) {w : Work} {rest : List Work} (hq : s.queue = w :: rest)
    {n : Nat} (hw : w.stores? = some n) (hcap : s.pool.capacity ≠ 0) (tx : Transaction)
    (u : List Nat) :
    ConfirmInv (handleValidate lib { s with queue := rest } .success u (.store n tx)).1
        (events ++ (handleValidate lib { s with queue := rest } .success u (.store n tx)).2) ∧
      ∀ k e, Event.confirm k e ∈ (handleValidate lib { s with queue := rest } .success u
          (.store n tx)).2 ↔
        k ∈ handlers s ∧
          k ∉ handlers (handleValidate lib { s with queue := rest } .success u (.store n tx)).1 ∧
          e = .poolFilled := by
  have hnew : ∀ b : List Entry, (∀ e ∈ b, e.handleConfirm ≠ none) →
      ∀ e ∈ b ++ [⟨lib.txHash tx, tx, some n⟩], e.handleConfirm ≠ none := fun b hb e he => by
    rcases List.mem_append.1 he with he | he
    · exact hb e he
    · simp [List.mem_singleton.1 he]
  by_cases hfull : s.pool.buffer.length = s.pool.capacity
  · obtain ⟨e, es, hbuf⟩ : ∃ e es, s.pool.buffer = e :: es := by
      cases h : s.pool.buffer with
      | nil => simp [h] at hfull; omega
      | cons e es => exact ⟨e, es, rfl⟩
    obtain ⟨m, hm⟩ := Option.ne_none_iff_exists'.1 (hinv.noEmpty e (by simp [hbuf]))
    have hfull' : es.length + 1 = s.pool.capacity := by simpa [hbuf] using hfull
    have hr : handleValidate lib { s with queue := rest } .success u (.store n tx) =
        ({ s with
            queue := rest
            faulted := false
            pool := { s.pool with buffer := es ++ [⟨lib.txHash tx, tx, some n⟩] } },
          [.confirm m .poolFilled, .validate n .success u]) := by
      simp [handleValidate, System.withPool, storeTransaction, pushBack, hbuf, hfull', hm,
        confirmEvents]
    rw [hr]
    exact hinv.push u hq hw
      (by simp [handlers, hbuf, hm] : handlers s = [m] ++ es.filterMap (·.handleConfirm))
      (by simp [handlers]) (hnew es fun x hx => hinv.noEmpty x (by simp [hbuf, hx])) rfl rfl
      fun _ => rfl
  · have hr : handleValidate lib { s with queue := rest } .success u (.store n tx) =
        ({ s with
            queue := rest
            faulted := false
            pool := { s.pool with buffer := s.pool.buffer ++ [⟨lib.txHash tx, tx, some n⟩] } },
          [.validate n .success u]) := by
      simp [handleValidate, System.withPool, storeTransaction, pushBack, hfull, confirmEvents]
    rw [hr]
    exact hinv.push u hq hw (List.nil_append _).symm (by simp [handlers])
      (hnew _ hinv.noEmpty) rfl rfl fun _ => rfl

theorem storesPending_pop_le {s : System} {w : Work} {rest : List Work} (hq : s.queue = w :: rest)
    (n : Nat) : storesPending { s with queue := rest } n ≤ storesPending s n := by
  have := storesPending_pop hq n
  omega

/-- A work item that keeps the ring and calls no `handle_confirm`. -/
theorem ConfirmInv.pop {s s' : System} {events new : List Event} {a : Action} {w : Work}
    {rest : List Work} (hinv : ConfirmInv s events) (hq : s.queue = w :: rest)
    (hbuf : s'.pool.buffer = s.pool.buffer) (hf : s'.faulted = false)
    (hnew : ∀ e ∈ new, e.confirm? = none ∧ e ≠ .fault) (hnext : s'.nextRequest = s.nextRequest)
    (hpend : ∀ n, storesPending s' n ≤ storesPending { s with queue := rest } n) :
    ConfirmInv s' (events ++ new) ∧ CallsOnLeave s s' a new :=
  hinv.quiet hbuf hf hnew hnext.ge fun n =>
    ((hpend n).trans (storesPending_pop_le hq n)).trans (Nat.le_add_right _ _)

/-- A handler that does not store calls its `handle_validate` and changes nothing. -/
theorem handleValidate_of_not_store (lib : Library) (s : System) {ec : Code} (u : List Nat)
    {handler : ValidateHandler} (h : ∀ n tx, handler = .store n tx → ec ≠ .success) :
    handleValidate lib s ec u handler = (s, [.validate handler.request ec u]) := by
  cases handler with
  | user n => rfl
  | store n tx => simp [handleValidate, h n tx rfl, ValidateHandler.request]

theorem ConfirmInv.of_runWork {lib : Library} {s : System} {events : List Event} {w : Work}
    {rest : List Work} (hinv : ConfirmInv s events) (hq : s.queue = w :: rest)
    (hslip : NoSlip lib s .run) :
    ConfirmInv (runWork lib { s with queue := rest } w).1
        (events ++ (runWork lib { s with queue := rest } w).2) ∧
      CallsOnLeave s (runWork lib { s with queue := rest } w).1 .run
        (runWork lib { s with queue := rest } w).2 := by
  cases w with
  | doValidate tx handler =>
    simp only [runWork]
    split
    · rw [handleValidate_of_not_store lib _ _ fun _ _ _ => by decide]
      exact hinv.pop hq rfl hinv.running (by simp [Event.confirm?]) rfl fun _ => le_rfl
    · refine hinv.quiet rfl hinv.running (by simp) le_rfl fun n => ?_
      simp only [storesPending, hq, List.countP_append, List.countP_cons, List.countP_nil,
        stores?_doValidate]
      omega
  | validationComplete ec u hash handler g =>
    obtain ⟨ec', u', heq, hsucc⟩ := validationComplete_eq lib { s with queue := rest } ec u hash handler
    simp only [runWork]
    rw [heq]
    by_cases hs : ∃ n tx, handler = .store n tx ∧ ec' = .success
    · obtain ⟨n, tx, rfl, rfl⟩ := hs
      obtain ⟨hstop, rfl, hex⟩ := hsucc rfl
      have hcap : s.pool.capacity ≠ 0 := by
        simp only [NoSlip, hq] at hslip
        exact hslip hstop hex
      obtain ⟨hI, hL⟩ := hinv.store hq (show (Work.validationComplete .success u hash
        (.store n tx) g).stores? = some n from rfl) hcap tx u'
      refine ⟨hI, fun k e => (hL k e).trans ?_⟩
      simp [leaveCode, hq, eq_comm]
    · rw [handleValidate_of_not_store lib _ _ fun n tx h h' => hs ⟨n, tx, h, h'⟩]
      exact hinv.pop hq rfl hinv.running (by simp [Event.confirm?]) rfl fun _ => le_rfl
  | txFetcher hash m =>
    simp only [runWork]
    split <;> exact hinv.pop hq rfl hinv.running (by simp [Event.confirm?]) rfl fun _ => le_rfl
  | getExistence hash m =>
    exact hinv.pop hq rfl hinv.running (by simp [runWork, Event.confirm?]) rfl fun _ => le_rfl
  | deleteConfirmed newBlocks =>
    have hnone : deleteConfirmed lib s.pool newBlocks = (s.pool, []) :=
      deleteConfirmed_of_forall_not_mem lib s.pool newBlocks (by simpa [NoSlip, hq] using hslip)
    simp only [runWork, hnone]
    exact hinv.pop hq rfl rfl (by simp [System.withPool, confirmEvents]) rfl fun _ => le_rfl
  | invalidatePool newBlocks replacedBlocks =>
    simp only [runWork, invalidatePool]
    split
    · exact hinv.pop hq rfl rfl (by simp [System.withPool, confirmEvents]) rfl fun _ => le_rfl
    · simp only [System.withPool, confirmEvents_map _ _ hinv.noEmpty]
      obtain ⟨hI, hL⟩ := hinv.clear { s with
          queue := rest
          chain := s.chain.filter (· ∉ blockTxHashes lib replacedBlocks) ++
            blockTxHashes lib newBlocks
          pool := { s.pool with buffer := [] }
          faulted := false }
        .blockchainReorganized rfl rfl rfl le_rfl (storesPending_pop_le hq)
      refine ⟨hI, fun k e => (hL k e).trans ?_⟩
      simp [leaveCode, hq, eq_comm]

/-- **The step lemma**: every step without a slip keeps the invariant and calls `handle_confirm`
exactly for the entries it removes. -/
theorem ConfirmInv.of_step {lib : Library} {s s' : System} {events new : List Event} {a : Action}
    (hinv : ConfirmInv s events) (hslip : NoSlip lib s a) (h : step lib s a = some (s', new)) :
    ConfirmInv s' (events ++ new) ∧ CallsOnLeave s s' a new := by
  have hf := hinv.running
  cases a
  case run =>
    cases hq : s.queue with
    | nil => simp [step, hf, hq] at h
    | cons w rest =>
      rw [step_run hf hq, Option.some.injEq] at h
      have := hinv.of_runWork hq hslip
      rwa [h] at this
  case setCapacity capacity =>
    obtain ⟨rfl, rfl⟩ : { s with pool := setCapacity s.pool capacity } = s' ∧ [] = new := by
      simpa [step, hf] using h
    exact hinv.of_setCapacity capacity
  case complete index ec u =>
    simp only [step, hf, Bool.false_eq_true, if_false] at h
    split at h
    · cases h
    · rename_i v hv
      simp only [Option.some.injEq, Prod.mk.injEq] at h
      obtain ⟨rfl, rfl⟩ := h
      refine hinv.quiet rfl rfl (by simp) le_rfl fun n => ?_
      have := countP_eraseIdx (·.handler.stores? == some n) _ _ _ hv
      dsimp only at this
      simp only [storesPending, List.countP_append, List.countP_cons, List.countP_nil,
        stores?_validationComplete]
      omega
  all_goals
    simp only [step, hf, Bool.false_eq_true, if_false] at h
    (try split at h) <;> (try split at h) <;>
      simp only [Option.some.injEq, Prod.mk.injEq] at h <;> obtain ⟨rfl, rfl⟩ := h <;>
      refine hinv.quiet rfl rfl (by simp [Event.confirm?]) (by simp) fun n => ?_ <;>
      simp only [storesPending, List.countP_append, List.countP_cons, List.countP_nil,
        stores?_doValidate, stores?_store, stores?_user, stores?_txFetcher, stores?_getExistence,
        stores?_deleteConfirmed, stores?_invalidatePool, beq_iff_eq, Option.some.injEq,
        reduceCtorEq, if_false] <;>
      split_ifs <;> omega

theorem ConfirmInv.init (capacity : Nat) : ConfirmInv (System.init capacity) [] :=
  ⟨rfl, List.not_mem_nil _, fun _ h => absurd h (List.not_mem_nil _),
    fun _ => by simp [handlers, System.init, storesPending],
    fun _ _ => by simp [handlers, System.init, storesPending]⟩

/-- **The run lemma**: every run without the slips keeps the invariant. -/
theorem ConfirmInv.of_run {lib : Library} {capacity : Nat} {s : System} {events : List Event}
    (hrun : Run lib (NoSlip lib) (System.init capacity) s events) : ConfirmInv s events := by
  induction hrun with
  | here => exact ConfirmInv.init capacity
  | next _ hslip hstep ih => exact (ih.of_step hslip hstep).1

/-- **Notification without the slips.** Over every run from a constructed pool that avoids the
two slips: no missing function is ever called; each request's `handle_confirm` is called at most
once, and not while an entry carrying it is in the ring; and every further step calls it exactly
when that entry leaves the ring, with the code of the way it leaves, and a `set_capacity` step
(whose `leaveCode` is `none`) calls nothing. -/
theorem confirm_once_without_slips {lib : Library} {capacity : Nat} {s : System}
    {events : List Event} (hrun : Run lib (NoSlip lib) (System.init capacity) s events) :
    Event.fault ∉ events ∧ (∀ n, (handlers s).count n + confirmCalls events n ≤ 1) ∧
      ∀ a s' new, NoSlip lib s a → step lib s a = some (s', new) → CallsOnLeave s s' a new := by
  have hinv := ConfirmInv.of_run hrun
  exact ⟨hinv.noFault, fun n => by have := hinv.atMostOnce n; omega,
    fun _ _ _ hslip hstep => (hinv.of_step hslip hstep).2⟩

theorem confirm_once_after_eviction_and_reorganization :
    ∃ s events, Run versionHashLibrary (NoSlip versionHashLibrary) (System.init 1) s events ∧
      events.filter (·.confirm?.isSome) =
        [.confirm 0 .poolFilled, .confirm 1 .blockchainReorganized] ∧
      Event.fault ∉ events ∧ (∀ n, (handlers s).count n + confirmCalls events n ≤ 1) ∧
      ∀ a s' new, NoSlip versionHashLibrary s a → step versionHashLibrary s a = some (s', new) →
        CallsOnLeave s s' a new := by
  have hrun : Run versionHashLibrary (NoSlip versionHashLibrary) (System.init 1) _ _ :=
    Run.mono (fun _ _ h => of_decide_eq_true h) <| runActions_run versionHashLibrary
      (fun s a => decide (NoSlip versionHashLibrary s a))
      [.start, .store (spendingTx 1 0), .run, .complete 0 .success [], .run,
        .store (spendingTx 2 0), .run, .complete 0 .success [], .run,
        .reorganize .success [] [⟨⟨1, 0, 0, 0, maxWorkBits, 0⟩, []⟩], .run] .here rfl
  exact ⟨_, _, hrun, rfl, confirm_once_without_slips hrun⟩

/-- Both slips, on two runs. In a pool of capacity 1, a block confirming the stored transaction
calls its `handle_confirm` with `success` and leaves the entry in the ring, so the next store
evicts it and calls the same function again with `pool_filled`. In a pool of capacity 0, a store
calls the front of the empty buffer. -/
theorem pool_notifies_twice_and_calls_empty_front :
    (∃ s events, Run versionHashLibrary (fun _ _ => True) (System.init 1) s events ∧
      events.filter (·.confirm? == some 0) = [.confirm 0 .success, .confirm 0 .poolFilled]) ∧
    ∃ s events, Run versionHashLibrary (fun _ _ => True) (System.init 0) s events ∧
      Event.fault ∈ events :=
  ⟨⟨_, _, Run.mono (fun _ _ _ => trivial) <| runActions_run versionHashLibrary (fun _ _ => true)
      [.start, .store (spendingTx 1 0), .run, .complete 0 .success [], .run,
        .reorganize .success [⟨⟨1, 0, 0, 0, maxWorkBits, 0⟩, [spendingTx 1 0]⟩] [], .run,
        .store (spendingTx 2 0), .run, .complete 0 .success [], .run] .here rfl,
      rfl⟩,
    _, _, Run.mono (fun _ _ _ => trivial) <| runActions_run versionHashLibrary (fun _ _ => true)
      [.start, .store (spendingTx 1 0), .run, .complete 0 .success [], .run] .here rfl,
    by decide⟩

end Blockchain
