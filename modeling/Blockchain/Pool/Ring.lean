import Blockchain.Pool.Confirm

/-!
# What the ring holds

The pool stores a transaction only in `wrap_validate` of a store request whose validation
succeeded, after `validation_complete` has re-checked `tx_exists` for the hash of the transaction
that was validated; each store request validates and stores the one transaction it was given. So
over every run without the slips (`NoSlip`) every entry's hash is its transaction's hash and no two
entries share a hash (`RingInv.of_run`, `ring_hashes_distinct`), and a `fetch` answers with a
transaction of the hash it asked for, exactly when the ring holds one
(`fetch_returns_requested_tx`).

A stopped pool is quiet until it is started again. From any state whose pool is stopped, over
every run without `start`, the pool stays stopped, the ring only loses entries from the back
(`set_capacity`), no `handle_confirm` is called, nothing faults, and every `handle_validate` call
reports `service_stopped` with no indices (`stopped_pool_quiet`).
-/

namespace Blockchain

/-! ## The ring's entries -/

/-- A work item's handler stores the transaction the item is about. -/
def Work.StoresOwn (lib : Library) : Work → Prop
  | .doValidate tx handler => ∀ n tx', handler = .store n tx' → tx' = tx
  | .validationComplete _ _ txHash handler _ => ∀ n tx, handler = .store n tx → txHash = lib.txHash tx
  | _ => True

/-- A validation's handler stores the transaction being validated. -/
def Validation.StoresOwn (v : Validation) : Prop := ∀ n tx, v.handler = .store n tx → tx = v.tx

/-- What every run without the slips keeps: the entries are keyed by their transactions' hashes,
no two share one, and every store in the queue or in flight stores the transaction it
validates. -/
structure RingInv (lib : Library) (s : System) : Prop where
  coherent : ∀ e ∈ s.pool.buffer, e.hash = lib.txHash e.tx
  distinct : (s.pool.buffer.map (·.hash)).Nodup
  queued : ∀ w ∈ s.queue, w.StoresOwn lib
  inFlight : ∀ v ∈ s.validations, v.StoresOwn

theorem mem_pushBack {α : Type} {capacity : Nat} {buffer : List α} {x e : α}
    (h : e ∈ pushBack capacity buffer x) : e ∈ buffer ∨ e = x := by
  unfold pushBack at h
  split_ifs at h
  · exact .inl h
  · rcases List.mem_append.1 h with h | h
    · exact .inl (List.mem_of_mem_tail h)
    · exact .inr (List.mem_singleton.1 h)
  · simpa using h

theorem nodup_map_pushBack {α β : Type} (f : α → β) {capacity : Nat} {buffer : List α} {x : α}
    (hnd : (buffer.map f).Nodup) (hx : f x ∉ buffer.map f) :
    ((pushBack capacity buffer x).map f).Nodup := by
  have happend (l : List α) (hl : l.Sublist buffer) : ((l ++ [x]).map f).Nodup := by
    rw [List.map_append, List.nodup_append]
    exact ⟨(hl.map f).nodup hnd, List.nodup_singleton _,
      fun a ha hb => hx (List.mem_singleton.1 hb ▸ (hl.map f).subset ha)⟩
  unfold pushBack
  split_ifs
  · exact hnd
  · exact happend _ (List.tail_sublist buffer)
  · exact happend _ (List.Sublist.refl buffer)

/-- A step that keeps a part of the ring and adds only work items and validations that store
their own transactions keeps the invariant. -/
theorem RingInv.sublist {lib : Library} {s s' : System} (hinv : RingInv lib s)
    (hbuf : s'.pool.buffer.Sublist s.pool.buffer)
    (hq : ∀ w ∈ s'.queue, w ∈ s.queue ∨ w.StoresOwn lib)
    (hv : ∀ v ∈ s'.validations, v ∈ s.validations ∨ v.StoresOwn) : RingInv lib s' :=
  ⟨fun e he => hinv.coherent e (hbuf.subset he), (hbuf.map _).nodup hinv.distinct,
    fun w hw => (hq w hw).elim (hinv.queued w) id, fun v hv' => (hv v hv').elim (hinv.inFlight v) id⟩

/-- A step that keeps the ring and the validations and queues at most one item, which stores its
own transaction, keeps the invariant. -/
theorem RingInv.enqueue {lib : Library} {s s' : System} (hinv : RingInv lib s)
    (hbuf : s'.pool.buffer = s.pool.buffer) (hv : s'.validations = s.validations)
    (hq : s'.queue = s.queue ∨ ∃ w, s'.queue = s.queue ++ [w] ∧ w.StoresOwn lib) :
    RingInv lib s' := by
  refine hinv.sublist (hbuf ▸ List.Sublist.refl _) (fun w' hw' => ?_) fun v h => .inl (hv ▸ h)
  rcases hq with hq | ⟨w, hq, hw⟩
  · exact .inl (hq ▸ hw')
  · rcases List.mem_append.1 (hq ▸ hw') with h | h
    · exact .inl h
    · exact .inr (List.mem_singleton.1 h ▸ hw)

/-- Calling a validation handler changes neither the queue nor the validations in flight, and
changes the ring only by a store that succeeded. -/
theorem handleValidate_frame (lib : Library) (s : System) (ec : Code) (u : List Nat)
    (handler : ValidateHandler) :
    (handleValidate lib s ec u handler).1.queue = s.queue ∧
      (handleValidate lib s ec u handler).1.validations = s.validations ∧
      ((handleValidate lib s ec u handler).1.pool.buffer = s.pool.buffer ∨
        ∃ n tx, handler = .store n tx ∧ ec = .success ∧
          (handleValidate lib s ec u handler).1.pool.buffer =
            pushBack s.pool.capacity s.pool.buffer ⟨lib.txHash tx, tx, some n⟩) := by
  cases handler with
  | user n => exact ⟨rfl, rfl, .inl rfl⟩
  | store n tx =>
    by_cases h : ec = .success
    · subst h
      exact ⟨rfl, rfl, .inr ⟨n, tx, rfl, rfl, rfl⟩⟩
    · simp [handleValidate, h]

/-- A successful store of a transaction whose hash the ring does not hold keeps the invariant. -/
theorem RingInv.push {lib : Library} {s s' : System} {n : Nat} {tx : Transaction}
    (hinv : RingInv lib s)
    (hbuf : s'.pool.buffer = pushBack s.pool.capacity s.pool.buffer ⟨lib.txHash tx, tx, some n⟩)
    (hnew : lib.txHash tx ∉ s.pool.buffer.map (·.hash))
    (hq : ∀ w ∈ s'.queue, w ∈ s.queue) (hv : s'.validations = s.validations) : RingInv lib s' := by
  refine ⟨fun e he => ?_, hbuf ▸ nodup_map_pushBack _ hinv.distinct hnew,
    fun w hw => hinv.queued w (hq w hw), hv ▸ hinv.inFlight⟩
  rcases mem_pushBack (hbuf ▸ he) with he | rfl
  · exact hinv.coherent e he
  · rfl

theorem not_mem_of_txExists {pool : Pool} {hash : HashDigest} (h : txExists pool hash = false) :
    hash ∉ pool.buffer.map (·.hash) := by
  simpa [txExists] using h

/-- Running a work item without a slip keeps the invariant. -/
theorem RingInv.of_runWork {lib : Library} {s : System} {w : Work} {rest : List Work}
    (hinv : RingInv lib s) (hq : s.queue = w :: rest) (hslip : NoSlip lib s .run) :
    RingInv lib (runWork lib { s with queue := rest } w).1 := by
  have hrest (w' : Work) (h : w' ∈ rest) : w' ∈ s.queue := hq ▸ List.mem_cons_of_mem w h
  have hw : w.StoresOwn lib := hinv.queued w (hq ▸ List.mem_cons_self w rest)
  -- a handler call in the state with the item popped
  have hcall (ec : Code) (u : List Nat) (handler : ValidateHandler)
      (hfresh : ∀ n tx, handler = .store n tx → ec = .success →
        lib.txHash tx ∉ s.pool.buffer.map (·.hash)) :
      RingInv lib (handleValidate lib { s with queue := rest } ec u handler).1 := by
    obtain ⟨hq', hv', hbuf | ⟨n, tx, rfl, rfl, hbuf⟩⟩ :=
      handleValidate_frame lib { s with queue := rest } ec u handler
    · dsimp only at hq' hv'
      exact hinv.sublist (hbuf ▸ List.Sublist.refl _) (fun w' h => .inl (hrest w' (hq' ▸ h)))
        fun v h => .inl (hv' ▸ h)
    · dsimp only at hq' hv' hbuf
      exact hinv.push hbuf (hfresh n tx rfl rfl) (fun w' h => hrest w' (hq' ▸ h)) hv'
  have hkeep (s' : System) (hbuf : s'.pool.buffer.Sublist s.pool.buffer) (hq' : s'.queue = rest)
      (hv' : s'.validations = s.validations) : RingInv lib s' :=
    hinv.sublist hbuf (fun w' h => .inl (hrest w' (hq' ▸ h))) fun v h => .inl (hv' ▸ h)
  cases w with
  | doValidate tx handler =>
    simp only [runWork]
    split
    · exact hcall _ _ _ fun _ _ _ h => nomatch h
    · refine hinv.sublist (List.Sublist.refl _) (fun w' h => .inl (hrest w' h)) fun v h => ?_
      rcases List.mem_append.1 h with h | h
      · exact .inl h
      · exact .inr (List.mem_singleton.1 h ▸ hw)
  | validationComplete ec u hash handler g =>
    obtain ⟨ec', u', heq, hsucc⟩ := validationComplete_eq lib { s with queue := rest } ec u hash handler
    simp only [runWork, heq]
    exact hcall _ _ _ fun n tx hh he => hw n tx hh ▸ not_mem_of_txExists (hsucc he).2.2
  | txFetcher hash m =>
    simp only [runWork]
    split <;> exact hkeep _ (List.Sublist.refl _) rfl rfl
  | getExistence hash m => exact hkeep _ (List.Sublist.refl _) rfl rfl
  | deleteConfirmed newBlocks =>
    have hnone : deleteConfirmed lib s.pool newBlocks = (s.pool, []) :=
      deleteConfirmed_of_forall_not_mem lib s.pool newBlocks (by simpa [NoSlip, hq] using hslip)
    exact hkeep _ (by simp [runWork, System.withPool, hnone]) rfl rfl
  | invalidatePool newBlocks replacedBlocks =>
    refine hkeep _ ?_ rfl rfl
    simp only [runWork, System.withPool, invalidatePool]
    split
    · exact List.Sublist.refl _
    · exact List.nil_sublist _

/-- **The step lemma**: every step without a slip keeps the invariant. -/
theorem RingInv.of_step {lib : Library} {s s' : System} {a : Action} {new : List Event}
    (hinv : RingInv lib s) (hslip : NoSlip lib s a) (h : step lib s a = some (s', new)) :
    RingInv lib s' := by
  have hf := faulted_of_step h
  cases a
  case run =>
    cases hq : s.queue with
    | nil => simp [step, hf, hq] at h
    | cons w rest =>
      rw [step_run hf hq, Option.some.injEq] at h
      have := hinv.of_runWork hq hslip
      rwa [h] at this
  case setCapacity capacity =>
    simp only [step, hf, Bool.false_eq_true, if_false, Option.some.injEq, Prod.mk.injEq] at h
    obtain ⟨rfl, -⟩ := h
    exact hinv.sublist (List.take_sublist _ _) (fun w h => .inl h) fun v h => .inl h
  case complete index ec u =>
    simp only [step, hf, Bool.false_eq_true, if_false] at h
    split at h
    · cases h
    · rename_i v hv
      simp only [Option.some.injEq, Prod.mk.injEq] at h
      obtain ⟨rfl, -⟩ := h
      refine hinv.sublist (List.Sublist.refl _) (fun w hw => ?_)
        fun v' h => .inl (List.mem_of_mem_eraseIdx h)
      rcases List.mem_append.1 hw with hw | hw
      · exact .inl hw
      · exact .inr (List.mem_singleton.1 hw ▸ fun n tx hh =>
          congrArg lib.txHash (hinv.inFlight v (List.getElem?_mem hv) n tx hh).symm)
  -- the requests, the notification, `stop` and `start` keep the ring and queue at most one item
  all_goals
    simp only [step, hf, Bool.false_eq_true, if_false] at h
    (try split at h) <;> (try split at h) <;>
      simp only [Option.some.injEq, Prod.mk.injEq] at h <;> obtain ⟨rfl, -⟩ := h <;>
      refine hinv.enqueue rfl rfl ?_
    all_goals first
      | exact .inl rfl
      | exact .inr ⟨_, rfl, trivial⟩
      | exact .inr ⟨_, rfl, fun _ _ h => by cases h <;> rfl⟩

theorem RingInv.init (lib : Library) (capacity : Nat) : RingInv lib (System.init capacity) :=
  ⟨by simp [System.init], by simp [System.init], by simp [System.init], by simp [System.init]⟩

/-- **The run lemma**: every run without the slips keeps the invariant. -/
theorem RingInv.of_run {lib : Library} {capacity : Nat} {s : System} {events : List Event}
    (hrun : Run lib (NoSlip lib) (System.init capacity) s events) : RingInv lib s := by
  induction hrun with
  | here => exact RingInv.init lib capacity
  | next _ hslip hstep ih => exact ih.of_step hslip hstep

/-- **The pool never holds a hash twice.** Over every run from a constructed pool that avoids
the two slips, every entry of the ring is keyed by its transaction's hash and no two entries share
a hash. -/
theorem ring_hashes_distinct {lib : Library} {capacity : Nat} {s : System} {events : List Event}
    (hrun : Run lib (NoSlip lib) (System.init capacity) s events) :
    (s.pool.buffer.map (·.hash)).Nodup ∧ ∀ e ∈ s.pool.buffer, e.hash = lib.txHash e.tx :=
  ⟨(RingInv.of_run hrun).distinct, (RingInv.of_run hrun).coherent⟩

/-- Two stores into a ring of capacity 1 and a fetch of the second transaction, each step checked
against `NoSlip`. -/
def twoStoresAndFetch : List Action :=
  [.start, .store (spendingTx 1 0), .run, .complete 0 .success [], .run,
    .store (spendingTx 2 0), .run, .complete 0 .success [], .run, .fetch 2]

theorem twoStoresAndFetch_run :
    ∃ s events, Run versionHashLibrary (NoSlip versionHashLibrary) (System.init 1) s events ∧
      s.pool.buffer.map (·.hash) = [2] ∧ s.queue = [.txFetcher 2 2] ∧ s.faulted = false :=
  ⟨_, _, Run.mono (fun _ _ h => of_decide_eq_true h) <| runActions_run versionHashLibrary
    (fun s a => decide (NoSlip versionHashLibrary s a)) twoStoresAndFetch .here rfl, rfl, rfl, rfl⟩

theorem ring_hashes_distinct_after_eviction :
    ∃ s events, Run versionHashLibrary (NoSlip versionHashLibrary) (System.init 1) s events ∧
      s.pool.buffer.map (·.hash) = [2] ∧ (s.pool.buffer.map (·.hash)).Nodup ∧
      ∀ e ∈ s.pool.buffer, e.hash = versionHashLibrary.txHash e.tx := by
  obtain ⟨s, events, hrun, hbuf, -⟩ := twoStoresAndFetch_run
  exact ⟨s, events, hrun, hbuf, ring_hashes_distinct hrun⟩

theorem txExists_eq_isSome_txFind (pool : Pool) (hash : HashDigest) :
    txExists pool hash = (txFind pool hash).isSome := by
  rw [Bool.eq_iff_iff, txExists, txFind, List.any_eq_true, List.find?_isSome]

/-- **A fetch returns the transaction asked for.** Over every run without the slips, the
fetcher of a `fetch` request answers `success` with a transaction of the requested hash when the
ring holds that hash, and `not_found` otherwise. -/
theorem fetch_returns_requested_tx {lib : Library} {capacity : Nat} {s s' : System}
    {events new : List Event} {hash : HashDigest} {n : Nat} {rest : List Work}
    (hrun : Run lib (NoSlip lib) (System.init capacity) s events)
    (hq : s.queue = .txFetcher hash n :: rest) (hstep : step lib s .run = some (s', new)) :
    (∃ tx, new = [.fetch n .success tx] ∧ lib.txHash tx = hash ∧ txExists s.pool hash = true) ∨
      (new = [.fetch n .notFound .empty] ∧ txExists s.pool hash = false) := by
  rw [step_run (faulted_of_step hstep) hq, Option.some.injEq] at hstep
  rw [txExists_eq_isSome_txFind]
  simp only [runWork] at hstep
  split at hstep <;> rename_i hfind <;> cases hstep
  · exact .inr ⟨rfl, by simp [hfind]⟩
  · rename_i entry
    have hhash : entry.hash = hash := by simpa using List.find?_some hfind
    refine .inl ⟨entry.tx, rfl, ?_, by simp [hfind]⟩
    rw [← hhash, (RingInv.of_run hrun).coherent entry (List.mem_of_find?_eq_some hfind)]

theorem fetch_returns_requested_tx_after_eviction :
    ∃ s events s' new, Run versionHashLibrary (NoSlip versionHashLibrary) (System.init 1) s events ∧
      s.queue = [.txFetcher 2 2] ∧ step versionHashLibrary s .run = some (s', new) ∧
      ((∃ tx, new = [.fetch 2 .success tx] ∧ versionHashLibrary.txHash tx = 2 ∧
          txExists s.pool 2 = true) ∨
        (new = [.fetch 2 .notFound .empty] ∧ txExists s.pool 2 = false)) := by
  obtain ⟨s, events, hrun, -, hq, hf⟩ := twoStoresAndFetch_run
  obtain ⟨s', new, hstep⟩ : ∃ s' new, step versionHashLibrary s .run = some (s', new) :=
    ⟨_, _, step_run hf hq⟩
  exact ⟨s, events, s', new, hrun, hq, hstep, fetch_returns_requested_tx hrun hq hstep⟩

/-! ## A stopped pool -/

/-- A call a stopped pool may make: no `handle_confirm`, no call of a missing function, and
`handle_validate` only with `service_stopped` and no indices. -/
def Event.Quiet : Event → Prop
  | .confirm _ _ => False
  | .fault => False
  | .validate _ ec u => ec = .serviceStopped ∧ u = []
  | _ => True

/-- A stopped pool answers a validation handler with `service_stopped` and changes nothing. -/
theorem handleValidate_serviceStopped (lib : Library) (s : System) (handler : ValidateHandler) :
    (handleValidate lib s .serviceStopped [] handler).1 = s ∧
      ∀ e ∈ (handleValidate lib s .serviceStopped [] handler).2, e.Quiet := by
  rw [handleValidate_of_not_store lib s [] fun _ _ _ => by decide]
  simp [Event.Quiet]

/-- A work item run on a stopped pool keeps the ring and makes only quiet calls. -/
theorem runWork_of_stopped (lib : Library) (s : System) (hstop : s.pool.stopped = true)
    (w : Work) :
    (runWork lib s w).1.pool = s.pool ∧ ∀ e ∈ (runWork lib s w).2, e.Quiet := by
  cases w with
  | doValidate tx handler =>
    simp only [runWork, hstop, if_true]
    exact ⟨congrArg (·.pool) (handleValidate_serviceStopped lib s handler).1,
      (handleValidate_serviceStopped lib s handler).2⟩
  | validationComplete ec u hash handler g =>
    simp only [runWork, validationComplete, hstop, if_true]
    exact ⟨congrArg (·.pool) (handleValidate_serviceStopped lib s handler).1,
      (handleValidate_serviceStopped lib s handler).2⟩
  | txFetcher hash n =>
    simp only [runWork]
    split <;> simp [Event.Quiet]
  | getExistence hash n => simp [runWork, Event.Quiet]
  | deleteConfirmed newBlocks =>
    simp [runWork, System.withPool, deleteConfirmed, hstop, confirmEvents]
  | invalidatePool newBlocks replacedBlocks =>
    simp [runWork, System.withPool, invalidatePool, hstop, confirmEvents]

/-- Every step but `start` on a stopped pool keeps it stopped, keeps a prefix of the ring, and
makes only quiet calls. -/
theorem step_of_stopped {lib : Library} {s s' : System} {a : Action} {new : List Event}
    (hstop : s.pool.stopped = true) (ha : a ≠ .start) (h : step lib s a = some (s', new)) :
    s'.pool.stopped = true ∧ s'.pool.buffer <+: s.pool.buffer ∧ ∀ e ∈ new, e.Quiet := by
  have hf := faulted_of_step h
  cases a
  case start => exact absurd rfl ha
  case run =>
    cases hq : s.queue with
    | nil => simp [step, hf, hq] at h
    | cons w rest =>
      rw [step_run hf hq, Option.some.injEq] at h
      obtain ⟨hpool, hquiet⟩ := runWork_of_stopped lib { s with queue := rest } hstop w
      rw [h] at hpool hquiet
      exact ⟨by rw [hpool]; exact hstop, by rw [hpool], hquiet⟩
  all_goals
    simp only [step, hf, hstop, Bool.false_eq_true, if_false, if_true] at h
    (try split at h) <;> (try split at h) <;>
      simp only [Option.some.injEq, Prod.mk.injEq, reduceCtorEq] at h <;> obtain ⟨rfl, rfl⟩ := h <;>
      simp [hstop, Event.Quiet, setCapacity, List.take_prefix]

/-- **A stopped pool stays quiet until it is started.** From any state whose pool is stopped,
over every run without `start`: the pool stays stopped, the ring keeps a prefix of what it held
(only `set_capacity` drops entries, from the back), no `handle_confirm` is called, no missing
function is called, and every `handle_validate` call, also for validations already in flight,
reports `service_stopped` with no indices. -/
theorem stopped_pool_quiet {lib : Library} {s₀ s : System} {events : List Event}
    (hrun : Run lib (fun _ a => a ≠ .start) s₀ s events) (hstop : s₀.pool.stopped = true) :
    s.pool.stopped = true ∧ s.pool.buffer <+: s₀.pool.buffer ∧ ∀ e ∈ events, e.Quiet := by
  induction hrun with
  | here => exact ⟨hstop, List.prefix_refl _, by simp⟩
  | next _ ha hstep ih =>
    obtain ⟨hs, hpre, hquiet⟩ := ih
    obtain ⟨hs', hpre', hquiet'⟩ := step_of_stopped hs ha hstep
    refine ⟨hs', hpre'.trans hpre, fun e he => ?_⟩
    rcases List.mem_append.1 he with he | he
    · exact hquiet e he
    · exact hquiet' e he

/-- A stopped pool holding an entry, with a successful store's `validation_complete` and an
`invalidate_pool` still queued. -/
def stoppedPoolWithWork : System :=
  ⟨⟨[⟨1, spendingTx 1 0, some 0⟩], 2, true⟩,
    [.validationComplete .success [] 2 (.store 1 (spendingTx 2 0)) false, .invalidatePool [] []],
    [], [], 2, false⟩

theorem stopped_pool_quiet_drains_queue :
    ∃ s events, Run versionHashLibrary (fun _ a => a ≠ .start) stoppedPoolWithWork s events ∧
      stoppedPoolWithWork.pool.stopped = true ∧ events = [.validate 1 .serviceStopped []] ∧
      s.pool.stopped = true ∧ s.pool.buffer <+: stoppedPoolWithWork.pool.buffer ∧
      ∀ e ∈ events, e.Quiet := by
  have hrun : Run versionHashLibrary (fun _ a => a ≠ .start) stoppedPoolWithWork _ _ :=
    Run.mono (fun _ _ h => by simpa using h) <| runActions_run versionHashLibrary
      (fun _ a => a != .start) [.run, .run, .setCapacity 0] .here rfl
  exact ⟨_, _, hrun, rfl, rfl, stopped_pool_quiet hrun rfl⟩

end Blockchain
