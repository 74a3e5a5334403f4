import Blockchain.Pool.Ring

/-!
# A confirmation follows its validation

`store` hands `wrap_validate` to `validate`: only when the validation succeeds does it run
`store_transaction`, which pushes the entry carrying the request's `handle_confirm`, and only then
does it call the request's `handle_validate`, with `success`. Every `handle_confirm` call is made
on an entry of the ring, and every operation on the ring leaves in it only entries it held,
moved-from shells with empty functions, and the one entry `store_transaction` pushes
(`OnlyHeld`, `KeepsValidated`).

So over every run from a constructed pool, the slips included, every function the ring holds
belongs to a store whose `handle_validate` has been called with `success`, and every call of a
request's `handle_confirm` comes after such a call of the same request's `handle_validate`
(`OrderInv.of_run`, `confirm_follows_validation`). A client never learns that its transaction
left the pool before it learns that the pool took it; a `store` on a stopped pool, which is never
validated, never hears from its `handle_confirm`.
-/

namespace Blockchain

/-- Request `n`'s `handle_validate` has been called with `success`. -/
def Validated (events : List Event) (n : Nat) : Prop := ∃ u, Event.validate n .success u ∈ events

theorem Validated.mono {events events' : List Event} {n : Nat} (h : Validated events n)
    (hsub : events ⊆ events') : Validated events' n :=
  let ⟨u, hu⟩ := h
  ⟨u, hsub hu⟩

/-- Every `handle_confirm` call among events comes after a `success` call of the same request's
`handle_validate`. -/
def ConfirmsFollowValidation (events : List Event) : Prop :=
  ∀ pre n ec post, events = pre ++ .confirm n ec :: post → Validated pre n

/-- Calls appended to a well-ordered history keep it well ordered when each `handle_confirm` among
them belongs to a request validated before them. -/
theorem ConfirmsFollowValidation.append {events new : List Event}
    (h : ConfirmsFollowValidation events)
    (hnew : ∀ n ec, Event.confirm n ec ∈ new → Validated events n) :
    ConfirmsFollowValidation (events ++ new) := by
  intro pre n ec post heq
  rcases List.append_eq_append_iff.1 heq with ⟨mid, rfl, hmid⟩ | ⟨c, hc, hpost⟩
  · -- the call is one of the new ones
    exact (hnew n ec (by simp [hmid])).mono (List.subset_append_left _ _)
  · cases c with
    | nil =>
      simp only [List.append_nil, List.nil_append] at hc hpost
      exact hc ▸ hnew n ec (by simp [← hpost])
    | cons x c =>
      -- the call was already made
      obtain ⟨rfl, -⟩ := List.cons.inj hpost
      exact h pre n ec c hc

/-! ## The ring keeps what it held -/

theorem mem_removeTail (p : Entry → Bool) :
    ∀ (gap rest : List Entry), ∀ e ∈ removeTail p gap rest,
      e ∈ gap ∨ e ∈ rest ∨ e.handleConfirm = none
  | gap, [], e, h => .inl h
  | gap, x :: rest, e, h => by
    unfold removeTail at h
    split at h
    · rcases mem_removeTail p _ rest e h with h | h | h
      · rcases List.mem_append.1 h with h | h
        · exact .inl h
        · exact .inr (.inl (List.mem_singleton.1 h ▸ List.mem_cons_self x rest))
      · exact .inr (.inl (List.mem_cons_of_mem x h))
      · exact .inr (.inr h)
    · rcases List.mem_cons.1 h with rfl | h
      · exact .inr (.inl (List.mem_cons_self e rest))
      rcases mem_removeTail p _ rest e h with h | h | h
      · rcases List.mem_append.1 h with h | h
        · exact .inl (List.mem_of_mem_tail h)
        · exact .inr (.inr (by rw [List.mem_singleton.1 h]; rfl))
      · exact .inr (.inl (List.mem_cons_of_mem x h))
      · exact .inr (.inr h)

/-- `std::remove_if` leaves only entries of the range and moved-from shells. -/
theorem mem_removeIf (p : Entry → Bool) :
    ∀ l : List Entry, ∀ e ∈ removeIf p l, e ∈ l ∨ e.handleConfirm = none
  | [], e, h => .inl h
  | x :: rest, e, h => by
    unfold removeIf at h
    split at h
    · rcases mem_removeTail p [x] rest e h with h | h | h
      · exact .inl (List.mem_singleton.1 h ▸ List.mem_cons_self x rest)
      · exact .inl (List.mem_cons_of_mem x h)
      · exact .inr h
    · rcases List.mem_cons.1 h with rfl | h
      · exact .inl (List.mem_cons_self e rest)
      · exact (mem_removeIf p rest e h).imp_left (List.mem_cons_of_mem x)

/-- A pool operation that leaves in the ring only entries it held and moved-from shells, and
calls only functions the ring held. -/
def OnlyHeld (pool : Pool) (result : Pool × List ConfirmCall) : Prop :=
  (∀ e ∈ result.1.buffer, e ∈ pool.buffer ∨ e.handleConfirm = none) ∧
    ∀ n ec, (some n, ec) ∈ result.2 → ∃ e ∈ pool.buffer, e.handleConfirm = some n

theorem onlyHeld_self (pool : Pool) : OnlyHeld pool (pool, []) :=
  ⟨fun _ h => .inl h, fun _ _ h => nomatch h⟩

/-- Two operations in turn, with the calls of both. -/
theorem OnlyHeld.trans {pool : Pool} {r r' : Pool × List ConfirmCall} (h : OnlyHeld pool r)
    (h' : OnlyHeld r.1 r') : OnlyHeld pool (r'.1, r.2 ++ r'.2) := by
  refine ⟨fun e he => (h'.1 e he).elim (h.1 e) .inr, fun n ec hc => ?_⟩
  rcases List.mem_append.1 hc with hc | hc
  · exact h.2 n ec hc
  · obtain ⟨e, he, hn⟩ := h'.2 n ec hc
    exact ⟨e, (h.1 e he).resolve_right (by simp [hn]), hn⟩

theorem onlyHeld_tryDeleteTx (pool : Pool) (hash : HashDigest) :
    OnlyHeld pool (tryDeleteTx pool hash) := by
  unfold tryDeleteTx
  split
  · exact onlyHeld_self pool
  · refine ⟨mem_removeIf _ pool.buffer, fun n ec hc => ?_⟩
    obtain ⟨e, he, heq⟩ := List.mem_map.1 hc
    exact ⟨e, (List.mem_filter.1 he).1, (Prod.mk.inj heq).1⟩

theorem onlyHeld_tryDeleteAll :
    ∀ (pool : Pool) (hashes : List HashDigest), OnlyHeld pool (tryDeleteAll pool hashes)
  | pool, [] => onlyHeld_self pool
  | pool, hash :: rest =>
    (onlyHeld_tryDeleteTx pool hash).trans (onlyHeld_tryDeleteAll _ rest)

theorem onlyHeld_deleteConfirmed (lib : Library) (pool : Pool) (newBlocks : List Block) :
    OnlyHeld pool (deleteConfirmed lib pool newBlocks) := by
  unfold deleteConfirmed
  split
  · exact onlyHeld_self pool
  · exact onlyHeld_tryDeleteAll pool _

theorem onlyHeld_invalidatePool (pool : Pool) : OnlyHeld pool (invalidatePool pool) := by
  unfold invalidatePool
  split
  · exact onlyHeld_self pool
  · refine ⟨fun _ h => (nomatch h), fun n ec hc => ?_⟩
    obtain ⟨e, he, heq⟩ := List.mem_map.1 hc
    exact ⟨e, he, (Prod.mk.inj heq).1⟩

/-- `store_transaction` calls at most the front's function, and adds only its own entry. -/
theorem storeTransaction_held (lib : Library) (pool : Pool) (tx : Transaction) (m : Nat) :
    (∀ e ∈ (storeTransaction lib pool tx m).1.buffer, e ∈ pool.buffer ∨ e.handleConfirm = some m) ∧
      ∀ n ec, (some n, ec) ∈ (storeTransaction lib pool tx m).2 →
        ∃ e ∈ pool.buffer, e.handleConfirm = some n := by
  refine ⟨fun e he => (mem_pushBack he).imp_right (congrArg Entry.handleConfirm), fun n ec hc => ?_⟩
  simp only [storeTransaction] at hc
  split at hc
  · obtain ⟨hfront, -⟩ := Prod.mk.inj (List.mem_singleton.1 hc)
    obtain ⟨e, he, hn⟩ := Option.bind_eq_some.1 hfront.symm
    exact ⟨e, List.mem_of_mem_head? he, hn⟩
  · nomatch hc

theorem mem_confirmEvents {n : Nat} {ec : Code} :
    ∀ calls : List ConfirmCall, Event.confirm n ec ∈ (confirmEvents calls).1 → (some n, ec) ∈ calls
  | [], h => nomatch h
  | (some m, ec') :: rest, h => by
    rcases List.mem_cons.1 h with h | h
    · cases h
      exact List.mem_cons_self _ _
    · exact List.mem_cons_of_mem _ (mem_confirmEvents rest h)
  | (none, _) :: _, h => by simp [confirmEvents] at h

/-! ## What a step does to the ring's functions -/

/-- A step calls only functions the ring held, and unless it faults it leaves in the ring only
those and the functions of stores whose `handle_validate` it called with `success`. -/
def KeepsValidated (s s' : System) (new : List Event) : Prop :=
  (∀ n ec, Event.confirm n ec ∈ new → n ∈ handlers s) ∧
    (s'.faulted = false → ∀ n ∈ handlers s', n ∈ handlers s ∨ Validated new n)

/-- A step that keeps the ring and calls no `handle_confirm`. -/
theorem KeepsValidated.of_buffer_eq {s s' : System} {new : List Event}
    (hbuf : s'.pool.buffer = s.pool.buffer) (hnew : ∀ n ec, Event.confirm n ec ∉ new) :
    KeepsValidated s s' new :=
  ⟨fun n ec h => absurd h (hnew n ec), fun _ n h => .inl (by rwa [handlers, ← hbuf])⟩

theorem KeepsValidated.withPool {s t : System} {r : Pool × List ConfirmCall}
    (hr : OnlyHeld s.pool r) :
    KeepsValidated s (t.withPool r).1 (t.withPool r).2 := by
  refine ⟨fun n ec h => ?_, fun _ n h => .inl ?_⟩
  · obtain ⟨e, he, hn⟩ := hr.2 n ec (mem_confirmEvents _ h)
    exact List.mem_filterMap.2 ⟨e, he, hn⟩
  · obtain ⟨e, he, hn⟩ := List.mem_filterMap.1 h
    exact List.mem_filterMap.2 ⟨e, (hr.1 e he).resolve_right (by simp [hn]), hn⟩

theorem keepsValidated_handleValidate (lib : Library) (s : System) (ec : Code) (u : List Nat)
    (handler : ValidateHandler) :
    KeepsValidated s (handleValidate lib s ec u handler).1 (handleValidate lib s ec u handler).2 := by
  rcases handler with m | ⟨m, tx⟩
  · exact .of_buffer_eq rfl (by simp [handleValidate])
  by_cases hec : ec = .success
  · subst hec
    obtain ⟨hbuf, hcalls⟩ := storeTransaction_held lib s.pool tx m
    -- the calls of `store_transaction`, and the `handle_validate` call unless it faulted
    have hconfirm (n : Nat) (ec : Code) (h : Event.confirm n ec ∈
        (confirmEvents (storeTransaction lib s.pool tx m).2).1) : n ∈ handlers s := by
      obtain ⟨e, he, hn⟩ := hcalls n ec (mem_confirmEvents _ h)
      exact List.mem_filterMap.2 ⟨e, he, hn⟩
    simp only [KeepsValidated, handleValidate, if_true, System.withPool]
    split
    · rename_i hfault
      exact ⟨hconfirm, fun hf => Bool.noConfusion (hf.symm.trans hfault)⟩
    · refine ⟨fun n ec h => hconfirm n ec ?_, fun _ n h => ?_⟩
      · simpa using h
      obtain ⟨e, he, hn⟩ := List.mem_filterMap.1 h
      rcases hbuf e he with he | he
      · exact .inl (List.mem_filterMap.2 ⟨e, he, hn⟩)
      · exact .inr ⟨u, by simp [← Option.some.inj (hn.symm.trans he)]⟩
  · exact .of_buffer_eq (by simp [handleValidate, hec]) (by simp [handleValidate, hec])

theorem keepsValidated_runWork (lib : Library) (s : System) (w : Work) :
    KeepsValidated s (runWork lib s w).1 (runWork lib s w).2 := by
  cases w with
  | doValidate tx handler =>
    simp only [runWork]
    split
    · exact keepsValidated_handleValidate lib s _ _ handler
    · exact .of_buffer_eq rfl (by simp)
  | validationComplete ec u hash handler _ =>
    obtain ⟨ec', u', heq, -⟩ := validationComplete_eq lib s ec u hash handler
    simp only [runWork, heq]
    exact keepsValidated_handleValidate lib s ec' u' handler
  | txFetcher hash n =>
    simp only [runWork]
    split <;> exact .of_buffer_eq rfl (by simp)
  | getExistence hash n => exact .of_buffer_eq rfl (by simp [runWork])
  | deleteConfirmed newBlocks => exact .withPool (onlyHeld_deleteConfirmed lib s.pool newBlocks)
  | invalidatePool newBlocks replacedBlocks => exact .withPool (onlyHeld_invalidatePool s.pool)

theorem keepsValidated_step {lib : Library} {s s' : System} {a : Action} {new : List Event}
    (h : step lib s a = some (s', new)) : KeepsValidated s s' new := by
  have hf := faulted_of_step h
  cases a
  case run =>
    cases hq : s.queue with
    | nil => simp [step, hf, hq] at h
    | cons w rest =>
      rw [step_run hf hq, Option.some.injEq] at h
      have := keepsValidated_runWork lib { s with queue := rest } w
      rwa [h] at this
  case setCapacity capacity =>
    simp only [step, hf, Bool.false_eq_true, if_false, Option.some.injEq, Prod.mk.injEq] at h
    obtain ⟨rfl, rfl⟩ := h
    refine ⟨fun _ _ h => (nomatch h), fun _ n h => .inl ?_⟩
    exact (List.take_sublist _ _).filterMap _ |>.subset h
  -- the other steps keep the ring and call no `handle_confirm`
  all_goals
    simp only [step, hf, Bool.false_eq_true, if_false] at h
    (try split at h) <;> (try split at h) <;>
      simp only [Option.some.injEq, Prod.mk.injEq, reduceCtorEq] at h <;> obtain ⟨rfl, rfl⟩ := h <;>
      exact .of_buffer_eq rfl (by simp)

/-! ## Whole runs -/

/-- What every run keeps: each function the ring holds belongs to a store whose `handle_validate`
has been called with `success`, and every `handle_confirm` call so far came after such a call. -/
structure OrderInv (s : System) (events : List Event) : Prop where
  stored : s.faulted = false → ∀ n ∈ handlers s, Validated events n
  ordered : ConfirmsFollowValidation events

/-- **The step lemma**: every step keeps the invariant, the slips included. -/
theorem OrderInv.of_step {lib : Library} {s s' : System} {a : Action} {events new : List Event}
    (hinv : OrderInv s events) (h : step lib s a = some (s', new)) :
    OrderInv s' (events ++ new) := by
  have hstored := hinv.stored (faulted_of_step h)
  obtain ⟨hcalls, hkeep⟩ := keepsValidated_step h
  refine ⟨fun hf n hn => ?_, hinv.ordered.append fun n ec hc => hstored n (hcalls n ec hc)⟩
  rcases hkeep hf n hn with hn | hn
  · exact (hstored n hn).mono (List.subset_append_left _ _)
  · exact hn.mono (List.subset_append_right _ _)

theorem OrderInv.init (capacity : Nat) : OrderInv (System.init capacity) [] :=
  ⟨fun _ _ h => (nomatch h), fun pre _ _ _ h => by simp at h⟩

/-- **The run lemma**: every run from a constructed pool keeps the invariant. -/
theorem OrderInv.of_run {lib : Library} {allowed : System → Action → Prop} {capacity : Nat}
    {s : System} {events : List Event} (hrun : Run lib allowed (System.init capacity) s events) :
    OrderInv s events := by
  induction hrun with
  | here => exact OrderInv.init capacity
  | next _ _ hstep ih => exact ih.of_step hstep

/-- **A confirmation follows its validation.** Over every run from a constructed pool, the slips
included: unless the run has faulted, every function the ring holds belongs to a store request
whose `handle_validate` has been called with `success`; and every call of a request's
`handle_confirm` comes after a call of the same request's `handle_validate` with `success`. -/
theorem confirm_follows_validation {lib : Library} {allowed : System → Action → Prop}
    {capacity : Nat} {s : System} {events : List Event}
    (hrun : Run lib allowed (System.init capacity) s events) :
    (s.faulted = false → ∀ n ∈ handlers s, ∃ u, Event.validate n .success u ∈ events) ∧
      ∀ pre n ec post, events = pre ++ Event.confirm n ec :: post →
        ∃ u, Event.validate n .success u ∈ pre :=
  ⟨(OrderInv.of_run hrun).stored, (OrderInv.of_run hrun).ordered⟩

/-- Two stores into a ring of capacity 1: the second evicts the first, whose `handle_confirm` is
called with `pool_filled` after its `handle_validate` reported `success`. -/
theorem confirm_follows_validation_on_eviction :
    ∃ s events, Run versionHashLibrary (fun _ _ => True) (System.init 1) s events ∧
      events = [.validate 0 .success [], .confirm 0 .poolFilled, .validate 1 .success []] ∧
      handlers s = [1] ∧ s.faulted = false ∧
      (s.faulted = false → ∀ n ∈ handlers s, ∃ u, Event.validate n .success u ∈ events) ∧
      ∀ pre n ec post, events = pre ++ Event.confirm n ec :: post →
        ∃ u, Event.validate n .success u ∈ pre := by
  have hrun : Run versionHashLibrary (fun _ _ => True) (System.init 1) _ _ :=
    Run.mono (fun _ _ _ => trivial) <| runActions_run versionHashLibrary (fun _ _ => true)
      [.start, .store (spendingTx 1 0), .run, .complete 0 .success [], .run,
        .store (spendingTx 2 0), .run, .complete 0 .success [], .run] .here rfl
  exact ⟨_, _, hrun, rfl, rfl, rfl, confirm_follows_validation hrun⟩

end Blockchain
