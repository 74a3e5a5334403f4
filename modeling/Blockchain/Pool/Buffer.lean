import Blockchain.Validate.Validator

/-!
# The pool's ring and its operations

`transaction_pool` keeps its entries in a `boost::circular_buffer`, read here as the list of its
contents from front to back, with its capacity and the pool's `stopped_` flag. Each operation
returns the pool it leaves and the calls it makes on the entries' `handle_confirm`, in order; a
call on `none` is a call of an empty function, or of the front of an empty buffer.

* `pushBack` overwrites the front when the ring is full and inserts nothing at capacity 0;
  `setCapacity` keeps the first entries. Neither takes the ring past its capacity
  (`length_pushBack_le`).
* `removeIf` is libstdc++'s `std::remove_if`: the kept entries move forward over the first match,
  and the tail keeps the matched entries and the moved-from shells of the moved ones. It keeps
  the length (`length_removeIf`); `try_delete_tx` drops the end it returns, so
  `delete_confirmed` never shrinks the ring (`length_deleteConfirmed`). The front is what the
  standard specifies, the kept entries in order (`removeIf_eq`); the tail that `erase` would
  drop stays in the ring, one slot per match, each a matched entry or a shell with an empty
  `handle_confirm` (`tryDeleteTx_leaves_tail`).
-/

namespace Blockchain

/-- `transaction_entry_info`: a pooled transaction, its hash, and the `handle_confirm` of the
store request that added it; `none` is an empty function. -/
structure Entry where
  hash : HashDigest
  tx : Transaction
  handleConfirm : Option Nat
  deriving DecidableEq, Repr

/-- A transaction after `std::move`: its input and output vectors are moved out. -/
def Transaction.movedFrom (tx : Transaction) : Transaction :=
  { tx with inputs := [], outputs := [] }

/-- An entry after `std::move`: the hash array is copied, the transaction moved from, and the
function left empty. -/
def Entry.movedFrom (e : Entry) : Entry := ⟨e.hash, e.tx.movedFrom, none⟩

/-- The pool: the ring's contents from front to back, its capacity, and `stopped_`. -/
structure Pool where
  buffer : List Entry
  capacity : Nat
  stopped : Bool
  deriving DecidableEq, Repr

/-- A call of a `handle_confirm`, and its code. -/
abbrev ConfirmCall := Option Nat × Code

/-- `circular_buffer::push_back`: when full the front is overwritten, and at capacity 0 nothing
is inserted. -/
def pushBack {α : Type} (capacity : Nat) (buffer : List α) (x : α) : List α :=
  if buffer.length = capacity then
    if buffer.isEmpty then buffer else buffer.tail ++ [x]
  else buffer ++ [x]

/-- `transaction_pool::tx_exists`. -/
def txExists (pool : Pool) (hash : HashDigest) : Bool := pool.buffer.any (·.hash == hash)

/-- `transaction_pool::tx_find`: the first entry with the hash. -/
def txFind (pool : Pool) (hash : HashDigest) : Option Entry := pool.buffer.find? (·.hash == hash)

/-- `store_transaction` in `transaction_pool::store`: when the ring is full, the front's
`handle_confirm` is called with `pool_filled`; then the entry is pushed. -/
def storeTransaction (lib : Library) (pool : Pool) (tx : Transaction) (handleConfirm : Nat) :
    Pool × List ConfirmCall :=
  ({ pool with buffer := pushBack pool.capacity pool.buffer ⟨lib.txHash tx, tx, some handleConfirm⟩ },
    if pool.buffer.length = pool.capacity then
      [(pool.buffer.head?.bind (·.handleConfirm), .poolFilled)]
    else [])

/-- The loop of libstdc++'s `std::remove_if` after its first match. `gap` holds the entries from
the write position up to the read position; a kept entry is moved to the write position and
leaves its moved-from shell at the read position. -/
def removeTail (p : Entry → Bool) : List Entry → List Entry → List Entry
  | gap, [] => gap
  | gap, x :: rest =>
    if p x then removeTail p (gap ++ [x]) rest
    else x :: removeTail p (gap.tail ++ [x.movedFrom]) rest

/-- libstdc++'s `std::remove_if`: `find_if` for the first match, then the loop over the rest. -/
def removeIf (p : Entry → Bool) : List Entry → List Entry
  | [] => []
  | x :: rest => if p x then removeTail p [x] rest else x :: removeIf p rest

/-- `transaction_pool::try_delete_tx`: `remove_if` over the ring, whose predicate calls the
`handle_confirm` of each entry with the hash with `success`; the end it returns is dropped. -/
def tryDeleteTx (pool : Pool) (hash : HashDigest) : Pool × List ConfirmCall :=
  if pool.stopped then (pool, [])
  else ({ pool with buffer := removeIf (·.hash == hash) pool.buffer },
    (pool.buffer.filter (·.hash == hash)).map (·.handleConfirm, .success))

/-- The hashes of the transactions of blocks, in order. -/
def blockTxHashes (lib : Library) (blocks : List Block) : List HashDigest :=
  blocks.flatMap fun block => block.transactions.map lib.txHash

/-- `try_delete_tx` on each hash in turn. -/
def tryDeleteAll (pool : Pool) : List HashDigest → Pool × List ConfirmCall
  | [] => (pool, [])
  | hash :: rest =>
    let first := tryDeleteTx pool hash
    let more := tryDeleteAll first.1 rest
    (more.1, first.2 ++ more.2)

/-- `transaction_pool::delete_confirmed`. -/
def deleteConfirmed (lib : Library) (pool : Pool) (newBlocks : List Block) :
    Pool × List ConfirmCall :=
  if pool.stopped || pool.buffer.isEmpty then (pool, [])
  else tryDeleteAll pool (blockTxHashes lib newBlocks)

/-- `transaction_pool::invalidate_pool`. -/
def invalidatePool (pool : Pool) : Pool × List ConfirmCall :=
  if pool.stopped then (pool, [])
  else ({ pool with buffer := [] }, pool.buffer.map (·.handleConfirm, .blockchainReorganized))

/-- `transaction_pool::set_capacity`: `circular_buffer::set_capacity` keeps the first entries. -/
def setCapacity (pool : Pool) (capacity : Nat) : Pool :=
  { pool with buffer := pool.buffer.take capacity, capacity := capacity }

/-! ## Lengths -/

theorem length_pushBack_le {α : Type} {capacity : Nat} {buffer : List α} (x : α)
    (h : buffer.length ≤ capacity) : (pushBack capacity buffer x).length ≤ capacity := by
  unfold pushBack
  split
  · split
    · exact h
    · rename_i hne
      have := List.length_pos.2 (by simpa using hne)
      simp; omega
  · simp; omega

theorem length_removeTail (p : Entry → Bool) :
    ∀ (gap rest : List Entry), gap ≠ [] → (removeTail p gap rest).length = gap.length + rest.length
  | gap, [], _ => rfl
  | gap, x :: rest, hgap => by
    unfold removeTail
    split
    · rw [length_removeTail p _ rest (by simp)]
      simp; omega
    · rw [List.length_cons, length_removeTail p _ rest (by simp)]
      have := List.length_pos.2 hgap
      simp; omega

theorem length_removeIf (p : Entry → Bool) : ∀ l : List Entry, (removeIf p l).length = l.length
  | [] => rfl
  | x :: rest => by
    unfold removeIf
    split
    · rw [length_removeTail p _ _ (by simp)]
      simp; omega
    · simp [length_removeIf p rest]

theorem length_tryDeleteTx (pool : Pool) (hash : HashDigest) :
    (tryDeleteTx pool hash).1.buffer.length = pool.buffer.length := by
  unfold tryDeleteTx
  split
  · rfl
  · exact length_removeIf _ _

theorem length_tryDeleteAll : ∀ (pool : Pool) (hashes : List HashDigest),
    (tryDeleteAll pool hashes).1.buffer.length = pool.buffer.length
  | _, [] => rfl
  | pool, hash :: rest => by
    rw [tryDeleteAll, length_tryDeleteAll _ rest, length_tryDeleteTx]

theorem tryDeleteAll_frame : ∀ (pool : Pool) (hashes : List HashDigest),
    (tryDeleteAll pool hashes).1.capacity = pool.capacity ∧
      (tryDeleteAll pool hashes).1.stopped = pool.stopped
  | _, [] => ⟨rfl, rfl⟩
  | pool, hash :: rest => by
    rw [tryDeleteAll, (tryDeleteAll_frame _ rest).1, (tryDeleteAll_frame _ rest).2]
    unfold tryDeleteTx
    split <;> exact ⟨rfl, rfl⟩

theorem deleteConfirmed_frame (lib : Library) (pool : Pool) (newBlocks : List Block) :
    (deleteConfirmed lib pool newBlocks).1.capacity = pool.capacity ∧
      (deleteConfirmed lib pool newBlocks).1.stopped = pool.stopped := by
  unfold deleteConfirmed
  split
  · exact ⟨rfl, rfl⟩
  · exact tryDeleteAll_frame _ _

/-- `delete_confirmed` never shrinks the ring, whatever it matches. -/
theorem length_deleteConfirmed (lib : Library) (pool : Pool) (newBlocks : List Block) :
    (deleteConfirmed lib pool newBlocks).1.buffer.length = pool.buffer.length := by
  unfold deleteConfirmed
  split
  · rfl
  · exact length_tryDeleteAll _ _

/-! ## What `remove_if` leaves -/

/-- The loop after the first match leaves the kept entries in order, then a gap as long as the
matches: each slot of it holds a match or a moved-from shell. -/
theorem removeTail_eq (p : Entry → Bool) :
    ∀ (gap rest : List Entry), gap ≠ [] → (∀ e ∈ gap, p e ∨ e.handleConfirm = none) →
      ∃ tail, removeTail p gap rest = rest.filter (!p ·) ++ tail ∧
        tail.length = gap.length + rest.countP p ∧ ∀ e ∈ tail, p e ∨ e.handleConfirm = none
  | gap, [], _, hgap => ⟨gap, by simp [removeTail], by simp, hgap⟩
  | gap, x :: rest, hne, hgap => by
    by_cases hx : p x
    · obtain ⟨tail, h, hlen, htail⟩ := removeTail_eq p (gap ++ [x]) rest (by simp)
        fun e he => (List.mem_append.1 he).elim (hgap e) fun he => .inl (List.mem_singleton.1 he ▸ hx)
      refine ⟨tail, by simp [removeTail, hx, h], ?_, htail⟩
      simp [hlen, List.countP_cons, hx]
      omega
    · obtain ⟨tail, h, hlen, htail⟩ := removeTail_eq p (gap.tail ++ [x.movedFrom]) rest (by simp)
        (by
          intro e he
          rcases List.mem_append.1 he with he | he
          · exact hgap e (List.mem_of_mem_tail he)
          · simp [List.mem_singleton.1 he, Entry.movedFrom])
      refine ⟨tail, by simp [removeTail, hx, h], ?_, htail⟩
      have := List.length_pos.2 hne
      simp [hlen, List.countP_cons, hx]
      omega

/-- `std::remove_if` as the standard specifies it: the entries it keeps, in order, up to the end it
returns; past that end, one slot per removed entry, holding a removed entry or a moved-from
shell. -/
theorem removeIf_eq (p : Entry → Bool) :
    ∀ l : List Entry, ∃ tail, removeIf p l = l.filter (!p ·) ++ tail ∧
      tail.length = l.countP p ∧ ∀ e ∈ tail, p e ∨ e.handleConfirm = none
  | [] => ⟨[], rfl, rfl, by simp⟩
  | x :: rest => by
    by_cases hx : p x
    · obtain ⟨tail, h, hlen, htail⟩ := removeTail_eq p [x] rest (by simp) (by simp [hx])
      exact ⟨tail, by simp [removeIf, hx, h], by simp [hlen, List.countP_cons, hx]; omega, htail⟩
    · obtain ⟨tail, h, hlen, htail⟩ := removeIf_eq p rest
      exact ⟨tail, by simp [removeIf, hx, h], by simp [hlen, List.countP_cons, hx], htail⟩

/-- **`try_delete_tx` keeps the ring's size.** On a running pool, `try_delete_tx` leaves the
entries of the other hashes in their order, followed by one slot for each entry with the hash:
`remove_if`'s new end is never erased. Each of those slots holds an entry with the hash or a
moved-from shell whose `handle_confirm` is empty. -/
theorem tryDeleteTx_leaves_tail (pool : Pool) (hash : HashDigest) (hrun : pool.stopped = false) :
    ∃ tail, (tryDeleteTx pool hash).1.buffer = pool.buffer.filter (·.hash ≠ hash) ++ tail ∧
      tail.length = pool.buffer.countP (·.hash = hash) ∧
      ∀ e ∈ tail, e.hash = hash ∨ e.handleConfirm = none := by
  obtain ⟨tail, h, hlen, htail⟩ := removeIf_eq (·.hash == hash) pool.buffer
  refine ⟨tail, ?_, by simpa using hlen, fun e he => by simpa using htail e he⟩
  simp only [tryDeleteTx, hrun, Bool.false_eq_true, if_false, h]
  congr 1
  exact List.filter_congr fun e _ => by simp [Bool.beq_eq_decide_eq]

theorem tryDeleteTx_front_leaves_two_hashes :
    let pool : Pool := ⟨[⟨1, spendingTx 1 0, some 0⟩, ⟨2, spendingTx 2 0, some 1⟩], 2, false⟩
    (tryDeleteTx pool 1).1.buffer.map (·.hash) = [2, 2] ∧ pool.stopped = false ∧
      ∃ tail, (tryDeleteTx pool 1).1.buffer = pool.buffer.filter (·.hash ≠ 1) ++ tail ∧
        tail.length = pool.buffer.countP (·.hash = 1) ∧
        ∀ e ∈ tail, e.hash = 1 ∨ e.handleConfirm = none :=
  ⟨rfl, rfl, tryDeleteTx_leaves_tail _ 1 rfl⟩

/-! ## Deleting nothing -/

theorem removeIf_of_forall_not (p : Entry → Bool) :
    ∀ l : List Entry, (∀ x ∈ l, p x = false) → removeIf p l = l
  | [], _ => rfl
  | x :: rest, h => by
    rw [removeIf, if_neg (by simp [h x (List.mem_cons_self x rest)]),
      removeIf_of_forall_not p rest fun y hy => h y (List.mem_cons_of_mem x hy)]

/-- `delete_confirmed` finding no pooled hash keeps the pool and calls nothing. -/
theorem tryDeleteAll_of_forall_not_mem (pool : Pool) :
    ∀ hashes : List HashDigest, (∀ e ∈ pool.buffer, e.hash ∉ hashes) →
      tryDeleteAll pool hashes = (pool, [])
  | [], _ => rfl
  | hash :: rest, h => by
    have hnot : ∀ e ∈ pool.buffer, (e.hash == hash) = false := fun e he => by
      simpa using fun (heq : e.hash = hash) => h e he (heq ▸ List.mem_cons_self hash rest)
    have hfirst : tryDeleteTx pool hash = (pool, []) := by
      unfold tryDeleteTx
      split
      · rfl
      · rw [removeIf_of_forall_not _ _ hnot, List.filter_eq_nil_iff.2 fun e he => by simp [hnot e he]]
        rfl
    rw [tryDeleteAll, hfirst, tryDeleteAll_of_forall_not_mem pool rest fun e he hr =>
      h e he (List.mem_cons_of_mem hash hr)]
    rfl

theorem deleteConfirmed_of_forall_not_mem (lib : Library) (pool : Pool) (newBlocks : List Block)
    (h : pool.stopped = false → ∀ e ∈ pool.buffer, e.hash ∉ blockTxHashes lib newBlocks) :
    deleteConfirmed lib pool newBlocks = (pool, []) := by
  unfold deleteConfirmed
  split
  · rfl
  · rename_i hrun
    exact tryDeleteAll_of_forall_not_mem _ _ (h (by simp at hrun; exact hrun.1))

/-- A running pool holding one entry, and a block confirming its transaction: `delete_confirmed`
calls the entry's `handle_confirm` with `success` and leaves the entry in the ring. -/
theorem deleteConfirmed_keeps_confirmed_entry :
    deleteConfirmed versionHashLibrary ⟨[⟨1, spendingTx 1 0, some 0⟩], 1, false⟩
        [⟨⟨1, 0, 0, 0, maxWorkBits, 0⟩, [spendingTx 1 0]⟩] =
      (⟨[⟨1, spendingTx 1 0, some 0⟩], 1, false⟩, [(some 0, .success)]) := by
  decide

end Blockchain
