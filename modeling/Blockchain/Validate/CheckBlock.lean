import Blockchain.Chain.HashNumber
import Blockchain.Chain.Sigops
import Blockchain.Validate.Validator

/-!
# Context-free block checks

`check_block` runs nine checks in order and completes with the code of the first that fails:
size limits, proof of work, timestamp, the coinbase in front and nowhere else, the context-free
transaction checks, distinct transaction hashes, the signature operation limit and the merkle
root. Between checks it polls the stop callback.

`is_distinct_tx_set` applies `std::unique` to the hashes without sorting them first, so it
compares neighbours only (`isDistinctTxSet_iff`): the verdict of `check_block` is success exactly
when the other eight checks pass and no two *adjacent* transactions share a hash
(`checkBlock_eq_success_iff`), and a block that repeats a transaction further apart passes
(`checkBlock_accepts_nonadjacent_duplicate`).
-/

namespace Blockchain

/-- `std::unique`: the first element of every run of equal neighbours. -/
def unique (hashes : List HashDigest) : List HashDigest := hashes.destutter (· ≠ ·)

/-- `validate_block::is_distinct_tx_set`: `std::unique` over the hashes left every one in place. -/
def isDistinctTxSet (lib : Library) (txs : List Transaction) : Bool :=
  (unique (txs.map lib.txHash)).length == txs.length

/-- `validate_block::is_valid_time_stamp`: at most two hours after `current_time()`. -/
def isValidTimeStamp (v : Validator) (timestamp : UInt32) : Bool :=
  timestamp.toNat ≤ v.currentTime + 2 * 3600

/-- The body of `validate_block::check_block`. -/
def checkBlockBody (lib : Library) (v : Validator) : Except Code Unit := do
  let txs := v.block.transactions
  require (!(txs.isEmpty || txs.length > maxBlockSize ||
    lib.serializedSize v.block > maxBlockSize)) .sizeLimits
  let header := v.block.header
  require (isValidProofOfWork (lib.headerHash header) header.bits) .proofOfWork
  returnIfStopped v
  require (isValidTimeStamp v header.timestamp) .futuristicTimestamp
  returnIfStopped v
  require (txs.head?.any Transaction.isCoinbase) .firstNotCoinbase
  txs.tail.forM fun tx => do
    returnIfStopped v
    require (!tx.isCoinbase) .extraCoinbases
  txs.forM fun tx => do
    returnIfStopped v
    let ec := lib.checkTransaction tx
    require (ec == .success) ec
  returnIfStopped v
  require (isDistinctTxSet lib txs) .duplicate
  returnIfStopped v
  require (!(legacySigopsCount txs > maxBlockScriptSigOperations)) .tooManySigs
  returnIfStopped v
  require (header.merkle == lib.generateMerkleRoot txs) .merkleMismatch

/-- `validate_block::check_block`: the calls of its completion handler. -/
def checkBlock (lib : Library) (v : Validator) : List Code := completions (checkBlockBody lib v)

/-- `std::unique` keeps every hash exactly when no two neighbours are equal. -/
theorem isDistinctTxSet_iff (lib : Library) (txs : List Transaction) :
    isDistinctTxSet lib txs = true ↔ (txs.map lib.txHash).Chain' (· ≠ ·) := by
  rw [← List.destutter_eq_self_iff, isDistinctTxSet, unique, beq_iff_eq]
  constructor
  · intro h
    exact (List.destutter_sublist _ _).eq_of_length (by simpa using h)
  · intro h
    simp [h]

/-- The checks of `check_block` other than distinctness, in its order. -/
structure BlockChecks (lib : Library) (v : Validator) : Prop where
  size : v.block.transactions ≠ [] ∧ v.block.transactions.length ≤ maxBlockSize ∧
    lib.serializedSize v.block ≤ maxBlockSize
  proofOfWork : isValidProofOfWork (lib.headerHash v.block.header) v.block.header.bits
  timeStamp : isValidTimeStamp v v.block.header.timestamp
  firstCoinbase : v.block.transactions.head?.any Transaction.isCoinbase
  noExtraCoinbase : ∀ tx ∈ v.block.transactions.tail, tx.isCoinbase = false
  checkTransaction : ∀ tx ∈ v.block.transactions, lib.checkTransaction tx = .success
  sigops : legacySigopsCount v.block.transactions ≤ maxBlockScriptSigOperations
  merkle : v.block.header.merkle = lib.generateMerkleRoot v.block.transactions

/-- `check_block` completes early only with errors: a failing transaction check's code is one. -/
theorem settles_checkBlockBody (lib : Library) (v : Validator) : Settles (checkBlockBody lib v) := by
  simp only [checkBlockBody]
  -- a chain of binds over stop checks and `require`s; matching only up to reducible unfolding
  -- keeps each failed alternative cheap
  repeat' first
    | with_reducible apply settles_bind
    | with_reducible apply settles_forM
    | with_reducible exact settles_returnIfStopped v
    | with_reducible exact settles_require_success _
    | with_reducible exact settles_require _ (by decide)
    | intro

/-- **What `check_block` accepts.** With the stop callback false, it completes once, with
`success` exactly when the other checks pass and no two neighbouring transactions share a hash. -/
theorem checkBlock_eq_success_iff (lib : Library) (v : Validator) (hs : v.stopped = false) :
    checkBlock lib v = [.success] ↔
      BlockChecks lib v ∧ (v.block.transactions.map lib.txHash).Chain' (· ≠ ·) := by
  rw [checkBlock, completions_eq_success (settles_checkBlockBody lib v)]
  simp only [checkBlockBody, bind_eq_ok, require_eq_ok, returnIfStopped_of_running hs, forM_eq_ok,
    ok_bind, exists_const, true_and, ← isDistinctTxSet_iff]
  simp only [Bool.not_or, Bool.and_eq_true, Bool.not_eq_true', List.isEmpty_eq_false, decide_eq_false_iff_not,
    not_lt, beq_iff_eq, ne_eq]
  constructor
  · rintro ⟨hsize, hpow, htime, hfirst, hextra, hcheck, hdistinct, hsig, hmerkle⟩
    exact ⟨⟨by simpa [and_assoc] using hsize, hpow, htime, hfirst, hextra, hcheck, hsig, hmerkle⟩,
      hdistinct⟩
  · rintro ⟨⟨hsize, hpow, htime, hfirst, hextra, hcheck, hsig, hmerkle⟩, hdistinct⟩
    exact ⟨by simpa [and_assoc] using hsize, hpow, htime, hfirst, hextra, hcheck, hdistinct, hsig,
      hmerkle⟩

/-- **`check_block` accepts a block that repeats a transaction two places apart**: for `[cb, a, b, a]`
with `a` and `b` hashing differently, a block passing the other checks completes with `success`
although two of its transactions share a hash. -/
theorem checkBlock_accepts_nonadjacent_duplicate (lib : Library) (v : Validator)
    (cb a b : Transaction) (hs : v.stopped = false) (htxs : v.block.transactions = [cb, a, b, a])
    (hcb : lib.txHash cb ≠ lib.txHash a) (hab : lib.txHash a ≠ lib.txHash b)
    (hchecks : BlockChecks lib v) :
    checkBlock lib v = [.success] ∧ ¬ (v.block.transactions.map lib.txHash).Nodup := by
  refine ⟨(checkBlock_eq_success_iff lib v hs).2 ⟨hchecks, ?_⟩, ?_⟩
  · simp [htxs, hcb, hab, Ne.symm hab]
  · simp [htxs]

theorem checkBlock_repeated_spend_accepted :
    let txs := [spendingTx 1 0, spendingTx 2 1, spendingTx 3 1, spendingTx 2 1]
    checkBlock versionHashLibrary (sampleValidator 0 1 txs) = [.success] ∧
      ¬ (txs.map versionHashLibrary.txHash).Nodup :=
  checkBlock_accepts_nonadjacent_duplicate versionHashLibrary _ _ _ _ rfl rfl (by decide) (by decide)
    ⟨by decide, by decide, by decide, by decide, by decide, by decide, by decide, rfl⟩

end Blockchain
