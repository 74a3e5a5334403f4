import Blockchain.Chain.Dispatcher
import Blockchain.Validate.Validator

/-!
# The BIP30 fan-out of `connect_block`

`connect_block` skips BIP30 at its two exception heights; elsewhere it runs
`check_spent_duplicate` on every transaction in parallel, which, for a transaction whose hash the
chain already has, runs `check_output_spent` on every output in parallel. The joined code goes to
`connect_block1`, an unfinished step that ignores it and completes with `error::unknown`.

So `connect_block` completes once, always with `unknown` while running
(`connectBlock_completes_unknown`); the verdict of the BIP30 fold, which it drops, is `success`
exactly at the exception heights or when every transaction is new or fully spent
(`bip30Verdict_eq`).
-/

namespace Blockchain

/-- `validate_block::check_output_spent`. -/
def checkOutputSpent (v : Validator) (point : OutputPoint) : List Code :=
  completions do
    returnIfStopped v
    require (v.isOutputSpent point) .duplicateOrSpent

/-- `validate_block::check_spent_duplicate`: a transaction the chain does not have passes; one it
has is checked output by output. -/
def checkSpentDuplicate (lib : Library) (v : Validator) (tx : Transaction) : List Code :=
  if v.stopped then [.serviceStopped]
  else
    let hash := lib.txHash tx
    if !v.transactionExists hash then [.success]
    else
      let points := (List.range tx.outputs.length).map fun index => ⟨hash, index.toUInt32⟩
      parallel points (checkOutputSpent v)

/-- The calls of `next_step` in `connect_block`: the BIP30 verdict `connect_block1` receives. -/
def bip30Verdict (lib : Library) (v : Validator) : List Code :=
  if v.height = bip30ExceptionBlock1 ∨ v.height = bip30ExceptionBlock2 then [.success]
  else parallel v.block.transactions (checkSpentDuplicate lib v)

/-- `validate_block::connect_block1`. -/
def connectBlock1 (v : Validator) (_ec : Code) : List Code :=
  if v.stopped then [.serviceStopped] else [.unknown]

/-- `validate_block::connect_block`: the calls of its completion handler. -/
def connectBlock (lib : Library) (v : Validator) : List Code :=
  if v.stopped then [.serviceStopped] else (bip30Verdict lib v).flatMap (connectBlock1 v)

/-! ## The verdict -/

theorem checkOutputSpent_of_running {v : Validator} (hs : v.stopped = false) (point : OutputPoint) :
    checkOutputSpent v point = [if v.isOutputSpent point then .success else .duplicateOrSpent] := by
  cases h : v.isOutputSpent point <;>
    simp [checkOutputSpent, returnIfStopped_of_running hs, h, require, throw, throwThe,
      MonadExceptOf.throw, pure, Except.pure]

/-- A transaction passes BIP30 when the chain lacks its hash or has every output of it spent. -/
def Bip30Passes (lib : Library) (v : Validator) (tx : Transaction) : Bool :=
  !v.transactionExists (lib.txHash tx) ||
    (List.range tx.outputs.length).all fun i => v.isOutputSpent ⟨lib.txHash tx, i.toUInt32⟩

theorem checkSpentDuplicate_of_running {lib : Library} {v : Validator} (hs : v.stopped = false)
    (tx : Transaction) :
    checkSpentDuplicate lib v tx =
      [if Bip30Passes lib v tx then .success else .duplicateOrSpent] := by
  unfold checkSpentDuplicate Bip30Passes
  cases he : v.transactionExists (lib.txHash tx)
  · simp [hs, he]
  · simp only [hs, he, if_false, Bool.not_true, Bool.false_eq_true, Bool.false_or]
    rw [parallel_verdict _ _ (by decide) (checkOutputSpent_of_running hs)]
    simp [Function.comp_def]

/-- **The BIP30 verdict.** While running, `connect_block1` receives `success` exactly at the
exception heights or when every transaction passes BIP30, and `duplicate_or_spent` otherwise. -/
theorem bip30Verdict_eq (lib : Library) (v : Validator) (hs : v.stopped = false) :
    bip30Verdict lib v =
      [if v.height = bip30ExceptionBlock1 ∨ v.height = bip30ExceptionBlock2 ∨
          ∀ tx ∈ v.block.transactions, Bip30Passes lib v tx then .success
        else .duplicateOrSpent] := by
  unfold bip30Verdict
  split
  · rename_i h
    rcases h with h | h <;> simp [h]
  · rename_i h
    rw [parallel_verdict _ _ (by decide) (checkSpentDuplicate_of_running hs)]
    simp only [not_or] at h
    simp [h]

/-- **`connect_block` completes once, with `unknown`.** While running it calls its handler exactly
once, with `error::unknown`, whatever the block and the chain; the BIP30 verdict it hands to
`connect_block1` is `success` at the exception heights or when every transaction is new or fully
spent, and `duplicate_or_spent` otherwise. -/
theorem connectBlock_completes_unknown (lib : Library) (v : Validator) (hs : v.stopped = false) :
    connectBlock lib v = [.unknown] ∧
      bip30Verdict lib v =
        [if v.height = bip30ExceptionBlock1 ∨ v.height = bip30ExceptionBlock2 ∨
            ∀ tx ∈ v.block.transactions, Bip30Passes lib v tx then .success
          else .duplicateOrSpent] := by
  refine ⟨?_, bip30Verdict_eq lib v hs⟩
  simp [connectBlock, bip30Verdict_eq lib v hs, connectBlock1, hs]

theorem connectBlock_new_transactions_unknown :
    connectBlock versionHashLibrary (sampleValidator 1 1 [spendingTx 1 0]) = [.unknown] ∧
      bip30Verdict versionHashLibrary (sampleValidator 1 1 [spendingTx 1 0]) = [.success] := by
  obtain ⟨h₁, h₂⟩ :=
    connectBlock_completes_unknown versionHashLibrary (sampleValidator 1 1 [spendingTx 1 0]) rfl
  exact ⟨h₁, h₂.trans (by decide)⟩

/-- At the first BIP30 exception height, with the stop callback false, `connect_block` completes
with `unknown`, not `success`. -/
theorem connectBlock_exception_height_not_success :
    connectBlock versionHashLibrary (sampleValidator bip30ExceptionBlock1 1 [spendingTx 1 0]) =
      [.unknown] := by
  decide

end Blockchain
