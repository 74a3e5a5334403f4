import Blockchain.Chain.Sigops
import Blockchain.Validate.Validator

/-!
# Connecting inputs

`connect_input` checks one input of a transaction against the output it spends: the previous
transaction is fetched, the P2SH signature operations are added to the block's running count, the
output's value is bounded, a coinbase output must be mature, the script must verify, the output
must be unspent, and the value is added to the running input value. `validate_inputs` runs it on
every input in order and stops at the first failure.

`value_in` and `total_sigops` are references the checks update as they go: the model returns them
with the verdict. Indexing a vector past its end has no defined result; the model returns a
`Fault` there. `connect_input` reads `previous_tx.outputs[previous_output.index]` without comparing
the index with the output count, so every out-of-range reference is such a read
(`connectInput_reads_past_outputs`).

`connectInput_ok_true_inv` says once what an accepted input has passed. So when
`validate_inputs` accepts, every input passed those checks (`validateInputs_checks_every_input`)
and `value_in` is the exact sum of the values spent, within `max_money`
(`validateInputs_value_in`). Conversely, when every input passes and the totals stay within their
limits, `validate_inputs` accepts (`validateInputs_accepts_passing_inputs`).

Coinbase maturity is checked as `height_ - previous_height` on `size_t`, behind a
`BITCOIN_ASSERT(previous_height <= height_)` that release builds drop. A coinbase the chain holds
above `height_` wraps the difference and passes the check (`sizeSub_lt_coinbaseMaturity_iff`,
`validateInputs_accepts_coinbase_above_height`).
-/

namespace Blockchain

/-- A read past the end of a vector. -/
inductive Fault
  /-- `current_tx.inputs[input_index]`. -/
  | inputIndex
  /-- `previous_tx.outputs[previous_output.index]`. -/
  | outputIndex
  deriving DecidableEq, Repr

/-- `script_hash_signature_operations_count`: for a P2SH output, the accurate count of the redeem
script the input pushes last; `none` when that script does not parse (the `end_of_stream` it
throws). -/
def scriptHashSignatureOperationsCount (lib : Library) (outputScript inputScript : Script) :
    Option Nat :=
  if !lib.isScriptHash outputScript then some 0
  else match inputScript.operations.getLast? with
    | none => some 0
    | some last => (lib.parseScript last.data).map fun s => countScriptSigops s.operations true

/-- `height_ - previous_height` on `size_t`. -/
def sizeSub (a b : Nat) : Nat := (a % 2 ^ 64 + 2 ^ 64 - b % 2 ^ 64) % 2 ^ 64

/-- The maturity check on `size_t`: below `height_` it is the plain difference; above, the
difference wraps, and the spend counts as immature only when the previous height lies more than
`2^64 - coinbase_maturity` above. -/
theorem sizeSub_lt_coinbaseMaturity_iff {a b : Nat} (ha : a < 2 ^ 64) (hb : b < 2 ^ 64) :
    sizeSub a b < coinbaseMaturity ↔
      if b ≤ a then a - b < coinbaseMaturity else 2 ^ 64 - coinbaseMaturity < b - a := by
  have hm : coinbaseMaturity = 100 := rfl
  unfold sizeSub
  rw [Nat.mod_eq_of_lt ha, Nat.mod_eq_of_lt hb]
  split_ifs with hba
  · rw [show a + 2 ^ 64 - b = a - b + 2 ^ 64 by omega, Nat.add_mod_right, Nat.mod_eq_of_lt (by omega)]
  · rw [Nat.mod_eq_of_lt (by omega)]
    omega

/-- `validate_block::connect_input`: the verdict, then `value_in` and `total_sigops` as it leaves
them. -/
def connectInput (lib : Library) (v : Validator) (indexInParent : Nat) (currentTx : Transaction)
    (inputIndex : Nat) (valueIn : UInt64) (totalSigops : Nat) :
    Except Fault (Bool × UInt64 × Nat) := do
  let some input := currentTx.inputs[inputIndex]? | throw .inputIndex
  let previousOutput := input.previousOutput
  let some (previousTx, previousHeight) := v.fetchTransaction previousOutput.hash
    | pure (false, valueIn, totalSigops)
  let some previousTxOut := previousTx.outputs[previousOutput.index.toNat]? | throw .outputIndex
  let some sigops := scriptHashSignatureOperationsCount lib previousTxOut.script input.script
    | pure (false, valueIn, totalSigops)
  let totalSigops := (totalSigops + sigops) % 2 ^ 64
  if totalSigops > maxBlockScriptSigOperations then return (false, valueIn, totalSigops)
  let outputValue := previousTxOut.value
  if outputValue.toNat > maxMoney then return (false, valueIn, totalSigops)
  if previousTx.isCoinbase && sizeSub v.height previousHeight < coinbaseMaturity then
    return (false, valueIn, totalSigops)
  if !lib.validateConsensus previousTxOut.script currentTx inputIndex v.block.header v.height then
    return (false, valueIn, totalSigops)
  if v.isOutputSpentBy previousOutput indexInParent inputIndex then
    return (false, valueIn, totalSigops)
  let valueIn := valueIn + outputValue
  if valueIn.toNat > maxMoney then return (false, valueIn, totalSigops)
  return (true, valueIn, totalSigops)

/-- The loop of `validate_block::validate_inputs` over the remaining input indices. -/
def validateInputsLoop (lib : Library) (v : Validator) (tx : Transaction) (indexInParent : Nat) :
    List Nat → UInt64 → Nat → Except Fault (Bool × UInt64 × Nat)
  | [], valueIn, totalSigops => pure (true, valueIn, totalSigops)
  | i :: rest, valueIn, totalSigops => do
    let (ok, valueIn, totalSigops) ← connectInput lib v indexInParent tx i valueIn totalSigops
    if ok then validateInputsLoop lib v tx indexInParent rest valueIn totalSigops
    else pure (false, valueIn, totalSigops)

/-- `validate_block::validate_inputs`: every input, in order, until one fails. -/
def validateInputs (lib : Library) (v : Validator) (tx : Transaction) (indexInParent : Nat)
    (valueIn : UInt64) (totalSigops : Nat) : Except Fault (Bool × UInt64 × Nat) :=
  validateInputsLoop lib v tx indexInParent (List.range tx.inputs.length) valueIn totalSigops

/-- The value of the output that input `inputIndex` spends, when the input and its previous
transaction and output exist (0 otherwise). -/
def spentValue (v : Validator) (tx : Transaction) (inputIndex : Nat) : Nat :=
  match tx.inputs[inputIndex]? with
  | none => 0
  | some input =>
    match v.fetchTransaction input.previousOutput.hash with
    | none => 0
    | some (previousTx, _) =>
      (previousTx.outputs[input.previousOutput.index.toNat]?.map (·.value.toNat)).getD 0

/-! ## The running totals -/

/-- A check that fails with `false` lets a `true` through only when it passes. -/
theorem ite_ok_false_eq_ok_true {α : Type} {c : Prop} [Decidable c] {r r' : α}
    {e : Except Fault (Bool × α)} :
    (if c then Except.ok (false, r) else e) = Except.ok (true, r') ↔ ¬c ∧ e = Except.ok (true, r') := by
  split_ifs <;> simp [*]

/-- What an accepted input has passed: `connect_input` returns true only when the input, its
previous transaction and the output it spends exist, the P2SH count parses and keeps
`total_sigops` within the limit, the output's value is within `max_money`, a coinbase output is
mature by the `size_t` difference, the script verifies, the output is unspent, and the new
`value_in` is within `max_money`. -/
theorem connectInput_ok_true_inv {lib : Library} {v : Validator} {indexInParent : Nat}
    {currentTx : Transaction} {inputIndex : Nat} {valueIn valueIn' : UInt64}
    {totalSigops totalSigops' : Nat}
    (h : connectInput lib v indexInParent currentTx inputIndex valueIn totalSigops =
      .ok (true, valueIn', totalSigops')) :
    ∃ input previousTx previousHeight output sigops,
      currentTx.inputs[inputIndex]? = some input ∧
      v.fetchTransaction input.previousOutput.hash = some (previousTx, previousHeight) ∧
      previousTx.outputs[input.previousOutput.index.toNat]? = some output ∧
      scriptHashSignatureOperationsCount lib output.script input.script = some sigops ∧
      totalSigops' = (totalSigops + sigops) % 2 ^ 64 ∧
      totalSigops' ≤ maxBlockScriptSigOperations ∧ output.value.toNat ≤ maxMoney ∧
      (previousTx.isCoinbase = true → coinbaseMaturity ≤ sizeSub v.height previousHeight) ∧
      lib.validateConsensus output.script currentTx inputIndex v.block.header v.height = true ∧
      v.isOutputSpentBy input.previousOutput indexInParent inputIndex = false ∧
      valueIn' = valueIn + output.value ∧ valueIn'.toNat ≤ maxMoney := by
  unfold connectInput at h
  cases hin : currentTx.inputs[inputIndex]? with
  | none => simp [hin, pure, Except.pure] at h
  | some input =>
    cases hf : v.fetchTransaction input.previousOutput.hash with
    | none => simp [hin, hf, pure, Except.pure] at h
    | some p =>
      obtain ⟨previousTx, previousHeight⟩ := p
      cases ho : previousTx.outputs[input.previousOutput.index.toNat]? with
      | none => simp [hin, hf, ho, pure, Except.pure] at h
      | some out =>
        cases hs : scriptHashSignatureOperationsCount lib out.script input.script with
        | none => simp [hin, hf, ho, hs, pure, Except.pure] at h
        | some sigops =>
          simp [hin, hf, ho, hs, pure, Except.pure] at h
          simp only [ite_ok_false_eq_ok_true, Except.ok.injEq, Prod.mk.injEq, true_and] at h
          obtain ⟨h1, h2, h3, h4, h5, h6, rfl, rfl⟩ := h
          refine ⟨input, previousTx, previousHeight, out, sigops, rfl, hf, ho, hs, rfl,
            Nat.le_of_not_lt h1, Nat.le_of_not_lt h2, fun hcb => Nat.le_of_not_lt fun hlt => h3 ⟨hcb, hlt⟩,
            by simpa using h4, by simpa using h5, rfl, Nat.le_of_not_lt h6⟩

/-- One accepted input adds the value it spends to `value_in` without wrapping, and leaves both
totals within their limits. -/
theorem connectInput_ok_true {lib : Library} {v : Validator} {indexInParent : Nat}
    {currentTx : Transaction} {inputIndex : Nat} {valueIn valueIn' : UInt64}
    {totalSigops totalSigops' : Nat}
    (h : connectInput lib v indexInParent currentTx inputIndex valueIn totalSigops =
      .ok (true, valueIn', totalSigops')) (hv : valueIn.toNat ≤ maxMoney) :
    valueIn'.toNat = valueIn.toNat + spentValue v currentTx inputIndex ∧
      valueIn'.toNat ≤ maxMoney ∧ totalSigops' ≤ maxBlockScriptSigOperations := by
  obtain ⟨input, previousTx, previousHeight, output, sigops, hin, hf, ho, -, -, hsig, hout, -, -, -,
    rfl, hmax⟩ := connectInput_ok_true_inv h
  have hsum : (valueIn + output.value).toNat = valueIn.toNat + output.value.toNat := by
    rw [UInt64.toNat_add]
    exact Nat.mod_eq_of_lt (by unfold maxMoney at *; unfold UInt64.size; omega)
  exact ⟨by simp [spentValue, hin, hf, ho, hsum], hmax, hsig⟩

/-- The run lemma: over every input the loop accepts, `value_in` grows by exactly the values
spent. -/
theorem validateInputsLoop_ok_true (lib : Library) (v : Validator) (tx : Transaction)
    (indexInParent : Nat) (indices : List Nat) {valueIn valueOut : UInt64}
    {totalSigops sigopsOut : Nat}
    (h : validateInputsLoop lib v tx indexInParent indices valueIn totalSigops =
      .ok (true, valueOut, sigopsOut))
    (hv : valueIn.toNat ≤ maxMoney) (hs : totalSigops ≤ maxBlockScriptSigOperations) :
    valueOut.toNat = valueIn.toNat + (indices.map (spentValue v tx)).sum ∧
      valueOut.toNat ≤ maxMoney ∧ sigopsOut ≤ maxBlockScriptSigOperations := by
  induction indices generalizing valueIn totalSigops with
  | nil =>
    obtain ⟨rfl, rfl⟩ : valueIn = valueOut ∧ totalSigops = sigopsOut := by
      simpa [validateInputsLoop, pure, Except.pure] using h
    exact ⟨by simp, hv, hs⟩
  | cons i rest ih =>
    simp only [validateInputsLoop] at h
    cases hc : connectInput lib v indexInParent tx i valueIn totalSigops with
    | error e => simp [hc, bind, Except.bind] at h
    | ok r =>
      obtain ⟨ok, valueIn', totalSigops'⟩ := r
      cases ok
      · simp [hc, bind, Except.bind, pure, Except.pure] at h
      · simp only [hc, bind, Except.bind, if_true] at h
        obtain ⟨hstep, hv', hs'⟩ := connectInput_ok_true hc hv
        obtain ⟨hrun, hmax, hsig⟩ := ih h hv' hs'
        refine ⟨?_, hmax, hsig⟩
        rw [hrun, hstep, List.map_cons, List.sum_cons, Nat.add_assoc]

/-- **`value_in` is the exact sum.** When `validate_inputs` accepts from a `value_in` within
`max_money` and a `total_sigops` within the block limit, `value_in` has grown by the value of every
output the transaction spends, with no `uint64_t` wrap, and both totals end within their
limits. -/
theorem validateInputs_value_in (lib : Library) (v : Validator) (tx : Transaction)
    (indexInParent : Nat) {valueIn valueOut : UInt64} {totalSigops sigopsOut : Nat}
    (h : validateInputs lib v tx indexInParent valueIn totalSigops = .ok (true, valueOut, sigopsOut))
    (hv : valueIn.toNat ≤ maxMoney) (hs : totalSigops ≤ maxBlockScriptSigOperations) :
    valueOut.toNat = valueIn.toNat + ((List.range tx.inputs.length).map (spentValue v tx)).sum ∧
      valueOut.toNat ≤ maxMoney ∧ sigopsOut ≤ maxBlockScriptSigOperations :=
  validateInputsLoop_ok_true lib v tx indexInParent _ h hv hs

theorem validateInputs_value_in_one_input :
    let v : Validator := { sampleValidator 1 1 [] with
      fetchTransaction := fun _ => some (⟨1, 0, [], [⟨50, ⟨[]⟩⟩]⟩, 0) }
    validateInputs versionHashLibrary v (spendingTx 2 1) 1 0 0 = .ok (true, 50, 0) ∧
      (50 : UInt64).toNat = (0 : UInt64).toNat +
        ((List.range (spendingTx 2 1).inputs.length).map (spentValue v (spendingTx 2 1))).sum ∧
      (50 : UInt64).toNat ≤ maxMoney ∧ 0 ≤ maxBlockScriptSigOperations := by
  intro v
  have h : validateInputs versionHashLibrary v (spendingTx 2 1) 1 0 0 = .ok (true, 50, 0) := rfl
  exact ⟨h, validateInputs_value_in versionHashLibrary v (spendingTx 2 1) 1 h (by decide)
    (by decide)⟩

/-! ## The checks of every input -/

/-- The checks `connect_input` makes of an input apart from the running totals: the input, its
previous transaction and the output it spends exist, the P2SH count parses, the output's value
is within `max_money`, a coinbase output is mature by the `size_t` difference, the script verifies
and the output is unspent. -/
def InputPasses (lib : Library) (v : Validator) (indexInParent : Nat) (tx : Transaction)
    (inputIndex : Nat) : Prop :=
  ∃ input previousTx previousHeight output, tx.inputs[inputIndex]? = some input ∧
    v.fetchTransaction input.previousOutput.hash = some (previousTx, previousHeight) ∧
    previousTx.outputs[input.previousOutput.index.toNat]? = some output ∧
    (scriptHashSignatureOperationsCount lib output.script input.script).isSome ∧
    output.value.toNat ≤ maxMoney ∧
    (previousTx.isCoinbase = true → coinbaseMaturity ≤ sizeSub v.height previousHeight) ∧
    lib.validateConsensus output.script tx inputIndex v.block.header v.height = true ∧
    v.isOutputSpentBy input.previousOutput indexInParent inputIndex = false

theorem validateInputsLoop_checks (lib : Library) (v : Validator) (tx : Transaction)
    (indexInParent : Nat) (indices : List Nat) {valueIn valueOut : UInt64}
    {totalSigops sigopsOut : Nat}
    (h : validateInputsLoop lib v tx indexInParent indices valueIn totalSigops =
      .ok (true, valueOut, sigopsOut)) :
    ∀ i ∈ indices, InputPasses lib v indexInParent tx i := by
  induction indices generalizing valueIn totalSigops with
  | nil => simp
  | cons i rest ih =>
    simp only [validateInputsLoop] at h
    cases hc : connectInput lib v indexInParent tx i valueIn totalSigops with
    | error e => simp [hc, bind, Except.bind] at h
    | ok r =>
      obtain ⟨ok, valueIn', totalSigops'⟩ := r
      cases ok
      · simp [hc, bind, Except.bind, pure, Except.pure] at h
      · simp only [hc, bind, Except.bind, if_true] at h
        obtain ⟨input, previousTx, previousHeight, output, sigops, hin, hf, ho, hs, -, -, hout,
          hmature, hscript, hspent, -⟩ := connectInput_ok_true_inv hc
        refine List.forall_mem_cons.2 ⟨?_, ih h⟩
        exact ⟨input, previousTx, previousHeight, output, hin, hf, ho, by simp [hs], hout, hmature,
          hscript, hspent⟩

/-- **An accepted transaction's every input was checked.** When `validate_inputs` returns true,
each input of the transaction, in turn, found its previous transaction and output, had a parsable
P2SH count and an output value within `max_money`, spent a coinbase output only when
`height_ - previous_height` on `size_t` reaches `coinbase_maturity`, verified, and spent an
unspent output. -/
theorem validateInputs_checks_every_input (lib : Library) (v : Validator) (tx : Transaction)
    (indexInParent : Nat) {valueIn valueOut : UInt64} {totalSigops sigopsOut : Nat}
    (h : validateInputs lib v tx indexInParent valueIn totalSigops = .ok (true, valueOut, sigopsOut)) :
    ∀ i < tx.inputs.length, InputPasses lib v indexInParent tx i := fun i hi =>
  validateInputsLoop_checks lib v tx indexInParent _ h i (List.mem_range.2 hi)

theorem validateInputs_checks_one_input :
    let v : Validator := { sampleValidator 1 1 [] with
      fetchTransaction := fun _ => some (⟨1, 0, [], [⟨50, ⟨[]⟩⟩]⟩, 0) }
    validateInputs versionHashLibrary v (spendingTx 2 1) 1 0 0 = .ok (true, 50, 0) ∧
      ∀ i < (spendingTx 2 1).inputs.length, InputPasses versionHashLibrary v 1 (spendingTx 2 1) i := by
  intro v
  have h : validateInputs versionHashLibrary v (spendingTx 2 1) 1 0 0 = .ok (true, 50, 0) := rfl
  exact ⟨h, validateInputs_checks_every_input versionHashLibrary v (spendingTx 2 1) 1 h⟩

/-! ## Inputs that pass are accepted -/

/-- The P2SH signature operations input `inputIndex` adds to `total_sigops`, when the input, its
previous transaction and the output it spends exist and the count parses (0 otherwise). -/
def spentSigops (lib : Library) (v : Validator) (tx : Transaction) (inputIndex : Nat) : Nat :=
  match tx.inputs[inputIndex]? with
  | none => 0
  | some input =>
    match v.fetchTransaction input.previousOutput.hash with
    | none => 0
    | some (previousTx, _) =>
      match previousTx.outputs[input.previousOutput.index.toNat]? with
      | none => 0
      | some output => (scriptHashSignatureOperationsCount lib output.script input.script).getD 0

/-- An input that passes its checks is accepted when the totals it adds to stay within their
limits; `value_in` then grows by the value it spends. -/
theorem connectInput_ok_of_passes {lib : Library} {v : Validator} {indexInParent : Nat}
    {tx : Transaction} {inputIndex : Nat} {valueIn : UInt64} {totalSigops : Nat}
    (hpass : InputPasses lib v indexInParent tx inputIndex)
    (hvalue : valueIn.toNat + spentValue v tx inputIndex ≤ maxMoney)
    (hsigops : totalSigops + spentSigops lib v tx inputIndex ≤ maxBlockScriptSigOperations) :
    ∃ valueIn', valueIn'.toNat = valueIn.toNat + spentValue v tx inputIndex ∧
      connectInput lib v indexInParent tx inputIndex valueIn totalSigops =
        .ok (true, valueIn', totalSigops + spentSigops lib v tx inputIndex) := by
  obtain ⟨input, previousTx, previousHeight, output, hin, hf, ho, hs, hout, hmature, hscript,
    hspent⟩ := hpass
  obtain ⟨sigops, hs⟩ := Option.isSome_iff_exists.1 hs
  have hval : spentValue v tx inputIndex = output.value.toNat := by simp [spentValue, hin, hf, ho]
  have hsig : spentSigops lib v tx inputIndex = sigops := by simp [spentSigops, hin, hf, ho, hs]
  rw [hval] at hvalue ⊢
  rw [hsig] at hsigops ⊢
  have hsum : (valueIn + output.value).toNat = valueIn.toNat + output.value.toNat := by
    rw [UInt64.toNat_add]
    exact Nat.mod_eq_of_lt (by unfold maxMoney at hvalue; unfold UInt64.size; omega)
  have hmod : (totalSigops + sigops) % 2 ^ 64 = totalSigops + sigops :=
    Nat.mod_eq_of_lt (by unfold maxBlockScriptSigOperations maxBlockSize at hsigops; omega)
  have hmature' : ¬(previousTx.isCoinbase = true ∧
      sizeSub v.height previousHeight < coinbaseMaturity) := fun ⟨hcb, hlt⟩ =>
    Nat.not_le.2 hlt (hmature hcb)
  refine ⟨valueIn + output.value, hsum, ?_⟩
  simp [connectInput, hin, hf, ho, hs, hmod, hscript, hspent, hsum, hmature', Nat.not_lt.2 hsigops,
    Nat.not_lt.2 hout, Nat.not_lt.2 hvalue, pure, Except.pure, bind, Except.bind, -Nat.reducePow]

/-- The run lemma: the loop accepts inputs that all pass when the totals stay within their
limits over all of them. -/
theorem validateInputsLoop_ok_of_passes (lib : Library) (v : Validator) (tx : Transaction)
    (indexInParent : Nat) (indices : List Nat) {valueIn : UInt64} {totalSigops : Nat}
    (hpass : ∀ i ∈ indices, InputPasses lib v indexInParent tx i)
    (hvalue : valueIn.toNat + (indices.map (spentValue v tx)).sum ≤ maxMoney)
    (hsigops : totalSigops + (indices.map (spentSigops lib v tx)).sum ≤ maxBlockScriptSigOperations) :
    ∃ valueOut sigopsOut, validateInputsLoop lib v tx indexInParent indices valueIn totalSigops =
      .ok (true, valueOut, sigopsOut) := by
  induction indices generalizing valueIn totalSigops with
  | nil => exact ⟨valueIn, totalSigops, rfl⟩
  | cons i rest ih =>
    simp only [List.map_cons, List.sum_cons] at hvalue hsigops
    have hv : valueIn.toNat + spentValue v tx i ≤ maxMoney := by omega
    have hs : totalSigops + spentSigops lib v tx i ≤ maxBlockScriptSigOperations := by omega
    obtain ⟨valueIn', hv', hc⟩ := connectInput_ok_of_passes (hpass i (List.mem_cons_self i rest)) hv hs
    simp only [validateInputsLoop, hc, bind, Except.bind, if_true]
    exact ih (fun j hj => hpass j (List.mem_cons_of_mem i hj)) (by omega) (by omega)

/-- **`validate_inputs` rejects only for a reason.** When every input of the transaction passes
`connect_input`'s checks, and the values spent keep `value_in` within `max_money` and the P2SH
counts keep `total_sigops` within the block limit, `validate_inputs` accepts. -/
theorem validateInputs_accepts_passing_inputs (lib : Library) (v : Validator) (tx : Transaction)
    (indexInParent : Nat) {valueIn : UInt64} {totalSigops : Nat}
    (hpass : ∀ i < tx.inputs.length, InputPasses lib v indexInParent tx i)
    (hvalue : valueIn.toNat + ((List.range tx.inputs.length).map (spentValue v tx)).sum ≤ maxMoney)
    (hsigops : totalSigops + ((List.range tx.inputs.length).map (spentSigops lib v tx)).sum ≤
      maxBlockScriptSigOperations) :
    ∃ valueOut sigopsOut, validateInputs lib v tx indexInParent valueIn totalSigops =
      .ok (true, valueOut, sigopsOut) :=
  validateInputsLoop_ok_of_passes lib v tx indexInParent _
    (fun i hi => hpass i (List.mem_range.1 hi)) hvalue hsigops

/-- Two inputs spending outputs of 50 on a chain where every output is unspent and no script is
P2SH: both pass, and `validate_inputs` accepts. -/
theorem validateInputs_accepts_two_passing_inputs :
    let v : Validator := { sampleValidator 1 1 [] with
      fetchTransaction := fun _ => some (⟨1, 0, [], [⟨50, ⟨[]⟩⟩]⟩, 0) }
    let tx : Transaction := ⟨2, 0, [⟨⟨1, 0⟩, ⟨[]⟩, 0⟩, ⟨⟨3, 0⟩, ⟨[]⟩, 0⟩], []⟩
    (∀ i < tx.inputs.length, InputPasses versionHashLibrary v 1 tx i) ∧
      (0 : UInt64).toNat + ((List.range tx.inputs.length).map (spentValue v tx)).sum ≤ maxMoney ∧
      0 + ((List.range tx.inputs.length).map (spentSigops versionHashLibrary v tx)).sum ≤
        maxBlockScriptSigOperations ∧
      ∃ valueOut sigopsOut, validateInputs versionHashLibrary v tx 1 0 0 = .ok (true, valueOut, sigopsOut) := by
  intro v tx
  have hpass : ∀ i < tx.inputs.length, InputPasses versionHashLibrary v 1 tx i := by
    intro i hi
    obtain rfl | rfl : i = 0 ∨ i = 1 := by simp [tx] at hi; omega
    all_goals
      exact ⟨_, _, _, _, rfl, rfl, rfl, rfl, by decide, fun h => absurd h (by decide), rfl, rfl⟩
  have hvalue : (0 : UInt64).toNat + ((List.range tx.inputs.length).map (spentValue v tx)).sum ≤
      maxMoney := by decide
  have hsigops : 0 + ((List.range tx.inputs.length).map (spentSigops versionHashLibrary v tx)).sum ≤
      maxBlockScriptSigOperations := by decide
  exact ⟨hpass, hvalue, hsigops,
    validateInputs_accepts_passing_inputs versionHashLibrary v tx 1 hpass hvalue hsigops⟩

/-! ## Reads past the end -/

/-- **`connect_input` reads past the outputs it spends.** Whenever the previous transaction is
found and the input's `previous_output.index` is at least its output count, `connect_input`
indexes `previous_tx.outputs` out of range: it neither fails cleanly nor leaves `value_in` alone. -/
theorem connectInput_reads_past_outputs (lib : Library) (v : Validator) (indexInParent : Nat)
    (currentTx : Transaction) (inputIndex : Nat) (valueIn : UInt64) (totalSigops : Nat)
    (input : Input) (previousTx : Transaction) (previousHeight : Nat)
    (hin : currentTx.inputs[inputIndex]? = some input)
    (hfetch : v.fetchTransaction input.previousOutput.hash = some (previousTx, previousHeight))
    (hidx : previousTx.outputs.length ≤ input.previousOutput.index.toNat) :
    connectInput lib v indexInParent currentTx inputIndex valueIn totalSigops = .error .outputIndex := by
  simp [connectInput, hin, hfetch, List.getElem?_eq_none hidx, throw, throwThe, MonadExceptOf.throw]

/-- A chain whose every lookup finds a one-output transaction at height 0. -/
def oneOutputChain : Validator :=
  { sampleValidator 1 1 [] with fetchTransaction := fun _ => some (⟨1, 0, [], [⟨50, ⟨[]⟩⟩]⟩, 0) }

theorem connectInput_spends_second_of_one_output :
    connectInput versionHashLibrary oneOutputChain 1 ⟨1, 0, [⟨⟨1, 1⟩, ⟨[]⟩, 0⟩], []⟩ 0 0 0 =
      .error .outputIndex :=
  connectInput_reads_past_outputs _ _ _ _ _ _ _ _ _ _ rfl rfl (by decide)

/-- A chain whose every lookup finds a coinbase with one output of 50 at height 5. -/
def laterCoinbaseChain : Validator :=
  { sampleValidator 1 1 [] with
    fetchTransaction := fun _ => some (⟨1, 0, [⟨⟨nullHash, 0⟩, ⟨[]⟩, 0⟩], [⟨50, ⟨[]⟩⟩]⟩, 5) }

/-- A block at height 1 spending a coinbase the chain holds at height 5: over the integers the
coinbase is `1 - 5` blocks deep, short of `coinbase_maturity`, but `height_ - previous_height` on
`size_t` wraps to `2^64 - 4`, and `validate_inputs` accepts the spend and adds its value. -/
theorem validateInputs_accepts_coinbase_above_height :
    laterCoinbaseChain.fetchTransaction 1 =
        some (⟨1, 0, [⟨⟨nullHash, 0⟩, ⟨[]⟩, 0⟩], [⟨50, ⟨[]⟩⟩]⟩, 5) ∧
      Transaction.isCoinbase ⟨1, 0, [⟨⟨nullHash, 0⟩, ⟨[]⟩, 0⟩], [⟨50, ⟨[]⟩⟩]⟩ ∧
      (laterCoinbaseChain.height : Int) - 5 < coinbaseMaturity ∧
      validateInputs versionHashLibrary laterCoinbaseChain (spendingTx 2 1) 1 0 0 = .ok (true, 50, 0) :=
  ⟨rfl, rfl, by decide, rfl⟩

end Blockchain
