import Blockchain.Chain.Primitives

/-!
# Signature operation counts

`count_script_sigops` walks a script's operations carrying the previous opcode: `checksig` and
`checksigverify` count one, `checkmultisig` and `checkmultisigverify` count the key count of a
preceding `OP_1` .. `OP_16` in accurate mode and twenty otherwise. `legacy_sigops_count` adds the
pessimistic counts of every input and output script of a transaction, and of every transaction
of a block.

Read against the opcode table (`OP_n` is the byte `0x50 + n`), the loop is the sum over the
operations of a weight that depends on the operation and the one before it (`sigopWeightSum`);
the accurate weight never exceeds the pessimistic one (`sigops_weight_sums`).
-/

namespace Blockchain

open Opcode

/-- `within_op_n`: the opcode is one of `OP_1` .. `OP_16`. -/
def withinOpN (code : Opcode) : Bool := op1 ≤ code && code ≤ op16

/-- `decode_op_n`: the number `OP_n` pushes, computed on the opcode byte. -/
def decodeOpN (code : Opcode) : Nat := (code - op1 + 1).toNat

/-- What one operation adds to the count, given the opcode before it. -/
def opSigops (accurate : Bool) (last code : Opcode) : Nat :=
  if code = checksig ∨ code = checksigverify then 1
  else if code = checkmultisig ∨ code = checkmultisigverify then
    if accurate && withinOpN last then decodeOpN last else 20
  else 0

/-- The loop of `count_script_sigops`, from `last_opcode` and `total_sigs`. -/
def countSigopsLoop (accurate : Bool) : Opcode → Nat → List Operation → Nat
  | _, total, [] => total
  | last, total, op :: ops => countSigopsLoop accurate op.code (total + opSigops accurate last op.code) ops

/-- `count_script_sigops`: the loop from `bad_operation` and zero. -/
def countScriptSigops (operations : List Operation) (accurate : Bool) : Nat :=
  countSigopsLoop accurate badOperation 0 operations

/-- `legacy_sigops_count` of a transaction: the pessimistic counts of its input scripts, then of
its output scripts. -/
def legacySigopsCountTx (tx : Transaction) : Nat :=
  (tx.inputs.map fun input => countScriptSigops input.script.operations false).sum +
    (tx.outputs.map fun output => countScriptSigops output.script.operations false).sum

/-- `legacy_sigops_count` of a transaction list. -/
def legacySigopsCount (txs : List Transaction) : Nat := (txs.map legacySigopsCountTx).sum

/-! ## The count as a sum of weights -/

/-- The number an `OP_n` pushes, from the opcode table: `OP_1` .. `OP_16` are the bytes
`0x50 + n`; `none` for every other opcode. -/
def opNumber? (code : Opcode) : Option Nat :=
  if 0x51 ≤ code.toNat ∧ code.toNat ≤ 0x60 then some (code.toNat - 0x50) else none

/-- The weight of an operation, given the operation before it (`none` before the first): one for
`checksig` and `checksigverify`; for `checkmultisig` and `checkmultisigverify`, `n` in accurate
mode after an `OP_n` and twenty otherwise; nothing for every other opcode. -/
def sigopWeight (accurate : Bool) (previous : Option Opcode) (code : Opcode) : Nat :=
  if code = checksig ∨ code = checksigverify then 1
  else if code = checkmultisig ∨ code = checkmultisigverify then
    match accurate, previous.bind opNumber? with
    | true, some n => n
    | _, _ => 20
  else 0

/-- The sum over the operations of the weight of each given the one before it. -/
def sigopWeightSum (accurate : Bool) (operations : List Operation) : Nat :=
  let codes := operations.map (·.code)
  ((codes.zip (none :: codes.map some)).map fun (code, previous) =>
    sigopWeight accurate previous code).sum

theorem withinOpN_iff (code : Opcode) :
    withinOpN code = true ↔ 81 ≤ code.toNat ∧ code.toNat ≤ 96 := by
  simp only [withinOpN, op1, op16, Bool.and_eq_true, decide_eq_true_eq, UInt8.le_def,
    BitVec.le_def]
  rfl

theorem decodeOpN_eq (code : Opcode) (h : 81 ≤ code.toNat) : decodeOpN code = code.toNat - 80 := by
  have hle : op1 ≤ code := by
    rw [UInt8.le_def, BitVec.le_def]
    exact h
  have := code.toNat_lt
  rw [decodeOpN, UInt8.toNat_add, UInt8.toNat_sub_of_le _ _ hle]
  simp [op1, UInt8.size]
  omega

/-- `within_op_n` and `decode_op_n` read the opcode table's `OP_n`. -/
theorem opNumber?_eq (code : Opcode) :
    opNumber? code = if withinOpN code then some (decodeOpN code) else none := by
  by_cases h : 81 ≤ code.toNat ∧ code.toNat ≤ 96
  · simp [opNumber?, h, (withinOpN_iff code).2 h, decodeOpN_eq code h.1]
  · simp [opNumber?, h, mt (withinOpN_iff code).1 h]

theorem opNumber?_le {code : Opcode} {n : Nat} (h : opNumber? code = some n) : n ≤ 16 := by
  unfold opNumber? at h
  split at h
  · cases h
    omega
  · cases h

theorem opSigops_eq_sigopWeight (accurate : Bool) (last code : Opcode) :
    opSigops accurate last code = sigopWeight accurate (some last) code := by
  simp only [opSigops, sigopWeight, Option.some_bind, opNumber?_eq]
  split_ifs <;> cases accurate <;> simp_all

/-- `bad_operation`, the loop's first `last_opcode`, weighs as no operation at all. -/
theorem sigopWeight_badOperation (accurate : Bool) (code : Opcode) :
    sigopWeight accurate (some badOperation) code = sigopWeight accurate none code := by
  have : opNumber? badOperation = none := by decide
  simp [sigopWeight, this]

/-- The loop of `count_script_sigops` adds the weights of the remaining operations. -/
theorem countSigopsLoop_eq (accurate : Bool) :
    ∀ (last : Opcode) (total : Nat) (operations : List Operation),
      countSigopsLoop accurate last total operations = total +
        (((operations.map (·.code)).zip (some last :: (operations.map (·.code)).map some)).map
          fun (code, previous) => sigopWeight accurate previous code).sum
  | _, _, [] => rfl
  | last, total, op :: ops => by
    rw [countSigopsLoop, countSigopsLoop_eq accurate op.code, opSigops_eq_sigopWeight]
    simp only [List.map_cons, List.zip_cons_cons, List.sum_cons]
    omega

theorem countScriptSigops_eq_sigopWeightSum (operations : List Operation) (accurate : Bool) :
    countScriptSigops operations accurate = sigopWeightSum accurate operations := by
  rw [countScriptSigops, countSigopsLoop_eq, Nat.zero_add]
  cases operations with
  | nil => rfl
  | cons op ops =>
    simp only [sigopWeightSum, List.map_cons, List.zip_cons_cons, List.sum_cons,
      sigopWeight_badOperation]

theorem sigopWeight_accurate_le (previous : Option Opcode) (code : Opcode) :
    sigopWeight true previous code ≤ sigopWeight false previous code := by
  unfold sigopWeight
  split_ifs
  · exact le_rfl
  · cases h : previous.bind opNumber? with
    | none => exact le_rfl
    | some n =>
      obtain ⟨p, -, hp⟩ := Option.bind_eq_some.1 h
      exact (opNumber?_le hp).trans (by norm_num)
  · exact le_rfl

/-- `legacy_sigops_count` of a transaction list adds the pessimistic counts of every input and
output script of every transaction. -/
theorem legacySigopsCount_eq_sum (txs : List Transaction) :
    legacySigopsCount txs = ((txs.flatMap fun tx =>
      tx.inputs.map (·.script) ++ tx.outputs.map (·.script)).map fun script =>
        countScriptSigops script.operations false).sum := by
  induction txs with
  | nil => rfl
  | cons tx txs ih =>
    rw [legacySigopsCount, List.map_cons, List.sum_cons, ← legacySigopsCount, ih]
    simp [legacySigopsCountTx, List.sum_append, Function.comp_def, Nat.add_assoc]

/-- **Signature operation counts are sums of weights.** `count_script_sigops` is the sum over the
operations of each one's weight given the one before it, in either mode; the accurate count never
exceeds the pessimistic one; and `legacy_sigops_count` of a transaction list is the sum of the
pessimistic counts of all its input and output scripts. -/
theorem sigops_weight_sums :
    (∀ operations accurate,
      countScriptSigops operations accurate = sigopWeightSum accurate operations) ∧
    (∀ operations, countScriptSigops operations true ≤ countScriptSigops operations false) ∧
    ∀ txs, legacySigopsCount txs = ((txs.flatMap fun tx =>
      tx.inputs.map (·.script) ++ tx.outputs.map (·.script)).map fun script =>
        countScriptSigops script.operations false).sum := by
  refine ⟨countScriptSigops_eq_sigopWeightSum, fun operations => ?_, legacySigopsCount_eq_sum⟩
  simp only [countScriptSigops_eq_sigopWeightSum, sigopWeightSum]
  exact List.sum_le_sum fun p _ => sigopWeight_accurate_le p.2 p.1

end Blockchain
