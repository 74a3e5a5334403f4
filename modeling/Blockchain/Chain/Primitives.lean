import Mathlib

/-!
# The chain objects validation reads

Blocks, headers, transactions, inputs, outputs and scripts, as far as the validators, the
populate pipeline and the transaction pool read them; the error codes they complete with; and
the consensus constants of `validate_block.cpp`.

Fields that the source declares fixed width keep their width (`UInt8` opcodes and script bytes,
`UInt32` header fields and output indices, `UInt64` output values); `size_t` quantities (heights,
counts, positions) are natural numbers. A hash digest is the 256-bit number `hash_number::set_hash`
reads it as. A script is its list of parsed operations, serialized by `Script.toData` as
`script::to_data(false)` writes it.
-/

namespace Blockchain

/-! ## Error codes -/

/-- `error::*`: the codes the validators and the pool complete their handlers with. Codes that
`check_transaction` and `validate_transaction` produce and this repository only forwards are
`other`. -/
inductive Code
  | success
  | serviceStopped
  | operationFailed
  | notFound
  | duplicate
  | sizeLimits
  | proofOfWork
  | futuristicTimestamp
  | firstNotCoinbase
  | extraCoinbases
  | tooManySigs
  | merkleMismatch
  | incorrectProofOfWork
  | timestampTooEarly
  | nonFinalTransaction
  | checkpointsFailed
  | oldVersionBlock
  | coinbaseHeightMismatch
  | duplicateOrSpent
  | validateInputsFailed
  | inputNotFound
  | poolFilled
  | blockchainReorganized
  | unknown
  | other (n : Nat)
  deriving DecidableEq, Repr

/-! ## Consensus constants -/

/-- `max_block_size`. -/
def maxBlockSize : Nat := 1000000

/-- `max_block_script_sig_operations`. -/
def maxBlockScriptSigOperations : Nat := maxBlockSize / 50

/-- `max_version1_height`. -/
def maxVersion1Height : Nat := 237370

/-- `bip30_exception_block1`. -/
def bip30ExceptionBlock1 : Nat := 91842

/-- `bip30_exception_block2`. -/
def bip30ExceptionBlock2 : Nat := 91880

/-- `target_timespan`: two weeks, in seconds. -/
def targetTimespan : Nat := 2 * 7 * 24 * 60 * 60

/-- `target_spacing`: ten minutes, in seconds. -/
def targetSpacing : Nat := 10 * 60

/-- `readjustment_interval`: two weeks worth of blocks. -/
def readjustmentInterval : Nat := targetTimespan / targetSpacing

/-- `coinbase_maturity`. -/
def coinbaseMaturity : Nat := 100

/-- `max_money()`: 21 million coins of 10^8 base units. -/
def maxMoney : Nat := 21000000 * 100000000

/-- `max_work_bits`: the compact encoding of the proof-of-work limit. -/
def maxWorkBits : UInt32 := 0x1d00ffff

/-- The largest `size_t`. -/
def maxSizeT : Nat := 2 ^ 64 - 1

theorem readjustmentInterval_eq : readjustmentInterval = 2016 := rfl

/-! ## Hashes and scripts -/

/-- `hash_digest`, as the 256-bit number `hash_number::set_hash` reads. -/
abbrev HashDigest := BitVec 256

/-- `null_hash`. -/
def nullHash : HashDigest := 0

/-- `chain::opcode`, the byte of an operation. -/
abbrev Opcode := UInt8

namespace Opcode

/-- `opcode::special`: a direct push of 1 to 75 bytes, its length taken from the data. -/
def special : Opcode := 1
/-- `opcode::pushdata1`. -/
def pushdata1 : Opcode := 76
/-- `opcode::pushdata2`. -/
def pushdata2 : Opcode := 77
/-- `opcode::pushdata4`. -/
def pushdata4 : Opcode := 78
/-- `opcode::op_1`. -/
def op1 : Opcode := 81
/-- `opcode::op_16`. -/
def op16 : Opcode := 96
/-- `opcode::checksig`. -/
def checksig : Opcode := 0xac
/-- `opcode::checksigverify`. -/
def checksigverify : Opcode := 0xad
/-- `opcode::checkmultisig`. -/
def checkmultisig : Opcode := 0xae
/-- `opcode::checkmultisigverify`. -/
def checkmultisigverify : Opcode := 0xaf
/-- `opcode::bad_operation`, not a script byte: it lies outside every range the code tests. -/
def badOperation : Opcode := 0xff

end Opcode

/-- `chain::operation`: an opcode and the data it pushes. -/
structure Operation where
  code : Opcode
  data : List UInt8
  deriving DecidableEq, Repr

/-- `chain::script`, as its parsed operations. -/
structure Script where
  operations : List Operation
  deriving DecidableEq, Repr

/-- The bytes of a little-endian `n`-byte integer. -/
def leBytes : Nat → Nat → List UInt8
  | 0, _ => []
  | n + 1, v => (v % 256).toUInt8 :: leBytes n (v / 256)

/-- `operation::to_data`: a direct push writes its length as the opcode byte, the `pushdata`
opcodes write their length field, and every operation writes its data. -/
def Operation.toData (op : Operation) : List UInt8 :=
  let size := op.data.length
  if op.code = Opcode.special then size.toUInt8 :: op.data
  else if op.code = Opcode.pushdata1 then op.code :: leBytes 1 size ++ op.data
  else if op.code = Opcode.pushdata2 then op.code :: leBytes 2 size ++ op.data
  else if op.code = Opcode.pushdata4 then op.code :: leBytes 4 size ++ op.data
  else op.code :: op.data

/-- `script::to_data(false)`: the operations' bytes, without a length prefix. -/
def Script.toData (s : Script) : List UInt8 := s.operations.flatMap Operation.toData

/-! ## Transactions and blocks -/

/-- `chain::output_point`. -/
structure OutputPoint where
  hash : HashDigest
  index : UInt32
  deriving DecidableEq, Repr

/-- `chain::input`. -/
structure Input where
  previousOutput : OutputPoint
  script : Script
  sequence : UInt32
  deriving DecidableEq, Repr

/-- `chain::output`. -/
structure Output where
  value : UInt64
  script : Script
  deriving DecidableEq, Repr

/-- `chain::transaction`. -/
structure Transaction where
  version : UInt32
  locktime : UInt32
  inputs : List Input
  outputs : List Output
  deriving DecidableEq, Repr

/-- Modelled from the spec: `transaction::is_coinbase`, which is not among the sources, as exactly
one input spending from the null hash (libbitcoin's also asks for the previous index
`0xffffffff`). -/
def Transaction.isCoinbase (tx : Transaction) : Bool :=
  match tx.inputs with
  | [input] => input.previousOutput.hash == nullHash
  | _ => false

/-- `chain::header`. -/
structure Header where
  version : UInt32
  previousBlockHash : HashDigest
  merkle : HashDigest
  timestamp : UInt32
  bits : UInt32
  nonce : UInt32
  deriving DecidableEq, Repr

/-- `chain::block`. -/
structure Block where
  header : Header
  transactions : List Transaction
  deriving DecidableEq, Repr

end Blockchain
