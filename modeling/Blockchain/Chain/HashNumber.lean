import Blockchain.Chain.Primitives

/-!
# Compact targets

`hash_number` is a 256-bit unsigned number. `set_compact` decodes the 32-bit compact form of a
target (one size byte, a sign bit and a 23-bit mantissa) and reports whether it was neither
negative nor overflowing; `compact` encodes a number back. `is_valid_proof_of_work` accepts a
header hash when its bits decode to a target in `(0, max_target]` that the hash does not exceed.
-/

namespace Blockchain

/-- `hash_number::set_compact` (`uint256::SetCompact`): the value it stores, and whether the
compact form was neither negative nor an overflow. -/
def setCompact (compact : UInt32) : Nat × Bool :=
  let c := compact.toNat
  let size := c >>> 24
  let word := if size ≤ 3 then (c &&& 0x007fffff) >>> (8 * (3 - size)) else c &&& 0x007fffff
  let value := if size ≤ 3 then word else (word <<< (8 * (size - 3))) % 2 ^ 256
  let negative := word ≠ 0 ∧ c &&& 0x00800000 ≠ 0
  let overflow := word ≠ 0 ∧ (34 < size ∨ 0xff < word ∧ 33 < size ∨ 0xffff < word ∧ 32 < size)
  (value, !(decide negative || decide overflow))

/-- `hash_number::compact` (`uint256::GetCompact`): a three-byte mantissa under the byte size,
shifted down a byte when its top bit would read as a sign. -/
def compact (value : Nat) : UInt32 :=
  let size := (Nat.size value + 7) / 8
  let word := if size ≤ 3 then (value <<< (8 * (3 - size))) % 2 ^ 32
    else (value >>> (8 * (size - 3))) % 2 ^ 32
  let (word, size) := if word &&& 0x00800000 ≠ 0 then (word >>> 8, size + 1) else (word, size)
  (word ||| size <<< 24).toUInt32

/-- `max_target()`: the target `max_work_bits` decodes to. -/
def maxTarget : Nat := (setCompact maxWorkBits).1

theorem maxTarget_eq : maxTarget = 0xffff <<< 208 := by decide

/-- `validate_block::is_valid_proof_of_work`. -/
def isValidProofOfWork (hash : HashDigest) (bits : UInt32) : Bool :=
  let (target, ok) := setCompact bits
  ok && !(target = 0 || target > maxTarget) && hash.toNat ≤ target

end Blockchain
