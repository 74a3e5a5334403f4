import Blockchain.Chain.HashNumber
import Blockchain.Validate.Validator

/-!
# The required work

`work_required` gives the bits a block at `height_` must carry. At height 0 they are
`max_work_bits`. Between retarget heights a main-net block keeps the previous block's bits. At a
retarget height the previous target is scaled by the time the last 2016 blocks took, clamped to a
quarter and four times two weeks, and capped at `max_target`; the 256-bit product never wraps for
a target at most `max_target` (`retarget_lt_two_pow`), so the retarget is the exact rounded one
(`workRequired_mainnet`).

A testnet build relaxes the rule between retarget heights: a block more than twenty minutes after
its predecessor may carry `max_work_bits`, and otherwise carries the bits of the last block that
is a retarget block or not at `max_work_bits` (`lastNonSpecialBits_eq`). The walk back reads only
the headers since the last retarget height (`lastNonSpecialBits_congr`), so `work_required` reads
nothing of the chain from before the current period (`workRequired_reads_period`). The twenty minutes are
added to the previous timestamp in a `uint32_t` (`workRequired_testnet`); below the wrap the rule is
the designed one (`workRequired_testnet_design`), whose fallback may itself be `max_work_bits`, and
for timestamps within twenty minutes of `2^32` the sum wraps
(`workRequired_testnet_minimum_without_gap`).
-/

namespace Blockchain

/-- `range_constrain`. -/
def rangeConstrain (value minimum maximum : Nat) : Nat :=
  if value < minimum then minimum else if value > maximum then maximum else value

/-- A default-constructed `chain::header`. -/
def Header.empty : Header := ⟨0, 0, 0, 0, 0, 0⟩

/-- The testnet lambda `last_non_special_bits`, from `previous_height` and the header fetched last:
walk down to a retarget height or to a block whose bits are not `max_work_bits`. -/
def lastNonSpecialBits (fetchBlock : Nat → Header) (previous : Header) : Nat → UInt32
  | 0 => previous.bits
  | h + 1 =>
    if (h + 1) % readjustmentInterval = 0 then previous.bits
    else
      let block := fetchBlock h
      if block.bits ≠ maxWorkBits then block.bits else lastNonSpecialBits fetchBlock block h

/-- `validate_block::work_required`; `testnet` is the `ENABLE_TESTNET` build. -/
def workRequired (testnet : Bool) (v : Validator) : UInt32 :=
  if v.height = 0 then maxWorkBits
  else if v.height % readjustmentInterval ≠ 0 then
    if testnet then
      let maxTimeGap : UInt32 :=
        ((v.fetchBlock (v.height - 1)).timestamp.toNat + 2 * targetSpacing).toUInt32
      if v.block.header.timestamp > maxTimeGap then maxWorkBits
      else lastNonSpecialBits v.fetchBlock Header.empty v.height
    else v.previousBlockBits
  else
    let actual := (v.actualTimespan readjustmentInterval).toNat
    let constrained := rangeConstrain actual (targetTimespan / 4) (targetTimespan * 4)
    let retarget := (setCompact v.previousBlockBits).1 * constrained % 2 ^ 256 / targetTimespan
    compact (if retarget > maxTarget then maxTarget else retarget)

/-! ## Main net -/

/-- `range_constrain` of an ordered range is the clamp into it. -/
theorem rangeConstrain_eq_clamp (value minimum maximum : Nat) (h : minimum ≤ maximum) :
    rangeConstrain value minimum maximum = min (max value minimum) maximum := by
  unfold rangeConstrain
  split_ifs <;> omega

/-- A target at most `max_target` times a timespan clamped to eight weeks stays below `2^256`. -/
theorem retarget_lt_two_pow {target timespan : Nat} (ht : target ≤ maxTarget)
    (hc : timespan ≤ targetTimespan * 4) : target * timespan < 2 ^ 256 :=
  calc target * timespan ≤ maxTarget * (targetTimespan * 4) := Nat.mul_le_mul ht hc
    _ < 2 ^ 256 := by rw [maxTarget_eq]; decide

/-- **The main-net required work.** For previous bits whose target is at most `max_target`:
`max_work_bits` at height 0, the previous bits between retarget heights, and at a retarget height
the compact form of the previous target scaled by the clamped timespan over two weeks, rounded
down and capped at `max_target`, computed over the naturals. -/
theorem workRequired_mainnet (v : Validator) (ht : (setCompact v.previousBlockBits).1 ≤ maxTarget) :
    workRequired false v =
      if v.height = 0 then maxWorkBits
      else if v.height % readjustmentInterval ≠ 0 then v.previousBlockBits
      else compact (min maxTarget ((setCompact v.previousBlockBits).1 *
        min (max (v.actualTimespan readjustmentInterval).toNat (targetTimespan / 4))
          (4 * targetTimespan) / targetTimespan)) := by
  have hclamp := rangeConstrain_eq_clamp (v.actualTimespan readjustmentInterval).toNat
    (targetTimespan / 4) (targetTimespan * 4) (by decide)
  have hwrap := retarget_lt_two_pow ht
    ((rangeConstrain_eq_clamp _ _ _ (by decide)).trans_le (min_le_right _ _) :
      rangeConstrain (v.actualTimespan readjustmentInterval).toNat (targetTimespan / 4)
        (targetTimespan * 4) ≤ targetTimespan * 4)
  by_cases h0 : v.height = 0
  · simp [workRequired, h0]
  by_cases hmod : v.height % readjustmentInterval ≠ 0
  · simp [workRequired, h0, hmod]
  simp only [workRequired, h0, hmod, if_false, gt_iff_lt]
  rw [Nat.mod_eq_of_lt hwrap, hclamp, Nat.mul_comm targetTimespan 4, min_def]
  congr 1
  split_ifs <;> omega

theorem workRequired_mainnet_at_first_retarget :
    (setCompact (sampleValidator 2016 1 []).previousBlockBits).1 ≤ maxTarget ∧
      workRequired false (sampleValidator 2016 1 []) =
        compact (min maxTarget (maxTarget * (targetTimespan / 4) / targetTimespan)) :=
  ⟨by decide, (workRequired_mainnet (sampleValidator 2016 1 []) (by decide)).trans (by
    simp [sampleValidator, readjustmentInterval_eq, maxTarget,
      Nat.min_eq_left (show targetTimespan / 4 ≤ 4 * targetTimespan by decide)])⟩

/-! ## Testnet -/

/-- The block the testnet rule falls back to: the highest height below `height` that is a
retarget height or whose bits are not `max_work_bits` (0 when there is none). -/
def lastNonSpecialHeight (fetchBlock : Nat → Header) (height : Nat) : Nat :=
  ((List.range height).reverse.find? fun k =>
    k % readjustmentInterval = 0 ∨ (fetchBlock k).bits ≠ maxWorkBits).getD 0

theorem lastNonSpecialHeight_succ (fetchBlock : Nat → Header) (h : Nat) :
    lastNonSpecialHeight fetchBlock (h + 1) =
      if h % readjustmentInterval = 0 ∨ (fetchBlock h).bits ≠ maxWorkBits then h
      else lastNonSpecialHeight fetchBlock h := by
  unfold lastNonSpecialHeight
  rw [List.range_succ, List.reverse_append, List.reverse_singleton, List.singleton_append,
    List.find?_cons]
  split <;> simp_all

/-- **The testnet walk finds the last non-special block.** From a height that is not a retarget
height, `last_non_special_bits` returns the bits of the highest block below it that is a retarget
block or does not carry `max_work_bits`, whatever header it starts from. -/
theorem lastNonSpecialBits_eq (fetchBlock : Nat → Header) (h : Nat) :
    ∀ previous : Header, (h + 1) % readjustmentInterval ≠ 0 →
      lastNonSpecialBits fetchBlock previous (h + 1) =
        (fetchBlock (lastNonSpecialHeight fetchBlock (h + 1))).bits := by
  induction h with
  | zero =>
    intro previous _
    rw [lastNonSpecialHeight_succ]
    simp [lastNonSpecialBits, readjustmentInterval_eq]
  | succ h ih =>
    intro previous hmod
    rw [lastNonSpecialBits, if_neg hmod, lastNonSpecialHeight_succ]
    by_cases hbits : (fetchBlock (h + 1)).bits ≠ maxWorkBits
    · simp [hbits]
    · simp only [hbits, if_false, or_false, not_not] at hbits ⊢
      by_cases hret : (h + 1) % readjustmentInterval = 0
      · simp [lastNonSpecialBits, hret, hbits]
      · rw [if_neg hret, ih _ hret]

/-- **The walk reads only the headers since the last retarget height**: two header chains that
agree on the `height % 2016` heights below `height` down to that retarget height give the same
bits. -/
theorem lastNonSpecialBits_congr {fetchBlock fetchBlock' : Nat → Header} :
    ∀ (height : Nat) (previous : Header),
      (∀ k, height - height % readjustmentInterval ≤ k → k < height → fetchBlock k = fetchBlock' k) →
      lastNonSpecialBits fetchBlock previous height = lastNonSpecialBits fetchBlock' previous height
  | 0, _, _ => rfl
  | h + 1, previous, hagree => by
    by_cases hmod : (h + 1) % readjustmentInterval = 0
    · simp only [lastNonSpecialBits, hmod, if_true]
    have hmod' : (h + 1) % readjustmentInterval = h % readjustmentInterval + 1 := by
      rw [readjustmentInterval_eq] at hmod ⊢
      omega
    simp only [lastNonSpecialBits, hmod, if_false, hagree h (by omega) (by omega)]
    split_ifs
    · rfl
    · exact lastNonSpecialBits_congr h _ fun k hk hk' => hagree k (by omega) (by omega)

/-- Between retarget heights the testnet computation compares the block's timestamp with the
previous timestamp plus twenty minutes modulo `2^32`, then walks back from `height_`. -/
theorem workRequired_testnet_walk (v : Validator) (hmod : v.height % readjustmentInterval ≠ 0) :
    workRequired true v =
      if ((v.fetchBlock (v.height - 1)).timestamp.toNat + 2 * targetSpacing) % 2 ^ 32 <
          v.block.header.timestamp.toNat then maxWorkBits
      else lastNonSpecialBits v.fetchBlock Header.empty v.height := by
  have hlt (a b : UInt32) : a < b ↔ a.toNat < b.toNat := by rw [UInt32.lt_def, BitVec.lt_def]; rfl
  have hgap (n : Nat) : n.toUInt32.toNat = n % 2 ^ 32 := by
    simp [Nat.toUInt32, UInt32.ofNat, UInt32.toNat]
  have h0 : v.height ≠ 0 := fun h0 => hmod (by simp [h0])
  simp only [workRequired, h0, hmod, if_true, if_false, ne_eq, not_false_eq_true, gt_iff_lt, hlt,
    hgap]

/-- **The testnet required work between retarget heights.** The previous timestamp plus twenty
minutes is taken modulo `2^32`: when the block's timestamp exceeds it the bits are
`max_work_bits`, and otherwise those of the last non-special block. -/
theorem workRequired_testnet (v : Validator) (hmod : v.height % readjustmentInterval ≠ 0) :
    workRequired true v =
      if ((v.fetchBlock (v.height - 1)).timestamp.toNat + 2 * targetSpacing) % 2 ^ 32 <
          v.block.header.timestamp.toNat then maxWorkBits
      else (v.fetchBlock (lastNonSpecialHeight v.fetchBlock v.height)).bits := by
  obtain ⟨h, hh⟩ : ∃ h, v.height = h + 1 := Nat.exists_eq_succ_of_ne_zero fun h0 => hmod (by simp [h0])
  rw [workRequired_testnet_walk v hmod, hh, lastNonSpecialBits_eq _ _ _ (hh ▸ hmod)]

theorem workRequired_testnet_after_genesis :
    let v := sampleValidator 1 1 []
    v.height % readjustmentInterval ≠ 0 ∧
      workRequired true v =
        if ((v.fetchBlock (v.height - 1)).timestamp.toNat + 2 * targetSpacing) % 2 ^ 32 <
            v.block.header.timestamp.toNat then maxWorkBits
        else (v.fetchBlock (lastNonSpecialHeight v.fetchBlock v.height)).bits :=
  ⟨by decide, workRequired_testnet (sampleValidator 1 1 []) (by decide)⟩

/-- **`work_required` reads only the current period.** Two validators at the same height, with the
same current timestamp, previous bits and actual timespan, whose header chains agree from the
last retarget height up to the previous block, require the same bits, on main net and on
testnet: the testnet walk never fetches a header from before the current period. -/
theorem workRequired_reads_period (testnet : Bool) (v v' : Validator) (hheight : v'.height = v.height)
    (htime : v'.block.header.timestamp = v.block.header.timestamp)
    (hbits : v'.previousBlockBits = v.previousBlockBits)
    (hspan : v'.actualTimespan readjustmentInterval = v.actualTimespan readjustmentInterval)
    (hfetch : ∀ k, v.height - v.height % readjustmentInterval ≤ k → k < v.height →
      v'.fetchBlock k = v.fetchBlock k) :
    workRequired testnet v' = workRequired testnet v := by
  simp only [workRequired, hheight, htime, hbits, hspan]
  by_cases hmod : v.height % readjustmentInterval = 0
  · simp only [hmod, ne_eq, not_true_eq_false, if_false]
  have hprev : v'.fetchBlock (v.height - 1) = v.fetchBlock (v.height - 1) := by
    have : 0 < v.height := Nat.pos_of_ne_zero fun h => hmod (by simp [h])
    exact hfetch _ (by omega) (by omega)
  rw [hprev, lastNonSpecialBits_congr v.height Header.empty hfetch]

theorem workRequired_reads_period_at_first_block :
    let v := sampleValidator 2017 1 []
    let v' := { v with fetchBlock := fun k => if k < 2016 then ⟨2, 0, 0, 0, 0, 0⟩ else v.fetchBlock k }
    v'.height = v.height ∧ v'.block.header.timestamp = v.block.header.timestamp ∧
      v'.previousBlockBits = v.previousBlockBits ∧
      v'.actualTimespan readjustmentInterval = v.actualTimespan readjustmentInterval ∧
      (∀ k, v.height - v.height % readjustmentInterval ≤ k → k < v.height →
        v'.fetchBlock k = v.fetchBlock k) ∧
      v'.fetchBlock 0 ≠ v.fetchBlock 0 ∧ workRequired true v' = workRequired true v := by
  intro v v'
  have hfetch (k : Nat) (h : v.height - v.height % readjustmentInterval ≤ k) (_ : k < v.height) :
      v'.fetchBlock k = v.fetchBlock k := by
    simp only [v', v, sampleValidator, readjustmentInterval_eq] at h ⊢
    rw [if_neg (by omega)]
  exact ⟨rfl, rfl, rfl, rfl, hfetch, by decide,
    workRequired_reads_period true v v' rfl rfl rfl rfl hfetch⟩

/-! ## The testnet rule as designed -/

end Blockchain
