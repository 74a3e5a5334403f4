import Blockchain.Chain.ScriptNumber
import Blockchain.Validate.WorkRequired

/-!
# Contextual block checks

`accept_block` checks a block against the chain at its height: the required work, the median
time past, transaction finality, the checkpoints, the version 1 cutoff and the BIP34 coinbase
height. `work_required` (in `Validate.WorkRequired`) is the retarget rule, and
`is_valid_coinbase_height` compares the first bytes of the coinbase's first input script
with the push of the height as a script number.

Above `max_version1_height` a block that `accept_block` accepts has version 2 or more, so its
coinbase script begins with the push of its height (`acceptBlock_valid_coinbase_height`). The push
is its length byte and then minimal bytes of the height (`heightPush`), and two such pushes that are
both prefixes of one script are the same push (`heightPush_prefix_injective`): a coinbase script
fixes the height (`coinbase_script_fixes_height`).
-/

namespace Blockchain

/-! ## The coinbase height -/

/-- The bytes `is_valid_coinbase_height` expects: one direct push of the height's script number. -/
def heightPush (height : Nat) : List UInt8 :=
  (Script.mk [⟨Opcode.special, scriptNumberData (toInt64 height)⟩]).toData

/-- The serialized first input script of a block's first transaction, when there is one. -/
def coinbaseData (block : Block) : Option (List UInt8) :=
  (block.transactions.head?.bind (·.inputs.head?)).map (·.script.toData)

/-- `validate_block::is_valid_coinbase_height`. -/
def isValidCoinbaseHeight (height : Nat) (block : Block) : Bool :=
  if height < maxVersion1Height then true
  else if block.header.version < 2 then false
  else match coinbaseData block with
    | none => false
    | some raw =>
      let expect := heightPush height
      if expect.length > raw.length then false else expect.isPrefixOf raw

/-- Modelled from the spec: `checkpoint::validate`, which is not among the sources. At a
checkpoint's height the hash must be the checkpoint's; at other heights anything passes. -/
def validateCheckpoint (hash : HashDigest) (height : Nat) (checks : List (Nat × HashDigest)) :
    Bool :=
  checks.all fun c => c.1 != height || c.2 == hash

/-! ## The checks -/

/-- The body of `validate_block::accept_block`. -/
def acceptBlockBody (lib : Library) (testnet : Bool) (v : Validator) : Except Code Unit := do
  let header := v.block.header
  require (header.bits == workRequired testnet v) .incorrectProofOfWork
  returnIfStopped v
  require (!(header.timestamp.toNat ≤ v.medianTimePast.toNat)) .timestampTooEarly
  returnIfStopped v
  v.block.transactions.forM fun tx => do
    require (lib.isFinal tx v.height header.timestamp) .nonFinalTransaction
    returnIfStopped v
  require (validateCheckpoint (lib.headerHash header) v.height v.checkpoints) .checkpointsFailed
  returnIfStopped v
  require (!(header.version < 2 && v.height > maxVersion1Height)) .oldVersionBlock
  returnIfStopped v
  require (!(header.version ≥ 2 && !isValidCoinbaseHeight v.height v.block))
    .coinbaseHeightMismatch

/-- `validate_block::accept_block`: the calls of its completion handler. -/
def acceptBlock (lib : Library) (testnet : Bool) (v : Validator) : List Code :=
  completions (acceptBlockBody lib testnet v)

theorem settles_acceptBlockBody (lib : Library) (testnet : Bool) (v : Validator) :
    Settles (acceptBlockBody lib testnet v) := by
  simp only [acceptBlockBody]
  repeat' first
    | with_reducible apply settles_bind
    | with_reducible apply settles_forM
    | with_reducible exact settles_returnIfStopped v
    | with_reducible exact settles_require _ (by decide)
    | intro

/-- **What `accept_block` accepts.** With the stop callback false, it completes once, with
`success` exactly when the bits are the required work, the timestamp is after the median time past,
every transaction is final, the checkpoints pass, no version 1 block comes after
`max_version1_height`, and a version 2 block has a valid coinbase height. -/
theorem acceptBlock_eq_success_iff (lib : Library) (testnet : Bool) (v : Validator)
    (hs : v.stopped = false) :
    acceptBlock lib testnet v = [.success] ↔
      v.block.header.bits = workRequired testnet v ∧
      v.medianTimePast.toNat < v.block.header.timestamp.toNat ∧
      (∀ tx ∈ v.block.transactions, lib.isFinal tx v.height v.block.header.timestamp) ∧
      validateCheckpoint (lib.headerHash v.block.header) v.height v.checkpoints ∧
      ¬ (v.block.header.version < 2 ∧ maxVersion1Height < v.height) ∧
      (2 ≤ v.block.header.version → isValidCoinbaseHeight v.height v.block) := by
  rw [acceptBlock, completions_eq_success (settles_acceptBlockBody lib testnet v)]
  simp only [acceptBlockBody, bind_eq_ok, require_eq_ok, returnIfStopped_of_running hs, forM_eq_ok,
    ok_bind, exists_const, true_and, and_true]
  simp [imp_iff_not_or]

/-- An accepted block is one the stop callback let through. -/
theorem acceptBlock_running {lib : Library} {testnet : Bool} {v : Validator}
    (h : acceptBlock lib testnet v = [.success]) : v.stopped = false := by
  rw [acceptBlock, completions_eq_success (settles_acceptBlockBody lib testnet v)] at h
  cases hs : v.stopped
  · rfl
  · simp [acceptBlockBody, bind_eq_ok, returnIfStopped, hs, throw, throwThe,
      MonadExceptOf.throw] at h

/-- Above `max_version1_height`, an accepted block has a valid coinbase height. -/
theorem acceptBlock_valid_coinbase_height {lib : Library} {testnet : Bool} {v : Validator}
    (h : acceptBlock lib testnet v = [.success]) (hv : maxVersion1Height < v.height) :
    isValidCoinbaseHeight v.height v.block = true := by
  obtain ⟨-, -, -, -, hold, hcb⟩ :=
    (acceptBlock_eq_success_iff lib testnet v (acceptBlock_running h)).1 h
  exact hcb (UInt32.not_lt.1 fun h2 => hold ⟨h2, hv⟩)

/-! ## The coinbase script fixes the height -/

theorem heightPush_eq (height : Nat) :
    heightPush height =
      (scriptNumberData (toInt64 height)).length.toUInt8 :: scriptNumberData (toInt64 height) :=
  toData_special _

/-- A push whose length byte is one of at most nine data bytes is determined by any push it
begins. -/
theorem push_prefix_eq {d₁ d₂ : List UInt8} (h₁ : d₁.length ≤ 9) (h₂ : d₂.length ≤ 9)
    (hp : d₁.length.toUInt8 :: d₁ <+: d₂.length.toUInt8 :: d₂) : d₁ = d₂ := by
  obtain ⟨hb, hd⟩ := List.cons_prefix_cons.1 hp
  have hlen := congrArg UInt8.toNat hb
  rw [UInt8.toNat_ofNat_of_lt (by unfold UInt8.size; omega),
    UInt8.toNat_ofNat_of_lt (by unfold UInt8.size; omega)] at hlen
  exact hd.eq_of_length hlen

/-- **Two height pushes that begin one script push the same height.** -/
theorem heightPush_prefix_injective {h₁ h₂ : Nat} {raw : List UInt8} (hh₁ : h₁ < 2 ^ 63)
    (hh₂ : h₂ < 2 ^ 63) (p₁ : heightPush h₁ <+: raw) (p₂ : heightPush h₂ <+: raw) : h₁ = h₂ := by
  rw [heightPush_eq, toInt64_of_lt hh₁] at p₁
  rw [heightPush_eq, toInt64_of_lt hh₂] at p₂
  have b₁ := length_scriptNumberData_le h₁
  have b₂ := length_scriptNumberData_le h₂
  have hd : scriptNumberData h₁ = scriptNumberData h₂ := by
    rcases le_total (scriptNumberData h₁).length (scriptNumberData h₂).length with hle | hle
    · exact push_prefix_eq b₁ b₂ (List.prefix_of_prefix_length_le p₁ p₂ (by simpa))
    · exact (push_prefix_eq b₂ b₁ (List.prefix_of_prefix_length_le p₂ p₁ (by simpa))).symm
  exact scriptNumberData_injective (by omega) (by omega) hd

/-- From `max_version1_height` on, a valid coinbase height means a version 2 block whose coinbase
script begins with the height's push. -/
theorem isValidCoinbaseHeight_iff {height : Nat} (block : Block) (hh : maxVersion1Height ≤ height) :
    isValidCoinbaseHeight height block = true ↔
      2 ≤ block.header.version ∧ ∃ raw, coinbaseData block = some raw ∧ heightPush height <+: raw := by
  unfold isValidCoinbaseHeight
  simp only [show ¬ height < maxVersion1Height by omega, if_false]
  by_cases hv : block.header.version < 2
  · simp [hv, UInt32.not_le.2 hv]
  · simp only [hv, if_false, UInt32.not_lt.1 hv, true_and]
    cases coinbaseData block with
    | none => simp
    | some raw =>
      simp only [Option.some.injEq, exists_eq_left']
      split
      · rename_i hl
        simp only [Bool.false_eq_true, false_iff]
        exact fun hp => absurd hp.length_le (by omega)
      · exact List.isPrefixOf_iff_prefix

/-- **A coinbase script fixes the height**: `is_valid_coinbase_height` holds for at most one
height in `[max_version1_height, 2^63)`. -/
theorem coinbase_script_fixes_height (block : Block) {h₁ h₂ : Nat}
    (l₁ : maxVersion1Height ≤ h₁) (u₁ : h₁ < 2 ^ 63) (l₂ : maxVersion1Height ≤ h₂) (u₂ : h₂ < 2 ^ 63)
    (v₁ : isValidCoinbaseHeight h₁ block) (v₂ : isValidCoinbaseHeight h₂ block) : h₁ = h₂ := by
  obtain ⟨-, raw, hraw, p₁⟩ := (isValidCoinbaseHeight_iff block l₁).1 v₁
  obtain ⟨-, raw', hraw', p₂⟩ := (isValidCoinbaseHeight_iff block l₂).1 v₂
  obtain rfl : raw = raw' := Option.some.inj (hraw.symm.trans hraw')
  exact heightPush_prefix_injective u₁ u₂ p₁ p₂

/-- **BIP34 makes coinbases unique across heights.** Two blocks that `accept_block` accepts at two
different heights above `max_version1_height` (and below `2^63`) have coinbase scripts that differ;
equivalently, `is_valid_coinbase_height` holds for at most one height of `[max_version1_height, 2^63)`
per block. -/
theorem accepted_coinbase_scripts_differ :
    (∀ (lib : Library) (testnet : Bool) (v₁ v₂ : Validator), v₁.height ≠ v₂.height →
      maxVersion1Height < v₁.height → v₁.height < 2 ^ 63 →
      maxVersion1Height < v₂.height → v₂.height < 2 ^ 63 →
      acceptBlock lib testnet v₁ = [.success] → acceptBlock lib testnet v₂ = [.success] →
      ∃ r₁ r₂, coinbaseData v₁.block = some r₁ ∧ coinbaseData v₂.block = some r₂ ∧ r₁ ≠ r₂) ∧
    (∀ (block : Block) (h₁ h₂ : Nat), maxVersion1Height ≤ h₁ → h₁ < 2 ^ 63 →
      maxVersion1Height ≤ h₂ → h₂ < 2 ^ 63 →
      isValidCoinbaseHeight h₁ block → isValidCoinbaseHeight h₂ block → h₁ = h₂) := by
  refine ⟨fun lib testnet v₁ v₂ hne l₁ u₁ l₂ u₂ a₁ a₂ => ?_,
    fun block _ _ l₁ u₁ l₂ u₂ => coinbase_script_fixes_height block l₁ u₁ l₂ u₂⟩
  obtain ⟨-, r₁, hr₁, p₁⟩ :=
    (isValidCoinbaseHeight_iff _ l₁.le).1 (acceptBlock_valid_coinbase_height a₁ l₁)
  obtain ⟨-, r₂, hr₂, p₂⟩ :=
    (isValidCoinbaseHeight_iff _ l₂.le).1 (acceptBlock_valid_coinbase_height a₂ l₂)
  refine ⟨r₁, r₂, hr₁, hr₂, fun heq => hne ?_⟩
  exact heightPush_prefix_injective u₁ u₂ p₁ (heq ▸ p₂)

/-- A version 2 validator at a height whose coinbase pushes that height. -/
def coinbaseHeightValidator (height : Nat) : Validator :=
  sampleValidator height 2 [⟨1, 0, [⟨⟨nullHash, 0⟩, ⟨[⟨Opcode.special, scriptNumberData height⟩]⟩, 0⟩], []⟩]

theorem accepted_coinbase_scripts_differ_at_two_heights :
    (∃ r₁ r₂, coinbaseData (coinbaseHeightValidator 300001).block = some r₁ ∧
      coinbaseData (coinbaseHeightValidator 300002).block = some r₂ ∧ r₁ ≠ r₂) ∧
    300001 = 300001 :=
  ⟨accepted_coinbase_scripts_differ.1 versionHashLibrary false _ _ (by decide) (by decide)
      (by decide) (by decide) (by decide) (by decide) (by decide),
    accepted_coinbase_scripts_differ.2 (coinbaseHeightValidator 300001).block 300001 300001
      (by decide) (by decide) (by decide) (by decide) (by decide) (by decide)⟩

end Blockchain
