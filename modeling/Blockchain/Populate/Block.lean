import Blockchain.Chain.Dispatcher
import Blockchain.Validate.Validator

/-!
# Populating a block in buckets

`populate_block::populate` attaches chain metadata to a block before it is connected. The
coinbase is handled on its own; the other transactions and their inputs are split among
`B = min(N, I)` buckets run concurrently, `N` the dispatcher's size and `I` the count of
non-coinbase inputs. Bucket `b` calls `populate_transaction` on the transactions at positions
`b, b + B, b + 2B, ...` (bucket 0 starting at `B`, past the coinbase), stepping with the saturating
`ceiling_add`, and `populate_output` on the inputs whose running position over all non-coinbase
inputs is `b` modulo `B`.

A call is named by the positions it reaches (`PopulateCall`), which is what makes two calls the
same call. The result is that the buckets together make exactly the calls of one sequential pass,
each once: `populate_partitions_calls`. The per-transaction loop terminates (its fuel, the
transaction count, is never what stops it) and every position it reaches is in range.
-/

namespace Blockchain

/-- A call `populate` makes on the fast chain, or a write it makes itself. -/
inductive PopulateCall
  /-- `populate_transaction(txs[position], forks, fork_height)`. -/
  | transaction (position : Nat) (forks : UInt32) (forkHeight : Nat)
  /-- `populate_output(txs[position].inputs[inputIndex].previous_output, fork_height)`. -/
  | output (position inputIndex : Nat) (forkHeight : Nat)
  /-- The fixed metadata `populate_coinbase` writes on the coinbase input's previous output. -/
  | coinbasePrevout
  deriving DecidableEq, Repr

/-- What `populate` reads of a block's chain state. -/
structure ChainState where
  isUnderCheckpoint : Bool
  enabledForks : UInt32
  /-- `is_enabled(rule_fork::allow_collisions)`. -/
  allowCollisions : Bool

/-- What `populate` reads of the fast chain and its dispatcher. -/
structure PopulateChain where
  /-- `fast_chain::chain_state(block)`. -/
  chainState : Block → Option ChainState
  isBlocksStale : Bool
  /-- `dispatch_.size()`. -/
  dispatchSize : Nat

/-- `ceiling_add` on `size_t`: the sum, saturated at the largest value. -/
def ceilingAdd (left right : Nat) : Nat := if left > maxSizeT - right then maxSizeT else left + right

/-- The per-transaction loop of `populate_transactions`: the positions it visits from `position`,
while below `count`, stepping by `buckets`. `none` if `fuel` runs out with the loop still going. -/
def strideLoop (count buckets : Nat) : Nat → Nat → Option (List Nat)
  | 0, position => if position < count then none else some []
  | fuel + 1, position =>
    if position < count then
      (strideLoop count buckets fuel (ceilingAdd position buckets)).map (position :: ·)
    else some []

/-- The inner loop over one transaction's inputs, from `input_index` and `input_position`: the
inputs of the bucket. -/
def inputLoop (bucket buckets forkHeight position : Nat) :
    Nat → Nat → List Input → List PopulateCall
  | _, _, [] => []
  | inputIndex, inputPosition, _ :: rest =>
    (if inputPosition % buckets ≠ bucket then [] else [.output position inputIndex forkHeight]) ++
      inputLoop bucket buckets forkHeight position (inputIndex + 1) (inputPosition + 1) rest

/-- The outer loop over the transactions after the coinbase, from their position and the running
`input_position`. -/
def txInputsLoop (bucket buckets forkHeight : Nat) : Nat → Nat → List Transaction → List PopulateCall
  | _, _, [] => []
  | position, inputPosition, tx :: rest =>
    inputLoop bucket buckets forkHeight position 0 inputPosition tx.inputs ++
      txInputsLoop bucket buckets forkHeight (position + 1) (inputPosition + tx.inputs.length) rest

/-- `populate_block::populate_transactions` for one bucket: its calls, then its handler's. -/
def populateTransactions (chain : PopulateChain) (state : ChainState) (block : Block)
    (forkHeight bucket buckets : Nat) : Option (List PopulateCall × List Code) :=
  let txs := block.transactions
  let first := if bucket = 0 then buckets else bucket
  -- the per-transaction pass runs unless the chain is stale and collisions are allowed
  let txCalls : Option (List PopulateCall) :=
    if !chain.isBlocksStale || !state.allowCollisions then
      (strideLoop txs.length buckets txs.length first).map
        (·.map fun position => .transaction position state.enabledForks forkHeight)
    else some []
  txCalls.map fun calls => (calls ++ txInputsLoop bucket buckets forkHeight 1 0 txs.tail, [.success])

/-- `populate_block::populate_coinbase`. -/
def populateCoinbase (state : ChainState) (forkHeight : Nat) : List PopulateCall :=
  [.coinbasePrevout, .transaction 0 state.enabledForks forkHeight]

/-- `block::total_non_coinbase_inputs`. -/
def totalNonCoinbaseInputs (block : Block) : Nat :=
  (block.transactions.tail.map fun tx => tx.inputs.length).sum

/-- `populate_block::populate`: every call it makes, with the buckets' in bucket order, and the
calls of its handler. -/
def populate (chain : PopulateChain) (block : Block) (forkHeight : Nat) :
    Option (List PopulateCall × List Code) :=
  match chain.chainState block with
  | none => some ([], [.operationFailed])
  | some state =>
    if state.isUnderCheckpoint then some ([], [.success])
    else
      let coinbaseCalls := populateCoinbase state forkHeight
      let nonCoinbaseInputs := totalNonCoinbaseInputs block
      if nonCoinbaseInputs = 0 then some (coinbaseCalls, [.success])
      else
        let buckets := min chain.dispatchSize nonCoinbaseInputs
        ((List.range buckets).mapM fun bucket =>
          populateTransactions chain state block forkHeight bucket buckets).map fun runs =>
            (coinbaseCalls ++ runs.flatMap (·.1), synchronize (runs.flatMap (·.2)))

/-! ## One sequential pass -/

/-- `populate_output` on every input of the transactions from `position` on. -/
def allOutputs (forkHeight : Nat) : Nat → List Transaction → List PopulateCall
  | _, [] => []
  | position, tx :: rest =>
    (List.range tx.inputs.length).map (.output position · forkHeight) ++
      allOutputs forkHeight (position + 1) rest

/-- One pass over the transactions after the coinbase: `populate_transaction` on each when the
blocks are not stale or collisions are not allowed, then `populate_output` on each of their
inputs. -/
def sequentialPass (chain : PopulateChain) (state : ChainState) (block : Block) (forkHeight : Nat) :
    List PopulateCall :=
  (if !chain.isBlocksStale || !state.allowCollisions then
    (List.range' 1 (block.transactions.length - 1)).map
      (.transaction · state.enabledForks forkHeight)
  else []) ++ allOutputs forkHeight 1 block.transactions.tail

/-- The input count of the transaction at a position, 0 past the end. -/
def inputCount (block : Block) (position : Nat) : Nat :=
  ((block.transactions[position]?).map fun tx => tx.inputs.length).getD 0

/-- Whether a call is one of the sequential pass: `populate_transaction` on a transaction after
the coinbase, with the state's forks, when the blocks are not stale or collisions are not allowed;
`populate_output` on an input of one. -/
def isPassCall (chain : PopulateChain) (state : ChainState) (block : Block) (forkHeight : Nat) :
    PopulateCall → Bool
  | .transaction position forks height =>
    (!chain.isBlocksStale || !state.allowCollisions) && forks == state.enabledForks && height == forkHeight &&
      1 ≤ position && position < block.transactions.length
  | .output position inputIndex height =>
    height == forkHeight && 1 ≤ position && inputIndex < inputCount block position
  | .coinbasePrevout => false

theorem mem_allOutputs {forkHeight : Nat} {call : PopulateCall} :
    ∀ {position : Nat} {txs : List Transaction}, call ∈ allOutputs forkHeight position txs ↔
      ∃ d i, call = .output (position + d) i forkHeight ∧
        i < ((txs[d]?).map fun tx => tx.inputs.length).getD 0
  | _, [] => by simp [allOutputs]
  | position, tx :: rest => by
    simp only [allOutputs, List.mem_append, List.mem_map, List.mem_range, mem_allOutputs]
    constructor
    · rintro (⟨i, hi, rfl⟩ | ⟨d, i, rfl, hi⟩)
      · exact ⟨0, i, rfl, by simpa⟩
      · exact ⟨d + 1, i, by rw [Nat.add_right_comm, Nat.add_assoc], by simpa using hi⟩
    · rintro ⟨_ | d, i, rfl, hi⟩
      · exact .inl ⟨i, by simpa using hi, rfl⟩
      · exact .inr ⟨d, i, by rw [Nat.add_right_comm, Nat.add_assoc], by simpa using hi⟩

theorem nodup_allOutputs (forkHeight : Nat) :
    ∀ (position : Nat) (txs : List Transaction), (allOutputs forkHeight position txs).Nodup
  | _, [] => List.nodup_nil
  | position, tx :: rest => by
    refine List.nodup_append.2 ⟨(List.nodup_range _).map fun _ _ h => by injection h,
      nodup_allOutputs forkHeight _ rest, ?_⟩
    rintro _ hmem hrest
    obtain ⟨i, -, rfl⟩ := List.mem_map.1 hmem
    obtain ⟨d, j, h, -⟩ := mem_allOutputs.1 hrest
    injection h
    omega

/-- The sequential pass makes each of its calls once. -/
theorem nodup_sequentialPass (chain : PopulateChain) (state : ChainState) (block : Block)
    (forkHeight : Nat) : (sequentialPass chain state block forkHeight).Nodup := by
  refine List.nodup_append.2 ⟨?_, nodup_allOutputs _ _ _, ?_⟩
  · split
    · exact (List.nodup_range' _ _).map fun _ _ h => by injection h
    · exact List.nodup_nil
  · rintro _ htx hout
    obtain ⟨d, i, rfl, -⟩ := mem_allOutputs.1 hout
    split at htx <;> simp at htx

theorem mem_sequentialPass (chain : PopulateChain) (state : ChainState) (block : Block)
    (forkHeight : Nat) (call : PopulateCall) :
    call ∈ sequentialPass chain state block forkHeight ↔
      isPassCall chain state block forkHeight call := by
  unfold sequentialPass
  cases call with
  | transaction position forks height =>
    have hout : PopulateCall.transaction position forks height ∉ allOutputs forkHeight 1 block.transactions.tail :=
      fun h => by obtain ⟨d, i, h, -⟩ := mem_allOutputs.1 h; cases h
    simp only [List.mem_append, hout, or_false, isPassCall]
    split
    · simp only [List.mem_map, List.mem_range'_1, PopulateCall.transaction.injEq, *]
      constructor
      · rintro ⟨p, hp, rfl, rfl, rfl⟩
        simp
        omega
      · intro h
        simp only [Bool.true_and, Bool.and_eq_true, beq_iff_eq, decide_eq_true_eq] at h
        exact ⟨position, by omega, rfl, h.1.1.1.symm, h.1.1.2.symm⟩
    · simp [*]
  | output position inputIndex height =>
    have htx : PopulateCall.output position inputIndex height ∉
        (if !chain.isBlocksStale || !state.allowCollisions then
        (List.range' 1 (block.transactions.length - 1)).map
          (PopulateCall.transaction · state.enabledForks forkHeight) else []) := by
      split <;> simp
    simp only [List.mem_append, htx, false_or, mem_allOutputs, isPassCall, inputCount,
      PopulateCall.output.injEq]
    constructor
    · rintro ⟨d, i, ⟨rfl, rfl, rfl⟩, hi⟩
      simpa [List.getElem?_tail, Nat.add_comm] using hi
    · intro h
      simp only [Bool.and_eq_true, beq_iff_eq, decide_eq_true_eq] at h
      obtain ⟨⟨rfl, hp⟩, hi⟩ := h
      exact ⟨position - 1, inputIndex, ⟨by omega, rfl, rfl⟩,
        by rwa [List.getElem?_tail, Nat.sub_add_cancel hp]⟩
  | coinbasePrevout =>
    have : PopulateCall.coinbasePrevout ∉ allOutputs forkHeight 1 block.transactions.tail :=
      fun h => by obtain ⟨d, i, h, -⟩ := mem_allOutputs.1 h; cases h
    split <;> simp_all [isPassCall]

/-! ## The buckets -/

/-- `ceiling_add` is the plain sum until it saturates. -/
theorem ceilingAdd_cases (left right : Nat) :
    ceilingAdd left right = left + right ∨
      (ceilingAdd left right = maxSizeT ∧ maxSizeT < left + right) := by
  unfold ceilingAdd
  split <;> omega

theorem mod_ne_of_lt_of_lt_add {p x B : Nat} (h₁ : p < x) (h₂ : x < p + B) : x % B ≠ p % B := by
  intro h
  have := Nat.sub_mod_eq_zero_of_mod_eq h
  rw [Nat.mod_eq_of_lt (by omega : x - p < B)] at this
  omega

/-- A filter that rejects the numbers of a run below `t` sees the run from `t` on. -/
theorem filter_range'_skip (p : Nat → Bool) (s t n : Nat) (hst : s ≤ t)
    (hskip : ∀ x, s ≤ x → x < t → p x = false) :
    (List.range' s n).filter p = (List.range' t (s + n - t)).filter p := by
  have hnil : ∀ m, m ≤ t - s → (List.range' s m).filter p = [] := fun m hm =>
    List.filter_eq_nil_iff.2 fun x hx => by
      rw [List.mem_range'_1] at hx
      simp [hskip x hx.1 (by omega)]
  by_cases h : t ≤ s + n
  · have split := List.range'_append s (t - s) (s + n - t) 1
    rw [show s + 1 * (t - s) = t by omega, show s + n - t + (t - s) = n by omega] at split
    rw [← split, List.filter_append, hnil _ le_rfl, List.nil_append]
  · rw [hnil n (by omega), show s + n - t = 0 by omega, List.range'_zero, List.filter_nil]

/-- The per-transaction loop, with enough fuel and a `count` that fits in `size_t`, visits the
positions from `position` below `count` in its residue class modulo `buckets`. -/
theorem strideLoop_eq {count buckets : Nat} (hbuckets : 0 < buckets) (hcount : count ≤ maxSizeT) :
    ∀ fuel position, count ≤ position + fuel →
      strideLoop count buckets fuel position =
        some ((List.range' position (count - position)).filter (· % buckets = position % buckets))
  | 0, position, h => by
    simp [strideLoop, show count - position = 0 by omega, show ¬ position < count by omega]
  | fuel + 1, position, h => by
    rw [strideLoop]
    split
    · have hrest := filter_range'_skip (· % buckets = position % buckets) (position + 1)
        (position + buckets) (count - position - 1) (by omega)
        fun x h₁ h₂ => by simpa using mod_ne_of_lt_of_lt_add h₁ h₂
      rw [show count - position = count - position - 1 + 1 by omega, List.range'_succ,
        List.filter_cons_of_pos (by simp), hrest]
      rcases ceilingAdd_cases position buckets with hnext | ⟨hnext, hover⟩
      · rw [hnext, strideLoop_eq hbuckets hcount fuel _ (by omega), Nat.add_mod_right,
          show position + 1 + (count - position - 1) - (position + buckets) =
            count - (position + buckets) by omega]
        rfl
      · rw [hnext, strideLoop_eq hbuckets hcount fuel _ (by omega),
          show count - maxSizeT = 0 by omega,
          show position + 1 + (count - position - 1) - (position + buckets) = 0 by omega]
        rfl
    · simp [show count - position = 0 by omega]

/-- Bucket `bucket`'s transactions are the positions after the coinbase in its residue class:
bucket 0 starts at `buckets`, past the coinbase. -/
theorem strideLoop_bucket {count buckets bucket : Nat} (hbucket : bucket < buckets)
    (hcount : count ≤ maxSizeT) :
    strideLoop count buckets count (if bucket = 0 then buckets else bucket) =
      some ((List.range' 1 (count - 1)).filter (· % buckets = bucket)) := by
  obtain ⟨first, hfirst, hpos, hskip, hmod⟩ : ∃ first,
      (if bucket = 0 then buckets else bucket) = first ∧ 1 ≤ first ∧
        (∀ x, 1 ≤ x → x < first → x % buckets ≠ bucket) ∧ first % buckets = bucket := by
    split
    · exact ⟨buckets, rfl, by omega, fun x h₁ h₂ => by rw [Nat.mod_eq_of_lt h₂]; omega,
        by simp [*]⟩
    · exact ⟨bucket, rfl, by omega, fun x h₁ h₂ => by rw [Nat.mod_eq_of_lt (by omega)]; omega,
        Nat.mod_eq_of_lt hbucket⟩
  rw [hfirst, strideLoop_eq (by omega) hcount _ _ (by omega), hmod,
    filter_range'_skip (· % buckets = bucket) 1 first (count - 1) hpos
      fun x h₁ h₂ => by simpa using hskip x h₁ h₂,
    show 1 + (count - 1) - first = count - first by omega]

/-- Each input after the coinbase from `inputIndex` on, with its running position and the call
`populate_output` makes on it. -/
def inputSlots (forkHeight position : Nat) : Nat → Nat → List Input → List (Nat × PopulateCall)
  | _, _, [] => []
  | inputIndex, inputPosition, _ :: rest =>
    (inputPosition, .output position inputIndex forkHeight) ::
      inputSlots forkHeight position (inputIndex + 1) (inputPosition + 1) rest

/-- The inputs of the transactions from `position` on, each with its running position. -/
def txSlots (forkHeight : Nat) : Nat → Nat → List Transaction → List (Nat × PopulateCall)
  | _, _, [] => []
  | position, inputPosition, tx :: rest =>
    inputSlots forkHeight position 0 inputPosition tx.inputs ++
      txSlots forkHeight (position + 1) (inputPosition + tx.inputs.length) rest

theorem inputLoop_eq_filter (bucket buckets forkHeight position : Nat) :
    ∀ inputIndex inputPosition inputs,
      inputLoop bucket buckets forkHeight position inputIndex inputPosition inputs =
        ((inputSlots forkHeight position inputIndex inputPosition inputs).filter
          (·.1 % buckets = bucket)).map (·.2)
  | _, _, [] => rfl
  | inputIndex, inputPosition, _ :: rest => by
    rw [inputLoop, inputSlots, List.filter_cons, inputLoop_eq_filter]
    by_cases h : inputPosition % buckets = bucket <;> simp [h]

theorem txInputsLoop_eq_filter (bucket buckets forkHeight : Nat) :
    ∀ position inputPosition txs,
      txInputsLoop bucket buckets forkHeight position inputPosition txs =
        ((txSlots forkHeight position inputPosition txs).filter
          (·.1 % buckets = bucket)).map (·.2)
  | _, _, [] => rfl
  | position, inputPosition, tx :: rest => by
    rw [txInputsLoop, txSlots, List.filter_append, List.map_append, inputLoop_eq_filter,
      txInputsLoop_eq_filter]

theorem map_inputSlots (forkHeight position : Nat) :
    ∀ inputIndex inputPosition inputs,
      (inputSlots forkHeight position inputIndex inputPosition inputs).map (·.2) =
        (List.range' inputIndex inputs.length).map (.output position · forkHeight)
  | _, _, [] => rfl
  | inputIndex, inputPosition, _ :: rest => by
    simp [inputSlots, List.range'_succ, map_inputSlots]

theorem map_txSlots (forkHeight : Nat) :
    ∀ position inputPosition txs,
      (txSlots forkHeight position inputPosition txs).map (·.2) = allOutputs forkHeight position txs
  | _, _, [] => rfl
  | position, inputPosition, tx :: rest => by
    simp [txSlots, allOutputs, map_inputSlots, map_txSlots, List.range_eq_range']

theorem sum_range_ite (k c B : Nat) :
    ((List.range B).map fun b => if k = b then c else 0).sum = if k < B then c else 0 := by
  induction B with
  | zero => simp
  | succ B ih =>
    rw [List.range_succ, List.map_append, List.sum_append, ih]
    by_cases h : k = B
    · simp [h]
    · simp only [h, if_false, List.map_cons, List.map_nil, List.sum_cons, List.sum_nil]
      split_ifs <;> omega

/-- Splitting a list by a key modulo `B > 0` and concatenating the parts in bucket order only
permutes it. -/
theorem flatMap_filter_mod_perm {α : Type} [DecidableEq α] (l : List α) (key : α → Nat) {B : Nat}
    (hB : 0 < B) : ((List.range B).flatMap fun b => l.filter (key · % B = b)).Perm l := by
  refine List.perm_iff_count.2 fun a => ?_
  have hbucket (b : Nat) :
      (l.filter (key · % B = b)).count a = if key a % B = b then l.count a else 0 := by
    split
    · exact List.count_filter (by simpa)
    · exact List.count_eq_zero.2 fun h => ‹¬_› (by simpa using (List.mem_filter.1 h).2)
  simp only [List.flatMap, List.count_flatten, List.map_map, Function.comp_def, hbucket,
    sum_range_ite, Nat.mod_lt _ hB, if_true]

/-- The calls of bucket `bucket` of `buckets`: `populate_transaction` on the positions after the
coinbase in its residue class, when the per-transaction pass runs, then `populate_output` on the
inputs whose running position is in it. -/
def bucketCalls (chain : PopulateChain) (state : ChainState) (block : Block)
    (forkHeight bucket buckets : Nat) : List PopulateCall :=
  (if !chain.isBlocksStale || !state.allowCollisions then
    ((List.range' 1 (block.transactions.length - 1)).filter (· % buckets = bucket)).map
      (.transaction · state.enabledForks forkHeight)
  else []) ++
    ((txSlots forkHeight 1 0 block.transactions.tail).filter (·.1 % buckets = bucket)).map (·.2)

theorem populateTransactions_eq (chain : PopulateChain) (state : ChainState) (block : Block)
    (forkHeight : Nat) {bucket buckets : Nat} (hbucket : bucket < buckets)
    (hsize : block.transactions.length ≤ maxSizeT) :
    populateTransactions chain state block forkHeight bucket buckets =
      some (bucketCalls chain state block forkHeight bucket buckets, [.success]) := by
  unfold populateTransactions bucketCalls
  dsimp only
  rw [strideLoop_bucket hbucket hsize]
  split <;> simp [txInputsLoop_eq_filter]

/-- The buckets together make the calls of the sequential pass. -/
theorem flatMap_bucketCalls_perm (chain : PopulateChain) (state : ChainState) (block : Block)
    (forkHeight : Nat) {buckets : Nat} (hbuckets : 0 < buckets) :
    ((List.range buckets).flatMap (bucketCalls chain state block forkHeight · buckets)).Perm
      (sequentialPass chain state block forkHeight) := by
  unfold bucketCalls sequentialPass
  refine (List.flatMap_append_perm _ _ _).symm.trans (List.Perm.append ?_ ?_)
  · by_cases h : (!chain.isBlocksStale || !state.allowCollisions) = true
    · simp only [h, if_true, ← List.map_flatMap]
      exact (flatMap_filter_mod_perm _ (fun x => x) hbuckets).map _
    · simp [h]
  · rw [← List.map_flatMap, ← map_txSlots forkHeight 1 0]
    exact (flatMap_filter_mod_perm _ _ hbuckets).map _

theorem mapM_eq_some_map {α β : Type} {f : α → Option β} {g : α → β} :
    ∀ {l : List α}, (∀ x ∈ l, f x = some (g x)) → l.mapM f = some (l.map g)
  | [], _ => rfl
  | a :: l, h => by
    rw [List.mapM_cons, h a (List.mem_cons_self a l),
      mapM_eq_some_map fun x hx => h x (List.mem_cons_of_mem a hx)]
    rfl

/-! ## The partition -/

/-- **The buckets partition one sequential pass.** For a chain state that is not under a
checkpoint, a dispatcher of size `N ≥ 1`, `I ≥ 1` non-coinbase inputs and a transaction count that
fits in `size_t`, the `B = min(N, I)` runs of `populate_transactions` all terminate and complete
with `success`. Together they make each call of the sequential pass exactly once and no other
call: none on position 0 or on the coinbase input, none past the end of the transactions or of a
transaction's inputs. No two buckets make the same call, so their calls are a permutation of the
sequential pass; and `populate` completes once, with `success`, after `populate_coinbase`'s two
calls (the coinbase input's fixed metadata, then `populate_transaction` at position 0) and the
buckets' calls. -/
theorem populate_partitions_calls (chain : PopulateChain) (block : Block) (forkHeight : Nat)
    (state : ChainState) (hstate : chain.chainState block = some state)
    (hcheckpoint : state.isUnderCheckpoint = false) (hdispatch : 1 ≤ chain.dispatchSize)
    (hinputs : 1 ≤ totalNonCoinbaseInputs block) (hsize : block.transactions.length ≤ maxSizeT) :
    let buckets := min chain.dispatchSize (totalNonCoinbaseInputs block)
    ∃ runs : List (List PopulateCall),
      (List.range buckets).mapM
          (fun bucket => populateTransactions chain state block forkHeight bucket buckets) =
        some (runs.map (·, [.success])) ∧
      (∀ call, runs.flatten.count call =
        if isPassCall chain state block forkHeight call then 1 else 0) ∧
      runs.Pairwise List.Disjoint ∧
      runs.flatten.Perm (sequentialPass chain state block forkHeight) ∧
      populate chain block forkHeight = some (.coinbasePrevout ::
        .transaction 0 state.enabledForks forkHeight :: runs.flatten, [.success]) := by
  dsimp only
  set buckets := min chain.dispatchSize (totalNonCoinbaseInputs block) with hbuckets
  let runs := (List.range buckets).map (bucketCalls chain state block forkHeight · buckets)
  have hruns : (List.range buckets).mapM
      (fun bucket => populateTransactions chain state block forkHeight bucket buckets) =
        some (runs.map (·, [.success])) := by
    rw [List.map_map]
    exact mapM_eq_some_map fun b hb =>
      populateTransactions_eq chain state block forkHeight (List.mem_range.1 hb) hsize
  have hperm : runs.flatten.Perm (sequentialPass chain state block forkHeight) :=
    flatMap_bucketCalls_perm chain state block forkHeight (by omega)
  have hnodup : runs.flatten.Nodup := hperm.nodup_iff.2 (nodup_sequentialPass _ _ _ _)
  refine ⟨runs, hruns, fun call => ?_, (List.nodup_flatten.1 hnodup).2, hperm, ?_⟩
  · rw [hperm.count_eq, List.count_eq_of_nodup (nodup_sequentialPass _ _ _ _)]
    simp only [mem_sequentialPass]
  · simp only [populate, hstate, hcheckpoint, Bool.false_eq_true, if_false,
      show totalNonCoinbaseInputs block ≠ 0 by omega, ← hbuckets, hruns, Option.map_some',
      List.flatMap_map]
    rw [synchronize_of_success (by simp)]
    exact congrArg (fun calls => some (_ ++ calls, _)) (List.flatMap_id runs)

/-- A two-bucket chain: not under a checkpoint, not stale, a dispatcher of two threads. -/
def twoThreadChain : PopulateChain where
  chainState _ := some ⟨false, 0, false⟩
  isBlocksStale := false
  dispatchSize := 2

/-- A block of a coinbase and two one-input transactions. -/
def threeTxBlock : Block :=
  ⟨⟨1, 0, 0, 0, maxWorkBits, 0⟩, [spendingTx 1 0, spendingTx 2 1, spendingTx 3 2]⟩

theorem populate_partitions_calls_two_buckets :
    let buckets := min twoThreadChain.dispatchSize (totalNonCoinbaseInputs threeTxBlock)
    ∃ runs : List (List PopulateCall),
      (List.range buckets).mapM (fun bucket =>
          populateTransactions twoThreadChain ⟨false, 0, false⟩ threeTxBlock 0 bucket buckets) =
        some (runs.map (·, [.success])) ∧
      (∀ call, runs.flatten.count call =
        if isPassCall twoThreadChain ⟨false, 0, false⟩ threeTxBlock 0 call then 1 else 0) ∧
      runs.Pairwise List.Disjoint ∧
      runs.flatten.Perm (sequentialPass twoThreadChain ⟨false, 0, false⟩ threeTxBlock 0) ∧
      populate twoThreadChain threeTxBlock 0 = some (.coinbasePrevout ::
        .transaction 0 (⟨false, 0, false⟩ : ChainState).enabledForks 0 :: runs.flatten, [.success]) :=
  populate_partitions_calls twoThreadChain threeTxBlock 0 ⟨false, 0, false⟩ rfl rfl (by decide)
    (by decide) (by decide)

end Blockchain
