import Blockchain.Chain.Primitives

/-!
# The validator and what it calls

A `validate_block` holds a height, a block, the checkpoints and a stop callback; its derived
classes supply the chain reads (`fetch_transaction`, `is_output_spent`, `transaction_exists`, ...)
as pure virtual members, collected here in `Validator`. The libbitcoin functions it calls and this
repository does not define (hashing, serialization, the transaction checks, the script
interpreter) are the fields of `Library`.

An entry point completes by calling its handler; `completions` lists the calls a body written in
`Except Code Unit` makes: the code it throws, or `success` when it runs to the end. The stop
callback is read as one value for the whole call (`RETURN_IF_STOPPED` is `returnIfStopped`).
-/

namespace Blockchain

/-- The libbitcoin functions `validate_block` calls. -/
structure Library where
  /-- `header::hash`. -/
  headerHash : Header → HashDigest
  /-- `transaction::hash`. -/
  txHash : Transaction → HashDigest
  /-- `block::serialized_size`. -/
  serializedSize : Block → Nat
  /-- `validate_transaction::check_transaction`. -/
  checkTransaction : Transaction → Code
  /-- `block::generate_merkle_root`. -/
  generateMerkleRoot : List Transaction → HashDigest
  /-- `transaction::is_final(height, timestamp)`. -/
  isFinal : Transaction → Nat → UInt32 → Bool
  /-- `validate_transaction::validate_consensus(script, tx, input_index, header, height)`. -/
  validateConsensus : Script → Transaction → Nat → Header → Nat → Bool
  /-- `script::type() == payment_type::script_hash`. -/
  isScriptHash : Script → Bool
  /-- `script::from_data(data, false, parse_mode::strict)`. -/
  parseScript : List UInt8 → Option Script

/-- A `validate_block` and the chain reads its derived class supplies. -/
structure Validator where
  height : Nat
  block : Block
  checkpoints : List (Nat × HashDigest)
  /-- The stop callback's answer during the call. -/
  stopped : Bool
  /-- `current_time()`, in seconds since the epoch. -/
  currentTime : Nat
  actualTimespan : Nat → UInt64
  fetchBlock : Nat → Header
  /-- `fetch_transaction`: the transaction with the hash and its height, when found. -/
  fetchTransaction : HashDigest → Option (Transaction × Nat)
  isOutputSpent : OutputPoint → Bool
  /-- `is_output_spent(previous_output, index_in_parent, input_index)`. -/
  isOutputSpentBy : OutputPoint → Nat → Nat → Bool
  medianTimePast : UInt64
  previousBlockBits : UInt32
  transactionExists : HashDigest → Bool

/-- `RETURN_IF_STOPPED`: complete with `service_stopped` when the stop callback says so. -/
def returnIfStopped (v : Validator) : Except Code Unit :=
  if v.stopped then throw .serviceStopped else pure ()

/-- `if (!cond) { complete(ec); return; }`. -/
def require (cond : Bool) (ec : Code) : Except Code Unit := if cond then pure () else throw ec

/-- The calls of the completion handler made by a body that completes once and returns. -/
def completions : Except Code Unit → List Code
  | .ok () => [.success]
  | .error ec => [ec]

@[simp] theorem completions_ok : completions (.ok ()) = [.success] := rfl

@[simp] theorem completions_error (ec : Code) : completions (.error ec) = [ec] := rfl

/-- A body settles its verdict by running through: it never completes early with `success`. -/
def Settles {α : Type} (e : Except Code α) : Prop := ∀ ec, e = .error ec → ec ≠ .success

theorem completions_eq_success {e : Except Code Unit} (h : Settles e) :
    completions e = [.success] ↔ e = .ok () := by
  cases e with
  | ok u => simp [completions]
  | error ec => simpa using h ec rfl

@[simp] theorem returnIfStopped_of_running {v : Validator} (h : v.stopped = false) :
    returnIfStopped v = .ok () := by
  simp [returnIfStopped, h, pure, Except.pure]

@[simp] theorem require_eq_ok (cond : Bool) (ec : Code) (u : Unit) :
    require cond ec = .ok u ↔ cond = true := by
  cases cond <;> simp [require, pure, Except.pure, throw, throwThe, MonadExceptOf.throw]

theorem settles_require (cond : Bool) {ec : Code} (h : ec ≠ .success) : Settles (require cond ec) := by
  cases cond <;> simp [Settles, require, pure, Except.pure, throw, throwThe, MonadExceptOf.throw, h]

/-- `if (ec) { complete(ec); return; }`: forwarding a code that is not `success`. -/
theorem settles_require_success (ec : Code) : Settles (require (ec == .success) ec) := by
  by_cases h : ec = .success
  · simp [Settles, require, h, pure, Except.pure]
  · exact settles_require _ h

theorem settles_returnIfStopped (v : Validator) : Settles (returnIfStopped v) := by
  unfold returnIfStopped Settles
  split <;> simp [pure, Except.pure, throw, throwThe, MonadExceptOf.throw]

theorem settles_pure {α : Type} (a : α) : Settles (pure a : Except Code α) := by
  simp [Settles, pure, Except.pure]

theorem settles_bind {α β : Type} {x : Except Code α} {f : α → Except Code β} (hx : Settles x)
    (hf : ∀ a, Settles (f a)) : Settles (x >>= f) := by
  cases x with
  | error e => intro ec h; simp only [bind, Except.bind, Except.error.injEq] at h; exact h ▸ hx e rfl
  | ok a => simpa [bind, Except.bind] using hf a

theorem settles_forM {α : Type} (l : List α) {f : α → Except Code Unit} (hf : ∀ a, Settles (f a)) :
    Settles (l.forM f) := by
  induction l with
  | nil => exact settles_pure _
  | cons a l ih => exact settles_bind (hf a) fun _ => ih

@[simp] theorem ok_bind {ε α β : Type} (a : α) (f : α → Except ε β) : (Except.ok a >>= f) = f a := rfl

theorem bind_eq_ok {ε α β : Type} {x : Except ε α} {f : α → Except ε β} {b : β} :
    x >>= f = .ok b ↔ ∃ a, x = .ok a ∧ f a = .ok b := by
  cases x <;> simp [bind, Except.bind]

theorem forM_eq_ok {ε α : Type} (l : List α) (f : α → Except ε Unit) (u : Unit) :
    l.forM f = .ok u ↔ ∀ x ∈ l, f x = .ok () := by
  induction l with
  | nil => simp [pure, Except.pure]
  | cons a l ih =>
    simp only [List.forM, bind_eq_ok, ih, List.mem_cons, forall_eq_or_imp]
    constructor
    · rintro ⟨⟨⟩, h, hl⟩; exact ⟨h, hl⟩
    · rintro ⟨h, hl⟩; exact ⟨(), h, hl⟩

/-! ## Sample libraries and chains -/

/-- A library whose checks all pass and whose transaction hash is the version. -/
def versionHashLibrary : Library where
  headerHash _ := 0
  txHash tx := tx.version.toNat
  serializedSize _ := 0
  checkTransaction _ := .success
  generateMerkleRoot _ := 0
  isFinal _ _ _ := true
  validateConsensus _ _ _ _ _ := true
  isScriptHash _ := false
  parseScript _ := none

/-- A transaction of the given version spending output 0 of the given hash. -/
def spendingTx (version : UInt32) (prev : HashDigest) : Transaction :=
  ⟨version, 0, [⟨⟨prev, 0⟩, ⟨[]⟩, 0⟩], []⟩

/-- A running validator at a height, over a block of the given version and transactions at the
proof-of-work limit, on a chain where nothing is found. -/
def sampleValidator (height : Nat) (version : UInt32) (txs : List Transaction) : Validator where
  height := height
  block := ⟨⟨version, 0, 0, 1, maxWorkBits, 0⟩, txs⟩
  checkpoints := []
  stopped := false
  currentTime := 0
  actualTimespan _ := 0
  fetchBlock _ := ⟨1, 0, 0, 0, maxWorkBits, 0⟩
  fetchTransaction _ := none
  isOutputSpent _ := true
  isOutputSpentBy _ _ _ := false
  medianTimePast := 0
  previousBlockBits := maxWorkBits
  transactionExists _ := false

end Blockchain
