import Blockchain.Validate.Validator

/-!
# Populating a chain state

`populate_chain_state` gathers the header values a chain state needs. `chain_state::get_map`
(outside this repository) names the heights: a range of `count` heights ending at `high` for each
of bits, versions and timestamps, one "self" height for each, an optional retarget timestamp and
an optional block hash at the height where transaction hash collisions become allowed. Each value
is read from the header branch when the branch covers the height, and from the fast chain
otherwise (`getFrom`).

The range loops count up from `high - count` by pre-increment on `size_t`. For a range with
`count ≤ high + 1` the start may wrap to `2^64 - 1` and the first increment wraps back to 0, so the
loop reads exactly the heights `high - count + 1 .. high` in order (`fillOrdered_range`).
`populateAll_reads_map`: `populate_all` succeeds exactly when every requested height resolves in
the branch or the fast chain, and then the data holds at each of those heights the branch's value
where the branch covers it and the fast chain's otherwise (`PopulatedFrom`), with `max_uint32` as
the retarget timestamp and the null hash as the collision hash when they are not requested. Both
`populate` overloads that reach `populate_all` inherit this (`populateTop_eq_some`,
`populateBranch_eq_some`).
-/

namespace Blockchain

/-! ## The map and the data -/

/-- `chain_state::range`: the `count` heights ending at `high`. -/
structure HeightRange where
  count : UInt64
  high : UInt64
  deriving DecidableEq, Repr

/-- `chain_state::map`, the heights `chain_state::get_map` requests. -/
structure ChainStateMap where
  bits : HeightRange
  bitsSelf : UInt64
  version : HeightRange
  versionSelf : UInt64
  timestamp : HeightRange
  timestampSelf : UInt64
  timestampRetarget : UInt64
  allowCollisionsHeight : UInt64
  deriving DecidableEq, Repr

/-- `chain_state::map::unrequested`, the `max_size_t` sentinel of a height the map does not
request (`chain_state` is not among the sources). -/
def unrequested : UInt64 := 0xffffffffffffffff

/-- `unspecified_timestamp`. -/
def unspecifiedTimestamp : UInt32 := 0xffffffff

/-- The bits or the versions of a chain state: those of a range of heights, and its own. -/
structure StateValues where
  ordered : List UInt32
  self : UInt32
  deriving DecidableEq, Repr

/-- The timestamps of a chain state: a range, its own, and the retarget timestamp. -/
structure StateTimestamps where
  ordered : List UInt32
  self : UInt32
  retarget : UInt32
  deriving DecidableEq, Repr

/-- `chain_state::data`. -/
structure ChainStateData where
  height : UInt64
  hash : HashDigest
  allowCollisionsHash : HashDigest
  bits : StateValues
  version : StateValues
  timestamp : StateTimestamps
  deriving DecidableEq, Repr

/-- A default-constructed `chain_state::data` with its height and hash set. -/
def ChainStateData.init (height : UInt64) (hash : HashDigest) : ChainStateData :=
  ⟨height, hash, nullHash, ⟨[], 0⟩, ⟨[], 0⟩, ⟨[], 0, 0⟩⟩

/-- A `header_branch` (not among the sources): its indexed queries, each a value exactly when the
branch covers the height, and what `populate` reads of its top. -/
structure HeaderBranch where
  getBits : Nat → Option UInt32
  getVersion : Nat → Option UInt32
  getTimestamp : Nat → Option UInt32
  getBlockHash : Nat → Option HashDigest
  empty : Bool
  top : Header
  topHeight : UInt64
  /-- The chain state cached on the top's parent, when there is a parent and it has one. -/
  topParentState : Option ChainStateData

/-- The branch `populate` builds for the startup scenario: it covers nothing. -/
def HeaderBranch.startup : HeaderBranch :=
  ⟨fun _ => none, fun _ => none, fun _ => none, fun _ => none, true, Header.mk 0 0 0 0 0 0, 0, none⟩

/-- The `fast_chain` reads of `populate_chain_state`; the flag selects the block index. -/
structure FastChain where
  getBlockHeight : Bool → Option UInt64
  getBlockHash : Nat → Bool → Option HashDigest
  getBits : Nat → Bool → Option UInt32
  getVersion : Nat → Bool → Option UInt32
  getTimestamp : Nat → Bool → Option UInt32

/-- A `populate_chain_state`: its fast chain, and what it takes from `chain_state` (outside this
repository) for its checkpoints and forks. -/
structure ChainStatePopulator where
  fastChain : FastChain
  /-- `chain_state::get_map(height, checkpoints_, forks_)`. -/
  getMap : UInt64 → ChainStateMap
  /-- The `chain_state` promoted from a parent's state by one header. -/
  promote : ChainStateData → Header → ChainStateData

/-! ## `populate_chain_state` -/

/-- `get_bits`, `get_version`, `get_timestamp` and `get_block_hash`: the branch's value when it
covers the height, and the fast chain's otherwise. -/
def getFrom {α : Type} (fromBranch : Nat → Option α) (fromChain : Nat → Bool → Option α)
    (height : Nat) (block : Bool) : Option α :=
  (fromBranch height).or (fromChain height block)

/-- `populate_chain_state::get_bits`. -/
def getBits (p : ChainStatePopulator) (height : Nat) (branch : HeaderBranch) (block : Bool) :
    Option UInt32 :=
  getFrom branch.getBits p.fastChain.getBits height block

/-- `populate_chain_state::get_version`. -/
def getVersion (p : ChainStatePopulator) (height : Nat) (branch : HeaderBranch) (block : Bool) :
    Option UInt32 :=
  getFrom branch.getVersion p.fastChain.getVersion height block

/-- `populate_chain_state::get_timestamp`. -/
def getTimestamp (p : ChainStatePopulator) (height : Nat) (branch : HeaderBranch) (block : Bool) :
    Option UInt32 :=
  getFrom branch.getTimestamp p.fastChain.getTimestamp height block

/-- `populate_chain_state::get_block_hash`. -/
def getBlockHash (p : ChainStatePopulator) (height : Nat) (branch : HeaderBranch) (block : Bool) :
    Option HashDigest :=
  getFrom branch.getBlockHash p.fastChain.getBlockHash height block

/-- The loop over a resized range: `count` reads at `++height` on `size_t`. -/
def fillOrdered (get : Nat → Option UInt32) : Nat → UInt64 → Option (List UInt32)
  | 0, _ => some []
  | count + 1, height => do
    let value ← get (height + 1).toNat
    let rest ← fillOrdered get count (height + 1)
    pure (value :: rest)

/-- `populate_bits` and `populate_versions`: the range from `high - count`, then the self value. -/
def populateValues (get : Nat → Option UInt32) (range : HeightRange) (selfHeight : UInt64) :
    Option StateValues := do
  let ordered ← fillOrdered get range.count.toNat (range.high - range.count)
  let self ← get selfHeight.toNat
  pure ⟨ordered, self⟩

/-- `populate_chain_state::populate_bits`. -/
def populateBits (p : ChainStatePopulator) (map : ChainStateMap) (branch : HeaderBranch)
    (block : Bool) (data : ChainStateData) : Option ChainStateData := do
  let bits ← populateValues (getBits p · branch block) map.bits map.bitsSelf
  pure { data with bits }

/-- `populate_chain_state::populate_versions`. -/
def populateVersions (p : ChainStatePopulator) (map : ChainStateMap) (branch : HeaderBranch)
    (block : Bool) (data : ChainStateData) : Option ChainStateData := do
  let version ← populateValues (getVersion p · branch block) map.version map.versionSelf
  pure { data with version }

/-- `populate_chain_state::populate_timestamps`: the range, the retarget timestamp when the map
requests it (`unspecified_timestamp` otherwise), then the self value. -/
def populateTimestamps (p : ChainStatePopulator) (map : ChainStateMap) (branch : HeaderBranch)
    (block : Bool) (data : ChainStateData) : Option ChainStateData := do
  let ordered ← fillOrdered (getTimestamp p · branch block) map.timestamp.count.toNat
    (map.timestamp.high - map.timestamp.count)
  let retarget ← if map.timestampRetarget ≠ unrequested then
      getTimestamp p map.timestampRetarget.toNat branch block
    else pure unspecifiedTimestamp
  let self ← getTimestamp p map.timestampSelf.toNat branch block
  pure { data with timestamp := ⟨ordered, self, retarget⟩ }

/-- `populate_chain_state::populate_checkpoint`. -/
def populateCheckpoint (p : ChainStatePopulator) (map : ChainStateMap) (branch : HeaderBranch)
    (block : Bool) (data : ChainStateData) : Option ChainStateData :=
  if map.allowCollisionsHeight = unrequested then some { data with allowCollisionsHash := nullHash }
  else (getBlockHash p map.allowCollisionsHeight.toNat branch block).map fun hash =>
    { data with allowCollisionsHash := hash }

/-- `populate_chain_state::populate_all`: the data when it returns true. -/
def populateAll (p : ChainStatePopulator) (data : ChainStateData) (branch : HeaderBranch)
    (block : Bool) : Option ChainStateData := do
  let map := p.getMap data.height
  let data ← populateBits p map branch block data
  let data ← populateVersions p map branch block data
  let data ← populateTimestamps p map branch block data
  populateCheckpoint p map branch block data

/-- `populate_chain_state::populate(block_index)`: the state of the top block or header. -/
def populateTop (p : ChainStatePopulator) (blockIndex : Bool) : Option ChainStateData := do
  let height ← p.fastChain.getBlockHeight blockIndex
  let hash ← p.fastChain.getBlockHash height.toNat blockIndex
  populateAll p (ChainStateData.init height hash) HeaderBranch.startup blockIndex

/-- `populate_chain_state::populate(branch)`: the state of a branch's top, promoted from its
parent's state when the parent has one. -/
def populateBranch (lib : Library) (p : ChainStatePopulator) (branch : HeaderBranch) :
    Option ChainStateData :=
  if branch.empty then none
  else match branch.topParentState with
    | some state => some (p.promote state branch.top)
    | none =>
      populateAll p (ChainStateData.init branch.topHeight (lib.headerHash branch.top)) branch false

/-! ## What the loops read -/

/-- The `i`-th height of a range, `high - count + 1 + i`, as `chain_state::data` orders them
(the sum is taken in this order so that it is not cut at 0 on the naturals). -/
def HeightRange.height (range : HeightRange) (i : Nat) : Nat :=
  range.high.toNat + 1 - range.count.toNat + i

/-- A range of at most `high + 1` heights: it starts at height 0 or above. -/
def HeightRange.Valid (range : HeightRange) : Prop := range.count.toNat ≤ range.high.toNat + 1

instance (range : HeightRange) : Decidable range.Valid :=
  inferInstanceAs (Decidable (_ ≤ _))

/-- The ranges of a map are valid. -/
def ChainStateMap.Valid (map : ChainStateMap) : Prop :=
  map.bits.Valid ∧ map.version.Valid ∧ map.timestamp.Valid

instance (map : ChainStateMap) : Decidable map.Valid :=
  inferInstanceAs (Decidable (_ ∧ _ ∧ _))

/-- The values hold what `get` reads at the range's heights, in order. -/
def ReadsRange (get : Nat → Option UInt32) (range : HeightRange) (values : List UInt32) : Prop :=
  values.length = range.count.toNat ∧ ∀ i < range.count.toNat, get (range.height i) = values[i]?

/-- `get` reads a value at each of the range's heights. -/
def RangeResolves (get : Nat → Option UInt32) (range : HeightRange) : Prop :=
  ∀ i < range.count.toNat, (get (range.height i)).isSome

/-- A read at a height the map may leave unrequested, with the value kept then. -/
def optionalRead {α : Type} (get : Nat → Option α) (height : UInt64) (unrequestedValue : α) :
    Option α :=
  if height = unrequested then some unrequestedValue else get height.toNat

/-- The `i`-th increment after `height + 1` on `size_t`. -/
theorem UInt64.toNat_succ_add (height : UInt64) (i : Nat) :
    ((height + 1).toNat + 1 + i) % 2 ^ 64 = (height.toNat + 1 + (i + 1)) % 2 ^ 64 := by
  rw [UInt64.toNat_add, show (1 : UInt64).toNat = 1 from rfl, UInt64.size]
  omega

theorem UInt64.toNat_succ (height : UInt64) : (height + 1).toNat = (height.toNat + 1 + 0) % 2 ^ 64 := by
  rw [UInt64.toNat_add, show (1 : UInt64).toNat = 1 from rfl, UInt64.size]
  rfl

theorem fillOrdered_eq_some (get : Nat → Option UInt32) :
    ∀ (count : Nat) (height : UInt64) (values : List UInt32),
      fillOrdered get count height = some values ↔
        values.length = count ∧ ∀ i < count, get ((height.toNat + 1 + i) % 2 ^ 64) = values[i]?
  | 0, _, values => by simp [fillOrdered, eq_comm, List.length_eq_zero]
  | count + 1, height, values => by
    cases values with
    | nil => simp [fillOrdered, Option.bind_eq_bind, Option.bind_eq_some]
    | cons v rest =>
      simp only [fillOrdered, Option.bind_eq_bind, Option.bind_eq_some, Option.pure_def,
        Option.some.injEq, List.cons.injEq, fillOrdered_eq_some get count (height + 1),
        UInt64.toNat_succ_add, List.length_cons, Nat.add_right_cancel_iff]
      rw [UInt64.toNat_succ]
      constructor
      · rintro ⟨v', hv, rest', ⟨hlen, hrest⟩, rfl, rfl⟩
        refine ⟨hlen, fun i hi => ?_⟩
        cases i with
        | zero => simpa using hv
        | succ i => simpa using hrest i (by omega)
      · rintro ⟨hlen, hall⟩
        exact ⟨v, by simpa using hall 0 (by omega), rest,
          ⟨hlen, fun i hi => by simpa using hall (i + 1) (by omega)⟩, rfl, rfl⟩

theorem isSome_fillOrdered (get : Nat → Option UInt32) :
    ∀ (count : Nat) (height : UInt64), (fillOrdered get count height).isSome ↔
      ∀ i < count, (get ((height.toNat + 1 + i) % 2 ^ 64)).isSome
  | 0, _ => by simp [fillOrdered]
  | count + 1, height => by
    have hsplit : (fillOrdered get (count + 1) height).isSome =
        ((get (height + 1).toNat).isSome && (fillOrdered get count (height + 1)).isSome) := by
      simp only [fillOrdered, Option.bind_eq_bind]
      cases get (height + 1).toNat <;> cases fillOrdered get count (height + 1) <;> rfl
    rw [hsplit, Bool.and_eq_true, isSome_fillOrdered get count (height + 1)]
    simp only [UInt64.toNat_succ_add]
    rw [UInt64.toNat_succ]
    constructor
    · rintro ⟨h₀, hrest⟩ i hi
      cases i with
      | zero => exact h₀
      | succ i => exact hrest i (by omega)
    · intro hall
      exact ⟨hall 0 (by omega), fun i hi => hall (i + 1) (by omega)⟩

/-- From `high - count`, wrapped or not, the `i`-th increment is the range's `i`-th height. -/
theorem HeightRange.start_add {range : HeightRange} (hr : range.Valid) {i : Nat}
    (hi : i < range.count.toNat) :
    ((range.high - range.count).toNat + 1 + i) % 2 ^ 64 = range.height i := by
  have := range.high.toNat_lt
  have := range.count.toNat_lt
  rw [UInt64.toNat_sub, UInt64.size, HeightRange.height]
  unfold HeightRange.Valid at hr
  omega

/-- **The range loop reads the range.** For a valid range, the loop from `high - count` succeeds
exactly with the values read at `high - count + 1 .. high`. -/
theorem fillOrdered_range (get : Nat → Option UInt32) {range : HeightRange} (hr : range.Valid)
    (values : List UInt32) :
    fillOrdered get range.count.toNat (range.high - range.count) = some values ↔
      ReadsRange get range values := by
  rw [fillOrdered_eq_some]
  refine and_congr_right fun _ => forall₂_congr fun i hi => ?_
  rw [range.start_add hr hi]

theorem isSome_fillOrdered_range (get : Nat → Option UInt32) {range : HeightRange}
    (hr : range.Valid) :
    (fillOrdered get range.count.toNat (range.high - range.count)).isSome ↔
      RangeResolves get range := by
  rw [isSome_fillOrdered]
  exact forall₂_congr fun i hi => by rw [range.start_add hr hi]

theorem ReadsRange.resolves {get : Nat → Option UInt32} {range : HeightRange}
    {values : List UInt32} (h : ReadsRange get range values) : RangeResolves get range :=
  fun i hi => by simp [h.2 i hi, h.1 ▸ hi]

theorem RangeResolves.exists_reads {get : Nat → Option UInt32} {range : HeightRange}
    (hr : range.Valid) (h : RangeResolves get range) : ∃ values, ReadsRange get range values := by
  obtain ⟨values, hv⟩ := Option.isSome_iff_exists.1 ((isSome_fillOrdered_range get hr).2 h)
  exact ⟨values, (fillOrdered_range get hr values).1 hv⟩

theorem populateValues_eq_some (get : Nat → Option UInt32) {range : HeightRange}
    (hr : range.Valid) (selfHeight : UInt64) (values : StateValues) :
    populateValues get range selfHeight = some values ↔
      ReadsRange get range values.ordered ∧ get selfHeight.toNat = some values.self := by
  simp only [populateValues, Option.bind_eq_bind, Option.bind_eq_some, Option.pure_def,
    Option.some.injEq, fillOrdered_range get hr]
  constructor
  · rintro ⟨ordered, ho, self, hs, rfl⟩
    exact ⟨ho, hs⟩
  · rintro ⟨ho, hs⟩
    exact ⟨_, ho, _, hs, rfl⟩

/-! ## `populate_all` -/

/-- `populate_timestamps` with its retarget read as an `optionalRead`. -/
theorem populateTimestamps_eq (p : ChainStatePopulator) (map : ChainStateMap)
    (branch : HeaderBranch) (block : Bool) (data : ChainStateData) :
    populateTimestamps p map branch block data =
      (fillOrdered (getTimestamp p · branch block) map.timestamp.count.toNat
        (map.timestamp.high - map.timestamp.count)).bind fun ordered =>
      (optionalRead (getTimestamp p · branch block) map.timestampRetarget
        unspecifiedTimestamp).bind fun retarget =>
      (getTimestamp p map.timestampSelf.toNat branch block).bind fun self =>
        some { data with timestamp := ⟨ordered, self, retarget⟩ } := by
  unfold populateTimestamps optionalRead
  by_cases h : map.timestampRetarget = unrequested <;> simp only [h, ne_eq, not_true_eq_false,
    not_false_eq_true, if_true, if_false] <;> rfl

/-- `populate_checkpoint` as an `optionalRead`. -/
theorem populateCheckpoint_eq (p : ChainStatePopulator) (map : ChainStateMap)
    (branch : HeaderBranch) (block : Bool) (data : ChainStateData) :
    populateCheckpoint p map branch block data =
      (optionalRead (getBlockHash p · branch block) map.allowCollisionsHeight nullHash).map
        fun hash => { data with allowCollisionsHash := hash } := by
  unfold populateCheckpoint optionalRead
  split <;> rfl

/-- `populate_all` as one chain of reads: the stages only add fields, so the data is assembled
from the reads at the end. -/
theorem populateAll_eq (p : ChainStatePopulator) (data : ChainStateData) (branch : HeaderBranch)
    (block : Bool) :
    populateAll p data branch block =
      let map := p.getMap data.height
      (populateValues (getBits p · branch block) map.bits map.bitsSelf).bind fun bits =>
      (populateValues (getVersion p · branch block) map.version map.versionSelf).bind fun version =>
      (fillOrdered (getTimestamp p · branch block) map.timestamp.count.toNat
        (map.timestamp.high - map.timestamp.count)).bind fun ordered =>
      (optionalRead (getTimestamp p · branch block) map.timestampRetarget
        unspecifiedTimestamp).bind fun retarget =>
      (getTimestamp p map.timestampSelf.toNat branch block).bind fun self =>
      (optionalRead (getBlockHash p · branch block) map.allowCollisionsHeight nullHash).map
        fun hash => { data with
          bits := bits
          version := version
          timestamp := ⟨ordered, self, retarget⟩
          allowCollisionsHash := hash } := by
  simp only [populateAll, populateBits, populateVersions, populateTimestamps_eq,
    populateCheckpoint_eq, Option.bind_eq_bind, Option.pure_def, Option.bind_assoc, Option.some_bind]

/-- What `populate_all` should leave in the data: its height and hash, and at every height the map
requests the branch's value when the branch covers the height and the fast chain's otherwise, in
the map's order. -/
def PopulatedFrom (p : ChainStatePopulator) (branch : HeaderBranch) (block : Bool)
    (data data' : ChainStateData) : Prop :=
  let map := p.getMap data.height
  let chain := p.fastChain
  data'.height = data.height ∧ data'.hash = data.hash ∧
    ReadsRange (fun h => (branch.getBits h).or (chain.getBits h block)) map.bits
      data'.bits.ordered ∧
    (branch.getBits map.bitsSelf.toNat).or (chain.getBits map.bitsSelf.toNat block) =
      some data'.bits.self ∧
    ReadsRange (fun h => (branch.getVersion h).or (chain.getVersion h block)) map.version
      data'.version.ordered ∧
    (branch.getVersion map.versionSelf.toNat).or (chain.getVersion map.versionSelf.toNat block) =
      some data'.version.self ∧
    ReadsRange (fun h => (branch.getTimestamp h).or (chain.getTimestamp h block)) map.timestamp
      data'.timestamp.ordered ∧
    (branch.getTimestamp map.timestampSelf.toNat).or
        (chain.getTimestamp map.timestampSelf.toNat block) = some data'.timestamp.self ∧
    optionalRead (fun h => (branch.getTimestamp h).or (chain.getTimestamp h block))
        map.timestampRetarget unspecifiedTimestamp = some data'.timestamp.retarget ∧
    optionalRead (fun h => (branch.getBlockHash h).or (chain.getBlockHash h block))
        map.allowCollisionsHeight nullHash = some data'.allowCollisionsHash

/-- Every height the map requests resolves in the branch or the fast chain. -/
def Resolves (p : ChainStatePopulator) (branch : HeaderBranch) (block : Bool)
    (map : ChainStateMap) : Prop :=
  let chain := p.fastChain
  RangeResolves (fun h => (branch.getBits h).or (chain.getBits h block)) map.bits ∧
    ((branch.getBits map.bitsSelf.toNat).or (chain.getBits map.bitsSelf.toNat block)).isSome ∧
    RangeResolves (fun h => (branch.getVersion h).or (chain.getVersion h block)) map.version ∧
    ((branch.getVersion map.versionSelf.toNat).or
      (chain.getVersion map.versionSelf.toNat block)).isSome ∧
    RangeResolves (fun h => (branch.getTimestamp h).or (chain.getTimestamp h block))
      map.timestamp ∧
    ((branch.getTimestamp map.timestampSelf.toNat).or
      (chain.getTimestamp map.timestampSelf.toNat block)).isSome ∧
    (optionalRead (fun h => (branch.getTimestamp h).or (chain.getTimestamp h block))
      map.timestampRetarget unspecifiedTimestamp).isSome ∧
    (optionalRead (fun h => (branch.getBlockHash h).or (chain.getBlockHash h block))
      map.allowCollisionsHeight nullHash).isSome

theorem populateAll_eq_some (p : ChainStatePopulator) (data : ChainStateData)
    (branch : HeaderBranch) (block : Bool) (hmap : (p.getMap data.height).Valid)
    (data' : ChainStateData) :
    populateAll p data branch block = some data' ↔ PopulatedFrom p branch block data data' := by
  obtain ⟨hb, hv, ht⟩ := hmap
  rw [populateAll_eq]
  simp only [Option.bind_eq_some, Option.map_eq_some', populateValues_eq_some _ hb,
    populateValues_eq_some _ hv, fillOrdered_range _ ht]
  constructor
  · rintro ⟨bits, ⟨hbo, hbs⟩, version, ⟨hvo, hvs⟩, ordered, hto, retarget, hr, self, hs, hash,
      hh, rfl⟩
    exact ⟨rfl, rfl, hbo, hbs, hvo, hvs, hto, hs, hr, hh⟩
  · rintro ⟨hheight, hhash, hbo, hbs, hvo, hvs, hto, hs, hr, hh⟩
    refine ⟨_, ⟨hbo, hbs⟩, _, ⟨hvo, hvs⟩, _, hto, _, hr, _, hs, _, hh, ?_⟩
    rw [← hheight, ← hhash]

theorem isSome_populateAll (p : ChainStatePopulator) (data : ChainStateData)
    (branch : HeaderBranch) (block : Bool) (hmap : (p.getMap data.height).Valid) :
    (populateAll p data branch block).isSome ↔ Resolves p branch block (p.getMap data.height) := by
  simp only [Option.isSome_iff_exists, populateAll_eq_some p data branch block hmap]
  constructor
  · rintro ⟨data', -, -, hbo, hbs, hvo, hvs, hto, hs, hr, hh⟩
    exact ⟨hbo.resolves, by simp [hbs], hvo.resolves, by simp [hvs], hto.resolves, by simp [hs],
      by simp [hr], by simp [hh]⟩
  · rintro ⟨hbo, hbs, hvo, hvs, hto, hs, hr, hh⟩
    obtain ⟨hb, hv, ht⟩ := hmap
    obtain ⟨bits, hbits⟩ := hbo.exists_reads hb
    obtain ⟨versions, hversions⟩ := hvo.exists_reads hv
    obtain ⟨times, htimes⟩ := hto.exists_reads ht
    obtain ⟨bitsSelf, hbs⟩ := Option.isSome_iff_exists.1 hbs
    obtain ⟨versionSelf, hvs⟩ := Option.isSome_iff_exists.1 hvs
    obtain ⟨timeSelf, hs⟩ := Option.isSome_iff_exists.1 hs
    obtain ⟨retarget, hr⟩ := Option.isSome_iff_exists.1 hr
    obtain ⟨hash, hh⟩ := Option.isSome_iff_exists.1 hh
    exact ⟨⟨data.height, data.hash, hash, ⟨bits, bitsSelf⟩, ⟨versions, versionSelf⟩,
      ⟨times, timeSelf, retarget⟩⟩, rfl, rfl, hbits, hbs, hversions, hvs, htimes, hs, hr, hh⟩

/-! ## The `populate` overloads -/

/-- `populate(block_index)`, once the fast chain gives the top's height and hash, is `populate_all`
over the empty branch. -/
theorem populateTop_eq_some (p : ChainStatePopulator) {blockIndex : Bool} {height : UInt64}
    {hash : HashDigest} (hheight : p.fastChain.getBlockHeight blockIndex = some height)
    (hhash : p.fastChain.getBlockHash height.toNat blockIndex = some hash)
    (hmap : (p.getMap height).Valid) (data' : ChainStateData) :
    populateTop p blockIndex = some data' ↔
      PopulatedFrom p HeaderBranch.startup blockIndex (ChainStateData.init height hash) data' := by
  simp only [populateTop, hheight, hhash, Option.bind_eq_bind, Option.some_bind]
  exact populateAll_eq_some _ _ _ _ hmap data'

/-- `populate(branch)` on a non-empty branch whose top's parent has no cached state is
`populate_all` over the branch at its top, with the index of headers. -/
theorem populateBranch_eq_some (lib : Library) (p : ChainStatePopulator) (branch : HeaderBranch)
    (hne : branch.empty = false) (hparent : branch.topParentState = none)
    (hmap : (p.getMap branch.topHeight).Valid) (data' : ChainStateData) :
    populateBranch lib p branch = some data' ↔
      PopulatedFrom p branch false (ChainStateData.init branch.topHeight (lib.headerHash branch.top))
        data' := by
  rw [populateBranch, hne, hparent]
  exact populateAll_eq_some _ _ _ _ hmap data'

/-- **`populate_all` reads the map, the branch first.** For a map whose ranges hold at most
`high + 1` heights, `populate_all` returns true exactly when every requested height resolves in the
branch or the fast chain, and then the data holds, at each requested height, the branch's value
when the branch covers the height and the fast chain's otherwise: the `i`-th value of each range
at `high - count + 1 + i`, the self values at their heights, the retarget timestamp (or
`max_uint32` when unrequested) and the collision hash (or the null hash when unrequested). Both
`populate` overloads that reach `populate_all` inherit this: `populate(block_index)` at the top's
height and hash over the empty branch, and `populate(branch)` at the branch's top when its
parent has no cached state. -/
theorem populateAll_reads_map (lib : Library) (p : ChainStatePopulator) :
    (∀ data branch block, (p.getMap data.height).Valid →
      (∀ data', populateAll p data branch block = some data' ↔
        PopulatedFrom p branch block data data') ∧
      ((populateAll p data branch block).isSome ↔ Resolves p branch block (p.getMap data.height))) ∧
    (∀ blockIndex height hash, p.fastChain.getBlockHeight blockIndex = some height →
      p.fastChain.getBlockHash height.toNat blockIndex = some hash → (p.getMap height).Valid →
      ∀ data', populateTop p blockIndex = some data' ↔
        PopulatedFrom p HeaderBranch.startup blockIndex (ChainStateData.init height hash) data') ∧
    (∀ branch, branch.empty = false → branch.topParentState = none →
      (p.getMap branch.topHeight).Valid →
      ∀ data', populateBranch lib p branch = some data' ↔
        PopulatedFrom p branch false
          (ChainStateData.init branch.topHeight (lib.headerHash branch.top)) data') :=
  ⟨fun data branch block hmap =>
      ⟨populateAll_eq_some p data branch block hmap, isSome_populateAll p data branch block hmap⟩,
    fun _ _ _ hheight hhash hmap => populateTop_eq_some p hheight hhash hmap,
    fun branch hne hparent hmap => populateBranch_eq_some lib p branch hne hparent hmap⟩

/-- A fast chain of two blocks whose map asks for two bits from height 1 (a range starting at 0,
so the loop's start wraps), one version, two timestamps and nothing optional. -/
def samplePopulator : ChainStatePopulator where
  fastChain :=
    { getBlockHeight := fun _ => some 1
      getBlockHash := fun _ _ => some nullHash
      getBits := fun height _ => some height.toUInt32
      getVersion := fun _ _ => some 4
      getTimestamp := fun height _ => some (600 * height).toUInt32 }
  getMap := fun _ => ⟨⟨2, 1⟩, 1, ⟨1, 1⟩, 1, ⟨2, 1⟩, 1, unrequested, unrequested⟩
  promote := fun data _ => data

/-- A branch of one header at height 1 over `samplePopulator`'s chain, with other values there
than the chain's. -/
def shadowBranch : HeaderBranch :=
  ⟨fun h => if h = 1 then some 7 else none, fun h => if h = 1 then some 5 else none,
    fun h => if h = 1 then some 1000 else none, fun _ => none, false, ⟨5, 0, 0, 1000, 7, 0⟩, 1,
    none⟩

/-- The top block's state reads the chain; the branch's reads the branch at height 1, where it
shadows the chain, and the chain at height 0. -/
theorem populateAll_reads_sample_map :
    (samplePopulator.getMap 1).Valid ∧
      populateTop samplePopulator true =
        some ⟨1, nullHash, nullHash, ⟨[0, 1], 1⟩, ⟨[4], 4⟩, ⟨[0, 600], 600, unspecifiedTimestamp⟩⟩ ∧
      PopulatedFrom samplePopulator HeaderBranch.startup true (ChainStateData.init 1 nullHash)
        ⟨1, nullHash, nullHash, ⟨[0, 1], 1⟩, ⟨[4], 4⟩, ⟨[0, 600], 600, unspecifiedTimestamp⟩⟩ ∧
      populateBranch versionHashLibrary samplePopulator shadowBranch =
        some ⟨1, 0, nullHash, ⟨[0, 7], 7⟩, ⟨[5], 5⟩, ⟨[0, 1000], 1000, unspecifiedTimestamp⟩⟩ ∧
      PopulatedFrom samplePopulator shadowBranch false (ChainStateData.init 1 0)
        ⟨1, 0, nullHash, ⟨[0, 7], 7⟩, ⟨[5], 5⟩, ⟨[0, 1000], 1000, unspecifiedTimestamp⟩⟩ := by
  have hvalid : (samplePopulator.getMap 1).Valid := by decide
  have htop : populateTop samplePopulator true =
      some ⟨1, nullHash, nullHash, ⟨[0, 1], 1⟩, ⟨[4], 4⟩, ⟨[0, 600], 600, unspecifiedTimestamp⟩⟩ := by
    decide
  have hbranch : populateBranch versionHashLibrary samplePopulator shadowBranch =
      some ⟨1, 0, nullHash, ⟨[0, 7], 7⟩, ⟨[5], 5⟩, ⟨[0, 1000], 1000, unspecifiedTimestamp⟩⟩ := by
    decide
  have h := populateAll_reads_map versionHashLibrary samplePopulator
  exact ⟨hvalid, htop, (h.2.1 true 1 nullHash rfl rfl hvalid _).1 htop, hbranch,
    (h.2.2 shadowBranch rfl rfl hvalid _).1 hbranch⟩

end Blockchain
