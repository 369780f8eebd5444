import Plainchain.Ledger.Transaction

/-!
# Blocks

`src/ledger/block.ts`: headers, the hashes that identify them, and the genesis
block of a configuration.

A header that came over the wire has the shape `BlockHeader.Wire`: hex of fixed
length and bounded numbers. On such headers the text that is hashed determines
the header (`serializeHeader_inj`), so that a hash without collisions does
(`computeBlockHash_inj`).
-/

namespace Plainchain

open Js List

structure BlockHeader where
  version : ℕ
  previousHash : Text
  merkleRoot : Text
  timestamp : ℕ
  difficultyTarget : Text
  nonce : ℕ
  height : ℕ
  /-- The seal of a proof-of-authority block. -/
  signer : Option Text
  signature : Option Text
  deriving DecidableEq

structure Block where
  header : BlockHeader
  transactions : List Transaction
  hash : Text
  deriving DecidableEq

def ZERO_HASH : Text := List.replicate 64 (unit '0')

/-- The fields of a header that are hashed. The seal is appended only when
    present. -/
def BlockHeader.fields (header : BlockHeader) : List Text :=
  decimal header.version :: header.previousHash :: header.merkleRoot ::
    decimal header.timestamp :: header.difficultyTarget :: decimal header.nonce ::
    decimal header.height :: (header.signer.toList ++ header.signature.toList)

/-- The text a block hash is the hash of. -/
def serializeHeader (header : BlockHeader) : Text := join (unit '|') header.fields

def computeBlockHash (header : BlockHeader) : Text := sha256 (serializeHeader header)

/-- What a proof-of-authority signer signs: the block hash with the signature
    left out. -/
def computeSealHash (header : BlockHeader) : Text :=
  computeBlockHash { header with signature := none }

abbrev GenesisAllocation := TxOutput

structure GenesisConfig where
  timestamp : ℕ
  difficultyTarget : Text
  reward : ℤ
  genesisAddress : Text
  /-- Overrides the single allocation of `reward` to `genesisAddress`. -/
  allocations : Option (List GenesisAllocation)

/-- The outputs of the genesis coinbase. -/
def genesisAllocations (config : GenesisConfig) : Except Text (List GenesisAllocation) := do
  let allocations := config.allocations.getD [⟨config.genesisAddress, config.reward⟩]
  reject (allocations = []) (lit "genesis allocation must have at least one output")
  forM allocations fun a =>
    reject (a.amount ≤ 0) (lit "genesis allocation to " ++ a.address
      ++ lit ": amount must be positive, got " ++ decimalInt a.amount)
  pure allocations

def genesisAllocationTotal (config : GenesisConfig) : Except Text ℤ :=
  (genesisAllocations config).map totalAmount

/-- The coinbase of the genesis block. -/
def genesisCoinbase (config : GenesisConfig) (allocations : List GenesisAllocation) :
    Transaction :=
  UnsignedTransactionBody.identified
    { inputs := [], outputs := allocations, timestamp := .ofNat config.timestamp, fee := 0,
      data := none }

def createGenesisBlock (config : GenesisConfig) : Except Text Block := do
  let allocations ← genesisAllocations config
  let coinbase := genesisCoinbase config allocations
  let root ← merkleRoot [coinbase.id]
  let header : BlockHeader :=
    { version := 1, previousHash := ZERO_HASH, merkleRoot := root, timestamp := config.timestamp,
      difficultyTarget := config.difficultyTarget, nonce := 0, height := 0, signer := none,
      signature := none }
  pure { header, transactions := [coinbase], hash := computeBlockHash header }

/-! ## The identity of a header -/

/-- The shape of a header that came over the wire: every field has the type and
    the length `parseWireHeader` checks, and a seal has both its parts. -/
structure BlockHeader.Wire (header : BlockHeader) : Prop where
  version : header.version < 2 ^ 53
  previousHash : hexOf 64 header.previousHash
  merkleRoot : hexOf 64 header.merkleRoot
  timestamp : header.timestamp < 2 ^ 53
  difficultyTarget : hexOf 64 header.difficultyTarget
  nonce : header.nonce < 2 ^ 53
  height : header.height < 2 ^ 53
  both : header.signer.isSome = header.signature.isSome
  signer : ∀ t ∈ header.signer, hexPairs t
  signature : ∀ t ∈ header.signature, hexPairs t

/-- Every field of the hashed text is hex. -/
def BlockHeader.HexFields (header : BlockHeader) : Prop :=
  ∀ t ∈ header.fields, ∀ u ∈ t, isHexDigit u

namespace BlockHeader.HexFields

variable {header x y : BlockHeader}

theorem wellFormed (h : header.HexFields) : WellFormed (serializeHeader header) := by
  refine .of_scalars fun u hu => ?_
  rcases mem_join hu with rfl | ⟨t, ht, hut⟩
  · decide
  · exact .of_isHexDigit (h t ht u hut)

/-- No field has a bar in it, so the text determines the fields. -/
theorem fields_eq (hx : x.HexFields) (hy : y.HexFields)
    (h : serializeHeader x = serializeHeader y) : x.fields = y.fields := by
  have hbar : ∀ {z : BlockHeader}, z.HexFields → ∀ t ∈ z.fields, unit '|' ∉ t :=
    fun hz t ht hu => absurd (hz t ht _ hu) (by decide)
  exact join_cons_inj (hbar hx) (hbar hy) h

end BlockHeader.HexFields

namespace BlockHeader.Wire

variable {header x y : BlockHeader}

/-- Every field of the hashed text is hex. -/
theorem isHexDigit_of_mem (h : header.Wire) {t : Text} (ht : t ∈ header.fields) {u : UInt16}
    (hu : u ∈ t) : isHexDigit u := by
  have hdec : ∀ n : ℕ, t = decimal n → isHexDigit u := by
    rintro n rfl
    exact isHexDigit_of_isDigit (isDigit_of_mem_decimal hu)
  simp only [BlockHeader.fields, mem_cons, mem_append, Option.mem_toList] at ht
  rcases ht with ht | rfl | rfl | ht | rfl | ht | ht | ht | ht
  · exact hdec _ ht
  · exact isHexDigit_of_mem_hexOf h.previousHash hu
  · exact isHexDigit_of_mem_hexOf h.merkleRoot hu
  · exact hdec _ ht
  · exact isHexDigit_of_mem_hexOf h.difficultyTarget hu
  · exact hdec _ ht
  · exact hdec _ ht
  · exact isHexDigit_of_mem_hexPairs (h.signer t ht) hu
  · exact isHexDigit_of_mem_hexPairs (h.signature t ht) hu

theorem hexFields (h : header.Wire) : header.HexFields := fun _ ht _ hu => h.isHexDigit_of_mem ht hu

/-- What is signed is hex as well: it has the signature left out. -/
theorem hexFields_unsigned (h : header.Wire) :
    ({ header with signature := none } : BlockHeader).HexFields := by
  intro t ht u hu
  refine h.isHexDigit_of_mem ?_ hu
  simp only [BlockHeader.fields, Option.toList_none, append_nil, mem_cons,
    mem_append] at ht ⊢
  tauto

/-- The hashed text of a wire header has no surrogates. -/
theorem wellFormed (h : header.Wire) : WellFormed (serializeHeader header) := h.hexFields.wellFormed

/-- The seal is determined by the list of its parts. -/
theorem seal_inj (hx : x.Wire) (hy : y.Wire)
    (h : x.signer.toList ++ x.signature.toList = y.signer.toList ++ y.signature.toList) :
    x.signer = y.signer ∧ x.signature = y.signature := by
  have hsx := hx.both
  have hsy := hy.both
  cases hxs : x.signer <;> cases hxg : x.signature <;> cases hys : y.signer <;>
    cases hyg : y.signature <;> simp_all

end BlockHeader.Wire

/-- The hashed text of a wire header determines it. -/
theorem serializeHeader_inj {x y : BlockHeader} (hx : x.Wire) (hy : y.Wire)
    (h : serializeHeader x = serializeHeader y) : x = y := by
  have hfields := hx.hexFields.fields_eq hy.hexFields h
  simp only [BlockHeader.fields, List.cons.injEq] at hfields
  obtain ⟨hv, hp, hm, ht, hd, hn, hh, hseal⟩ := hfields
  obtain ⟨hs, hg⟩ := hx.seal_inj hy hseal
  cases x
  cases y
  simp only [BlockHeader.mk.injEq]
  exact ⟨decimal_injective hv, hp, hm, decimal_injective ht, hd, decimal_injective hn,
    decimal_injective hh, hs, hg⟩

/-- A block hash without collisions determines the header. -/
theorem computeBlockHash_inj {S : Set Text} (hS : NoCollision S) {x y : BlockHeader} (hx : x.Wire)
    (hy : y.Wire) (hxS : serializeHeader x ∈ S) (hyS : serializeHeader y ∈ S)
    (h : computeBlockHash x = computeBlockHash y) : x = y :=
  serializeHeader_inj hx hy (hS.eq hxS hyS hx.wellFormed hy.wellFormed h)

/-! ## Genesis -/

/-- The genesis block holds the coinbase of the allocations only. -/
theorem createGenesisBlock_eq_ok {config : GenesisConfig} {genesis : Block}
    (h : createGenesisBlock config = .ok genesis) :
    ∃ allocations, genesisAllocations config = .ok allocations ∧
      genesis.transactions = [genesisCoinbase config allocations] ∧ genesis.header.height = 0 ∧
      genesis.header.previousHash = ZERO_HASH ∧
      genesis.hash = computeBlockHash genesis.header := by
  rw [createGenesisBlock, bind_eq_ok] at h
  obtain ⟨allocations, hall, h⟩ := h
  cases h
  exact ⟨allocations, hall, rfl, rfl, rfl, rfl⟩

end Plainchain
