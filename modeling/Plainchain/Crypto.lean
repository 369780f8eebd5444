import Plainchain.Lib.Sha256

/-!
# Hashes, signatures and Merkle trees

What the rest of the chain takes from `src/crypto`. The hash is the real one;
the signature scheme is a parameter: nothing the chain does depends on more
than that `verify` answers and `sign` may fail.

* `sha256`: the digest of a text, in hex;
* `SignatureScheme`: ed25519 over hex-encoded keys;
* `merkleRoot`: the root of a list of hashes, level by level.
-/

namespace Plainchain

open Js

/-- `createHash("sha256").update(data).digest("hex")` on a string: its UTF-8
    bytes are hashed. -/
@[irreducible]
def sha256 (data : Text) : Text := Sha256.hexDigest (utf8 data)

theorem sha256_eq (data : Text) : sha256 data = Sha256.hexDigest (utf8 data) := by
  rw [sha256]

/-- A digest is 64 hex digits. -/
theorem hexOf_sha256 (data : Text) : hexOf 64 (sha256 data) := by
  rw [sha256_eq]
  exact Sha256.hexOf_hexDigest _

/-- The hash has no collision among the texts of `S`, as the bytes it sees. -/
def NoCollision (S : Set Text) : Prop :=
  ∀ a ∈ S, ∀ b ∈ S, sha256 a = sha256 b → utf8 a = utf8 b

theorem NoCollision.mono {S T : Set Text} (h : NoCollision T) (hST : S ⊆ T) : NoCollision S :=
  fun a ha b hb => h a (hST ha) b (hST hb)

theorem NoCollision.of_injOn {S : Set Text} (h : S.InjOn sha256) : NoCollision S :=
  fun _ ha _ hb hab => congrArg utf8 (h ha hb hab)

/-- Among texts without unpaired surrogates, equal digests are those of equal
    texts. -/
theorem NoCollision.eq {S : Set Text} (h : NoCollision S) {a b : Text} (ha : a ∈ S) (hb : b ∈ S)
    (wa : WellFormed a) (wb : WellFormed b) (hab : sha256 a = sha256 b) : a = b :=
  wa.eq_of_utf8_eq wb (h a ha b hb hab)

/-- Signing and verifying, with keys and signatures in hex. `verify` catches
    what the library throws and answers `false`; `sign` passes it on. -/
structure SignatureScheme where
  sign : (privateKeyHex message : Text) → Option Text
  verify : (publicKeyHex message signatureHex : Text) → Bool

/-- A scheme under which nothing verifies, for chains without spends. -/
def noSignatures : SignatureScheme := ⟨fun _ _ => none, fun _ _ _ => false⟩

/-- A scheme under which everything verifies. -/
def anySignatures : SignatureScheme := ⟨fun _ _ => some [], fun _ _ _ => true⟩

structure KeyPair where
  publicKey : Text
  privateKey : Text
  deriving DecidableEq

/-- One step up the tree: pairs are hashed, an odd trailing node is paired with
    itself. -/
def nextLevel : List Text → List Text
  | [] => []
  | [left] => [sha256 (left ++ left)]
  | left :: right :: level => sha256 (left ++ right) :: nextLevel level

/-- The loop of `merkleRoot`, which goes on while a level has two hashes. Every
    round halves the level, so as many rounds as hashes are more than enough. -/
def climb : ℕ → List Text → Text
  | fuel + 1, left :: right :: level => climb fuel (nextLevel (left :: right :: level))
  | _, level => level.headD []

/-- The root of a non-empty list of hashes. -/
def merkleRoot (hashes : List Text) : Except Text Text :=
  if hashes = [] then .error (lit "merkleRoot: cannot compute the root of an empty list")
  else .ok (climb hashes.length hashes)

theorem length_nextLevel (level : List Text) :
    (nextLevel level).length = (level.length + 1) / 2 := by
  fun_induction nextLevel level with
  | case1 => rfl
  | case2 => simp
  | case3 left right level ih => simp only [List.length_cons, ih]; omega

@[simp] theorem merkleRoot_singleton (hash : Text) : merkleRoot [hash] = .ok hash := rfl

end Plainchain
