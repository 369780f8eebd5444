import Plainchain.Ledger.Transaction
import Plainchain.Lib.HexBytes
import Plainchain.Lib.JsonText
import Plainchain.Wallet.Mnemonic

/-!
# Key files

`src/wallet/keystore.ts` with the key derivation of `src/wallet/hd.ts`: a file lists the
addresses and public keys of its accounts next to a sealed secret, and unlocking an account
gives the key pair for it.

The cryptography is a parameter (`WalletCrypto`): public keys are a function of private ones,
and a sealed secret is what it was sealed from, for the passphrase it was sealed with.

In versions 2 and 3 the keys are derived from the secret, and what the file lists is compared
with them (`unlockListed_ok`). In version 1 the listed public key is returned as it is
(`unlock_v1_ok`): the only check is that it belongs to the listed address.
-/

namespace Plainchain

open Js

structure KeystoreKdf where
  salt : Text
  N : Number
  r : Number
  p : Number
  deriving DecidableEq

structure KeystoreCipher where
  iv : Text
  tag : Text
  ciphertext : Text
  deriving DecidableEq

/-- The sealed secret of a file. -/
structure Sealed where
  kdf : KeystoreKdf
  cipher : KeystoreCipher
  deriving DecidableEq

structure KeystoreAccount where
  index : Number
  address : Text
  publicKey : Text
  label : Option Text
  deriving DecidableEq

inductive Keystore
  | v1 (address publicKey : Text) (secret : Sealed)
  | v2 (accounts : List KeystoreAccount) (secret : Sealed)
  | mnemonic (accounts : List KeystoreAccount) (secret : Sealed)
  | watchOnly (accounts : List KeystoreAccount)
  deriving DecidableEq

/-- What a wallet takes from its cryptography. -/
structure WalletCrypto extends Bip39 where
  /-- The public key of a private key, both in hex. -/
  pub : Text → Text
  /-- The passphrase and the secret that were sealed; an error where nothing was, or
      where the parameters are not accepted. -/
  contents : Sealed → Except Text (Text × List UInt8)
  hmacSha512 : (key data : List UInt8) → Vector UInt8 64
  /-- With 2048 rounds of HMAC-SHA512. -/
  pbkdf2 : (password salt : List UInt8) → Vector UInt8 64

/-! ## Files -/

/-- `isRecord`. -/
def isRecord : Value → Bool
  | .obj _ => true
  | _ => false

/-- `isHex`, with the text. -/
def hexText : Value → Option Text
  | .str t => if t.all fun u => (hexDigitValue u).isSome then some t else none
  | _ => none

def asText : Value → Option Text
  | .str t => some t
  | _ => none

def asNumber : Value → Option Number
  | .num x => some x
  | _ => none

/-- `Number.isInteger(x) && x >= 0`. The numbers that are not written in plain decimal are
    integers from `1e21` on, where the exponent has its sign. -/
def isCount : Number → Bool
  | .int z => 0 ≤ z
  | .other t _ => unit '+' ∈ t && t.head? ≠ some (unit '-')

/-- `isAccountRecord` and `copyAccount`. -/
def readAccount (value : Value) : Option KeystoreAccount := do
  guard (isRecord value)
  let index ← asNumber (value.get (lit "index"))
  guard (isCount index)
  let address ← asText (value.get (lit "address"))
  let publicKey ← hexText (value.get (lit "publicKey"))
  let label ← match value.get (lit "label") with
    | .undefined => some none
    | .str t => some (some t)
    | _ => none
  some ⟨index, address, publicKey, label⟩

/-- The accounts of a file, if it has a list of account records. -/
def readAccounts : Value → Option (List KeystoreAccount)
  | .arr vs => vs.mapM readAccount
  | _ => none

def malformed : Text := lit "malformed keystore file"

def readKdf (kdf : Value) : Option KeystoreKdf := do
  guard ((kdf.get (lit "name")).isText (lit "scrypt"))
  let salt ← hexText (kdf.get (lit "salt"))
  let N ← asNumber (kdf.get (lit "N"))
  let r ← asNumber (kdf.get (lit "r"))
  let p ← asNumber (kdf.get (lit "p"))
  some ⟨salt, N, r, p⟩

def readCipher (cipher : Value) : Option KeystoreCipher := do
  guard ((cipher.get (lit "name")).isText (lit "aes-256-gcm"))
  let iv ← hexText (cipher.get (lit "iv"))
  let tag ← hexText (cipher.get (lit "tag"))
  let ciphertext ← hexText (cipher.get (lit "ciphertext"))
  some ⟨iv, tag, ciphertext⟩

def parseSealed (value : Value) : Except Text Sealed := do
  let kdf := value.get (lit "kdf")
  let cipher := value.get (lit "cipher")
  reject (¬ (isRecord kdf ∧ isRecord cipher)) (lit "not a keystore file")
  match readKdf kdf, readCipher cipher with
  | some kdf, some cipher => .ok ⟨kdf, cipher⟩
  | _, _ => .error malformed

def parseVersion3 (value : Value) : Except Text Keystore := do
  let type := value.get (lit "type")
  reject (¬ (type.isText (lit "mnemonic") ∨ type.isText (lit "watch-only"))) malformed
  match readAccounts (value.get (lit "accounts")) with
  | none => .error malformed
  | some accounts =>
    if type.isText (lit "watch-only") then .ok (.watchOnly accounts)
    else do
      let secret ← parseSealed value
      .ok (.mnemonic accounts secret)

def parseVersion1 (value : Value) (secret : Sealed) : Except Text Keystore :=
  match asText (value.get (lit "address")), hexText (value.get (lit "publicKey")) with
  | some address, some publicKey => .ok (.v1 address publicKey secret)
  | _, _ => .error malformed

def parseVersion2 (value : Value) (secret : Sealed) : Except Text Keystore :=
  match readAccounts (value.get (lit "accounts")) with
  | some accounts => .ok (.v2 accounts secret)
  | none => .error malformed

/-- `real` reads the literals that are no plain integers. -/
def parseKeystore (real : Text → Number) (json : Text) : Except Text Keystore :=
  match Json.parse real json with
  -- what `JSON.parse` throws has a text of the engine's own
  | none => .error (lit "SyntaxError")
  | some value => do
    reject (¬ isRecord value) (lit "not a keystore file")
    let version := value.get (lit "version")
    if version.isNumber (.int 3) then parseVersion3 value
    else if version.isNumber (.int 1) then do
      let secret ← parseSealed value
      parseVersion1 value secret
    else if version.isNumber (.int 2) then do
      let secret ← parseSealed value
      parseVersion2 value secret
    else do
      let shown ← version.interpolate
      .error (lit "unsupported keystore version " ++ shown)

/-- Public records of every account. -/
def keystoreAccounts : Keystore → List KeystoreAccount
  | .v1 address publicKey _ => [⟨.int 0, address, publicKey, none⟩]
  | .v2 accounts _ | .mnemonic accounts _ | .watchOnly accounts => accounts

/-- The record a file lists for an account. -/
def listedAccount (keystore : Keystore) (account : Number) : Option KeystoreAccount :=
  (keystoreAccounts keystore).find? fun a => a.index = account

/-! ## Keys from a seed -/

structure ExtendedKey where
  key : List UInt8
  chainCode : List UInt8

/-- `0x80000000`. -/
def hardened : ℕ := 2 ^ 31

/-- `/^(\d+)(['h])$/`, with the digits. -/
def hardenedDigits (part : Text) : Option Text :=
  match part.reverse with
  | [] => none
  | c :: digits =>
    if (c = 0x27 ∨ c = unit 'h') ∧ digits ≠ [] ∧ digits.all isDigit then some digits.reverse
    else none

/-- `writeUInt32BE`. -/
def uint32 (n : ℕ) : List UInt8 := [24, 16, 8, 0].map fun k => UInt8.ofNat (n >>> k)

/-- `PKCS8_ED25519_PREFIX`. -/
def pkcs8Head : Text := lit "302e020100300506032b657004220420"

def accountPath (account : Number) : Text :=
  lit "m/44'/7331'/" ++ account.toText ++ lit "'"

namespace WalletCrypto

variable (W : WalletCrypto)

def extendedKey (I : Vector UInt8 64) : ExtendedKey := ⟨I.toList.take 32, I.toList.drop 32⟩

def masterKeyFromSeed (seed : List UInt8) : ExtendedKey :=
  extendedKey (W.hmacSha512 (utf8 (lit "ed25519 seed")) seed)

def deriveHardenedChild (parent : ExtendedKey) (index : ℕ) : Except Text ExtendedKey := do
  reject (hardened ≤ index) (lit "child index must be in [0, 2^31), got " ++ decimal index)
  let data := 0 :: parent.key ++ uint32 (index + hardened)
  .ok (extendedKey (W.hmacSha512 parent.chainCode data))

/-- The digits of a segment are those of a number that was printed, and read as it. -/
def derivePath (seed : List UInt8) (path : Text) : Except Text ExtendedKey := do
  let parts := path.splitOn (unit '/')
  reject (parts.head? ≠ some (lit "m"))
    (lit "derivation path must start with \"m\", got \"" ++ path ++ lit "\"")
  parts.tail.foldlM (fun node part =>
    match hardenedDigits part with
    | none => .error (lit "path segment \"" ++ part ++
        lit "\" must be hardened (e.g. 0'): ed25519 has no non-hardened derivation")
    | some digits => W.deriveHardenedChild node (digitsValue digits)) (W.masterKeyFromSeed seed)

def keyPairFromSeed32 (seed32 : List UInt8) : Except Text KeyPair := do
  reject (seed32.length ≠ 32)
    (lit "ed25519 seed must be 32 bytes, got " ++ decimal seed32.length)
  let privateKey := pkcs8Head ++ bytesHex seed32
  .ok ⟨W.pub privateKey, privateKey⟩

def accountKeyPair (seed : List UInt8) (account : Number) : Except Text KeyPair := do
  let node ← W.derivePath seed (accountPath account)
  W.keyPairFromSeed32 node.key

/-! ## Unlocking -/

def wrongPassphrase : Text := lit "wrong passphrase or tampered keystore"

def watchOnlyError (action : Text) : Text :=
  lit "this wallet is watch-only (addresses, no keys): it cannot " ++ action

/-- `open`: the secret, for the passphrase it was sealed with. -/
def openSealed (secret : Sealed) (passphrase : Text) : Except Text (List UInt8) := do
  let contents ← W.contents secret
  reject (contents.1 ≠ passphrase) wrongPassphrase
  .ok contents.2

def decryptKeystore (address publicKey : Text) (secret : Sealed) (passphrase : Text) :
    Except Text KeyPair := do
  reject (deriveAddress publicKey ≠ address) (lit "keystore address does not match its public key")
  let privateKey ← W.openSealed secret passphrase
  .ok ⟨publicKey, bytesHex privateKey⟩

def mnemonicToSeed (phrase : Text) : Except Text (List UInt8) := do
  let _ ← W.mnemonicToEntropy phrase
  .ok (W.pbkdf2 (utf8 (W.normalizeMnemonic phrase)) (utf8 (W.forms.nfkd (lit "mnemonic")))).toList

def exportSeed (keystore : Keystore) (passphrase : Text) : Except Text (List UInt8) :=
  match keystore with
  | .v1 _ _ _ => .error (lit "version 1 (single-key) keystore has no seed")
  | .watchOnly _ => .error (watchOnlyError (lit "export a seed"))
  | .v2 _ secret => do
    let seed ← W.openSealed secret passphrase
    reject (seed.length ≠ 32) wrongPassphrase
    .ok seed
  | .mnemonic _ secret => do
    let entropy ← W.openSealed secret passphrase
    let phrase ← (W.entropyToMnemonic entropy).mapError fun _ => wrongPassphrase
    W.mnemonicToSeed phrase

/-- Unlocking an account whose key is derived from the seed. -/
def unlockListed (keystore : Keystore) (passphrase : Text) (account : Number) :
    Except Text KeyPair :=
  match listedAccount keystore account with
  | none => .error (lit "account " ++ account.toText ++
      lit " does not exist in this wallet (run \"account new\")")
  | some record => do
    let seed ← W.exportSeed keystore passphrase
    let keyPair ← W.accountKeyPair seed account
    reject (keyPair.publicKey ≠ record.publicKey ∨ deriveAddress keyPair.publicKey ≠ record.address)
      (lit "keystore account " ++ account.toText ++
        lit " record does not match the key derived from the seed")
    .ok keyPair

def unlockAccount (keystore : Keystore) (passphrase : Text) (account : Number) :
    Except Text KeyPair :=
  match keystore with
  | .v1 address publicKey secret => do
    reject (account ≠ .int 0)
      (lit "version 1 (single-key) keystore has only account 0, not account " ++ account.toText)
    W.decryptKeystore address publicKey secret passphrase
  | .watchOnly _ => .error (watchOnlyError (lit "sign"))
  | .v2 _ _ | .mnemonic _ _ => W.unlockListed keystore passphrase account

/-! ## What is unlocked -/

variable {W}

variable {passphrase : Text} {account : Number} {pair : KeyPair}

theorem accountKeyPair_pub {seed : List UInt8} (h : W.accountKeyPair seed account = .ok pair) :
    pair.publicKey = W.pub pair.privateKey := by
  obtain ⟨node, _, h⟩ := bind_eq_ok.1 h
  obtain ⟨_, _, h⟩ := bind_eq_ok.1 h
  rw [← Except.ok.inj h]

/-- A derived pair matches, and is what the file lists. -/
theorem unlockListed_ok {keystore : Keystore}
    (h : W.unlockListed keystore passphrase account = .ok pair) :
    pair.publicKey = W.pub pair.privateKey ∧
      ∃ record, listedAccount keystore account = some record ∧ pair.publicKey = record.publicKey ∧
        deriveAddress pair.publicKey = record.address := by
  rw [unlockListed] at h
  cases hrecord : listedAccount keystore account with
  | none => simp [hrecord] at h
  | some record =>
    simp only [hrecord, bind_eq_ok] at h
    obtain ⟨seed, _, keyPair, hpair, _, hcheck, h⟩ := h
    obtain rfl := Except.ok.inj h
    rw [reject_eq_ok, not_or, not_not, not_not] at hcheck
    exact ⟨accountKeyPair_pub hpair, record, rfl, hcheck.1, hcheck.2⟩

theorem openSealed_eq_ok {secret : Sealed} {bytes : List UInt8} :
    W.openSealed secret passphrase = .ok bytes ↔ W.contents secret = .ok (passphrase, bytes) := by
  rw [openSealed, bind_eq_ok]
  constructor
  · rintro ⟨⟨p, b⟩, hcontents, h⟩
    rw [seq_eq_ok, reject_eq_ok, not_not, Except.ok.injEq] at h
    obtain ⟨rfl, rfl⟩ := h
    exact hcontents
  · intro h
    exact ⟨_, h, seq_eq_ok.2 ⟨reject_eq_ok.2 (not_not.2 rfl), rfl⟩⟩

/-- A version 1 file gives the public key it lists. -/
theorem unlock_v1_ok {address publicKey : Text} {secret : Sealed} :
    W.unlockAccount (.v1 address publicKey secret) passphrase account = .ok pair ↔
      account = .int 0 ∧ deriveAddress publicKey = address ∧
        ∃ bytes, W.contents secret = .ok (passphrase, bytes) ∧
          ⟨publicKey, bytesHex bytes⟩ = pair := by
  rw [unlockAccount, decryptKeystore, seq_eq_ok, seq_eq_ok, reject_eq_ok, reject_eq_ok, not_not,
    not_not, bind_eq_ok]
  simp only [openSealed_eq_ok, Except.ok.injEq]

/-- The public key of a version 1 file is that of its secret, if the passphrase opens it and
    the file agrees with itself. -/
def Genuine (W : WalletCrypto) (passphrase : Text) (account : Number) : Keystore → Prop
  | .v1 address publicKey secret =>
    account = .int 0 → deriveAddress publicKey = address →
      ∀ bytes, W.contents secret = .ok (passphrase, bytes) → publicKey = W.pub (bytesHex bytes)
  | _ => True

/-- The pair that is unlocked matches and has the listed address, just if a version 1 file
    is genuine. -/
theorem unlockAccount_matches_iff (W : WalletCrypto) (keystore : Keystore) (passphrase : Text)
    (account : Number) :
    (∀ pair, W.unlockAccount keystore passphrase account = .ok pair →
      pair.publicKey = W.pub pair.privateKey ∧
        (listedAccount keystore account).map KeystoreAccount.address =
          some (deriveAddress pair.publicKey)) ↔
      W.Genuine passphrase account keystore := by
  have hderived : ∀ pair, W.unlockListed keystore passphrase account = .ok pair →
      pair.publicKey = W.pub pair.privateKey ∧
        (listedAccount keystore account).map KeystoreAccount.address =
          some (deriveAddress pair.publicKey) := fun pair h => by
    obtain ⟨hpub, record, hrecord, _, haddress⟩ := unlockListed_ok h
    exact ⟨hpub, by rw [hrecord, Option.map_some, haddress]⟩
  cases keystore with
  | v2 accounts secret => exact iff_of_true hderived trivial
  | mnemonic accounts secret => exact iff_of_true hderived trivial
  | watchOnly accounts => exact iff_of_true (fun _ h => by cases h) trivial
  | v1 address publicKey secret =>
    simp only [Genuine, unlock_v1_ok]
    constructor
    · intro h haccount haddress bytes hcontents
      exact (h ⟨publicKey, bytesHex bytes⟩ ⟨haccount, haddress, bytes, hcontents, rfl⟩).1
    · rintro h pair ⟨rfl, haddress, bytes, hcontents, rfl⟩
      refine ⟨h rfl haddress bytes hcontents, ?_⟩
      rw [haddress]
      rfl

/-! ## A file whose header was edited -/

/-- A wallet with one secret and one public key. -/
def sampleCrypto : WalletCrypto where
  forms := asciiForms
  wordlist := .alphabetical
  sha256 _ := Vector.replicate 32 0
  pub _ := lit "cd"
  contents _ := .ok (lit "pw", List.replicate 32 1)
  hmacSha512 _ _ := Vector.replicate 64 2
  pbkdf2 _ _ := Vector.replicate 64 3

/-- The members of a file with the sealed secret. -/
def sealedMembers : Text :=
  lit "\"kdf\":\x7b\"name\":\"scrypt\",\"salt\":\"00\",\"N\":1024,\"r\":8,\"p\":1\x7d," ++
    lit "\"cipher\":\x7b\"name\":\"aes-256-gcm\",\"iv\":\"00\",\"tag\":\"00\",\"ciphertext\":\"00\"\x7d\x7d"

def sealedSample : Sealed :=
  ⟨⟨lit "00", .int 1024, .int 8, .int 1⟩, ⟨lit "00", lit "00", lit "00"⟩⟩

/-- The hash of `cd`. -/
def derivedAddress : Text := lit "21e721c35a5823fdb452fa2f9f0a612c74fb952e06927489c6b27a43b817bed4"

/-- A version 2 file with the account of the seed. -/
def derivedFile : Text :=
  lit "\x7b\"version\":2,\"accounts\":[\x7b\"index\":0,\"address\":\"" ++ derivedAddress ++
    lit "\",\"publicKey\":\"cd\"\x7d]," ++ sealedMembers

def derivedKeystore : Keystore := .v2 [⟨.int 0, derivedAddress, lit "cd", none⟩] sealedSample

theorem unlockAccount_derived :
    parseKeystore (fun _ => .int 0) derivedFile = .ok derivedKeystore ∧
      sampleCrypto.unlockAccount derivedKeystore (lit "pw") (.int 0) =
        .ok ⟨lit "cd", pkcs8Head ++ bytesHex (List.replicate 32 2)⟩ ∧
      (listedAccount derivedKeystore (.int 0)).map KeystoreAccount.address =
        some (deriveAddress (lit "cd")) := by
  have hparse : parseKeystore (fun _ => .int 0) derivedFile = .ok derivedKeystore := by
    decide +kernel
  have hunlock : sampleCrypto.unlockAccount derivedKeystore (lit "pw") (.int 0) =
      .ok ⟨lit "cd", pkcs8Head ++ bytesHex (List.replicate 32 2)⟩ := by
    decide +kernel
  have hmatches :=
    (unlockAccount_matches_iff sampleCrypto derivedKeystore (lit "pw") (.int 0)).2 trivial
  exact ⟨hparse, hunlock, (hmatches _ hunlock).2⟩

/-- The hash of `ab`. -/
def editedAddress : Text := lit "fb8e20fc2e4c3f248c60c39bd652f3c1347298bb977b8b4d5903b85055620603"

/-- A version 1 file whose public key and address were both replaced. -/
def editedFile : Text :=
  lit "\x7b\"version\":1,\"address\":\"" ++ editedAddress ++
    lit "\",\"publicKey\":\"ab\"," ++ sealedMembers

def editedKeystore : Keystore := .v1 editedAddress (lit "ab") sealedSample

/-- It is accepted, and its secret is given out with the wrong public key. -/
theorem unlockAccount_edited :
    parseKeystore (fun _ => .int 0) editedFile = .ok editedKeystore ∧
      sampleCrypto.unlockAccount editedKeystore (lit "pw") (.int 0) =
        .ok ⟨lit "ab", bytesHex (List.replicate 32 1)⟩ ∧
      lit "ab" ≠ sampleCrypto.pub (bytesHex (List.replicate 32 1)) := by
  have haddress : deriveAddress (lit "ab") = editedAddress := by
    decide +kernel
  exact ⟨by decide +kernel, unlock_v1_ok.2 ⟨rfl, haddress, _, rfl, rfl⟩, by decide⟩

end WalletCrypto

end Plainchain
