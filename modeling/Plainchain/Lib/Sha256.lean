import Plainchain.Lib.Text

/-!
# SHA-256

The hash function of FIPS 180-4, on bytes, with its digest in lower-case hex.
Words are natural numbers below `2 ^ 32`: all operations are those the kernel
evaluates on numerals, so that digests of concrete messages can be decided.

Nothing is assumed of the function here but the shape of its digest
(`hexOf_hexDigest`). That no collision occurs among given messages is a
hypothesis where it is needed.
-/

namespace Sha256

open Js

/-- The round constants. -/
def constants : List ℕ := [
  0x428a2f98, 0x71374491, 0xb5c0fbcf, 0xe9b5dba5, 0x3956c25b, 0x59f111f1, 0x923f82a4, 0xab1c5ed5,
  0xd807aa98, 0x12835b01, 0x243185be, 0x550c7dc3, 0x72be5d74, 0x80deb1fe, 0x9bdc06a7, 0xc19bf174,
  0xe49b69c1, 0xefbe4786, 0x0fc19dc6, 0x240ca1cc, 0x2de92c6f, 0x4a7484aa, 0x5cb0a9dc, 0x76f988da,
  0x983e5152, 0xa831c66d, 0xb00327c8, 0xbf597fc7, 0xc6e00bf3, 0xd5a79147, 0x06ca6351, 0x14292967,
  0x27b70a85, 0x2e1b2138, 0x4d2c6dfc, 0x53380d13, 0x650a7354, 0x766a0abb, 0x81c2c92e, 0x92722c85,
  0xa2bfe8a1, 0xa81a664b, 0xc24b8b70, 0xc76c51a3, 0xd192e819, 0xd6990624, 0xf40e3585, 0x106aa070,
  0x19a4c116, 0x1e376c08, 0x2748774c, 0x34b0bcb5, 0x391c0cb3, 0x4ed8aa4a, 0x5b9cca4f, 0x682e6ff3,
  0x748f82ee, 0x78a5636f, 0x84c87814, 0x8cc70208, 0x90befffa, 0xa4506ceb, 0xbef9a3f7, 0xc67178f2]

/-- Addition modulo `2 ^ 32`. -/
def add (x y : ℕ) : ℕ := Nat.mod (Nat.add x y) 4294967296

/-- Rotation to the right. -/
def rotr (n x : ℕ) : ℕ :=
  Nat.lor (Nat.shiftRight x n) (Nat.mod (Nat.shiftLeft x (32 - n)) 4294967296)

/-- The functions of section 4.1.2. -/
def ch (x y z : ℕ) : ℕ := Nat.xor (Nat.land x y) (Nat.land (Nat.xor x 0xffffffff) z)
def maj (x y z : ℕ) : ℕ := Nat.xor (Nat.xor (Nat.land x y) (Nat.land x z)) (Nat.land y z)
def bigSigma0 (x : ℕ) : ℕ := Nat.xor (Nat.xor (rotr 2 x) (rotr 13 x)) (rotr 22 x)
def bigSigma1 (x : ℕ) : ℕ := Nat.xor (Nat.xor (rotr 6 x) (rotr 11 x)) (rotr 25 x)
def sigma0 (x : ℕ) : ℕ := Nat.xor (Nat.xor (rotr 7 x) (rotr 18 x)) (Nat.shiftRight x 3)
def sigma1 (x : ℕ) : ℕ := Nat.xor (Nat.xor (rotr 17 x) (rotr 19 x)) (Nat.shiftRight x 10)

/-- The working variables, and the hash value between blocks. -/
structure State where
  a : ℕ
  b : ℕ
  c : ℕ
  d : ℕ
  e : ℕ
  f : ℕ
  g : ℕ
  h : ℕ

/-- The initial hash value. -/
def initial : State :=
  ⟨0x6a09e667, 0xbb67ae85, 0x3c6ef372, 0xa54ff53a, 0x510e527f, 0x9b05688c, 0x1f83d9ab, 0x5be0cd19⟩

/-- The rounds, one for each constant left: `w` holds the next sixteen words of
    the message schedule. -/
def rounds : List ℕ → List ℕ → ℕ → ℕ → ℕ → ℕ → ℕ → ℕ → ℕ → ℕ → State
  | k :: ks, w₀ :: w₁ :: w, a, b, c, d, e, f, g, h =>
    let t₁ := add (add (add h (bigSigma1 e)) (add (ch e f g) k)) w₀
    let t₂ := add (bigSigma0 a) (maj a b c)
    let next := add (add (sigma1 (w.getD 12 0)) (w.getD 7 0)) (add (sigma0 w₁) w₀)
    rounds ks (w₁ :: (w ++ [next])) (add t₁ t₂) a b c (add d t₁) e f g
  | _, _, a, b, c, d, e, f, g, h => ⟨a, b, c, d, e, f, g, h⟩

/-- The hash value after one more block of sixteen words. -/
def compress (s : State) (w : List ℕ) : State :=
  let r := rounds constants w s.a s.b s.c s.d s.e s.f s.g s.h
  ⟨add s.a r.a, add s.b r.b, add s.c r.c, add s.d r.d,
    add s.e r.e, add s.f r.f, add s.g r.g, add s.h r.h⟩

/-- Bytes as big-endian words. -/
def words : List UInt8 → List ℕ
  | a :: b :: c :: d :: t =>
    (((a.toNat * 256 + b.toNat) * 256 + c.toNat) * 256 + d.toNat) :: words t
  | _ => []

/-- The padding of a message of `n` bytes: a one bit, zeros, and the length in
    bits as two words. -/
def padding (n : ℕ) : List UInt8 := 0x80 :: List.replicate ((119 - n % 64) % 64) 0

/-- The words of the padded message. -/
def padded (m : List UInt8) : List ℕ :=
  words (m ++ padding m.length) ++ [m.length * 8 / 4294967296 % 4294967296, m.length * 8 % 4294967296]

/-- The hash value after `n` blocks of the words `w`. -/
def blocks : ℕ → State → List ℕ → State
  | 0, s, _ => s
  | n + 1, s, w => blocks n (compress s (w.take 16)) (w.drop 16)

/-- The hash value of a message. -/
def digest (m : List UInt8) : State := blocks ((m.length + 72) / 64) initial (padded m)

/-- A hex digit. -/
def hexDigit (n : ℕ) : UInt16 := if n < 10 then (48 + n).toUInt16 else (87 + n).toUInt16

/-- A word in hex. -/
def hexWord (w : ℕ) : Text :=
  [28, 24, 20, 16, 12, 8, 4, 0].map fun i => hexDigit (w / 2 ^ i % 16)

/-- The digest of a message in hex. -/
def hexDigest (m : List UInt8) : Text :=
  let s := digest m
  hexWord s.a ++ hexWord s.b ++ hexWord s.c ++ hexWord s.d ++
    hexWord s.e ++ hexWord s.f ++ hexWord s.g ++ hexWord s.h

theorem isHexDigit_hexDigit : ∀ n < 16, isHexDigit (hexDigit n) := by decide

theorem isHexDigit_of_mem_hexWord {w : ℕ} {u : UInt16} (h : u ∈ hexWord w) : isHexDigit u := by
  obtain ⟨i, -, rfl⟩ := List.mem_map.1 h
  exact isHexDigit_hexDigit _ (Nat.mod_lt _ (by norm_num))

/-- A digest is 64 hex digits. -/
theorem hexOf_hexDigest (m : List UInt8) : hexOf 64 (hexDigest m) := by
  have hlen : ∀ w, (hexWord w).length = 8 := fun _ => rfl
  rw [hexOf, Bool.and_eq_true]
  refine ⟨by simp [hexDigest, hlen], List.all_eq_true.2 fun u hu => ?_⟩
  simp only [hexDigest, List.mem_append] at hu
  rcases hu with ((((((hu | hu) | hu) | hu) | hu) | hu) | hu) | hu <;>
    exact isHexDigit_of_mem_hexWord hu

/-- The example of FIPS 180-2, appendix B.1: the message `abc`. -/
example : hexDigest (utf8 (lit "abc")) =
    lit "ba7816bf8f01cfea414140de5dae2223b00361a396177a9cb410ff61f20015ad" := by
  decide +kernel

/-- The example of appendix B.2: a message padded to two blocks. -/
example : hexDigest (utf8 (lit "abcdbcdecdefdefgefghfghighijhijkijkljklmklmnlmnomnopnopq")) =
    lit "248d6a61d20638b8e5c026930c3e6039a33ce45964ff2167f6ecedd419db06c1" := by
  decide +kernel

end Sha256
