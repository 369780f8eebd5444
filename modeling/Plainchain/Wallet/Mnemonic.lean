import Plainchain.Lib.Bits
import Plainchain.Lib.Check
import Plainchain.Lib.Forms

/-!
# Recovery phrases

`src/wallet/mnemonic.ts`: entropy is written as words, eleven bits a word, the last bits
being a checksum; a typed phrase is brought to its canonical form and read back.

The hash and the tables of Unicode are parameters (`Bip39`), and so is the wordlist, of which
only what makes it one is used (`Wordlist`). Both directions go over the indices of the words:
`Spells` says which indices stand for which entropy, encoding writes the indices that spell the
entropy (`entropyToMnemonic_eq_ok`) and decoding finds the entropy they spell
(`mnemonicToEntropy_eq_ok`).
-/

namespace Plainchain

open Js Bits
open List hiding Vector

/-- `ENGLISH_WORDLIST`: 2048 words of lower-case letters. -/
structure Wordlist where
  words : List Text
  length_words : words.length = 2048
  nodup : words.Nodup
  ne_nil : ∀ w ∈ words, w ≠ []
  lower : ∀ w ∈ words, ∀ u ∈ w, isLowerLetter u

variable {n : ℕ}

namespace Wordlist

variable (list : Wordlist)

/-- `ENGLISH_WORDLIST[i]`; what is past the end is joined as an empty word. -/
def word (i : ℕ) : Text := list.words.getD i []

/-- `INDEX.get(word)`. -/
def index (word : Text) : Option ℕ :=
  if word ∈ list.words then some (list.words.idxOf word) else none

variable {list}

theorem word_mem {i : ℕ} (h : i < 2048) : list.word i ∈ list.words := by
  rw [← list.length_words] at h
  rw [word, getD_eq_getElem _ _ h]
  exact getElem_mem h

theorem index_eq_some {w : Text} {i : ℕ} : list.index w = some i ↔ i < 2048 ∧ w = list.word i := by
  constructor
  · intro h
    rw [index, Option.ite_none_right_eq_some, Option.some.injEq] at h
    obtain ⟨hw, rfl⟩ := h
    have hlt := idxOf_lt_length_iff.2 hw
    refine ⟨hlt.trans_eq list.length_words, ?_⟩
    rw [word, getD_eq_getElem _ _ hlt, getElem_idxOf]
  · rintro ⟨hi, rfl⟩
    rw [index, if_pos (word_mem hi), word]
    rw [← list.length_words] at hi
    rw [getD_eq_getElem _ _ hi, list.nodup.idxOf_getElem]

/-- The words of the list are words of a text. -/
theorem plain {w : Text} (h : w ∈ list.words) : w ≠ [] ∧ ∀ u ∈ w, u ∉ whiteSpace := by
  refine ⟨list.ne_nil w h, fun u hu hspace => ?_⟩
  have hletter : 97 ≤ u.toNat ∧ u.toNat ≤ 122 := by
    simpa [isLowerLetter] using list.lower w h u hu
  have := whiteSpace_toNat hspace
  omega

/-- A letter of the alphabet, counted from `0`. -/
def letter (n : ℕ) : UInt16 := UInt16.ofNat (97 + n)

theorem toNat_letter (h : n < 26) : (letter n).toNat = 97 + n := by
  rw [letter, UInt16.toNat_ofNat', Nat.mod_eq_of_lt (by omega)]

/-- The word of three letters with a number. -/
def threeLetters (i : ℕ) : Text := [letter (i / 676), letter (i / 26 % 26), letter (i % 26)]

/-- There are such lists: the first words of three letters. -/
def alphabetical : Wordlist where
  words := (List.range 2048).map threeLetters
  length_words := by rw [length_map, length_range]
  nodup := by
    refine List.Nodup.map_on (fun i hi j hj h => ?_) nodup_range
    rw [mem_range] at hi hj
    simp only [threeLetters, List.cons.injEq, ← UInt16.toNat_inj, and_true] at h
    rw [toNat_letter (by omega), toNat_letter (by omega), toNat_letter (by omega),
      toNat_letter (by omega), toNat_letter (by omega), toNat_letter (by omega)] at h
    omega
  ne_nil := forall_mem_map.2 fun _ _ => cons_ne_nil _ _
  lower := forall_mem_map.2 fun i hi u hu => by
    rw [mem_range] at hi
    have hletter : ∃ n < 26, u = letter n := by
      simp only [threeLetters, mem_cons, not_mem_nil, or_false] at hu
      rcases hu with rfl | rfl | rfl
      · exact ⟨i / 676, by omega, rfl⟩
      · exact ⟨i / 26 % 26, by omega, rfl⟩
      · exact ⟨i % 26, by omega, rfl⟩
    obtain ⟨n, hn, rfl⟩ := hletter
    simp only [isLowerLetter, toNat_letter hn, Bool.and_eq_true, decide_eq_true_eq]
    omega

end Wordlist

/-- What phrases rest on: the forms of a text, the wordlist, and the hash of bytes. -/
structure Bip39 where
  forms : TextForms
  wordlist : Wordlist
  sha256 : List UInt8 → Vector UInt8 32

/-- `WORD_COUNTS`: the numbers of words, by the length of the entropy in bytes. -/
def wordCounts : List (ℕ × ℕ) := [(16, 12), (20, 15), (24, 18), (28, 21), (32, 24)]

/-- `ENTROPY_BYTES`. -/
def entropyBytes : List (ℕ × ℕ) := wordCounts.map Prod.swap

def toBits (bytes : List UInt8) : List Bool := groupBits 8 (bytes.map UInt8.toNat)

namespace Bip39

variable (P : Bip39)

/-- The words of a typed phrase, in lower case. -/
def phraseWords (phrase : Text) : List Text :=
  words (trim (P.forms.lower (P.forms.nfkd phrase)))

/-- The canonical form of a typed phrase. -/
def normalizeMnemonic (phrase : Text) : Text := join (unit ' ') (P.phraseWords phrase)

def checksumBits (entropy : List UInt8) : List Bool :=
  (toBits (P.sha256 entropy).toList).take (entropy.length / 4)

def entropyToMnemonic (entropy : List UInt8) : Except Text Text :=
  match wordCounts.lookup entropy.length with
  | none =>
    .error (lit "entropy must be 16, 20, 24, 28 or 32 bytes, got " ++ decimal entropy.length)
  | some count =>
    let bits := toBits entropy ++ P.checksumBits entropy
    let indices := (slices 11 count bits).map valueOf
    .ok (join (unit ' ') (indices.map P.wordlist.word))

/-- The loop over the words, up to the first that is not in the list. -/
def wordIndices : List Text → Except Text (List ℕ) :=
  readAll P.wordlist.index fun word => lit "\"" ++ word ++ lit "\" is not a BIP-39 word"

def mnemonicToEntropy (phrase : Text) : Except Text (List UInt8) :=
  let words := ((P.normalizeMnemonic phrase).splitOn (unit ' ')).filter (· ≠ [])
  match entropyBytes.lookup words.length with
  | none =>
    .error (lit "a recovery phrase has 12, 15, 18, 21 or 24 words, got " ++ decimal words.length)
  | some count => do
    let indices ← P.wordIndices words
    let bits := groupBits 11 indices
    let entropy := (slices 8 count bits).map fun s => UInt8.ofNat (valueOf s)
    reject (bits.drop (count * 8) ≠ P.checksumBits entropy)
      (lit "recovery phrase checksum mismatch: a word is wrong, missing or out of order")
    .ok entropy

/-! ## Sizes -/

variable {entropy : List UInt8} {c : ℕ}

theorem lookup_wordCounts : wordCounts.lookup n = some c ↔ (n, c) ∈ wordCounts := by
  constructor
  · intro h
    obtain ⟨l, r, hl, _⟩ := lookup_eq_some_iff.1 h
    rw [hl]
    exact mem_append_right l mem_cons_self
  · intro h
    simp only [wordCounts, mem_cons, not_mem_nil, or_false, Prod.mk.injEq] at h
    rcases h with ⟨rfl, rfl⟩ | ⟨rfl, rfl⟩ | ⟨rfl, rfl⟩ | ⟨rfl, rfl⟩ | ⟨rfl, rfl⟩ <;> rfl

/-- The two tables are one. -/
theorem lookup_entropyBytes : entropyBytes.lookup c = some n ↔ wordCounts.lookup n = some c := by
  rw [lookup_wordCounts]
  constructor
  · intro h
    obtain ⟨l, r, hl, _⟩ := lookup_eq_some_iff.1 h
    have hmem : (c, n) ∈ wordCounts.map Prod.swap := by
      rw [← entropyBytes, hl]
      exact mem_append_right l mem_cons_self
    simpa using hmem
  · intro h
    simp only [wordCounts, mem_cons, not_mem_nil, or_false, Prod.mk.injEq] at h
    rcases h with ⟨rfl, rfl⟩ | ⟨rfl, rfl⟩ | ⟨rfl, rfl⟩ | ⟨rfl, rfl⟩ | ⟨rfl, rfl⟩ <;> rfl

/-- Bytes and checksum fill the words, and the hash is long enough for the checksum. -/
theorem bits_of_lookup (h : wordCounts.lookup n = some c) :
    8 * n + n / 4 = 11 * c ∧ n / 4 ≤ 256 := by
  rw [lookup_wordCounts] at h
  simp only [wordCounts, mem_cons, not_mem_nil, or_false, Prod.mk.injEq] at h
  omega

theorem length_toBits (bytes : List UInt8) : (toBits bytes).length = 8 * bytes.length := by
  simp [toBits]

variable {P}

theorem length_checksumBits (h : wordCounts.lookup entropy.length = some c) :
    (P.checksumBits entropy).length = entropy.length / 4 := by
  have hle := (bits_of_lookup h).2
  rw [checksumBits, length_take, length_toBits, Vector.length_toList]
  omega

/-! ## Indices and entropy -/

/-- The indices of the words that stand for entropy. -/
structure Spells (P : Bip39) (indices : List ℕ) (entropy : List UInt8) : Prop where
  sized : wordCounts.lookup entropy.length = some indices.length
  lt : ∀ i ∈ indices, i < 2 ^ 11
  bits : groupBits 11 indices = toBits entropy ++ P.checksumBits entropy

theorem entropyToMnemonic_eq_ok {phrase : Text} :
    P.entropyToMnemonic entropy = .ok phrase ↔
      ∃ indices, P.Spells indices entropy ∧
        phrase = join (unit ' ') (indices.map P.wordlist.word) := by
  rw [entropyToMnemonic]
  cases hsize : wordCounts.lookup entropy.length with
  | none =>
    refine iff_of_false (by simp) ?_
    rintro ⟨indices, hspells, _⟩
    cases hspells.sized.symm.trans hsize
  | some count =>
    have hlength : (toBits entropy ++ P.checksumBits entropy).length = count * 11 := by
      rw [length_append, length_toBits, length_checksumBits hsize, (bits_of_lookup hsize).1,
        Nat.mul_comm]
    constructor
    · intro h
      refine ⟨_, ⟨?_, fun i => lt_of_mem_slices hlength.ge, ?_⟩, (Except.ok.inj h).symm⟩
      · rw [length_map, length_slices, hsize]
      · rw [groupBits_slices hlength.ge, ← hlength, take_length]
    · rintro ⟨indices, hspells, rfl⟩
      obtain rfl : indices.length = count := Option.some.inj (hspells.sized.symm.trans hsize)
      have hall : groupBits 11 indices =
          (toBits entropy ++ P.checksumBits entropy).take (indices.length * 11) := by
        rw [← hlength, take_length, hspells.bits]
      simp only [slices_eq_of_groupBits hspells.lt hall hlength.ge]

theorem wordIndices_eq_ok {words : List Text} {indices : List ℕ} :
    P.wordIndices words = .ok indices ↔
      (∀ i ∈ indices, i < 2 ^ 11) ∧ words = indices.map P.wordlist.word :=
  readAll_eq_ok fun _ _ => Wordlist.index_eq_some

/-- The words the decoder works on are those of the phrase. -/
theorem splitOn_normalizeMnemonic (phrase : Text) :
    ((P.normalizeMnemonic phrase).splitOn (unit ' ')).filter (· ≠ []) = P.phraseWords phrase :=
  filter_splitOn_join fun _ => mem_words

/-- The bytes cut from bits have those bits. -/
theorem toBits_slices {bits : List Bool} (h : n * 8 ≤ bits.length) :
    toBits ((slices 8 n bits).map fun s => UInt8.ofNat (valueOf s)) = bits.take (n * 8) := by
  rw [toBits, ← groupBits_slices h, map_map]
  congr 1
  refine map_congr_left fun s hs => ?_
  have hlt : valueOf s < 2 ^ 8 := lt_of_mem_slices h (mem_map_of_mem hs)
  rw [Function.comp_apply, UInt8.toNat_ofNat', Nat.mod_eq_of_lt hlt]

/-- Bytes are told by their bits. -/
theorem toBits_inj {a b : List UInt8} (h : toBits a = toBits b) : a = b := by
  have hlength : a.length = b.length := by
    have := congrArg List.length h
    rw [length_toBits, length_toBits] at this
    omega
  have hlt : ∀ bytes : List UInt8, ∀ n ∈ bytes.map UInt8.toNat, n < 2 ^ 8 :=
    fun bytes => forall_mem_map.2 fun u _ => u.toNat_lt
  refine map_injective_iff.2 (fun u v huv => UInt8.toNat_inj.1 huv)
    (groupBits_inj (hlt a) (hlt b) ?_ h)
  rw [length_map, length_map, hlength]

theorem mnemonicToEntropy_eq_ok {phrase : Text} :
    P.mnemonicToEntropy phrase = .ok entropy ↔
      ∃ indices, P.Spells indices entropy ∧
        P.phraseWords phrase = indices.map P.wordlist.word := by
  simp only [mnemonicToEntropy, splitOn_normalizeMnemonic]
  cases hsize : entropyBytes.lookup (P.phraseWords phrase).length with
  | none =>
    refine iff_of_false (by simp) ?_
    rintro ⟨indices, hspells, hwords⟩
    rw [hwords, length_map, lookup_entropyBytes.2 hspells.sized] at hsize
    cases hsize
  | some count =>
    rw [lookup_entropyBytes] at hsize
    have hbits : ∀ {indices : List ℕ}, P.phraseWords phrase = indices.map P.wordlist.word →
        count * 8 ≤ (groupBits 11 indices).length := by
      intro indices hwords
      rw [hwords, length_map] at hsize
      rw [length_groupBits, ← (bits_of_lookup hsize).1]
      omega
    simp only [bind_eq_ok, wordIndices_eq_ok, Except.ok.injEq]
    constructor
    · rintro ⟨indices, ⟨hlt, hwords⟩, _, hsum, rfl⟩
      refine ⟨indices, ⟨?_, hlt, ?_⟩, hwords⟩
      · rw [length_map, length_slices, hsize, hwords, length_map]
      · rw [toBits_slices (hbits hwords), ← not_not.1 (reject_eq_ok.1 hsum),
          take_append_drop]
    · rintro ⟨indices, hspells, hwords⟩
      have hcount : entropy.length = count := by
        rw [hwords, length_map] at hsize
        have hsame := lookup_entropyBytes.2 hsize
        rw [lookup_entropyBytes.2 hspells.sized] at hsame
        exact Option.some.inj hsame
      have hlength : (toBits entropy).length = count * 8 := by
        rw [length_toBits, hcount, Nat.mul_comm]
      have hentropy : ((slices 8 count (groupBits 11 indices)).map
          fun s => UInt8.ofNat (valueOf s)) = entropy := by
        refine toBits_inj ?_
        rw [toBits_slices (hbits hwords), hspells.bits, ← hlength, take_left]
      refine ⟨indices, ⟨hspells.lt, hwords⟩, (), reject_eq_ok.2 (not_not.2 ?_), hentropy⟩
      rw [hentropy, hspells.bits, ← hlength, drop_left]

/-! ## Round trips -/

theorem Spells.words_mem {indices : List ℕ} (h : P.Spells indices entropy) :
    ∀ w ∈ indices.map P.wordlist.word, w ∈ P.wordlist.words :=
  forall_mem_map.2 fun i hi => Wordlist.word_mem (h.lt i hi)

/-- Words of the list, joined, are in canonical form. -/
theorem phraseWords_join {ws : List Text} (h : ∀ w ∈ ws, w ∈ P.wordlist.words) :
    P.phraseWords (join (unit ' ') ws) = ws := by
  have hplain : ∀ w ∈ ws, w ≠ [] ∧ ∀ u ∈ w, u ∉ whiteSpace := fun w hw => Wordlist.plain (h w hw)
  have hunit : ∀ u ∈ join (unit ' ') ws, u = unit ' ' ∨ isLowerLetter u := fun u hu =>
    (mem_join hu).imp_right fun ⟨w, hw, huw⟩ => P.wordlist.lower w (h w hw) u huw
  have hascii : Ascii (join (unit ' ') ws) := fun u hu => by
    rcases hunit u hu with rfl | hletter
    · decide
    · simp only [isLowerLetter, Bool.and_eq_true, decide_eq_true_eq] at hletter
      omega
  have hlower : ∀ u ∈ join (unit ' ') ws, isUpperLetter u = false := fun u hu => by
    rcases hunit u hu with rfl | hletter
    · decide
    · simp only [isLowerLetter, Bool.and_eq_true, decide_eq_true_eq] at hletter
      simp only [isUpperLetter, Bool.and_eq_false_iff, decide_eq_false_iff_not]
      omega
  rw [phraseWords, P.forms.nfkd_ascii _ hascii, P.forms.lower_eq_self hascii hlower,
    trim_join hplain, words_join hplain]

/-- Entropy of one of the five lengths is spelt by some words. -/
theorem exists_spells (h : entropy.length ∈ [16, 20, 24, 28, 32]) :
    ∃ indices, P.Spells indices entropy := by
  have hsize : ∃ count, wordCounts.lookup entropy.length = some count := by
    simp only [mem_cons, not_mem_nil, or_false] at h
    rcases h with h | h | h | h | h <;> rw [h] <;> exact ⟨_, rfl⟩
  obtain ⟨count, hcount⟩ := hsize
  have hok : ∃ phrase, P.entropyToMnemonic entropy = .ok phrase := by
    rw [entropyToMnemonic, hcount]
    exact ⟨_, rfl⟩
  obtain ⟨phrase, hphrase⟩ := hok
  obtain ⟨indices, hspells, _⟩ := entropyToMnemonic_eq_ok.1 hphrase
  exact ⟨indices, hspells⟩

/-- Entropy is read back from its phrase; a phrase that is read is, in canonical form, the
    phrase of its entropy; so the phrases that are read are the spellings of entropy. -/
theorem mnemonic_roundTrip (P : Bip39) :
    (∀ entropy : List UInt8, entropy.length ∈ [16, 20, 24, 28, 32] →
      (P.entropyToMnemonic entropy >>= P.mnemonicToEntropy) = .ok entropy) ∧
    (∀ phrase entropy, P.mnemonicToEntropy phrase = .ok entropy →
      P.entropyToMnemonic entropy = .ok (P.normalizeMnemonic phrase)) ∧
    ∀ phrase, (∃ entropy, P.mnemonicToEntropy phrase = .ok entropy) ↔
      ∃ entropy, P.entropyToMnemonic entropy = .ok (P.normalizeMnemonic phrase) := by
  refine ⟨fun entropy h => ?_, fun phrase entropy h => ?_, fun phrase => ⟨?_, ?_⟩⟩
  · obtain ⟨indices, hspells⟩ := P.exists_spells h
    refine bind_eq_ok.2 ⟨_, entropyToMnemonic_eq_ok.2 ⟨indices, hspells, rfl⟩, ?_⟩
    exact mnemonicToEntropy_eq_ok.2 ⟨indices, hspells, phraseWords_join hspells.words_mem⟩
  · obtain ⟨indices, hspells, hwords⟩ := mnemonicToEntropy_eq_ok.1 h
    exact entropyToMnemonic_eq_ok.2 ⟨indices, hspells, by rw [normalizeMnemonic, hwords]⟩
  · rintro ⟨entropy, h⟩
    obtain ⟨indices, hspells, hwords⟩ := mnemonicToEntropy_eq_ok.1 h
    exact ⟨entropy, entropyToMnemonic_eq_ok.2 ⟨indices, hspells, by rw [normalizeMnemonic, hwords]⟩⟩
  · rintro ⟨entropy, h⟩
    obtain ⟨indices, hspells, hphrase⟩ := entropyToMnemonic_eq_ok.1 h
    refine ⟨entropy, mnemonicToEntropy_eq_ok.2 ⟨indices, hspells, ?_⟩⟩
    -- both are the words of one text
    have hphraseWords : words (P.normalizeMnemonic phrase) = P.phraseWords phrase :=
      words_join fun _ => mem_words
    have hlist : words (P.normalizeMnemonic phrase) = indices.map P.wordlist.word := by
      rw [hphrase]
      exact words_join fun w hw => Wordlist.plain (hspells.words_mem w hw)
    exact hphraseWords.symm.trans hlist

end Bip39

end Plainchain
