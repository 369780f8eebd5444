import Plainchain.Lib.Split
import Plainchain.Lib.Value

/-!
# Addresses in certificates

`ipToBytes` writes the address of a host into a certificate. The texts it gets are those
that `isIP` accepts: four octets in decimal, or hextets with at most one run of zeros
left out, of which the last two may be given as four octets in decimal.

* `isIP`, `ipToBytes`: as the server runs them;
* `Octets`, `V6Text`: the texts of addresses, with the address that each denotes;
* `ipToBytes_eq_iff`: octets at the end of an IPv6 address are read as one hextet.
-/

namespace Plainchain

open Js List

/-! ## The texts that are accepted -/

/-- The pattern `25[0-5]|2[0-4]\d|1\d\d|[1-9]\d|\d`. -/
def isOctet (t : Text) : Bool := (List.range 256).any fun n => decimal n == t

/-- The pattern `[0-9a-fA-F]{1,4}`. -/
def isHextet (t : Text) : Bool :=
  1 ≤ t.length && t.length ≤ 4 && t.all fun u => (hexDigitValue u).isSome

def isIPv4 (t : Text) : Bool :=
  (t.splitOn (unit '.')).length == 4 && (t.splitOn (unit '.')).all isOctet

/-- The hextets that parts between colons stand for, octets being last. -/
def hextetCount : List Text → Option ℕ
  | [] => some 0
  | [t] => if isHextet t then some 1 else if isIPv4 t then some 2 else none
  | t :: ts => if isHextet t then (hextetCount ts).map (· + 1) else none

/-- The parts between colons. -/
def colonParts (t : Text) : List Text := if t = [] then [] else t.splitOn (unit ':')

/-- The IPv6 pattern without a zone. -/
def isIPv6 (t : Text) : Bool :=
  match splitDouble (unit ':') t with
  | [whole] => hextetCount (colonParts whole) == some 8
  | [head, tail] =>
    (colonParts head).all isHextet &&
      (hextetCount (colonParts tail)).any fun n => decide ((colonParts head).length + n ≤ 7)
  | _ => false

/-- The pattern `(%[0-9a-zA-Z-.:]{1,})?`. -/
def isZone : Text → Bool
  | [] => true
  | u :: zone =>
    u == unit '%' && zone ≠ [] && zone.all fun u =>
      isDigit u || (unit 'a' ≤ u && u ≤ unit 'z') || (unit 'A' ≤ u && u ≤ unit 'Z') ||
        u == unit '-' || u == unit '.' || u == unit ':'

/-- `isIP` of `node:net`. -/
def isIP (t : Text) : ℕ :=
  if isIPv4 t then 4
  else if isIPv6 (t.takeWhile (· ≠ unit '%')) && isZone (t.dropWhile (· ≠ unit '%')) then 6
  else 0

/-! ## The bytes that are written -/

/-- `parseInt(t, 16)`; `none` where it is not a number. -/
def parseHex (t : Text) : Option ℤ :=
  let t := t.dropWhile (· ∈ whiteSpace)
  let negative := t.head? = some (unit '-')
  let t := if t.head? = some (unit '-') ∨ t.head? = some (unit '+') then t.tail else t
  let t := if t.take 2 = lit "0x" ∨ t.take 2 = lit "0X" then t.drop 2 else t
  let digits := t.takeWhile fun u => (hexDigitValue u).isSome
  if digits = [] then none
  else (hexDigitsValue 0 digits).map fun n => if negative then -(n : ℤ) else n

/-- The bytes of a number in two bytes. -/
def hextetBytes (n : ℕ) : List UInt8 := [UInt8.ofNat (n / 256), UInt8.ofNat (n % 256)]

/-- `writeUInt16BE`, which writes what is not a number as `0` and throws out of range. -/
def writeUInt16BE : Option ℤ → Option (List UInt8)
  | none => some (hextetBytes 0)
  | some z => if 0 ≤ z ∧ z ≤ 65535 then some (hextetBytes z.toNat) else none

/-- The hextets in a buffer of sixteen bytes, which cannot hold more than eight. -/
def writeHextets (hextets : List Text) : Option (List UInt8) := do
  let written ← hextets.mapM fun h => writeUInt16BE (parseHex h)
  if written.length ≤ 8 then
    some (written.flatten ++ List.replicate (16 - written.flatten.length) 0)
  else none

/-- `ipToBytes`; `none` where it throws. -/
def ipToBytes (host : Text) : Option (List UInt8) :=
  if isIP host = 4 then
    -- `Buffer.from` of numbers; the parts are octets.
    some ((host.splitOn (unit '.')).map fun part => UInt8.ofNat (digitsValue part))
  else do
    let parts := splitDouble (unit ':') host
    let headParts := colonParts (parts.headD [])
    let tailParts := colonParts ((parts[1]?).getD [])
    let missing : ℤ := 8 - headParts.length - tailParts.length
    -- An array of a negative length throws.
    let zeros ← if 2 ≤ parts.length then (if missing < 0 then none else some missing.toNat) else some 0
    writeHextets (headParts ++ List.replicate zeros (lit "0") ++ tailParts)

/-! ## Texts and what they denote -/

/-- Four octets, in decimal. -/
structure Octets where
  a : Fin 256
  b : Fin 256
  c : Fin 256
  d : Fin 256

namespace Octets

def parts (o : Octets) : List Text := [decimal o.a, decimal o.b, decimal o.c, decimal o.d]

def text (o : Octets) : Text := join (unit '.') o.parts

def bytes (o : Octets) : List UInt8 :=
  [UInt8.ofNat o.a, UInt8.ofNat o.b, UInt8.ofNat o.c, UInt8.ofNat o.d]

/-- The two hextets of the octets. -/
def values (o : Octets) : List ℕ := [256 * o.a + o.b, 256 * o.c + o.d]

def zero : Octets := ⟨0, 0, 0, 0⟩

end Octets

/-- Up to four hex digits. -/
structure Hextet where
  text : Text
  isHextet : isHextet text

def Hextet.value (g : Hextet) : ℕ := (hexDigitsValue 0 g.text).getD 0

/-- The text of an IPv6 address: eight hextets, or fewer with `::` between them; the last
    two may be octets. -/
structure V6Text where
  head : List Hextet
  tail : Option (List Hextet)
  dotted : Option Octets
  count : if tail.isSome then head.length + (tail.getD []).length + 2 * dotted.toList.length ≤ 7
    else head.length + 2 * dotted.toList.length = 8

namespace V6Text

/-- The parts at the end. -/
def lastParts (f : V6Text) : List Text :=
  (f.tail.getD []).map Hextet.text ++ f.dotted.toList.map Octets.text

def text (f : V6Text) : Text :=
  match f.tail with
  | none => join (unit ':') (f.head.map Hextet.text ++ f.lastParts)
  | some _ =>
    join (unit ':') (f.head.map Hextet.text) ++ unit ':' :: unit ':' :: join (unit ':') f.lastParts

/-- The values at the end. -/
def lastValues (f : V6Text) : List ℕ :=
  (f.tail.getD []).map Hextet.value ++ (f.dotted.toList.map Octets.values).flatten

/-- The eight hextets of the address: what is left out is zero. -/
def values (f : V6Text) : List ℕ :=
  f.head.map Hextet.value ++
    List.replicate (8 - f.head.length - f.lastValues.length) 0 ++ f.lastValues

def bytes (f : V6Text) : List UInt8 := (f.values.map hextetBytes).flatten

end V6Text

/-- The text of an address. -/
inductive IpText
  | v4 (o : Octets)
  | v6 (f : V6Text)

namespace IpText

def text : IpText → Text
  | v4 o => o.text
  | v6 f => f.text

/-- The bytes of the address. -/
def bytes : IpText → List UInt8
  | v4 o => o.bytes
  | v6 f => f.bytes

/-- There are no octets at the end of an IPv6 address, or all from `::` on is zero. -/
def Plain : IpText → Prop
  | v4 _ => True
  | v6 f => ∀ o ∈ f.dotted, o = .zero ∧ ∀ g ∈ f.tail.getD [], g.value = 0

end IpText

/-! ## Octets -/

variable {u : UInt16} {vs : List ℕ} {tail : List Hextet} {o : Octets} {ts ps : List Text}
  {t : Text}

section Octets

theorem isOctet_iff : isOctet t ↔ ∃ n : Fin 256, t = decimal n := by
  rw [isOctet, any_eq_true]
  constructor
  · rintro ⟨n, hn, h⟩
    exact ⟨⟨n, mem_range.1 hn⟩, (eq_of_beq h).symm⟩
  · rintro ⟨n, rfl⟩
    exact ⟨n, mem_range.2 n.2, beq_self_eq_true _⟩

theorem notMem_decimal (hu : ¬ isDigit u) (n : ℕ) : u ∉ decimal n :=
  fun h => hu (isDigit_of_mem_decimal h)

namespace Octets

theorem splitOn_text (o : Octets) : o.text.splitOn (unit '.') = o.parts := by
  refine splitOn_intercalate _ (fun t ht => ?_) (by simp [parts])
  simp only [parts, mem_cons, not_mem_nil, or_false] at ht
  have hdot : ¬ isDigit (unit '.') := by decide
  rcases ht with rfl | rfl | rfl | rfl <;> exact notMem_decimal hdot _

theorem isIPv4_text (o : Octets) : isIPv4 o.text := by
  rw [isIPv4, splitOn_text, Bool.and_eq_true, all_eq_true]
  refine ⟨rfl, fun t ht => isOctet_iff.2 ?_⟩
  simp only [parts, mem_cons, not_mem_nil, or_false] at ht
  rcases ht with rfl | rfl | rfl | rfl <;> exact ⟨_, rfl⟩

theorem ipToBytes_text (o : Octets) : ipToBytes o.text = some o.bytes := by
  have hisIP : isIP o.text = 4 := if_pos o.isIPv4_text
  have hvalue : ∀ n, digitsValue (decimal n) = n := digitsValue_zeros_decimal 0
  rw [ipToBytes, if_pos hisIP, splitOn_text]
  simp [parts, bytes, hvalue]

/-- The text is one of octets, with points between them. -/
theorem exists_of_isIPv4 (h : isIPv4 t) : ∃ o : Octets, o.text = t := by
  rw [isIPv4, Bool.and_eq_true, beq_iff_eq, all_eq_true] at h
  obtain ⟨hlength, hall⟩ := h
  have hjoin : join (unit '.') (t.splitOn (unit '.')) = t := intercalate_splitOn _
  obtain ⟨p, q, r, s, hparts⟩ := length_eq_four.1 hlength
  rw [hparts] at hall hjoin
  simp only [forall_mem_cons, isOctet_iff, not_mem_nil, false_implies, implies_true,
    and_true] at hall
  obtain ⟨⟨a, rfl⟩, ⟨b, rfl⟩, ⟨c, rfl⟩, ⟨d, rfl⟩⟩ := hall
  exact ⟨⟨a, b, c, d⟩, hjoin⟩

theorem mem_text (h : u ∈ o.text) : u = unit '.' ∨ isDigit u := by
  rcases mem_join h with rfl | ⟨t, ht, hu⟩
  · exact .inl rfl
  · simp only [parts, mem_cons, not_mem_nil, or_false] at ht
    rcases ht with rfl | rfl | rfl | rfl <;> exact .inr (isDigit_of_mem_decimal hu)

end Octets

end Octets

/-! ## Hextets -/

section Hextets

theorem hexDigit_ne {c : UInt16} (hu : (hexDigitValue u).isSome) (hc : hexDigitValue c = none) :
    u ≠ c := by
  rintro rfl
  rw [hc] at hu
  cases hu

theorem hexDigit_range (h : (hexDigitValue u).isSome) :
    48 ≤ u.toNat ∧ u.toNat ≤ 57 ∨ 65 ≤ u.toNat ∧ u.toNat ≤ 70 ∨ 97 ≤ u.toNat ∧ u.toNat ≤ 102 := by
  unfold hexDigitValue at h
  split_ifs at h with hdigit hlower hupper
  · exact .inl (isDigit_iff.1 hdigit)
  · exact .inr (.inr (by simpa [UInt16.le_iff_toNat_le, unit] using hlower))
  · exact .inr (.inl (by simpa [UInt16.le_iff_toNat_le, unit] using hupper))
  · cases h

theorem hexDigit_notMem_whiteSpace (h : (hexDigitValue u).isSome) : u ∉ whiteSpace := by
  intro hu
  have hvalue : u.toNat ∈ whiteSpace.map UInt16.toNat := mem_map_of_mem hu
  have hrange := hexDigit_range h
  simp [whiteSpace] at hvalue
  omega

theorem hexDigitValue_lt {d : ℕ} (h : hexDigitValue u = some d) : d < 16 := by
  have hrange : 48 ≤ u.toNat ∧ u.toNat ≤ 57 ∨ 65 ≤ u.toNat ∧ u.toNat ≤ 70 ∨
      97 ≤ u.toNat ∧ u.toNat ≤ 102 := hexDigit_range (by rw [h]; rfl)
  unfold hexDigitValue at h
  split_ifs at h with hdigit hlower hupper
  · cases h
    have := isDigit_iff.1 hdigit
    omega
  · cases h
    omega
  · cases h
    have hle : u.toNat ≤ 70 := by simpa [UInt16.le_iff_toNat_le, unit] using hupper.2
    omega

/-- The value of hex digits of either case. -/
theorem hexDigitsValue_isSome (h : ∀ u ∈ t, (hexDigitValue u).isSome) (m : ℕ) :
    ∃ v < (m + 1) * 16 ^ t.length, hexDigitsValue m t = some v := by
  refine hexDigitsValue_lt (fun u hu => ?_) m
  obtain ⟨d, hd⟩ := Option.isSome_iff_exists.1 (h u hu)
  exact ⟨d, hexDigitValue_lt hd, hd⟩

/-- `parseInt` reads hex digits up to the end, or up to a point. -/
theorem parseHex_append {digits rest : Text} (hne : digits ≠ [])
    (hhex : ∀ u ∈ digits, (hexDigitValue u).isSome)
    (hrest : rest = [] ∨ ∃ r, rest = unit '.' :: r) :
    parseHex (digits ++ rest) = (hexDigitsValue 0 digits).map fun n => (n : ℤ) := by
  obtain ⟨u, ds, rfl⟩ := exists_cons_of_ne_nil hne
  have hu := hhex u mem_cons_self
  have hnospace := hexDigit_notMem_whiteSpace hu
  have hminus : u ≠ unit '-' := hexDigit_ne hu (by decide)
  have hplus : u ≠ unit '+' := hexDigit_ne hu (by decide)
  -- After the first digit there is neither an `x` nor an `X`.
  have hnext : ∀ v, (ds ++ rest).head? = some v → v ≠ unit 'x' ∧ v ≠ unit 'X' := by
    intro v hv
    cases ds with
    | nil =>
      rcases hrest with rfl | ⟨r, rfl⟩
      · cases hv
      · cases hv
        decide
    | cons w ds =>
      cases hv
      have hw := hhex v (by simp)
      exact ⟨hexDigit_ne hw (by decide), hexDigit_ne hw (by decide)⟩
  have htake : ¬ ((u :: (ds ++ rest)).take 2 = lit "0x" ∨ (u :: (ds ++ rest)).take 2 = lit "0X") := by
    cases hl : ds ++ rest with
    | nil => simp [lit]
    | cons v l =>
      obtain ⟨hx, hX⟩ := hnext v (by rw [hl]; rfl)
      simp [lit, hx, hX]
  have hdigits : (u :: (ds ++ rest)).takeWhile (fun u => (hexDigitValue u).isSome) = u :: ds := by
    rw [← cons_append, takeWhile_append_of_pos hhex]
    rcases hrest with rfl | ⟨r, rfl⟩
    · simp
    · have hpoint : (hexDigitValue (unit '.')).isSome = false := by decide
      rw [takeWhile_cons_of_neg (by rw [hpoint]; decide), append_nil]
  have hdrop : (u :: (ds ++ rest)).dropWhile (· ∈ whiteSpace) = u :: (ds ++ rest) :=
    dropWhile_cons_of_neg (by simpa using hnospace)
  rw [cons_append]
  unfold parseHex
  rw [hdrop]
  simp only [head?_cons, Option.some.injEq, hminus, hplus, or_self, if_false, htake, hdigits,
    cons_ne_nil]

namespace Hextet

variable (g : Hextet)

theorem hex : ∀ u ∈ g.text, (hexDigitValue u).isSome := by
  have h := g.isHextet
  rw [Plainchain.isHextet, Bool.and_eq_true, all_eq_true] at h
  exact h.2

theorem length_pos : 1 ≤ g.text.length := by
  have h := g.isHextet
  simp only [Plainchain.isHextet, Bool.and_eq_true, decide_eq_true_eq] at h
  exact h.1.1

theorem length_le : g.text.length ≤ 4 := by
  have h := g.isHextet
  simp only [Plainchain.isHextet, Bool.and_eq_true, decide_eq_true_eq] at h
  exact h.1.2

theorem text_ne_nil : g.text ≠ [] := ne_nil_of_length_pos g.length_pos

theorem notMem_text {c : UInt16} (hc : hexDigitValue c = none) : c ∉ g.text :=
  fun h => hexDigit_ne (g.hex c h) hc rfl

theorem value_lt : g.value < 65536 := by
  obtain ⟨v, hv, heq⟩ := hexDigitsValue_isSome g.hex 0
  have hpow : 16 ^ g.text.length ≤ 16 ^ 4 := Nat.pow_le_pow_right (by norm_num) g.length_le
  rw [value, heq]
  simp only [Option.getD_some]
  omega

theorem parseHex_text : parseHex g.text = some (g.value : ℤ) := by
  obtain ⟨v, -, heq⟩ := hexDigitsValue_isSome g.hex 0
  have h := parseHex_append g.text_ne_nil g.hex (.inl rfl)
  rw [append_nil, heq] at h
  rw [h, value, heq]
  rfl

end Hextet

namespace Octets

/-- What `parseInt` reads of octets: the digits of the first one, in hex. -/
def first (o : Octets) : ℕ := (hexDigitsValue 0 (decimal o.a)).getD 0

/-- It is the first hextet only where both are zero. -/
theorem first_le (o : Octets) : o.first ≤ 255 * o.a := by
  have h : ∀ a : Fin 256, (hexDigitsValue 0 (decimal a)).getD 0 ≤ 255 * a := by decide +kernel
  exact h o.a

theorem parseHex_text (o : Octets) : parseHex o.text = some (o.first : ℤ) := by
  have hhex : ∀ u ∈ decimal o.a, (hexDigitValue u).isSome := fun u hu => by
    rw [hexDigitValue, if_pos (isDigit_of_mem_decimal hu)]
    rfl
  obtain ⟨v, -, heq⟩ := hexDigitsValue_isSome hhex 0
  have h := parseHex_append (decimal_ne_nil _) hhex (.inr ⟨join (unit '.') o.parts.tail, rfl⟩)
  have htext : o.text = decimal o.a ++ unit '.' :: join (unit '.') o.parts.tail := by
    simp [text, parts]
  rw [htext, h, heq, first, heq]
  rfl

end Octets

end Hextets

/-! ## The parts of a text -/

/-- A part between colons. -/
def IsPart (t : Text) : Prop := unit ':' ∉ t ∧ t ≠ []

@[simp] theorem colonParts_nil : colonParts [] = [] := rfl

theorem colonParts_join (h : ∀ t ∈ ts, IsPart t) : colonParts (join (unit ':') ts) = ts := by
  cases ts with
  | nil => rfl
  | cons t ts =>
    have hne : join (unit ':') (t :: ts) ≠ [] := by
      have ht := (h t mem_cons_self).2
      cases ts with
      | nil => rwa [join_singleton]
      | cons t' ts =>
        rw [join_cons_cons]
        exact append_ne_nil_of_left_ne_nil ht _
    rw [colonParts, if_neg hne]
    exact splitOn_intercalate _ (fun t ht => (h t ht).1) (cons_ne_nil _ _)

theorem Hextet.isPart (g : Hextet) : IsPart g.text := ⟨g.notMem_text (by decide), g.text_ne_nil⟩

theorem Octets.isPart (o : Octets) : IsPart o.text := by
  refine ⟨fun h => ?_, ?_⟩
  · rcases Octets.mem_text h with h | h
    · exact absurd h (by decide)
    · exact absurd h (by decide)
  · simp only [text, parts, join_cons_cons]
    exact append_ne_nil_of_left_ne_nil (decimal_ne_nil _) _

namespace V6Text

variable (f : V6Text)

theorem isPart_head : ∀ t ∈ f.head.map Hextet.text, IsPart t :=
  forall_mem_map.2 fun g _ => g.isPart

theorem isPart_lastParts : ∀ t ∈ f.lastParts, IsPart t :=
  forall_mem_append.2
    ⟨forall_mem_map.2 fun g _ => g.isPart, forall_mem_map.2 fun o _ => o.isPart⟩

theorem text_of_none (h : f.tail = none) :
    f.text = join (unit ':') (f.head.map Hextet.text ++ f.lastParts) := by
  rw [text, h]

theorem text_of_some (h : f.tail = some tail) :
    f.text = join (unit ':') (f.head.map Hextet.text) ++
      unit ':' :: unit ':' :: join (unit ':') f.lastParts := by
  rw [text, h]

theorem splitDouble_of_none (h : f.tail = none) :
    splitDouble (unit ':') f.text =
      [join (unit ':') (f.head.map Hextet.text ++ f.lastParts)] := by
  rw [f.text_of_none h]
  exact splitDouble_spaced
    (spaced_join (forall_mem_append.2 ⟨f.isPart_head, f.isPart_lastParts⟩))

theorem splitDouble_of_some (h : f.tail = some tail) :
    splitDouble (unit ':') f.text =
      [join (unit ':') (f.head.map Hextet.text), join (unit ':') f.lastParts] := by
  rw [f.text_of_some h, splitDouble_append (spaced_join f.isPart_head),
    splitDouble_spaced (spaced_join f.isPart_lastParts)]

theorem length_of_none (h : f.tail = none) : 6 ≤ f.head.length := by
  have hcount := f.count
  rw [h, Option.isSome_none, if_neg Bool.false_ne_true] at hcount
  cases hd : f.dotted with
  | none =>
    rw [hd, Option.toList_none, length_nil] at hcount
    omega
  | some o =>
    rw [hd, Option.toList_some, length_singleton] at hcount
    omega

/-- A colon tells the text from octets. -/
theorem colon_mem : unit ':' ∈ f.text := by
  cases h : f.tail with
  | some tail =>
    rw [f.text_of_some h]
    simp
  | none =>
    have hlength := f.length_of_none h
    obtain ⟨g, rest, hg⟩ : ∃ g rest, f.head = g :: rest :=
      exists_cons_of_length_pos (by omega)
    obtain ⟨g', rest', hg'⟩ : ∃ g rest', rest = g :: rest' :=
      exists_cons_of_length_pos (by rw [hg, length_cons] at hlength; omega)
    rw [f.text_of_none h, hg, hg', map_cons, map_cons, cons_append,
      cons_append, join_cons_cons]
    simp

theorem isIP_ne : isIP f.text ≠ 4 := by
  intro h
  unfold isIP at h
  split_ifs at h with h4
  · obtain ⟨o, ho⟩ := Octets.exists_of_isIPv4 h4
    exact o.isPart.1 (ho ▸ f.colon_mem)
  · cases h

/-! ## What is written -/

/-- What is read of the parts at the end: octets are one part. -/
def readValues : List ℕ := (f.tail.getD []).map Hextet.value ++ f.dotted.toList.map Octets.first

/-- The hextets that are written, those after them being zero. -/
def written : List ℕ :=
  f.head.map Hextet.value ++
    List.replicate (if f.tail.isSome then 8 - f.head.length - f.readValues.length else 0) 0 ++
    f.readValues

end V6Text

/-- Parts that are read as numbers of two bytes. -/
def ReadAs (ps : List Text) (vs : List ℕ) : Prop :=
  List.Forall₂ (fun (p : Text) (v : ℕ) => parseHex p = some (v : ℤ) ∧ v < 65536) ps vs

theorem mapM_write (h : ReadAs ps vs) :
    (ps.mapM fun p => writeUInt16BE (parseHex p)) = some (vs.map hextetBytes) := by
  induction h with
  | nil => rfl
  | cons h _ ih =>
    rw [mapM_cons, ih, h.1, writeUInt16BE, if_pos ⟨by omega, by omega⟩]
    rfl

theorem length_flatten_hextetBytes (vs : List ℕ) :
    (vs.map hextetBytes).flatten.length = 2 * vs.length := by
  induction vs with
  | nil => rfl
  | cons v vs ih =>
    rw [map_cons, flatten_cons, length_append, ih, length_cons]
    simp only [hextetBytes, length_cons, length_nil]
    omega

theorem flatten_zeros (n : ℕ) :
    ((List.replicate n 0).map hextetBytes).flatten = List.replicate (2 * n) 0 := by
  induction n with
  | zero => rfl
  | succ n ih =>
    rw [replicate_succ, map_cons, flatten_cons, ih, Nat.mul_succ,
      Nat.add_comm (2 * n) 2, replicate_add]
    rfl

theorem writeHextets_eq (h : ReadAs ps vs) (hle : vs.length ≤ 8) :
    writeHextets ps =
      some ((vs ++ List.replicate (8 - vs.length) 0).map hextetBytes).flatten := by
  rw [writeHextets, mapM_write h, Option.bind_eq_bind, Option.bind_some, length_map, if_pos hle,
    map_append, flatten_append, flatten_zeros, length_flatten_hextetBytes, Nat.mul_sub]

theorem readAs_hextets (gs : List Hextet) : ReadAs (gs.map Hextet.text) (gs.map Hextet.value) := by
  rw [ReadAs, forall₂_map_left_iff, forall₂_map_right_iff]
  exact forall₂_same.2 fun g _ => ⟨g.parseHex_text, g.value_lt⟩

theorem readAs_octets (os : List Octets) : ReadAs (os.map Octets.text) (os.map Octets.first) := by
  rw [ReadAs, forall₂_map_left_iff, forall₂_map_right_iff]
  refine forall₂_same.2 fun o _ => ⟨o.parseHex_text, ?_⟩
  have := o.first_le
  omega

theorem readAs_zeros (n : ℕ) : ReadAs (List.replicate n (lit "0")) (List.replicate n 0) := by
  induction n with
  | zero => exact .nil
  | succ n ih => exact .cons ⟨by decide, by norm_num⟩ ih

theorem ReadAs.append {qs : List Text} {ws : List ℕ} (h : ReadAs ps vs) (h' : ReadAs qs ws) :
    ReadAs (ps ++ qs) (vs ++ ws) := rel_append h h'

namespace V6Text

variable (f : V6Text)

theorem readAs_lastParts : ReadAs f.lastParts f.readValues :=
  (readAs_hextets _).append (readAs_octets _)

theorem length_lastParts : f.lastParts.length = f.readValues.length := by
  simp [lastParts, readValues]

theorem length_readValues_le (h : f.tail.isSome) :
    f.head.length + f.readValues.length + f.dotted.toList.length ≤ 7 := by
  have hcount := f.count
  rw [if_pos h] at hcount
  simp only [readValues, length_append, length_map]
  omega

theorem length_written_le : f.written.length ≤ 8 := by
  cases h : f.tail with
  | some tail =>
    have hle := f.length_readValues_le (by rw [h]; rfl)
    simp only [written, h, length_append, length_map, length_replicate,
      Option.isSome_some, if_true]
    omega
  | none =>
    have hcount := f.count
    rw [h, Option.isSome_none, if_neg Bool.false_ne_true] at hcount
    simp only [written, readValues, h, length_append, length_map, length_replicate,
      Option.isSome_none, Bool.false_eq_true, if_false, Option.getD_none, length_nil]
    omega

/-- The hextets that are written, filled up with zeros. -/
theorem ipToBytes_text : ipToBytes f.text =
    some ((f.written ++ List.replicate (8 - f.written.length) 0).map hextetBytes).flatten := by
  rw [ipToBytes, if_neg f.isIP_ne]
  cases h : f.tail with
  | none =>
    have hparts := colonParts_join (forall_mem_append.2 ⟨f.isPart_head, f.isPart_lastParts⟩)
    have hread : ReadAs (f.head.map Hextet.text ++ f.lastParts) f.written := by
      have hwritten : f.written = f.head.map Hextet.value ++ f.readValues := by simp [written, h]
      rw [hwritten]
      exact (readAs_hextets f.head).append f.readAs_lastParts
    rw [f.splitDouble_of_none h, ← writeHextets_eq hread f.length_written_le]
    simp [hparts]
  | some tail =>
    have hle := f.length_readValues_le (by rw [h]; rfl)
    have hlast := f.length_lastParts
    have hread : ReadAs (f.head.map Hextet.text ++
        List.replicate (8 - f.head.length - f.readValues.length) (lit "0") ++ f.lastParts)
        f.written := by
      rw [written, h]
      exact ((readAs_hextets f.head).append (readAs_zeros _)).append f.readAs_lastParts
    have hmissing : ¬ (8 - (f.head.length : ℤ) - (f.lastParts.length : ℤ) < 0) := by omega
    have hcount : (8 - (f.head.length : ℤ) - (f.lastParts.length : ℤ)).toNat =
        8 - f.head.length - f.readValues.length := by omega
    rw [f.splitDouble_of_some h, ← writeHextets_eq hread f.length_written_le]
    simp [colonParts_join f.isPart_head, colonParts_join f.isPart_lastParts, hmissing, hcount]

end V6Text

/-! ## What it denotes -/

/-- The bytes tell hextets apart. -/
theorem flatten_hextetBytes_inj {ws : List ℕ} (hv : ∀ v ∈ vs, v < 65536) (hw : ∀ w ∈ ws, w < 65536)
    (h : (vs.map hextetBytes).flatten = (ws.map hextetBytes).flatten) : vs = ws := by
  induction vs generalizing ws with
  | nil =>
    cases ws with
    | nil => rfl
    | cons w ws => cases h
  | cons v vs ih =>
    cases ws with
    | nil => cases h
    | cons w ws =>
      rw [forall_mem_cons] at hv hw
      simp only [map_cons, flatten_cons, hextetBytes, cons_append, nil_append,
        List.cons.injEq] at h
      obtain ⟨hhigh, hlow, h⟩ := h
      have hhigh' := congrArg UInt8.toNat hhigh
      have hlow' := congrArg UInt8.toNat hlow
      simp only [UInt8.toNat_ofNat'] at hhigh' hlow'
      rw [ih hv.2 hw.2 h]
      congr 1
      omega

/-- A list that is shifted by one entry is constant. -/
theorem cons_append_eq_iff {l : List ℕ} {a x y w : ℕ} :
    a :: (l ++ [x]) = l ++ [y, w] ↔ (∀ t ∈ l, t = a) ∧ y = a ∧ x = w := by
  induction l generalizing a with
  | nil =>
    simp only [nil_append, List.cons.injEq, and_true, not_mem_nil, false_implies,
      implies_true, true_and]
    exact and_congr_left fun _ => eq_comm
  | cons t l ih =>
    rw [cons_append, cons_append, List.cons.injEq, ih, forall_mem_cons]
    constructor
    · rintro ⟨rfl, h⟩
      exact ⟨⟨rfl, h.1⟩, h.2⟩
    · rintro ⟨⟨rfl, hl⟩, h⟩
      exact ⟨rfl, hl, h⟩

theorem Octets.eq_zero_iff : o = .zero ↔ (o.a : ℕ) = 0 ∧ (o.b : ℕ) = 0 ∧
    (o.c : ℕ) = 0 ∧ (o.d : ℕ) = 0 := by
  constructor
  · rintro rfl
    exact ⟨rfl, rfl, rfl, rfl⟩
  · rintro ⟨ha, hb, hc, hd⟩
    obtain ⟨a, b, c, d⟩ := o
    rw [show a = 0 from Fin.ext ha, show b = 0 from Fin.ext hb, show c = 0 from Fin.ext hc,
      show d = 0 from Fin.ext hd, zero]

theorem Octets.values_lt (o : Octets) : ∀ v ∈ o.values, v < 65536 := by
  simp only [values, forall_mem_cons, not_mem_nil, false_implies, implies_true, and_true]
  omega

namespace V6Text

variable (f : V6Text)

theorem values_lt : ∀ v ∈ f.values, v < 65536 := by
  have hhextets : ∀ gs : List Hextet, ∀ v ∈ gs.map Hextet.value, v < 65536 := fun gs =>
    forall_mem_map.2 fun g _ => g.value_lt
  intro v hv
  simp only [values, lastValues, mem_append, mem_replicate, mem_flatten] at hv
  rcases hv with (hv | ⟨-, rfl⟩) | hv | ⟨vs, hvs, hv⟩
  · exact hhextets _ v hv
  · norm_num
  · exact hhextets _ v hv
  · obtain ⟨o, -, rfl⟩ := mem_map.1 hvs
    exact o.values_lt v hv

theorem written_lt : ∀ v ∈ f.written, v < 65536 := by
  have hhextets : ∀ gs : List Hextet, ∀ v ∈ gs.map Hextet.value, v < 65536 := fun gs =>
    forall_mem_map.2 fun g _ => g.value_lt
  intro v hv
  simp only [written, readValues, mem_append, mem_replicate] at hv
  rcases hv with (hv | ⟨-, rfl⟩) | hv | hv
  · exact hhextets _ v hv
  · norm_num
  · exact hhextets _ v hv
  · obtain ⟨o, -, rfl⟩ := mem_map.1 hv
    have := o.first_le
    omega

/-- What is written denotes the address where the hextets are those of the address. -/
theorem ipToBytes_eq_iff_written : ipToBytes f.text = some f.bytes ↔
    f.written ++ List.replicate (8 - f.written.length) 0 = f.values := by
  rw [f.ipToBytes_text, Option.some.injEq, bytes]
  refine ⟨fun h => flatten_hextetBytes_inj ?_ f.values_lt h, fun h => by rw [h]⟩
  intro v hv
  rcases mem_append.1 hv with hv | hv
  · exact f.written_lt v hv
  · rw [(mem_replicate.1 hv).2]
    norm_num

theorem written_of_none (h : f.dotted = none) :
    f.written ++ List.replicate (8 - f.written.length) 0 = f.values := by
  have hcount := f.count
  have hlast : f.readValues = f.lastValues := by simp [readValues, lastValues, h]
  rw [h, Option.toList_none, length_nil, Nat.mul_zero, Nat.add_zero, Nat.add_zero] at hcount
  have hlength : f.lastValues.length = (f.tail.getD []).length := by simp [lastValues, h]
  cases ht : f.tail with
  | none =>
    rw [ht, Option.isSome_none, if_neg Bool.false_ne_true] at hcount
    rw [ht, Option.getD_none, length_nil] at hlength
    simp [written, values, hlast, ht, hlength, hcount]
  | some tail =>
    rw [ht, Option.isSome_some, if_pos rfl, ← ht, ← hlength] at hcount
    have hfull : f.written = f.values := by simp [written, values, hlast, ht]
    have h8 : f.values.length = 8 := by
      simp only [values, length_append, length_map, length_replicate]
      omega
    rw [hfull, h8, Nat.sub_self, replicate_zero, append_nil]

/-- Octets in full notation: they are read as the first of the last two hextets. -/
theorem written_eq_iff_of_none (ht : f.tail = none) (h : f.dotted = some o) :
    f.written ++ List.replicate (8 - f.written.length) 0 = f.values ↔ o = .zero := by
  have hcount := f.count
  rw [ht, h, Option.isSome_none, if_neg Bool.false_ne_true, Option.toList_some,
    length_singleton] at hcount
  have hwritten : f.written = f.head.map Hextet.value ++ [o.first] := by
    simp [written, readValues, ht, h]
  have hvalues : f.values = f.head.map Hextet.value ++ o.values := by
    have hhead : f.head.length = 6 := by omega
    simp [values, lastValues, ht, h, hhead, Octets.values]
  have hlength : 8 - f.written.length = 1 := by
    rw [hwritten, length_append, length_map, length_singleton]
    omega
  rw [hlength, hwritten, hvalues, append_assoc, append_cancel_left_eq,
    Octets.eq_zero_iff, Octets.values]
  have hfirst := o.first_le
  simp only [replicate_one, singleton_append, List.cons.injEq, and_true]
  omega

/-- Octets after `::`: all is written one hextet further to the end. -/
theorem written_eq_iff_of_some (ht : f.tail = some tail) (h : f.dotted = some o) :
    f.written ++ List.replicate (8 - f.written.length) 0 = f.values ↔
      o = .zero ∧ ∀ g ∈ tail, g.value = 0 := by
  have hcount := f.count
  rw [ht, h, Option.isSome_some, if_pos rfl, Option.toList_some, length_singleton,
    Option.getD_some] at hcount
  obtain ⟨z, hz⟩ : ∃ z, 8 - f.head.length - (tail.length + 2) = z := ⟨_, rfl⟩
  have hz' : 8 - f.head.length - (tail.length + 1) = z + 1 := by omega
  have hwritten : f.written = f.head.map Hextet.value ++
      (List.replicate z 0 ++ 0 :: (tail.map Hextet.value ++ [o.first])) := by
    simp [written, readValues, ht, h, hz', replicate_succ']
  have hvalues : f.values = f.head.map Hextet.value ++
      (List.replicate z 0 ++ (tail.map Hextet.value ++ o.values)) := by
    simp [values, lastValues, ht, h, hz, Octets.values]
  have hlength : 8 - f.written.length = 0 := by
    rw [hwritten]
    simp only [length_append, length_map, length_replicate, length_cons,
      length_nil]
    omega
  rw [hlength, replicate_zero, append_nil, hwritten, hvalues, append_cancel_left_eq,
    append_cancel_left_eq, Octets.values, cons_append_eq_iff, forall_mem_map,
    Octets.eq_zero_iff]
  have hfirst := o.first_le
  constructor
  · rintro ⟨hall, hy, hx⟩
    exact ⟨by omega, hall⟩
  · rintro ⟨hzero, hall⟩
    exact ⟨hall, by omega, by omega⟩

end V6Text

namespace IpText

theorem ipToBytes_eq_iff_plain (a : IpText) : ipToBytes a.text = some a.bytes ↔ a.Plain := by
  cases a with
  | v4 o => exact iff_of_true o.ipToBytes_text trivial
  | v6 f =>
    rw [text, bytes, Plain, f.ipToBytes_eq_iff_written]
    cases hd : f.dotted with
    | none => exact iff_of_true (f.written_of_none hd) (by simp)
    | some o =>
      cases ht : f.tail with
      | none =>
        rw [f.written_eq_iff_of_none ht hd]
        simp
      | some tail =>
        rw [f.written_eq_iff_of_some ht hd]
        simp

end IpText

/-! ## Every text that is accepted -/

theorem join_colonParts (t : Text) : join (unit ':') (colonParts t) = t := by
  rw [colonParts]
  split
  · next h => rw [h]; rfl
  · exact intercalate_splitOn _

theorem exists_hextets (h : ∀ t ∈ ts, isHextet t) :
    ∃ gs : List Hextet, gs.map Hextet.text = ts := by
  induction ts with
  | nil => exact ⟨[], rfl⟩
  | cons t ts ih =>
    rw [forall_mem_cons] at h
    obtain ⟨gs, rfl⟩ := ih h.2
    exact ⟨⟨t, h.1⟩ :: gs, rfl⟩

/-- Parts that are counted are hextets, and octets at the end. -/
theorem exists_of_hextetCount {n : ℕ} (h : hextetCount ts = some n) :
    ∃ (gs : List Hextet) (o : Option Octets),
      gs.map Hextet.text ++ o.toList.map Octets.text = ts ∧
        n = gs.length + 2 * o.toList.length := by
  induction ts generalizing n with
  | nil =>
    cases h
    exact ⟨[], none, rfl, rfl⟩
  | cons t ts ih =>
    cases ts with
    | nil =>
      rw [hextetCount] at h
      split_ifs at h with hhextet hoctets
      · cases h
        exact ⟨[⟨t, hhextet⟩], none, rfl, rfl⟩
      · cases h
        obtain ⟨o, rfl⟩ := Octets.exists_of_isIPv4 hoctets
        exact ⟨[], some o, rfl, rfl⟩
    | cons t' ts =>
      rw [hextetCount] at h
      · split_ifs at h with hhextet
        obtain ⟨m, hm, rfl⟩ := Option.map_eq_some_iff.1 h
        obtain ⟨gs, o, hparts, rfl⟩ := ih hm
        refine ⟨⟨t, hhextet⟩ :: gs, o, by rw [← hparts]; rfl, ?_⟩
        rw [length_cons]
        omega
      · simp

theorem V6Text.exists_of_isIPv6 (h : isIPv6 t) : ∃ f : V6Text, f.text = t := by
  have hpieces : List.intercalate [unit ':', unit ':'] (splitDouble (unit ':') t) = t :=
    intercalate_splitDouble t
  unfold isIPv6 at h
  split at h
  · next whole hsplit =>
    rw [hsplit, intercalate_singleton] at hpieces
    obtain ⟨gs, o, hparts, hcount⟩ := exists_of_hextetCount (eq_of_beq h)
    refine ⟨⟨gs, none, o, by simp [← hcount]⟩, ?_⟩
    rw [text_of_none _ rfl, ← hpieces, ← join_colonParts whole, ← hparts]
    rfl
  · next head tail hsplit =>
    rw [hsplit, intercalate_cons_cons, intercalate_singleton] at hpieces
    rw [Bool.and_eq_true, all_eq_true, Option.any_eq_true] at h
    obtain ⟨hhead, n, hn, hle⟩ := h
    obtain ⟨gs, hgs⟩ := exists_hextets hhead
    obtain ⟨gs', o, hparts, rfl⟩ := exists_of_hextetCount hn
    have hlength : (colonParts head).length = gs.length := by rw [← hgs, length_map]
    rw [hlength, decide_eq_true_eq] at hle
    refine ⟨⟨gs, some gs', o, by simpa [Nat.add_assoc] using hle⟩, ?_⟩
    rw [text_of_some _ rfl, ← hpieces, ← join_colonParts head, ← join_colonParts tail, ← hgs,
      ← hparts, append_assoc]
    rfl
  · cases h

/-- A host that `isIP` accepts, without a zone, is the text of an address; `ipToBytes`
    returns the bytes of the address unless octets stand at the end of an IPv6 address
    that is not zero from `::` on. -/
theorem ipToBytes_eq_iff (host : Text)
    (h : isIP host = 4 ∨ isIP host = 6 ∧ unit '%' ∉ host) :
    (∃ address : IpText, address.text = host) ∧
      ∀ address : IpText, address.text = host →
        (ipToBytes host = some address.bytes ↔ address.Plain) := by
  refine ⟨?_, fun address haddress => haddress ▸ address.ipToBytes_eq_iff_plain⟩
  unfold isIP at h
  split_ifs at h with h4 h6
  · obtain ⟨o, ho⟩ := Octets.exists_of_isIPv4 h4
    exact ⟨.v4 o, ho⟩
  · have hzone := (h.resolve_left (by decide)).2
    have hwhole : host.takeWhile (· ≠ unit '%') = host :=
      takeWhile_eq_self_iff.2 fun u hu => by
        rw [decide_eq_true_iff]
        exact fun hc => hzone (hc ▸ hu)
    rw [Bool.and_eq_true, hwhole] at h6
    obtain ⟨f, hf⟩ := V6Text.exists_of_isIPv6 h6.1
    exact ⟨.v6 f, hf⟩
  · simp at h

/-- A link-local address, compressed. -/
def linkLocal : V6Text := ⟨[⟨lit "fe80", by decide⟩], some [⟨lit "1", by decide⟩], none, by decide⟩

theorem ipToBytes_linkLocal : isIP (lit "fe80::1") = 6 ∧
    ipToBytes (lit "fe80::1") = some linkLocal.bytes :=
  ⟨by decide +kernel, ((ipToBytes_eq_iff (lit "fe80::1") (.inr ⟨by decide +kernel, by decide⟩)).2
    (.v6 linkLocal) (by decide)).2 nofun⟩

/-- A loopback address of IPv4, mapped into IPv6. -/
def mapped : V6Text :=
  ⟨[], some [⟨lit "ffff", by decide⟩], some ⟨127, 0, 0, 1⟩, by decide⟩

/-- Of its octets only the first is written, in hex. -/
theorem ipToBytes_mapped : isIP (lit "::ffff:127.0.0.1") = 6 ∧
    mapped.text = lit "::ffff:127.0.0.1" ∧
    mapped.bytes = [0, 0, 0, 0, 0, 0, 0, 0, 0, 0, 255, 255, 127, 0, 0, 1] ∧
    ipToBytes (lit "::ffff:127.0.0.1") =
      some [0, 0, 0, 0, 0, 0, 0, 0, 0, 0, 0, 0, 255, 255, 1, 39] := by
  decide +kernel

end Plainchain
