import Plainchain.Lib.Store
import Plainchain.Lib.Value

/-!
# The texts of documents

`JSON.parse`: a text is cut into tokens, unit by unit, and the tokens build a value on a
stack of the arrays and objects that are open. Neither runs out of anything: both are
recursions over what they read.

A number without fraction and exponent is read as the integer that it is, as long as that
is safe; what the others denote is left to a function `real`, as it takes rounding. An
object keeps its keys in the order of the text, the value being that of the last
occurrence.

* `Json.tokens`, `Json.parse`;
* `Json.NoArray`: what a document that starts otherwise keeps at the bottom of the stack;
* `Json.parse_arr`: the text of an array starts with a bracket.
-/

namespace Js

namespace Json

/-! ## Tokens -/

inductive Token
  | openArr
  | closeArr
  | openObj
  | closeObj
  | comma
  | colon
  | str (t : Text)
  | word (t : Text)
  deriving DecidableEq

/-- The white space of the grammar. -/
def isSpace (u : UInt16) : Bool := u == 9 || u == 10 || u == 13 || u == 32

def punctuator (u : UInt16) : Option Token :=
  if u = unit '[' then some .openArr
  else if u = unit ']' then some .closeArr
  else if u = 0x7B then some .openObj
  else if u = 0x7D then some .closeObj
  else if u = unit ',' then some .comma
  else if u = unit ':' then some .colon
  else none

/-- What a unit denotes after a backslash, `u` apart. -/
def escaped (u : UInt16) : Option UInt16 :=
  if u = 0x22 ∨ u = 0x5C ∨ u = 0x2F then some u
  else if u = unit 'b' then some 8
  else if u = unit 'f' then some 12
  else if u = unit 'n' then some 10
  else if u = unit 'r' then some 13
  else if u = unit 't' then some 9
  else none

/-- Where a scan stands: between tokens, or within a word or a string of which the units
    so far are given, the last one first. Within `\u`, there are digits left to come. -/
inductive Scan
  | between
  | word (read : Text)
  | str (read : Text)
  | escape (read : Text)
  | unicode (read : Text) (left value : ℕ)

/-- The word that ends where a scan stands. -/
def Scan.ended : Scan → List Token
  | word read => [.word read.reverse]
  | _ => []

/-- A scan goes on within a word. -/
def Scan.extended : Scan → UInt16 → Scan
  | word read, u => .word (u :: read)
  | _, u => .word [u]

def scan : Scan → Text → Option (List Token)
  | .between, [] => some []
  | .word read, [] => some [.word read.reverse]
  | .str read, u :: t =>
    if u = 0x22 then (scan .between t).map (.str read.reverse :: ·)
    else if u = 0x5C then scan (.escape read) t
    else if u < 0x20 then none
    else scan (.str (u :: read)) t
  | .escape read, u :: t =>
    if u = unit 'u' then scan (.unicode read 3 0) t
    else
      match escaped u with
      | some c => scan (.str (c :: read)) t
      | none => none
  | .unicode read left value, u :: t =>
    match hexDigitValue u, left with
    | none, _ => none
    | some d, 0 => scan (.str (UInt16.ofNat (16 * value + d) :: read)) t
    | some d, left + 1 => scan (.unicode read left (16 * value + d)) t
  -- Between tokens or within a word, which a space, a quote or a punctuator ends.
  | s, u :: t =>
    if isSpace u then (scan .between t).map (s.ended ++ ·)
    else if u = 0x22 then (scan (.str []) t).map (s.ended ++ ·)
    else
      match punctuator u with
      | some token => (scan .between t).map (s.ended ++ token :: ·)
      | none => scan (s.extended u) t
  | _, [] => none

def tokens (t : Text) : Option (List Token) := scan .between t

/-! ## Words -/

/-- The pattern `([eE][+-]?[0-9]+)?`. -/
def isExponent : Text → Bool
  | [] => true
  | e :: t =>
    (e == unit 'e' || e == unit 'E') &&
      match t with
      | [] => false
      | sign :: digits =>
        if sign = unit '+' ∨ sign = unit '-' then digits ≠ [] && digits.all isDigit
        else (sign :: digits).all isDigit

/-- The pattern `(\.[0-9]+)?([eE][+-]?[0-9]+)?`. -/
def isFraction : Text → Bool
  | [] => true
  | point :: t =>
    if point = unit '.' then t.takeWhile isDigit ≠ [] && isExponent (t.dropWhile isDigit)
    else isExponent (point :: t)

/-- The pattern `0|[1-9][0-9]*`. -/
def isInteger : Text → Bool
  | [] => false
  | first :: t => (first :: t).all isDigit && (first ≠ unit '0' || t = [])

/-- The number of a literal. -/
def numberOf (real : Text → Number) (t : Text) : Option Number :=
  let digits := if t.head? = some (unit '-') then t.tail else t
  let integer := digits.takeWhile isDigit
  let fraction := digits.dropWhile isDigit
  if isInteger integer ∧ isFraction fraction then
    if fraction = [] ∧ digitsValue integer < 2 ^ 53 then
      some (.int (if t.head? = some (unit '-') then -digitsValue integer else digitsValue integer))
    else some (real t)
  else none

def wordValue (real : Text → Number) (t : Text) : Option Value :=
  if t = lit "true" then some (.bool true)
  else if t = lit "false" then some (.bool false)
  else if t = lit "null" then some .null
  else (numberOf real t).map .num

/-! ## Values -/

/-- An array or an object that is open: its items so far, the last one first; its fields
    so far, and the key of which the value comes next. -/
inductive Frame
  | items (done : List Value)
  | fields (done : List (Text × Value)) (key : Text)

/-- What comes next. -/
inductive Mode
  | value
  | item
  | field
  | key (done : List (Text × Value))
  | colon (done : List (Text × Value)) (key : Text)
  | after (value : Value)

abbrev Machine := List Frame × Mode

/-- A token where a value must start. -/
def start (real : Text → Number) (stack : List Frame) : Token → Option Machine
  | .openArr => some (stack, .item)
  | .openObj => some (stack, .field)
  | .str t => some (stack, .after (.str t))
  | .word t => (wordValue real t).map fun v => (stack, .after v)
  | _ => none

def step (real : Text → Number) : Machine → Token → Option Machine
  | (stack, .value), token => start real stack token
  | (stack, .item), token =>
    if token = .closeArr then some (stack, .after (.arr []))
    else start real (.items [] :: stack) token
  | (stack, .field), .closeObj => some (stack, .after (.obj []))
  | (stack, .field), .str key => some (stack, .colon [] key)
  | (stack, .key done), .str key => some (stack, .colon done key)
  | (stack, .colon done key), .colon => some (.fields done key :: stack, .value)
  | (.items done :: stack, .after v), .comma => some (.items (v :: done) :: stack, .value)
  | (.items done :: stack, .after v), .closeArr =>
    some (stack, .after (.arr (v :: done).reverse))
  | (.fields done key :: stack, .after v), .comma =>
    some (stack, .key (Kv.OrdMap.setEntries done key v))
  | (.fields done key :: stack, .after v), .closeObj =>
    some (stack, .after (.obj (Kv.OrdMap.setEntries done key v)))
  | _, _ => none

/-- The value that is complete. -/
def result : Machine → Option Value
  | ([], .after v) => some v
  | _ => none

/-- `JSON.parse`; `none` where it throws. -/
def parse (real : Text → Number) (t : Text) : Option Value := do
  let ts ← tokens t
  let machine ← ts.foldlM (step real) ([], .value)
  result machine

/-! ## Arrays -/

/-- The first token of a scan that stands within one. -/
def Scan.Begins : Scan → Token → Prop
  | .between, _ => True
  | .word _, token => ∃ t, token = .word t
  | _, token => ∃ t, token = .str t

variable {real : Text → Number} {m : Machine} {ts : List Token} {token : Token} {t : Text}

/-- The token in which a scan stands comes first. -/
theorem scan_begins {s : Scan} (h : scan s t = some ts) (hs : s ≠ .between) :
    ∃ token rest, ts = token :: rest ∧ s.Begins token := by
  induction t generalizing s ts with
  | nil =>
    cases s with
    | word read =>
      rw [scan] at h
      cases h
      exact ⟨_, _, rfl, _, rfl⟩
    | between => exact absurd rfl hs
    | str | escape | unicode => cases h
  | cons u t ih =>
    cases s with
    | between => exact absurd rfl hs
    | word read =>
      unfold scan at h
      split_ifs at h
      · obtain ⟨rest, -, rfl⟩ := Option.map_eq_some_iff.1 h
        exact ⟨_, _, rfl, _, rfl⟩
      · obtain ⟨rest, -, rfl⟩ := Option.map_eq_some_iff.1 h
        exact ⟨_, _, rfl, _, rfl⟩
      · split at h
        · obtain ⟨rest, -, rfl⟩ := Option.map_eq_some_iff.1 h
          exact ⟨_, _, rfl, _, rfl⟩
        · exact (ih h nofun :)
    | str read =>
      unfold scan at h
      split_ifs at h
      · obtain ⟨rest, -, rfl⟩ := Option.map_eq_some_iff.1 h
        exact ⟨_, _, rfl, _, rfl⟩
      · exact (ih h nofun :)
      · exact (ih h nofun :)
    | escape read =>
      unfold scan at h
      split_ifs at h
      · exact (ih h nofun :)
      · split at h
        · exact (ih h nofun :)
        · cases h
    | unicode read left value =>
      unfold scan at h
      split at h
      · cases h
      · exact (ih h nofun :)
      · exact (ih h nofun :)

theorem tokens_openArr (h : tokens t = some (.openArr :: ts)) :
    ∃ space rest, t = space ++ unit '[' :: rest ∧ ∀ u ∈ space, isSpace u := by
  induction t with
  | nil => cases h
  | cons u t ih =>
    unfold tokens scan at h
    split_ifs at h with hspace hquote
    · rw [Option.map_eq_some_iff] at h
      obtain ⟨_, h, heq⟩ := h
      rw [← heq] at ih
      obtain ⟨space, rest, rfl, hall⟩ := ih h
      exact ⟨u :: space, rest, rfl, List.forall_mem_cons.2 ⟨hspace, hall⟩⟩
    · obtain ⟨_, h, heq⟩ := Option.map_eq_some_iff.1 h
      obtain ⟨_, _, rfl, x, rfl⟩ := scan_begins h nofun
      cases heq
    · split at h
      · next token hp =>
        obtain ⟨_, -, heq⟩ := Option.map_eq_some_iff.1 h
        cases heq
        refine ⟨[], t, ?_, by simp⟩
        unfold punctuator at hp
        split_ifs at hp with hu
        · rw [hu]
          rfl
        all_goals cases hp
      · obtain ⟨_, _, heq, x, rfl⟩ := scan_begins h nofun
        cases heq

/-- What is open, or complete, is an array; or nothing has started yet. -/
def Frame.isArr : Frame → Bool
  | items _ => true
  | fields _ _ => false

def Mode.isArr : Mode → Bool
  | value | item | after (.arr _) => true
  | _ => false

/-- The same for the outermost of what is open, the innermost being given. -/
def outermost : List Frame → Bool → Bool
  | [], inner => inner
  | frame :: stack, _ => outermost stack frame.isArr

/-- The document is no array. -/
def NoArray (m : Machine) : Prop := outermost m.1 m.2.isArr = false

theorem outermost_of_true {stack : List Frame} (h : outermost stack true = false) (inner : Bool) :
    outermost stack inner = false := by
  cases stack with
  | nil => cases h
  | cons frame stack => exact h

theorem wordValue_isArr {v : Value} (h : wordValue real t = some v) :
    (Mode.after v).isArr = false := by
  unfold wordValue at h
  split_ifs at h
  any_goals
    cases h
    rfl
  obtain ⟨x, -, rfl⟩ := Option.map_eq_some_iff.1 h
  rfl

/-- A value that starts leaves the stack as it is. -/
theorem start_fst {stack : List Frame} (h : start real stack token = some m) : m.1 = stack := by
  unfold start at h
  split at h
  · cases h
    rfl
  · cases h
    rfl
  · cases h
    rfl
  · obtain ⟨v, -, rfl⟩ := Option.map_eq_some_iff.1 h
    rfl
  · cases h

/-- A document starts with another token than a bracket. -/
theorem start_noArray (h : start real [] token = some m) (htoken : token ≠ .openArr) :
    NoArray m := by
  unfold start at h
  split at h
  · exact absurd rfl htoken
  · cases h
    rfl
  · cases h
    rfl
  · obtain ⟨v, hv, rfl⟩ := Option.map_eq_some_iff.1 h
    exact wordValue_isArr hv
  · cases h

theorem NoArray.step {m' : Machine} (h : NoArray m) (hstep : Json.step real m token = some m') :
    NoArray m' := by
  fun_cases Json.step real m token with
  | case1 token stack =>
    rw [NoArray, start_fst hstep]
    exact outermost_of_true h _
  | case2 stack =>
    cases hstep
    exact h
  | case3 stack token htoken =>
    rw [Json.step, if_neg htoken] at hstep
    rw [NoArray, start_fst hstep]
    exact h
  -- Where a token is out of place.
  | case12 => simp_all [Json.step]
  | _ =>
    cases hstep
    exact h

theorem NoArray.run {m' : Machine} (h : NoArray m) (hrun : ts.foldlM (Json.step real) m = some m') :
    NoArray m' := by
  induction ts generalizing m with
  | nil =>
    cases hrun
    exact h
  | cons token ts ih =>
    rw [List.foldlM_cons, Option.bind_eq_bind, Option.bind_eq_some_iff] at hrun
    obtain ⟨m₁, hstep, hrun⟩ := hrun
    exact ih (h.step hstep) hrun

/-- The text of an array starts with a bracket, after white space. -/
theorem parse_arr {vs : List Value} (h : parse real t = some (.arr vs)) :
    ∃ space rest, t = space ++ unit '[' :: rest ∧ ∀ u ∈ space, isSpace u := by
  simp only [parse, Option.bind_eq_bind, Option.bind_eq_some_iff] at h
  obtain ⟨ts, hts, m, hm, hresult⟩ := h
  have harr : ¬ NoArray m := by
    unfold result at hresult
    split at hresult
    · cases hresult
      exact nofun
    · cases hresult
  cases ts with
  | nil =>
    cases hm
    cases hresult
  | cons token ts =>
    by_cases htoken : token = .openArr
    · subst htoken
      exact tokens_openArr hts
    · rw [List.foldlM_cons, Option.bind_eq_bind, Option.bind_eq_some_iff] at hm
      obtain ⟨m₁, hstep, hm⟩ := hm
      exact absurd ((start_noArray hstep htoken).run hm) harr

end Json

end Js
