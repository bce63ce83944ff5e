import TaggedProse.Json.Basic
import TaggedProse.Text.Surrogates
/-!
Tokens of JSON text. White space is the space, tab and line end characters of ASCII.
-/
namespace TaggedProse.Json

inductive Token where
  | openBrace
  | closeBrace
  | openBracket
  | closeBracket
  | colon
  | comma
  | string (text : Option String)
  /-- A number, or one of the names `true`, `false` and `null`. -/
  | atom (value : Json)

def isSpace (c : Char) : Bool := c == ' ' || c == '\t' || c == '\n' || c == '\r'

/-! ### Strings -/

def hexValue? (c : Char) : Option Nat :=
  if '0' ≤ c ∧ c ≤ '9' then some (c.toNat - 0x30)
  else if 'a' ≤ c ∧ c ≤ 'f' then some (c.toNat - 0x57)
  else if 'A' ≤ c ∧ c ≤ 'F' then some (c.toNat - 0x37)
  else none

def fourHex? (a b c d : Char) : Option Nat := do
  return (((← hexValue? a) * 16 + (← hexValue? b)) * 16 + (← hexValue? c)) * 16 + (← hexValue? d)

/-- What a backslash and `c` stand for. -/
def escaped? : Char → Option Char
  | '"' => some '"'
  | '\\' => some '\\'
  | '/' => some '/'
  | 'b' => some '\x08'
  | 'f' => some '\x0c'
  | 'n' => some '\n'
  | 'r' => some '\r'
  | 't' => some '\t'
  | _ => none

/-- The code points of a string whose opening quote stands before the text, and the rest. -/
def splitString? : List Char → Option (List Nat × List Char)
  | [] => none
  | '"' :: s => some ([], s)
  | '\\' :: 'u' :: a :: b :: c :: d :: s => do
    let n ← fourHex? a b c d
    let (more, rest) ← splitString? s
    return (n :: more, rest)
  | '\\' :: e :: s => do
    let c ← escaped? e
    let (more, rest) ← splitString? s
    return (c.toNat :: more, rest)
  | c :: s =>
    if c.toNat < 0x20 ∨ c = '\\' then none
    else (splitString? s).map fun (more, rest) => (c.toNat :: more, rest)

/-! ### Numbers and names -/

def isNumeralChar (c : Char) : Bool :=
  c.isDigit || c == '-' || c == '+' || c == '.' || c == 'e' || c == 'E'

/-- Digits, at least one of them, and nothing else. -/
def isDigits (s : List Char) : Bool := !s.isEmpty && s.all Char.isDigit

def isExponent : List Char → Bool
  | [] => true
  | e :: s =>
    (e == 'e' || e == 'E') &&
      match s with
      | '+' :: digits | '-' :: digits => isDigits digits
      | digits => isDigits digits

def isFraction : List Char → Bool
  | '.' :: s =>
    !(s.takeWhile Char.isDigit).isEmpty && isExponent (s.dropWhile Char.isDigit)
  | s => isExponent s

def isUnsigned : List Char → Bool
  | [] => false
  | '0' :: s => isFraction s
  | c :: s => c.isDigit && isFraction (s.dropWhile Char.isDigit)

def isNumeral : List Char → Bool
  | '-' :: s => isUnsigned s
  | s => isUnsigned s

def named? : List Char → Option Json
  | ['n', 'u', 'l', 'l'] => some .null
  | ['t', 'r', 'u', 'e'] => some (.bool true)
  | ['f', 'a', 'l', 's', 'e'] => some (.bool false)
  | _ => none

/-! ### Tokens -/

def punctuation? : Char → Option Token
  | '\x7b' => some .openBrace
  | '\x7d' => some .closeBrace
  | '[' => some .openBracket
  | ']' => some .closeBracket
  | ':' => some .colon
  | ',' => some .comma
  | _ => none

theorem length_of_splitString? {s rest : List Char} {ns : List Nat}
    (h : splitString? s = some (ns, rest)) : rest.length < s.length := by
  fun_induction splitString? s generalizing ns rest with
  | case1 => cases h
  | case2 s => cases h; simp
  | case3 a b c d s ih =>
    obtain ⟨_, _, h⟩ := Option.bind_eq_some_iff.1 h
    obtain ⟨⟨more, rest'⟩, hs, h⟩ := Option.bind_eq_some_iff.1 h
    cases h
    have := ih hs
    simp only [List.length_cons]
    omega
  | case4 e s _ ih =>
    obtain ⟨_, _, h⟩ := Option.bind_eq_some_iff.1 h
    obtain ⟨⟨more, rest'⟩, hs, h⟩ := Option.bind_eq_some_iff.1 h
    cases h
    have := ih hs
    simp only [List.length_cons]
    omega
  | case5 => cases h
  | case6 c s _ _ _ _ ih =>
    obtain ⟨⟨more, rest'⟩, hs, h⟩ := Option.map_eq_some_iff.1 h
    cases h
    have := ih hs
    simp only [List.length_cons]
    omega

def tokens? : List Char → Option (List Token)
  | [] => some []
  | c :: s =>
    if isSpace c then tokens? s
    else if c = '"' then
      match _h : splitString? s with
      | none => none
      | some (points, rest) =>
        (tokens? rest).map (.string ((pairSurrogates? points).map String.ofList) :: ·)
    else if isNumeralChar c then
      let numeral := c :: s.takeWhile isNumeralChar
      if isNumeral numeral then
        (tokens? (s.dropWhile isNumeralChar)).map (.atom (.number (String.ofList numeral)) :: ·)
      else none
    else
      match punctuation? c with
      | some token => (tokens? s).map (token :: ·)
      | none =>
        match named? (c :: s.takeWhile Char.isAlpha) with
        | some j => (tokens? (s.dropWhile Char.isAlpha)).map (.atom j :: ·)
        | none => none
termination_by s => s.length
decreasing_by
  all_goals simp only [List.length_cons]
  · omega
  · have := length_of_splitString? _h; omega
  · have := (List.dropWhile_suffix (l := s) isNumeralChar).length_le; omega
  · omega
  · have := (List.dropWhile_suffix (l := s) Char.isAlpha).length_le; omega

end TaggedProse.Json
