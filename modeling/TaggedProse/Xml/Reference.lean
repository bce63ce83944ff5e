import TaggedProse.Text.Lines
import TaggedProse.Text.Reference
/-!
Decoding the character references of element text and attribute values. Decoding is stricter than
escaping: a reference has to end, to have a known name, or to give the number of a character.
-/
namespace TaggedProse.Xml

inductive NumberError where
  | empty
  | signed
  | badDigit
  /-- The number does not fit in 32 bits. -/
  | tooLarge
  | null
  | noCharacter (code : Nat)
  deriving DecidableEq, Repr

def NumberError.message : NumberError → String
  | .empty => "cannot parse integer from empty string"
  | .signed => "unexpected number sign"
  | .badDigit => "invalid digit found in string"
  | .tooLarge => "number too large to fit in target type"
  | .null => "0x0 character is not permitted in XML"
  | .noCharacter code => s!"`{code}` is not a valid codepoint"

/-- Why a text cannot be decoded; positions are bytes of that text. -/
inductive ReferenceError where
  /-- The ampersand at `start` has no semicolon, in a text of `length` bytes. -/
  | unterminated (start length : Nat)
  /-- No character has this name, which stands from `start` to `stop`. -/
  | unknownName (start stop : Nat) (name : String)
  | badNumber (error : NumberError)
  deriving DecidableEq, Repr

def ReferenceError.message : ReferenceError → String
  | .unterminated start length =>
    s!"Error while escaping character at range {start}..{length}: Cannot find ';' after '&'"
  | .unknownName start stop name => s!"at {start}..{stop}: unrecognized entity `{name}`"
  | .badNumber error => "invalid character reference: " ++ error.message

def digit? (base : Nat) (c : Char) : Option Nat :=
  let n := c.toNat
  let value? :=
    if 0x30 ≤ n && n ≤ 0x39 then some (n - 0x30)
    else if 0x61 ≤ n && n ≤ 0x66 then some (n - 0x57)
    else if 0x41 ≤ n && n ≤ 0x46 then some (n - 0x37)
    else none
  value?.filter (· < base)

/-- Reads digits behind those that make up `n`. -/
def readDigits (base n : Nat) : List Char → Except NumberError Nat
  | [] => .ok n
  | c :: s =>
    match digit? base c with
    | none => .error .badDigit
    | some d => if UInt32.size ≤ n * base + d then .error .tooLarge else readDigits base (n * base + d) s

def readNumber (base : Nat) : List Char → Except NumberError Nat
  | [] => .error .empty
  | c :: s => if c = '+' ∨ c = '-' then .error .signed else readDigits base 0 (c :: s)

def readCode : List Char → Except NumberError Nat
  | 'x' :: digits => readNumber 16 digits
  | digits => readNumber 10 digits

def charOfCode (code : Nat) : Except NumberError Char :=
  if code = 0 then .error .null
  else if code.isValidChar then .ok (Char.ofNat code)
  else .error (.noCharacter code)

/-- The character that `&name;` stands for, when the name begins at `start`. -/
def resolve (start : Nat) (name : List Char) : Except ReferenceError Char :=
  match name with
  | '#' :: digits =>
    match readCode digits with
    | .error e => .error (.badNumber e)
    | .ok code =>
      match charOfCode code with
      | .error e => .error (.badNumber e)
      | .ok c => .ok c
  | _ =>
    match namedReference? name with
    | none => .error (.unknownName start (start + byteLength name) (String.ofList name))
    | some c => .ok c

def inReference (c : Char) : Bool := !(c == '&' || c == ';')

/-- Decodes what stands at `position` in a text of `length` bytes. -/
def decodeFrom (length position : Nat) : List Char → Except ReferenceError (List Char)
  | [] => .ok []
  | c :: s =>
    if c = '&' then
      let name := s.takeWhile inReference
      match _h : s.dropWhile inReference with
      | ';' :: rest =>
        match resolve (position + 1) name with
        | .error e => .error e
        | .ok d => (decodeFrom length (position + byteLength name + 2) rest).map (d :: ·)
      | _ => .error (.unterminated position length)
    else (decodeFrom length (position + c.utf8Size) s).map (c :: ·)
termination_by s => s.length
decreasing_by
  · have := (List.dropWhile_suffix (l := s) inReference).length_le
    rw [_h] at this
    simp only [List.length_cons] at this ⊢
    omega
  · simp

def decode (s : List Char) : Except ReferenceError (List Char) := decodeFrom (byteLength s) 0 s

end TaggedProse.Xml
