/-!
Text from 16-bit units: a high surrogate and the low surrogate after it make up one character, and
a surrogate that stands alone names none.
-/
namespace TaggedProse

def isHighSurrogate (n : Nat) : Bool := 0xD800 ≤ n && n ≤ 0xDBFF

def isLowSurrogate (n : Nat) : Bool := 0xDC00 ≤ n && n ≤ 0xDFFF

/-- The characters of some code points, among which pairs of surrogates count as one. -/
def pairSurrogates? : List Nat → Option (List Char)
  | [] => some []
  | [n] => if isHighSurrogate n || isLowSurrogate n then none else some [Char.ofNat n]
  | m :: n :: s =>
    if isHighSurrogate m then
      if isLowSurrogate n then
        (pairSurrogates? s).map (Char.ofNat (0x10000 + (m - 0xD800) * 0x400 + (n - 0xDC00)) :: ·)
      else none
    else if isLowSurrogate m then none
    else (pairSurrogates? (n :: s)).map (Char.ofNat m :: ·)

end TaggedProse
