import TaggedProse.Rank
/-!
Sets of characters written down by their boundaries. The code points of a set form runs; the table
lists in ascending order where each run begins and where it has ended, so that a code point is in
the set when an odd number of boundaries lies at or before it.
-/
namespace TaggedProse.Unicode

structure CharSet where
  bounds : Array Nat

def CharSet.contains (s : CharSet) (c : Char) : Bool := rank s.bounds (c.toNat + 1) % 2 == 1

end TaggedProse.Unicode
