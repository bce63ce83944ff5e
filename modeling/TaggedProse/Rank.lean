/-!
The rank of a number in an ascending array: how many entries lie below it. Line indices and
character sets are both read off ranks, which are found by bisection.
-/
namespace TaggedProse

/-- Bisects `a` between `lo` and `hi`: entries before `lo` are below `x`, those from `hi` on are not. -/
def rankIn (a : Array Nat) (x lo hi : Nat) (h : hi ≤ a.size) : Nat :=
  if lt : lo < hi then
    if a[(lo + hi) / 2] < x then rankIn a x ((lo + hi) / 2 + 1) hi h
    else rankIn a x lo ((lo + hi) / 2) (by omega)
  else lo
termination_by hi - lo

/-- How many entries of the ascending array `a` are below `x`. -/
def rank (a : Array Nat) (x : Nat) : Nat := rankIn a x 0 a.size (Nat.le_refl _)

end TaggedProse
