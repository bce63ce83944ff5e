/-!
Cutting a list at the elements that satisfy a predicate, which are dropped, and joining the pieces
again. `n` cuts leave `n + 1` pieces, some of which may be empty.
-/
namespace TaggedProse
variable {α : Type}

def onFirst (a : α) : List (List α) → List (List α)
  | [] => [[a]]
  | p :: ps => (a :: p) :: ps

def cut (isCut : α → Bool) : List α → List (List α)
  | [] => [[]]
  | a :: s => if isCut a then [] :: cut isCut s else onFirst a (cut isCut s)

def joinWith (a : α) : List (List α) → List α
  | [] => []
  | [p] => p
  | p :: q :: ps => p ++ a :: joinWith a (q :: ps)

theorem length_onFirst (a : α) {ps : List (List α)} (h : ps ≠ []) :
    (onFirst a ps).length = ps.length := by
  cases ps with
  | nil => exact absurd rfl h
  | cons p ps => rfl

theorem cut_ne_nil (isCut : α → Bool) (s : List α) : cut isCut s ≠ [] := by
  cases s with
  | nil => simp [cut]
  | cons a s =>
    rw [cut]
    split
    · simp
    · cases cut isCut s <;> simp [onFirst]

theorem length_cut (isCut : α → Bool) (s : List α) :
    (cut isCut s).length = s.countP isCut + 1 := by
  induction s with
  | nil => rfl
  | cons a s ih =>
    rw [cut]
    split
    · next h => simp [ih, h]
    · next h => simp [length_onFirst a (cut_ne_nil isCut s), ih, h]

end TaggedProse
