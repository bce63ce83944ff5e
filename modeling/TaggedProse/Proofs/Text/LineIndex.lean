import Mathlib.Data.List.Basic
import Mathlib.Order.Monotone.Defs
import TaggedProse.Proofs.Text.Bytes

/-! A line index counts newlines: the line of a position is the number of newline bytes before it, also inside a
character and behind the end of the text. -/
namespace TaggedProse

def newlineByte : UInt8 := 0x0A

/-- No other character has a newline among its bytes, so that the positions may be read off the bytes. -/
theorem newlinePositions_eq_idxsOf (start : Nat) (s : List Char) :
    newlinePositions start s = (bytes s).idxsOf newlineByte start := by
  induction s generalizing start with
  | nil => rfl
  | cons c s ih =>
    rw [newlinePositions, ih, bytes_cons, List.idxsOf_append, String.length_utf8EncodeChar]
    split
    · next hc =>
      subst hc
      rfl
    · next hc =>
      have hnone : (String.utf8EncodeChar c).idxsOf newlineByte start = [] :=
        List.idxsOf_eq_nil_iff.2 fun b hb =>
          beq_eq_false_iff_ne.2 (ne_of_mem_utf8EncodeChar (d := '\n') rfl (by decide) hc hb)
      rw [hnone, List.nil_append]

/-- Bisection among the places of `x` finds how many of them lie before `n`, whatever stands at `n`. -/
theorem rank_idxsOf {α : Type} [BEq α] (x : α) (xs : List α) (n : Nat) :
    rank (xs.idxsOf x).toArray n = (xs.take n).count x := by
  have hsplit : (xs.take n ++ xs.drop n).idxsOf x =
      (xs.take n).idxsOf x ++ (xs.drop n).idxsOf x (xs.take n).length := by
    rw [List.idxsOf_append, Nat.zero_add]
  rw [List.take_append_drop] at hsplit
  have hbelow : ∀ i ∈ (xs.take n).idxsOf x, i < n := by
    intro i hi
    have hlt := List.lt_add_of_mem_idxsOf i hi
    rw [List.length_take] at hlt
    omega
  have habove : ∀ i ∈ (xs.drop n).idxsOf x (xs.take n).length, n ≤ i := by
    intro i hi
    have hge := List.ge_of_mem_idxsOf i hi
    have hlt := List.lt_add_of_mem_idxsOf i hi
    -- nothing is left to find when the list ends before `n`
    rw [List.length_drop] at hlt
    rw [List.length_take] at hge hlt
    omega
  rw [hsplit, rank_append hbelow habove, List.length_idxsOf]

namespace LineIndex

theorem lineAt_of (s : List Char) (n : Nat) : (of s).lineAt n = ((bytes s).take n).count newlineByte := by
  rw [lineAt, of, newlinePositions_eq_idxsOf]
  exact rank_idxsOf newlineByte (bytes s) n

theorem lineCount_of (s : List Char) : (of s).lineCount = (bytes s).count newlineByte + 1 := by
  rw [lineCount, of, newlinePositions_eq_idxsOf, List.size_toArray, List.length_idxsOf]

theorem lineAt_succ (s : List Char) (n : Nat) :
    (of s).lineAt (n + 1) = (of s).lineAt n + if (bytes s)[n]? = some newlineByte then 1 else 0 := by
  rw [lineAt_of, lineAt_of, List.take_add_one, List.count_append]
  cases (bytes s)[n]? with
  | none => rfl
  | some b => simp [List.count_singleton]

/-- The line of a position is the number of newline bytes before it. So lines ascend with the positions, by one behind
each newline and nowhere else, and none lies behind the last line of the text. -/
theorem lineAt_eq_count_and_monotone (s : List Char) :
    (∀ n, (of s).lineAt n = ((bytes s).take n).count newlineByte) ∧
      Monotone (of s).lineAt ∧
      (∀ n, (of s).lineAt (n + 1) = (of s).lineAt n + if (bytes s)[n]? = some newlineByte then 1 else 0) ∧
      (of s).lineCount = (bytes s).count newlineByte + 1 ∧
      ∀ n, (of s).lineAt n ≤ (of s).lineCount - 1 := by
  refine ⟨lineAt_of s, fun m n hmn => ?_, lineAt_succ s, lineCount_of s, fun n => ?_⟩
  · rw [lineAt_of, lineAt_of]
    exact (List.take_sublist_take_left hmn).count_le _
  · rw [lineAt_of, lineCount_of, Nat.add_sub_cancel]
    exact (List.take_sublist n _).count_le _

/-- Inside the first character, on the newlines, and behind the end. -/
example : [1, 2, 3, 4, 9].map (of "é\n\nx".toList).lineAt = [0, 0, 1, 2, 2] := by cbv

end LineIndex

end TaggedProse
