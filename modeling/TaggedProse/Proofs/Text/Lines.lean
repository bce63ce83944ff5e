import TaggedProse.Assembly.Prose
import TaggedProse.Text.Lines
import TaggedProse.Text.Reference

/-! Lines are counted by newlines, wherever they are counted: along a text, at a position in bytes, and
in escaped text. -/
namespace TaggedProse
variable {s t : List Char} {c : Char} {p : Char → Bool}

/-! ### Counting newlines -/

@[simp] theorem newlines_nil : newlines [] = 0 := rfl

@[simp] theorem newlines_append (s t : List Char) : newlines (s ++ t) = newlines s + newlines t :=
  List.count_append

theorem newlines_cons (c : Char) (s : List Char) :
    newlines (c :: s) = newlines s + if c = '\n' then 1 else 0 := by
  simp [newlines, List.count_cons]

@[simp] theorem newlines_newline_cons (s : List Char) : newlines ('\n' :: s) = newlines s + 1 :=
  newlines_cons _ s

theorem newlines_cons_of_ne (h : c ≠ '\n') (s : List Char) : newlines (c :: s) = newlines s := by
  simp [newlines_cons, h]

theorem newlines_eq_zero (h : ∀ c ∈ s, c ≠ '\n') : newlines s = 0 :=
  List.count_eq_zero.2 fun hm => h _ hm rfl

theorem newlines_takeWhile (h : ∀ c, p c = true → c ≠ '\n') (s : List Char) :
    newlines (s.takeWhile p) = 0 :=
  newlines_eq_zero fun c hc => h c (List.all_eq_true.1 List.all_takeWhile c hc)

theorem newlines_dropWhile (h : ∀ c, p c = true → c ≠ '\n') (s : List Char) :
    newlines (s.dropWhile p) = newlines s := by
  have happend := congrArg newlines (List.takeWhile_append_dropWhile (p := p) (l := s))
  rw [newlines_append, newlines_takeWhile h, Nat.zero_add] at happend
  exact happend

/-! ### Positions -/

@[simp] theorem byteLength_nil : byteLength [] = 0 := rfl

@[simp] theorem byteLength_cons (c : Char) (s : List Char) :
    byteLength (c :: s) = c.utf8Size + byteLength s := rfl

@[simp] theorem byteLength_append (s t : List Char) :
    byteLength (s ++ t) = byteLength s + byteLength t := by
  induction s with
  | nil => rw [List.nil_append, byteLength_nil, Nat.zero_add]
  | cons c s ih => rw [List.cons_append, byteLength_cons, byteLength_cons, ih, Nat.add_assoc]

theorem rankIn_append {below above : List Nat} {x : Nat} (hb : ∀ n ∈ below, n < x)
    (ha : ∀ n ∈ above, x ≤ n) (lo hi : Nat) (h : hi ≤ (below ++ above).toArray.size)
    (hlo : lo ≤ below.length) (hhi : below.length ≤ hi) :
    rankIn (below ++ above).toArray x lo hi h = below.length := by
  have hmid : ∀ i (hi : i < (below ++ above).toArray.size),
      (below ++ above).toArray[i] < x ↔ i < below.length := by
    intro i hi
    rw [List.getElem_toArray]
    by_cases hlt : i < below.length
    · rw [List.getElem_append_left hlt]
      exact ⟨fun _ => hlt, fun _ => hb _ (List.getElem_mem hlt)⟩
    · rw [List.getElem_append_right (Nat.le_of_not_lt hlt)]
      exact ⟨fun hx => absurd hx (Nat.not_lt_of_le (ha _ (List.getElem_mem _))), fun h => absurd h hlt⟩
  fun_induction rankIn (below ++ above).toArray x lo hi h with
  | case1 lo hi h hlt hbelow ih => exact ih ((hmid _ _).1 hbelow) hhi
  | case2 lo hi h hlt habove ih => exact ih hlo (Nat.le_of_not_lt fun h => habove ((hmid _ _).2 h))
  | case3 lo hi h hge => omega

/-- The rank of a number is where it parts the array. -/
theorem rank_append {below above : List Nat} {x : Nat} (hb : ∀ n ∈ below, n < x)
    (ha : ∀ n ∈ above, x ≤ n) : rank (below ++ above).toArray x = below.length :=
  rankIn_append hb ha 0 _ _ (Nat.zero_le _) (by simp)

theorem newlinePositions_append (start : Nat) (s t : List Char) :
    newlinePositions start (s ++ t) =
      newlinePositions start s ++ newlinePositions (start + byteLength s) t := by
  induction s generalizing start with
  | nil => rfl
  | cons c s ih =>
    rw [List.cons_append, newlinePositions, newlinePositions, ih, byteLength_cons, Nat.add_assoc]
    split <;> rfl

theorem length_newlinePositions (start : Nat) (s : List Char) :
    (newlinePositions start s).length = newlines s := by
  induction s generalizing start with
  | nil => rfl
  | cons c s ih =>
    rw [newlinePositions, newlines_cons]
    split <;> simp [ih]

theorem mem_newlinePositions {start n : Nat} (h : n ∈ newlinePositions start s) :
    start ≤ n ∧ n < start + byteLength s := by
  induction s generalizing start with
  | nil => cases h
  | cons c s ih =>
    have hsize := c.utf8Size_pos
    rw [newlinePositions] at h
    rw [byteLength_cons]
    split at h
    · rcases List.mem_cons.1 h with rfl | h
      · omega
      · have := ih h
        omega
    · have := ih h
      omega

/-- The line of a position is the number of newlines before it. -/
theorem lineAt_byteLength (s t : List Char) :
    (LineIndex.of (s ++ t)).lineAt (byteLength s) = newlines s := by
  rw [LineIndex.lineAt, LineIndex.of, newlinePositions_append, rank_append, length_newlinePositions]
  · intro n hn
    have := mem_newlinePositions hn
    omega
  · intro n hn
    have := mem_newlinePositions hn
    omega

theorem lastLine_of (s : List Char) : (LineIndex.of s).lastLine = newlines s := by
  simp [LineIndex.lastLine, LineIndex.of, length_newlinePositions]

/-! ### Escaped text -/

theorem newlines_escape (place : Place) (s : List Char) : newlines (escape place s) = newlines s := by
  induction s with
  | nil => rfl
  | cons c s ih =>
    unfold escape
    change newlines (_ ++ _) = newlines ([c] ++ s)
    rw [newlines_append, newlines_append, ih]
    refine congrArg (· + newlines s) ?_
    split
    · rfl
    · rfl
    · split <;> rfl
    · split <;> rfl
    · rfl

/-- What is written for a text depends on what follows, but not on what comes before. -/
theorem suffix_escape (place : Place) (s t : List Char) : escape place t <:+ escape place (s ++ t) := by
  induction s with
  | nil => exact List.suffix_rfl
  | cons c s ih => exact ih.trans (List.suffix_append _ _)

/-! ### The first visible character -/

theorem visibleLine?_append (line : Nat) (s t : List Char) :
    visibleLine? line (s ++ t) = (visibleLine? line s).or (visibleLine? (line + newlines s) t) := by
  induction s generalizing line with
  | nil => rfl
  | cons c s ih =>
    rw [List.cons_append, visibleLine?, visibleLine?]
    split
    · rw [ih, newlines_cons]
      split
      · rw [Nat.add_assoc, Nat.add_comm 1]
      · rfl
    · rfl

end TaggedProse
