import Mathlib.Data.List.Basic
import TaggedProse.Proofs.Text.Lines
import TaggedProse.Text.Blank

/-! Cutting and joining, and what it means for lines: the lines of a text make it up again, and hold no newline. -/
namespace TaggedProse
variable {α : Type} {s t : List Char} {ls : List (List Char)}

theorem joinWith_append (a : α) {ps qs : List (List α)} (hp : ps ≠ []) (hq : qs ≠ []) :
    joinWith a (ps ++ qs) = joinWith a ps ++ a :: joinWith a qs := by
  induction ps with
  | nil => exact absurd rfl hp
  | cons p ps ih =>
    cases ps with
    | nil =>
      obtain ⟨q, qs, rfl⟩ := List.exists_cons_of_ne_nil hq
      rfl
    | cons p' ps => simp [joinWith, ← ih (by simp)]

/-- Of two texts that are written one after the other, the last piece of one goes on in the first of the other. -/
theorem joinWith_overlap (a : α) (ps : List (List α)) (p q : List α) (qs : List (List α)) :
    joinWith a (ps ++ (p ++ q) :: qs) = joinWith a (ps ++ [p]) ++ joinWith a (q :: qs) := by
  have hlast : joinWith a ((p ++ q) :: qs) = p ++ joinWith a (q :: qs) := by
    cases qs with
    | nil => rfl
    | cons q' qs => exact List.append_assoc p q _
  cases ps with
  | nil => exact hlast
  | cons p' ps =>
    rw [joinWith_append a (by simp) (by simp), joinWith_append a (by simp) (by simp), hlast]
    simp [joinWith]

theorem joinWith_onFirst (a b : α) (ps : List (List α)) (h : ps ≠ []) :
    joinWith a (onFirst b ps) = b :: joinWith a ps := by
  cases ps with
  | nil => exact absurd rfl h
  | cons p ps => cases ps <;> rfl

theorem onFirst_append (a : α) {ps : List (List α)} (h : ps ≠ []) (qs : List (List α)) :
    onFirst a (ps ++ qs) = onFirst a ps ++ qs := by
  cases ps with
  | nil => exact absurd rfl h
  | cons p ps => rfl

theorem cut_append {isCut : α → Bool} {b : α} (hb : isCut b = true) (s t : List α) :
    cut isCut (s ++ b :: t) = cut isCut s ++ cut isCut t := by
  induction s with
  | nil => simp [cut, hb]
  | cons a s ih =>
    rw [List.cons_append, cut, cut, ih]
    cases isCut a with
    | true => rfl
    | false => exact onFirst_append a (cut_ne_nil isCut s) _

theorem cut_of_forall {isCut : α → Bool} {s : List α} (h : ∀ a ∈ s, isCut a = false) : cut isCut s = [s] := by
  induction s with
  | nil => rfl
  | cons a s ih =>
    obtain ⟨ha, hs⟩ := List.forall_mem_cons.1 h
    rw [cut, ha, ih hs]
    rfl

theorem flatten_onFirst (a : α) (ps : List (List α)) : (onFirst a ps).flatten = a :: ps.flatten := by
  cases ps <;> rfl

theorem flatten_cut (isCut : α → Bool) (s : List α) : (cut isCut s).flatten = s.filter (!isCut ·) := by
  induction s with
  | nil => rfl
  | cons a s ih =>
    rw [cut]
    cases ha : isCut a with
    | true => simp [ha, ih]
    | false => simp [ha, ih, flatten_onFirst]

theorem isCut_of_mem_cut {isCut : α → Bool} {s p : List α} (hp : p ∈ cut isCut s) :
    ∀ a ∈ p, isCut a = false := by
  intro a ha
  have hmem : a ∈ (cut isCut s).flatten := List.mem_flatten.2 ⟨p, hp, ha⟩
  rw [flatten_cut] at hmem
  simpa using (List.mem_filter.1 hmem).2

theorem forall_mem_joinWith {a : α} {ps : List (List α)} {P : α → Prop} (ha : P a)
    (h : ∀ p ∈ ps, ∀ b ∈ p, P b) : ∀ b ∈ joinWith a ps, P b := by
  fun_induction joinWith a ps with
  | case1 => exact List.forall_mem_nil _
  | case2 p => exact h p List.mem_cons_self
  | case3 p q ps ih =>
    obtain ⟨hp, hps⟩ := List.forall_mem_cons.1 h
    exact List.forall_mem_append.2 ⟨hp, List.forall_mem_cons.2 ⟨ha, ih hps⟩⟩

/-- What stands between the pieces may as well be left out if it is filtered away. -/
theorem filter_joinWith {p : α → Bool} {a : α} (ha : p a = false) (ps : List (List α)) :
    (joinWith a ps).filter p = ps.flatten.filter p := by
  fun_induction joinWith a ps with
  | case1 => rfl
  | case2 piece => simp
  | case3 piece next ps ih => simp [ha, ih]

/-! ### Lines -/

theorem splitLines_ne_nil (s : List Char) : splitLines s ≠ [] := cut_ne_nil _ s

theorem length_splitLines (s : List Char) : (splitLines s).length = newlines s + 1 := length_cut _ s

theorem splitLines_append_newline (s t : List Char) :
    splitLines (s ++ '\n' :: t) = splitLines s ++ splitLines t :=
  cut_append rfl s t

theorem splitLines_newline_cons (s : List Char) : splitLines ('\n' :: s) = [] :: splitLines s :=
  splitLines_append_newline [] s

/-- A blank line between two texts is one more line, which is empty. -/
theorem splitLines_append (s t : List Char) :
    splitLines (s ++ ['\n', '\n'] ++ t) = splitLines s ++ [] :: splitLines t := by
  rw [List.append_assoc, List.cons_append, List.singleton_append, splitLines_append_newline,
    splitLines_newline_cons]

theorem splitLines_cons_of_ne {c : Char} (hc : c ≠ '\n') (s : List Char) :
    splitLines (c :: s) = onFirst c (splitLines s) := by
  rw [splitLines, cut, if_neg (by simpa using hc), ← splitLines]

/-- The first line goes up to the first newline. -/
theorem exists_splitLines (s : List Char) : ∃ ls, splitLines s = s.takeWhile (· != '\n') :: ls := by
  induction s with
  | nil => exact ⟨[], rfl⟩
  | cons c s ih =>
    by_cases hc : c = '\n'
    · exact ⟨splitLines s, by simp [hc, splitLines_newline_cons]⟩
    · obtain ⟨ls, hls⟩ := ih
      exact ⟨ls, by rw [splitLines_cons_of_ne hc, hls, onFirst, List.takeWhile_cons_of_pos (by simpa using hc)]⟩

theorem joinWith_splitLines (s : List Char) : joinWith '\n' (splitLines s) = s := by
  induction s with
  | nil => rfl
  | cons c s ih =>
    by_cases hc : c = '\n'
    · obtain ⟨ls, hls⟩ := exists_splitLines s
      rw [hls] at ih
      rw [hc, splitLines_newline_cons, hls, joinWith, ih]
      rfl
    · rw [splitLines_cons_of_ne hc, joinWith_onFirst _ _ _ (splitLines_ne_nil s), ih]

theorem newlines_of_mem_splitLines (s : List Char) : ∀ l ∈ splitLines s, newlines l = 0 := by
  induction s with
  | nil => simp [splitLines, cut]
  | cons c s ih =>
    by_cases hc : c = '\n'
    · rw [hc, splitLines_newline_cons]
      exact List.forall_mem_cons.2 ⟨newlines_nil, ih⟩
    · obtain ⟨ls, hls⟩ := exists_splitLines s
      rw [hls] at ih
      obtain ⟨hfirst, hothers⟩ := List.forall_mem_cons.1 ih
      rw [splitLines_cons_of_ne hc, hls, onFirst]
      exact List.forall_mem_cons.2 ⟨(newlines_cons_of_ne hc _).trans hfirst, hothers⟩

/-- A text without newlines makes the first line longer. -/
theorem splitLines_append_left (hs : newlines s = 0) {l : List Char} (h : splitLines t = l :: ls) :
    splitLines (s ++ t) = (s ++ l) :: ls := by
  induction s with
  | nil => exact h
  | cons c s ih =>
    have hc : c ≠ '\n' := by
      rintro rfl
      simp at hs
    rw [newlines_cons_of_ne hc] at hs
    rw [List.cons_append, splitLines_cons_of_ne hc, ih hs]
    rfl

theorem splitLines_of_newlines (h : newlines s = 0) : splitLines s = [s] := by
  have hsplit := splitLines_append_left (t := []) h rfl
  rwa [List.append_nil] at hsplit

theorem splitLines_joinWith (hne : ls ≠ []) (h : ∀ l ∈ ls, newlines l = 0) :
    splitLines (joinWith '\n' ls) = ls := by
  induction ls with
  | nil => exact absurd rfl hne
  | cons l ls ih =>
    obtain ⟨hl, hls⟩ := List.forall_mem_cons.1 h
    cases ls with
    | nil => exact splitLines_of_newlines hl
    | cons l' ls =>
      have hsplit := ih (by simp) hls
      rw [joinWith, splitLines_append_left hl (splitLines_newline_cons _), hsplit, List.append_nil]

/-- Between lines without newlines there are as many newlines as there are gaps. -/
theorem newlines_joinWith (h : ∀ l ∈ ls, newlines l = 0) : newlines (joinWith '\n' ls) = ls.length - 1 := by
  induction ls with
  | nil => rfl
  | cons l ls ih =>
    cases ls with
    | nil => exact h l List.mem_cons_self
    | cons l' ls =>
      rw [joinWith, newlines_append, newlines_newline_cons, h l List.mem_cons_self,
        ih fun m hm => h m (List.mem_cons_of_mem _ hm)]
      simp

def firstLine (s : List Char) : List Char := (splitLines s).headD []

def lastLine (s : List Char) : List Char := (splitLines s).getLastD []

theorem splitLines_eq_cons (s : List Char) : splitLines s = firstLine s :: (splitLines s).tail := by
  obtain ⟨ls, hls⟩ := exists_splitLines s
  rw [firstLine, hls]
  rfl

theorem splitLines_eq_concat (s : List Char) : splitLines s = (splitLines s).dropLast ++ [lastLine s] := by
  rw [lastLine, List.getLastD_eq_getLast?, List.getLast?_eq_some_getLast (splitLines_ne_nil s)]
  exact (List.dropLast_append_getLast _).symm

theorem length_dropLast_splitLines (s : List Char) : (splitLines s).dropLast.length = newlines s := by
  rw [List.length_dropLast, length_splitLines, Nat.add_sub_cancel]

/-- The lines of two texts that are written one after the other. -/
theorem splitLines_append_eq (s t : List Char) :
    splitLines (s ++ t) = (splitLines s).dropLast ++ (lastLine s ++ firstLine t) :: (splitLines t).tail := by
  have hs := newlines_of_mem_splitLines s
  have ht := newlines_of_mem_splitLines t
  have hjoin := joinWith_overlap '\n' (splitLines s).dropLast (lastLine s) (firstLine t) (splitLines t).tail
  rw [← splitLines_eq_concat, ← splitLines_eq_cons, joinWith_splitLines, joinWith_splitLines] at hjoin
  rw [splitLines_eq_concat s] at hs
  rw [splitLines_eq_cons t] at ht
  rw [← hjoin, splitLines_joinWith (by simp)]
  intro l hl
  rcases List.mem_append.1 hl with hl | hl
  · exact hs l (List.mem_append_left _ hl)
  · rcases List.mem_cons.1 hl with rfl | hl
    · rw [newlines_append, hs _ (by simp), ht _ List.mem_cons_self]
    · exact ht l (List.mem_cons_of_mem _ hl)

theorem newlines_firstLine (s : List Char) : newlines (firstLine s) = 0 :=
  newlines_of_mem_splitLines s _ (by rw [splitLines_eq_cons s]; exact List.mem_cons_self)

theorem newlines_lastLine (s : List Char) : newlines (lastLine s) = 0 :=
  newlines_of_mem_splitLines s _ (by rw [splitLines_eq_concat s]; simp)

/-- A text is its first line, or goes on after it. -/
theorem firstLine_cases (s : List Char) : s = firstLine s ∨ ∃ t, s = firstLine s ++ '\n' :: t := by
  have hjoin := joinWith_splitLines s
  rw [splitLines_eq_cons s] at hjoin
  cases htail : (splitLines s).tail with
  | nil =>
    rw [htail] at hjoin
    exact .inl hjoin.symm
  | cons l ls =>
    rw [htail] at hjoin
    exact .inr ⟨_, hjoin.symm⟩

theorem suffix_joinWith (ls : List (List Char)) (l : List Char) : l <:+ joinWith '\n' (ls ++ [l]) := by
  induction ls with
  | nil => exact List.suffix_rfl
  | cons l' ls ih =>
    obtain ⟨l'', rest, heq⟩ := List.exists_cons_of_ne_nil (List.concat_ne_nil l ls)
    rw [List.cons_append, heq, joinWith]
    rw [heq] at ih
    exact ih.trans ((List.suffix_cons _ _).trans (List.suffix_append _ _))

theorem lastLine_suffix (s : List Char) : lastLine s <:+ s := by
  have hsuffix := suffix_joinWith (splitLines s).dropLast (lastLine s)
  rwa [← splitLines_eq_concat, joinWith_splitLines] at hsuffix

theorem lastLine_append (ht : newlines t = 0) (s : List Char) : lastLine (s ++ t) = lastLine s ++ t := by
  have hline := splitLines_append_eq s t
  rw [firstLine, splitLines_of_newlines ht] at hline
  rw [lastLine, hline]
  simp

/-! ### The carriage return at the end of a line -/

theorem exists_lineContent_append (l : List Char) :
    ∃ cr, (cr = [] ∨ cr = ['\r']) ∧ lineContent l ++ cr = l := by
  unfold lineContent
  split
  · next hlast => exact ⟨['\r'], .inr rfl, List.dropLast_append_getLast? _ hlast⟩
  · exact ⟨[], .inl rfl, List.append_nil l⟩

theorem newlines_lineContent (l : List Char) : newlines (lineContent l) = newlines l := by
  obtain ⟨cr, hcr, heq⟩ := exists_lineContent_append l
  have hnone : newlines cr = 0 := by rcases hcr with rfl | rfl <;> rfl
  have hsum := congrArg newlines heq
  rwa [newlines_append, hnone] at hsum

theorem allBlank_lineContent (l : List Char) : allBlank (lineContent l) = allBlank l := by
  obtain ⟨cr, hcr, heq⟩ := exists_lineContent_append l
  have hblank : cr.all isBlank = true := by rcases hcr with rfl | rfl <;> decide
  calc
    allBlank (lineContent l) = allBlank (lineContent l ++ cr) := by simp [allBlank, hblank]
    _ = allBlank l := by rw [heq]

end TaggedProse
