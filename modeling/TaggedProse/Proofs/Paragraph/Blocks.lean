import Mathlib.Data.List.TakeWhile
import TaggedProse.Proofs.Inline.TagsIn
import TaggedProse.Proofs.Paragraph.Concatenation

/-! Paragraphs are blocks of lines. A blank line ends a block, unless the element that the block's first line
opens has been open on all lines before. -/
namespace TaggedProse
variable {name l first : List Char} {ls more : List (List Char)} {open? : Option OpenElement} {n : Nat}
  {p : Paragraph} {ps : List Paragraph}

/-- The line begins, after its indentation, with a tag that opens an element called `name`. -/
def LeadsWith (name line : List Char) : Prop :=
  ∃ t, TagSpan.scan? (trimLeft line) = some t ∧ t.opens = true ∧ t.name = name

def excess (name : List Char) : List (List Char) → Int
  | [] => 0
  | l :: ls => surplus name (tagsIn l) + excess name ls

/-- What makes the lines `first :: more` a paragraph, when the lines `after` follow. -/
structure IsBlock (first : List Char) (more after : List (List Char)) : Prop where
  visible : allBlank first = false
  /-- It ends with the document, or before a blank line. -/
  ends : after = [] ∨ ∃ line rest, after = line :: rest ∧ allBlank line = true
  /-- A blank line belongs to it if the element of the first line has been open on all lines before. -/
  held : ∀ k line, more[k]? = some line → allBlank line = true →
    ∃ name, LeadsWith name first ∧ ∀ j ≤ k, 0 < excess name (first :: more.take j)
  /-- Once that element has been closed there are no more blank lines. -/
  settled : ∀ name, LeadsWith name first → ∀ j, excess name (first :: more.take j) ≤ 0 →
    ∀ k line, j ≤ k → more[k]? = some line → allBlank line = false
  /-- It does not end before the document while that element is open. -/
  closed : after ≠ [] → ∀ name, LeadsWith name first →
    ∃ j ≤ more.length, excess name (first :: more.take j) ≤ 0

/-! ### What is open -/

theorem LeadsWith.unique {name' : List Char} (h : LeadsWith name l) (h' : LeadsWith name' l) : name = name' := by
  obtain ⟨t, ht, -, rfl⟩ := h
  obtain ⟨t', ht', -, rfl⟩ := h'
  rw [ht] at ht'
  cases ht'
  rfl

theorem leading?_eq_some {e : OpenElement} :
    OpenElement.leading? l = some e ↔ LeadsWith e.name l ∧ e.depth = 0 := by
  unfold OpenElement.leading? LeadsWith
  constructor
  · intro h
    obtain ⟨t, hfilter, rfl⟩ := Option.map_eq_some_iff.1 h
    obtain ⟨hscan, hopens⟩ := Option.filter_eq_some_iff.1 hfilter
    exact ⟨⟨t, hscan, hopens, rfl⟩, rfl⟩
  · rintro ⟨⟨t, hscan, hopens, hname⟩, hdepth⟩
    obtain ⟨name, depth⟩ := e
    cases hname
    cases hdepth
    rw [hscan, Option.filter_some, if_pos hopens]
    rfl


@[simp] theorem excess_nil (name : List Char) : excess name [] = 0 := rfl

@[simp] theorem excess_cons (name l : List Char) (ls : List (List Char)) :
    excess name (l :: ls) = balance name l + excess name ls := by
  rw [balance_eq_surplus]
  rfl

theorem openAfter_none (ls : List (List Char)) : openAfter none ls = none := by
  induction ls with
  | nil => rfl
  | cons l ls ih => exact ih

/-- An element is open after some lines if it has been open after each of them. -/
theorem isSome_openAfter (e : OpenElement) (ls : List (List Char)) :
    (openAfter (some e) ls).isSome = true ↔
      ∀ j < ls.length, 0 < e.depth + excess e.name (ls.take (j + 1)) := by
  induction ls generalizing e with
  | nil => simp [openAfter]
  | cons l ls ih =>
    change (openAfter (e.after? l) ls).isSome = true ↔ _
    rw [List.length_cons, Nat.forall_lt_succ_left']
    unfold OpenElement.after?
    dsimp only
    split
    · next hdepth =>
      rw [openAfter_none]
      simp
      omega
    · next hdepth =>
      rw [ih]
      simp [Int.add_assoc]
      omega

/-- The element that the first line opens is still open after it and `k` more lines. -/
theorem isSome_openAfter_leading? (first : List Char) (more : List (List Char)) :
    (openAfter (OpenElement.leading? first) (first :: more)).isSome = true ↔
      ∃ name, LeadsWith name first ∧ ∀ j ≤ more.length, 0 < excess name (first :: more.take j) := by
  constructor
  · intro h
    cases hleading : OpenElement.leading? first with
    | none => rw [hleading, openAfter_none] at h; cases h
    | some e =>
      obtain ⟨hleads, hdepth⟩ := leading?_eq_some.1 hleading
      rw [hleading, isSome_openAfter] at h
      refine ⟨e.name, hleads, fun j hj => ?_⟩
      have hopen := h j (Nat.lt_succ_of_le hj)
      rwa [hdepth, Int.zero_add, List.take_succ_cons] at hopen
  · rintro ⟨name, hleads, hopen⟩
    have hleading : OpenElement.leading? first = some ⟨name, 0⟩ := leading?_eq_some.2 ⟨hleads, rfl⟩
    rw [hleading, isSome_openAfter]
    intro j hj
    rw [List.take_succ_cons, Int.zero_add]
    exact hopen j (Nat.le_of_lt_succ hj)

/-! ### Blocks -/

theorem isSome_openAfter_of_blank {k : Nat} (h : (splitBlock open? ls).1[k]? = some l)
    (hblank : allBlank l = true) : (openAfter open? ((splitBlock open? ls).1.take k)).isSome = true := by
  induction ls generalizing open? k with
  | nil => cases h
  | cons l' ls ih =>
    rw [splitBlock] at h ⊢
    split at h
    · cases h
    · next hgoes =>
      rw [if_neg hgoes]
      cases k with
      | zero =>
        cases h
        cases open? with
        | none => simp [hblank] at hgoes
        | some e => rfl
      | succ k => exact ih h

theorem snd_splitBlock (open? : Option OpenElement) (ls : List (List Char)) :
    (splitBlock open? ls).2 = [] ∨ openAfter open? (splitBlock open? ls).1 = none ∧
      ∃ line rest, (splitBlock open? ls).2 = line :: rest ∧ allBlank line = true := by
  induction ls generalizing open? with
  | nil => exact .inl rfl
  | cons l ls ih =>
    rw [splitBlock]
    split
    · next hends =>
      obtain ⟨hnone, hblank⟩ := Bool.and_eq_true_iff.1 hends
      exact .inr ⟨Option.isNone_iff_eq_none.1 hnone, l, ls, rfl, hblank⟩
    · exact ih _

theorem isBlock_splitBlock (hfirst : allBlank first = false) (ls : List (List Char)) :
    IsBlock first (splitBlock ((OpenElement.leading? first).bind (·.after? first)) ls).1
      (splitBlock ((OpenElement.leading? first).bind (·.after? first)) ls).2 := by
  generalize hopen : (OpenElement.leading? first).bind (·.after? first) = open?
  have hafter : ∀ more, openAfter open? more = openAfter (OpenElement.leading? first) (first :: more) := by
    rw [← hopen]
    exact fun _ => rfl
  have hheld : ∀ k line, (splitBlock open? ls).1[k]? = some line → allBlank line = true →
      ∃ name, LeadsWith name first ∧ ∀ j ≤ k, 0 < excess name (first :: (splitBlock open? ls).1.take j) := by
    intro k line hline hblank
    have hlength := (List.getElem?_eq_some_iff.1 hline).1
    have hsome := isSome_openAfter_of_blank hline hblank
    rw [hafter, isSome_openAfter_leading?] at hsome
    obtain ⟨name, hleads, hpositive⟩ := hsome
    refine ⟨name, hleads, fun j hj => ?_⟩
    have hj' := hpositive j (by rw [List.length_take]; omega)
    rwa [List.take_take, Nat.min_eq_left hj] at hj'
  refine ⟨hfirst, ?_, hheld, ?_, ?_⟩
  · exact (snd_splitBlock open? ls).imp_right And.right
  · intro name hleads j hj k line hjk hline
    cases hblank : allBlank line with
    | false => rfl
    | true =>
      obtain ⟨name', hleads', hpositive⟩ := hheld k line hline hblank
      rw [hleads.unique hleads'] at hj
      exact absurd (hpositive j hjk) (Int.not_lt.2 hj)
  · intro hrest name hleads
    have hnone := ((snd_splitBlock open? ls).resolve_left hrest).1
    rw [hafter] at hnone
    by_contra hno
    have hsome := (isSome_openAfter_leading? first (splitBlock open? ls).1).2
      ⟨name, hleads, fun j hj => Int.not_le.1 fun hle => hno ⟨j, hj, hle⟩⟩
    rw [hnone] at hsome
    cases hsome

/-- The paragraphs of some lines, the first of which is line `n`, and the blank lines between them. -/
inductive Blocks : Nat → List (List Char) → List Paragraph → Prop
  | nil (n : Nat) : Blocks n [] []
  | blank {n : Nat} {l : List Char} {ls : List (List Char)} {ps : List Paragraph} (blank : allBlank l = true)
      (rest : Blocks (n + 1) ls ps) : Blocks n (l :: ls) ps
  | block {n : Nat} {first : List Char} {more after : List (List Char)} {ps : List Paragraph}
      (isBlock : IsBlock first more after) (rest : Blocks (n + 1 + more.length) after ps) :
      Blocks n (first :: (more ++ after)) (⟨n, lineContent (joinWith '\n' (first :: more))⟩ :: ps)

theorem blocks_paragraphsFrom (n : Nat) (ls : List (List Char)) : Blocks n ls (paragraphsFrom n ls) := by
  fun_induction paragraphsFrom n ls with
  | case1 n => exact .nil n
  | case2 n l ls hblank ih => exact .blank hblank ih
  | case3 n l ls hblank block ih =>
    have hblock := Blocks.block (isBlock_splitBlock (Bool.eq_false_iff.2 hblank) ls) ih
    rwa [append_splitBlock] at hblock

theorem exists_of_mem_blocks (h : Blocks n ls ps) (hp : p ∈ ps) :
    ∃ before first more after, ls = before ++ (first :: (more ++ after)) ∧ n + before.length = p.startLine ∧
      p.source = lineContent (joinWith '\n' (first :: more)) ∧ IsBlock first more after := by
  induction h with
  | nil n => cases hp
  | @blank n l ls ps hblank hrest ih =>
    obtain ⟨before, first, more, after, rfl, hline, hsource, hblock⟩ := ih hp
    exact ⟨l :: before, first, more, after, rfl, by rw [← hline, List.length_cons]; omega, hsource, hblock⟩
  | @block n first more after ps hblock hrest ih =>
    rcases List.mem_cons.1 hp with rfl | hp
    · exact ⟨[], first, more, after, rfl, rfl, rfl, hblock⟩
    · obtain ⟨before, first', more', after', rfl, hline, hsource, hblock'⟩ := ih hp
      refine ⟨first :: (more ++ before), first', more', after', by simp, ?_, hsource, hblock'⟩
      rw [← hline, List.length_cons, List.length_append]
      omega

theorem pairwise_of_blocks (h : Blocks n ls ps) : ps.Pairwise fun p q => p.startLine < q.startLine := by
  induction h with
  | nil n => exact .nil
  | blank hblank hrest ih => exact ih
  | @block n first more after ps hblock hrest ih =>
    refine .cons (fun q hq => ?_) ih
    obtain ⟨before, -, -, -, -, hline, -⟩ := exists_of_mem_blocks hrest hq
    dsimp only
    omega

end TaggedProse
