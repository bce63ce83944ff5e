import Mathlib.Data.List.Basic
import TaggedProse.Inline.TagsIn
import TaggedProse.Proofs.Inline.Tag

/-! The tags in a text. A tag is known by its own characters, whatever follows it, so white space at the end of
a line makes no difference to the tags of the line. -/
namespace TaggedProse
variable {s u : List Char} {t : TagSpan} {ts : List TagSpan} {name : List Char}

namespace TagSpan
variable {q : State} {read rest opener : List Char} {closing selfClosing : Bool}

def alone (t : TagSpan) : TagSpan := { t with rest := [] }

def closes (t : TagSpan) : Bool := t.closing && !t.selfClosing

/-! ### A tag and what follows it -/

theorem finish_append (h : finish q s = some (selfClosing, read, rest)) (u : List Char) :
    finish q (read ++ u) = some (selfClosing, read, u) := by
  induction s generalizing q read with
  | nil => cases h
  | cons c s ih =>
    rw [finish] at h
    split at h
    · next hc =>
      cases h
      rw [List.singleton_append, finish, if_pos ⟨rfl, hc.2⟩]
    · next hc =>
      split at h
      · cases h
      · next q' hstep =>
        split at h
        · cases h
        · next selfClosing' read' rest' hfinish =>
          cases h
          rw [List.cons_append, finish, if_neg hc, hstep]
          dsimp only
          rw [ih hfinish]

theorem gt_mem_of_finish (h : finish q s = some (selfClosing, read, rest)) : '>' ∈ read := by
  obtain ⟨content, rfl, -⟩ := splitTag_of_finish h
  simp

/-- A name ends within the tag. -/
theorem takeWhile_isNameChar_append (h : '>' ∈ read) (u : List Char) :
    (read ++ u).takeWhile isNameChar = read.takeWhile isNameChar := by
  induction read with
  | nil => cases h
  | cons c read ih =>
    have hgt : isNameChar '>' = false := by decide
    rw [List.cons_append, List.takeWhile_cons, List.takeWhile_cons]
    by_cases hc : c = '>'
    · simp [hc, hgt]
    · rw [ih ((List.mem_cons.1 h).resolve_left (Ne.symm hc))]

theorem named_append (h : named closing opener s = some t) (u : List Char) :
    ∃ taken, t.source = opener ++ taken ∧ named closing opener (taken ++ u) = some { t with rest := u } := by
  cases s with
  | nil => cases h
  | cons c s =>
    rw [named] at h
    split at h
    · next hc =>
      split at h
      · cases h
      · next selfClosing read rest hfinish =>
        cases h
        have hgt := gt_mem_of_finish hfinish
        refine ⟨c :: read, rfl, ?_⟩
        rw [List.cons_append, named, if_pos hc, finish_append hfinish]
        dsimp only
        rw [takeWhile_isNameChar_append hgt, ← append_of_finish hfinish, takeWhile_isNameChar_append hgt]
    · cases h

/-- A name does not begin with a slash. -/
theorem scan?_of_named (h : named false ['<'] s = some t) : scan? ('<' :: s) = some t := by
  unfold scan?
  split
  · next s' heq =>
    obtain ⟨-, rfl⟩ := List.cons.inj heq
    have hslash : isNameStart '/' = false := by decide
    rw [named, hslash] at h
    cases h
  · next s' _ heq =>
    obtain ⟨-, rfl⟩ := List.cons.inj heq
    exact h
  · next hno => exact absurd rfl (hno s)

theorem scan?_append (h : scan? s = some t) (u : List Char) :
    scan? (t.source ++ u) = some { t with rest := u } := by
  unfold scan? at h
  split at h
  · obtain ⟨taken, hsource, hnamed⟩ := named_append h u
    rw [hsource] at hnamed ⊢
    exact hnamed
  · obtain ⟨taken, hsource, hnamed⟩ := named_append h u
    rw [hsource] at hnamed ⊢
    exact scan?_of_named hnamed
  · cases h

theorem scan?_source (h : scan? s = some t) : scan? t.source = some t.alone := by
  have hscan := scan?_append h []
  rwa [List.append_nil] at hscan

theorem getLast?_source (h : scan? s = some t) : t.source.getLast? = some '>' := by
  obtain ⟨content, hsource, -⟩ := isTag_of_scan? h
  rw [hsource, List.getLast?_concat]

/-- A tag that is recognised in front of `u` ends before `u`, or within it. -/
theorem scan?_cases (h : scan? (s ++ u) = some t) :
    (∃ v, scan? s = some { t with rest := v } ∧ t.rest = v ++ u) ∨
      ∃ w, w.getLast? = some '>' ∧ t.source = s ++ w ∧ u = w ++ t.rest := by
  have hlast := getLast?_source h
  rcases List.append_eq_append_iff.1 (append_of_scan? h) with ⟨v, hs, hrest⟩ | ⟨w, hsource, hu⟩
  · exact .inl ⟨v, by rw [hs]; exact scan?_append h v, hrest⟩
  · cases w with
    | nil =>
      rw [List.append_nil] at hsource
      exact .inl ⟨[], by rw [← hsource]; exact scan?_source h, hu.symm⟩
    | cons c w =>
      rw [hsource, List.getLast?_append_cons] at hlast
      exact .inr ⟨c :: w, hlast, hsource, hu⟩

end TagSpan

/-! ### The tags of a text -/

theorem tagsIn_of_scan? (h : TagSpan.scan? s = some t) : tagsIn s = t :: tagsIn t.rest := by
  cases s with
  | nil => cases h
  | cons c s =>
    rw [tagsIn]
    split
    · next heq =>
      rw [h] at heq
      cases heq
      rfl
    · next heq =>
      rw [h] at heq
      cases heq

theorem tagsIn_cons (c : Char) (h : TagSpan.scan? (c :: s) = none) : tagsIn (c :: s) = tagsIn s := by
  rw [tagsIn]
  split
  · next heq =>
    rw [h] at heq
    cases heq
  · rfl

theorem scan?_eq_none (h : '>' ∉ s) : TagSpan.scan? s = none := by
  cases hscan : TagSpan.scan? s with
  | none => rfl
  | some t =>
    have hmem := List.mem_append_left t.rest (List.mem_of_getLast? (TagSpan.getLast?_source hscan))
    rw [TagSpan.append_of_scan? hscan] at hmem
    exact absurd hmem h

theorem tagsIn_eq_nil (h : '>' ∉ s) : tagsIn s = [] := by
  induction s with
  | nil => rw [tagsIn]
  | cons c s ih =>
    rw [tagsIn_cons c (scan?_eq_none h)]
    exact ih fun hmem => h (List.mem_cons_of_mem _ hmem)

/-- Where no tag ends in `u`, it makes no difference that `u` follows. -/
theorem map_alone_scan?_append (hu : '>' ∉ u) (s : List Char) :
    (TagSpan.scan? (s ++ u)).map TagSpan.alone = (TagSpan.scan? s).map TagSpan.alone := by
  cases hscan : TagSpan.scan? s with
  | some t =>
    have hlonger := TagSpan.scan?_append hscan (t.rest ++ u)
    rw [← List.append_assoc, TagSpan.append_of_scan? hscan] at hlonger
    rw [hlonger]
    rfl
  | none =>
    cases hlonger : TagSpan.scan? (s ++ u) with
    | none => rfl
    | some t =>
      rcases TagSpan.scan?_cases hlonger with ⟨v, hwithin, -⟩ | ⟨w, hw, -, rfl⟩
      · rw [hscan] at hwithin
        cases hwithin
      · exact absurd (List.mem_append_left _ (List.mem_of_getLast? hw)) hu

theorem map_alone_tagsIn_append (hu : '>' ∉ u) (s : List Char) :
    (tagsIn (s ++ u)).map TagSpan.alone = (tagsIn s).map TagSpan.alone := by
  fun_induction tagsIn s with
  | case1 => rw [List.nil_append, tagsIn_eq_nil hu]
  | case2 c s t h ih =>
    have hscan := TagSpan.scan?_append h (t.rest ++ u)
    rw [← List.append_assoc, TagSpan.append_of_scan? h] at hscan
    rw [tagsIn_of_scan? hscan, List.map_cons, List.map_cons, ih]
    rfl
  | case3 c s h ih =>
    have hscan := map_alone_scan?_append hu (c :: s)
    rw [h, Option.map_none, Option.map_eq_none_iff] at hscan
    exact (congrArg _ (tagsIn_cons c hscan)).trans ih

/-! ### Opening and closing tags -/

/-- How many more of the tags open an element called `name` than close one. -/
def surplus (name : List Char) (ts : List TagSpan) : Int :=
  (ts.countP fun t => t.name == name && t.opens : Nat) - (ts.countP fun t => t.name == name && t.closes : Nat)

theorem surplus_map_alone (name : List Char) (ts : List TagSpan) :
    surplus name (ts.map TagSpan.alone) = surplus name ts := by
  simp only [surplus, List.countP_map]
  rfl

theorem surplus_cons (name : List Char) (t : TagSpan) (ts : List TagSpan) :
    surplus name (t :: ts) = t.weight name + surplus name ts := by
  obtain ⟨closing, name', selfClosing, source, rest⟩ := t
  simp only [surplus, List.countP_cons, TagSpan.weight, TagSpan.opens, TagSpan.closes]
  by_cases hname : name' = name <;> cases closing <;> cases selfClosing <;> simp [hname] <;> omega

theorem surplus_append (name : List Char) (ts us : List TagSpan) :
    surplus name (ts ++ us) = surplus name ts + surplus name us := by
  simp only [surplus, List.countP_append]
  omega

theorem balance_eq_surplus (name s : List Char) : balance name s = surplus name (tagsIn s) := by
  rw [balance]
  induction tagsIn s with
  | nil => rfl
  | cons t ts ih => rw [List.foldr_cons, ih, surplus_cons]

end TaggedProse
