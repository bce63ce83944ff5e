import TaggedProse.Proofs.Text.Decoding
import TaggedProse.Proofs.Text.Visible
import TaggedProse.Proofs.Text.Words

/-! Line ends of two characters. A carriage return in front of a newline is one more blank beside a blank: the words of
a text, the lines on which they stand and the references in it are the same with it and without it. -/
namespace TaggedProse
variable {s t a b name : List Char} {c : Char}

/-- The second text is the first with a carriage return in front of some of its newlines. -/
inductive Returned : List Char → List Char → Prop
  | nil : Returned [] []
  | cons (c : Char) {s t : List Char} (rest : Returned s t) : Returned (c :: s) (c :: t)
  | newline {s t : List Char} (rest : Returned s t) : Returned ('\n' :: s) ('\r' :: '\n' :: t)

namespace Returned

theorem refl (s : List Char) : Returned s s := by
  induction s with
  | nil => exact .nil
  | cons c s ih => exact ih.cons c

theorem append (h : Returned s t) (h' : Returned a b) : Returned (s ++ a) (t ++ b) := by
  induction h with
  | nil => exact h'
  | cons c _ ih => exact ih.cons c
  | newline _ ih => exact ih.newline

theorem append_left (a : List Char) (h : Returned s t) : Returned (a ++ s) (a ++ t) := (refl a).append h

theorem exists_append_left (h : Returned (a ++ b) t) :
    ∃ a' b', t = a' ++ b' ∧ Returned a a' ∧ Returned b b' := by
  generalize hs : a ++ b = s at h
  induction h generalizing a with
  | nil =>
    obtain ⟨rfl, rfl⟩ := List.append_eq_nil_iff.1 hs
    exact ⟨[], [], rfl, .nil, .nil⟩
  | @cons c s t rest ih =>
    cases a with
    | nil =>
      obtain rfl : b = c :: s := hs
      exact ⟨[], c :: t, rfl, .nil, rest.cons c⟩
    | cons d a =>
      obtain ⟨rfl, hrest⟩ := List.cons.inj hs
      obtain ⟨a', b', rfl, ha, hb⟩ := ih hrest
      exact ⟨_, b', rfl, ha.cons d, hb⟩
  | @newline s t rest ih =>
    cases a with
    | nil =>
      obtain rfl : b = '\n' :: s := hs
      exact ⟨[], '\r' :: '\n' :: t, rfl, .nil, rest.newline⟩
    | cons d a =>
      obtain ⟨rfl, hrest⟩ := List.cons.inj hs
      obtain ⟨a', b', rfl, ha, hb⟩ := ih hrest
      exact ⟨_, b', rfl, ha.newline, hb⟩

/-- The longer text is not cut between a carriage return and its newline. -/
theorem exists_append_right (h : Returned s (a ++ b)) (hcr : a.getLast? ≠ some '\r') :
    ∃ a' b', s = a' ++ b' ∧ Returned a' a ∧ Returned b' b := by
  generalize ht : a ++ b = t at h
  induction h generalizing a with
  | nil =>
    obtain ⟨rfl, rfl⟩ := List.append_eq_nil_iff.1 ht
    exact ⟨[], [], rfl, .nil, .nil⟩
  | @cons c s t rest ih =>
    cases a with
    | nil =>
      obtain rfl : b = c :: t := ht
      exact ⟨[], c :: s, rfl, .nil, rest.cons c⟩
    | cons d a =>
      obtain ⟨rfl, hrest⟩ := List.cons.inj ht
      have hlast : a.getLast? ≠ some '\r' := fun hlast => hcr (by rw [List.getLast?_cons, hlast]; rfl)
      obtain ⟨a', b', rfl, ha, hb⟩ := ih hlast hrest
      exact ⟨_, b', rfl, ha.cons d, hb⟩
  | @newline s t rest ih =>
    cases a with
    | nil =>
      obtain rfl : b = '\r' :: '\n' :: t := ht
      exact ⟨[], '\n' :: s, rfl, .nil, rest.newline⟩
    | cons d a =>
      obtain ⟨rfl, hrest⟩ := List.cons.inj ht
      cases a with
      | nil => exact absurd rfl hcr
      | cons d a =>
        obtain ⟨rfl, hlater⟩ := List.cons.inj hrest
        have hlast : a.getLast? ≠ some '\r' := fun hlast =>
          hcr (by rw [List.getLast?_cons, List.getLast?_cons, hlast]; rfl)
        obtain ⟨a', b', rfl, ha, hb⟩ := ih hlast hlater
        exact ⟨_, b', rfl, ha.newline, hb⟩

theorem newlines_eq (h : Returned s t) : newlines t = newlines s := by
  induction h with
  | nil => rfl
  | cons c _ ih => rw [newlines_cons, newlines_cons, ih]
  | newline _ ih => rw [newlines_cons_of_ne (by decide), newlines_newline_cons, newlines_newline_cons, ih]

theorem eq_of_not_mem (h : Returned s t) (hs : '\n' ∉ s) : t = s := by
  induction h with
  | nil => rfl
  | cons c _ ih => rw [ih fun hmem => hs (List.mem_cons_of_mem c hmem)]
  | newline => exact absurd List.mem_cons_self hs

theorem mem_iff (h : Returned s t) : '\n' ∈ t ↔ '\n' ∈ s := by
  rw [← List.count_pos_iff, ← List.count_pos_iff]
  exact Eq.to_iff (congrArg (0 < ·) h.newlines_eq)

theorem getLast?_ne (h : Returned s t) (hcr : '\r' ∉ s) : t.getLast? ≠ some '\r' := by
  induction h with
  | nil => simp
  | @cons c s t _ ih =>
    rw [List.getLast?_cons]
    cases hlast : t.getLast? with
    | none => exact fun heq => hcr (Option.some.inj heq ▸ List.mem_cons_self)
    | some d => exact fun heq => ih (fun hmem => hcr (List.mem_cons_of_mem c hmem)) (hlast.trans heq)
  | @newline s t _ ih =>
    rw [List.getLast?_cons, List.getLast?_cons]
    cases hlast : t.getLast? with
    | none => simp
    | some d => exact fun heq => ih (fun hmem => hcr (List.mem_cons_of_mem _ hmem)) (hlast.trans heq)

/-! ### Words and lines -/

theorem allBlank_eq (h : Returned s t) : allBlank t = allBlank s := by
  induction h with
  | nil => rfl
  | cons c _ ih => rw [allBlank, allBlank, List.all_cons, List.all_cons, ← allBlank, ← allBlank, ih]
  | newline _ ih => simpa [allBlank, isBlank] using ih

theorem words_append_eq (h : Returned s t) (w : List Char) : words (w ++ t) = words (w ++ s) := by
  induction h generalizing w with
  | nil => rfl
  | cons c _ ih => simpa using ih (w ++ [c])
  | newline _ ih =>
    have hrest := ih []
    rw [List.nil_append, List.nil_append] at hrest
    rw [words_append_blank (by decide), words_append_blank (by decide), words_cons_blank (by decide), hrest]

theorem squeeze_eq (h : Returned s t) : squeeze t = squeeze s := congrArg (joinWith ' ') (h.words_append_eq [])

theorem visibleLine?_eq (h : Returned s t) (line : Nat) : visibleLine? line t = visibleLine? line s := by
  induction h generalizing line with
  | nil => rfl
  | cons c _ ih => rw [visibleLine?, visibleLine?, ih]
  | newline _ ih => exact ih (line + 1)

/-! ### References -/

theorem of_reference (hname : isReferenceName name = true) (h : Returned (name ++ ';' :: s) t) :
    ∃ t', t = name ++ ';' :: t' ∧ Returned s t' := by
  obtain ⟨name', rest, rfl, hname', hrest⟩ := h.exists_append_left
  have hnone : '\n' ∉ name := fun hmem => by cases isReferenceChar_of_isReferenceName hname _ hmem
  obtain rfl := hname'.eq_of_not_mem hnone
  cases hrest with
  | cons _ hrest => exact ⟨_, rfl, hrest⟩

theorem completesReference_eq (h : Returned s t) : completesReference t = completesReference s := by
  rw [Bool.eq_iff_iff]
  constructor
  · intro ht
    obtain ⟨name, rest, rfl, hname⟩ := exists_of_completesReference ht
    have hchar := isReferenceChar_of_isReferenceName hname
    have hcr : name.getLast? ≠ some '\r' := fun hlast => by cases hchar _ (List.mem_of_getLast? hlast)
    obtain ⟨name', rest', rfl, hname', hrest⟩ := h.exists_append_right hcr
    have hnone : '\n' ∉ name := fun hmem => by cases hchar _ hmem
    obtain rfl := hname'.eq_of_not_mem fun hmem => hnone (hname'.mem_iff.2 hmem)
    cases hrest with
    | cons _ hrest => exact completesReference_append hname _
  · intro hs
    obtain ⟨name, rest, rfl, hname⟩ := exists_of_completesReference hs
    obtain ⟨rest', rfl, -⟩ := of_reference hname h
    exact completesReference_append hname rest'

end Returned

/-! ### The same outcome -/

inductive Parallel {ε α β : Type} (R : α → β → Prop) : Except ε α → Except ε β → Prop
  | error (e : ε) : Parallel R (.error e) (.error e)
  | ok {x : α} {y : β} (related : R x y) : Parallel R (.ok x) (.ok y)

theorem Parallel.map {ε α β γ δ : Type} {R : α → β → Prop} {S : γ → δ → Prop} {x : Except ε α} {y : Except ε β}
    {f : α → γ} {g : β → δ} (h : Parallel R x y) (hfg : ∀ x y, R x y → S (f x) (g y)) :
    Parallel S (x.map f) (y.map g) := by
  cases h with
  | error e => exact .error e
  | ok related => exact .ok (hfg _ _ related)

theorem Parallel.map_right {ε α β γ : Type} {R : α → β → Prop} {S : α → γ → Prop} {x : Except ε α} {y : Except ε β}
    {g : β → γ} (h : Parallel R x y) (hg : ∀ x y, R x y → S x (g y)) : Parallel S x (y.map g) := by
  cases h with
  | error e => exact .error e
  | ok related => exact .ok (hg _ _ related)

/-! ### Decoding -/

/-- The position of a reference that is one in prose is not part of what is wrong with it. -/
theorem resolve_congr (h : isReferenceName name = true) (start start' : Nat) :
    Xml.resolve start name = Xml.resolve start' name := by
  cases hnamed : namedReference? name with
  | some c => rw [resolve_named hnamed, resolve_named hnamed]
  | none =>
    unfold isReferenceName at h
    split at h
    · rfl
    · rfl
    · rfl
    · rw [hnamed] at h
      cases h

variable {length length' position position' : Nat}

theorem parallel_decodeFrom_reference (hname : isReferenceName name = true)
    (h : ∀ position position', Parallel Returned (Xml.decodeFrom length position s)
      (Xml.decodeFrom length' position' t)) :
    Parallel Returned (Xml.decodeFrom length position ('&' :: (name ++ ';' :: s)))
      (Xml.decodeFrom length' position' ('&' :: (name ++ ';' :: t))) := by
  have hplain := isDelimiter_of_isReferenceName hname
  rw [decodeFrom_reference hplain, decodeFrom_reference hplain, resolve_congr hname _ (position' + 1)]
  cases Xml.resolve (position' + 1) name with
  | error e => exact .error e
  | ok d => exact (h _ _).map fun _ _ hrest => hrest.cons d

theorem parallel_decodeFrom_literal (hs : ¬(c = '&' ∧ completesReference s = true))
    (ht : ¬(c = '&' ∧ completesReference t = true))
    (h : ∀ position position', Parallel Returned (Xml.decodeFrom length position (escape .content s))
      (Xml.decodeFrom length' position' (escape .content t))) :
    Parallel Returned (Xml.decodeFrom length position (escape .content (c :: s)))
      (Xml.decodeFrom length' position' (escape .content (c :: t))) := by
  rw [escape_cons .content hs, escape_cons .content ht]
  cases hwritten : Place.content.name? c with
  | some name => exact parallel_decodeFrom_reference (isReferenceName_of_name? hwritten) h
  | none =>
    have hamp : c ≠ '&' := by
      rintro rfl
      cases hwritten
    dsimp only
    rw [decodeFrom_cons hamp, decodeFrom_cons hamp]
    exact (h _ _).map fun _ _ hrest => hrest.cons c

theorem Returned.parallel_decodeFrom (h : Returned s t) (length length' position position' : Nat) :
    Parallel Returned (Xml.decodeFrom length position (escape .content s))
      (Xml.decodeFrom length' position' (escape .content t)) := by
  induction s using reference_induction generalizing t position position' with
  | nil =>
    cases h
    rw [escape, Xml.decodeFrom, Xml.decodeFrom]
    exact .ok .nil
  | reference name rest hname ih =>
    cases h with
    | cons _ h =>
      obtain ⟨t', rfl, hrest⟩ := h.of_reference hname
      rw [escape_reference .content hname, escape_reference .content hname]
      exact parallel_decodeFrom_reference hname fun p p' => ih hrest p p'
  | literal c s hc ih =>
    cases h with
    | cons _ h =>
      have hc' := hc
      rw [← h.completesReference_eq] at hc'
      exact parallel_decodeFrom_literal hc hc' fun p p' => ih h p p'
    | @newline _ t h =>
      have hnewline : escape .content ('\n' :: s) = '\n' :: escape .content s := rfl
      have hreturn : escape .content ('\r' :: '\n' :: t) = '\r' :: '\n' :: escape .content t := rfl
      have hrest : Parallel (fun x y => Returned x ('\r' :: y)) _ _ :=
        (ih h (position + '\n'.utf8Size) (position' + '\r'.utf8Size + '\n'.utf8Size)).map fun _ _ hrest => hrest.newline
      rw [hnewline, hreturn, decodeFrom_cons (by decide), decodeFrom_cons (by decide), decodeFrom_cons (by decide)]
      exact hrest.map_right fun _ _ h => h

theorem Returned.parallel_decode (h : Returned s t) :
    Parallel Returned (Xml.decode (escape .content s)) (Xml.decode (escape .content t)) :=
  h.parallel_decodeFrom _ _ 0 0

end TaggedProse
