import TaggedProse.Proofs.Inline.Tag
import TaggedProse.Proofs.Text.Lines
import TaggedProse.Paragraph.Rendering

/-! Rendered text has no markup in it, and rendered images, breaks and paragraphs are tags. -/
namespace TaggedProse
variable {c : Char} {s t : List Char}

def imageContent (url alt : List Char) (title : Option (List Char)) : List Char :=
  imageTag.toList ++ renderAttribute "url" url ++ renderOptional "alt" alt ++
    renderOptional "title" (title.getD []) ++ ['/']

/-! ### Escaped text has no markup -/

theorem not_mem_escape (place : Place) (s : List Char) : '<' ∉ escape place s := by
  induction s with
  | nil => simp [escape]
  | cons c s ih =>
    unfold escape
    change '<' ∉ _ ++ _
    rw [List.mem_append, not_or]
    refine ⟨?_, ih⟩
    split
    · decide
    · decide
    · split <;> decide
    · split <;> decide
    · next hl _ _ _ => simpa using fun h => hl h.symm

theorem not_mem_escape_attribute (s : List Char) : '"' ∉ escape .attribute s := by
  induction s with
  | nil => simp [escape]
  | cons c s ih =>
    unfold escape
    change '"' ∉ _ ++ _
    rw [List.mem_append, not_or]
    refine ⟨?_, ih⟩
    split
    · decide
    · decide
    · decide
    · split <;> decide
    · next _ _ hq _ => simpa using fun h => hq h.symm

/-! ### Rendered tags are tags -/

namespace Xml

def Passes (s : List Char) : Prop :=
  ∀ t, splitTag none (s ++ t) = (splitTag none t).map fun (content, rest) => (s ++ content, rest)

theorem passes_nil : Passes [] := by
  intro t
  simp

theorem Passes.append (hs : Passes s) (ht : Passes t) : Passes (s ++ t) := by
  intro u
  rw [List.append_assoc, hs, ht, Option.map_map]
  congr
  funext pair
  obtain ⟨content, rest⟩ := pair
  simp

def isUnquoted (c : Char) : Bool := c != '"' && c != '\'' && c != '>'

theorem passes_of_all (h : s.all isUnquoted = true) : Passes s := by
  induction s with
  | nil => exact passes_nil
  | cons c s ih =>
    obtain ⟨hc, hs⟩ := Bool.and_eq_true_iff.1 (List.all_cons.symm.trans h)
    simp only [isUnquoted, Bool.and_eq_true, bne_iff_ne] at hc
    obtain ⟨⟨hdouble, hsingle⟩, hgt⟩ := hc
    intro t
    have hquote : quoteAfter none c = none := by simp [quoteAfter, hdouble, hsingle]
    rw [List.cons_append, splitTag, if_neg fun h => hgt h.1, hquote, ih hs t, Option.map_map]
    rfl

theorem splitTag_quoted (h : '"' ∉ s) (t : List Char) :
    splitTag (some '"') (s ++ '"' :: t) =
      (splitTag none t).map fun (content, rest) => (s ++ '"' :: content, rest) := by
  induction s with
  | nil => rfl
  | cons c s ih =>
    rw [List.mem_cons, not_or] at h
    have hquote : quoteAfter (some '"') c = some '"' := by simp [quoteAfter, Ne.symm h.1]
    rw [List.cons_append, splitTag, if_neg (by simp), hquote, ih h.2, Option.map_map]
    rfl

theorem passes_quoted (h : '"' ∉ s) : Passes ('"' :: s ++ ['"']) := by
  intro t
  have hquote : quoteAfter none '"' = some '"' := rfl
  rw [List.append_assoc, List.cons_append, splitTag, if_neg (by decide), hquote]
  rw [List.singleton_append, splitTag_quoted h, Option.map_map]
  congr
  funext pair
  obtain ⟨content, rest⟩ := pair
  simp

theorem Passes.isTag (h : Passes (c :: s)) (hb : c ≠ '!') (hq : c ≠ '?') : IsTag (c :: s) :=
  isTag_cons hb hq fun after => by rw [h]; simp [splitTag]

end Xml

theorem isTag_break : Xml.IsTag (breakTag.toList ++ ['/']) :=
  (Xml.passes_of_all (by decide)).isTag (c := 'b') (by decide) (by decide)

theorem isTag_paragraph : Xml.IsTag paragraphTag.toList :=
  (Xml.passes_of_all (by decide)).isTag (c := 'p') (by decide) (by decide)

theorem isTag_closing_paragraph : Xml.IsTag ('/' :: paragraphTag.toList) :=
  (Xml.passes_of_all (by decide)).isTag (by decide) (by decide)

theorem passes_renderAttribute (name : String)
    (h : name.toList.all Xml.isUnquoted = true) (value : List Char) :
    Xml.Passes (renderAttribute name value) := by
  have hbefore : Xml.Passes (' ' :: name.toList ++ ['=']) := by
    refine Xml.passes_of_all ?_
    rw [List.cons_append, List.all_cons, List.all_append, h]
    decide
  have hvalue := hbefore.append (Xml.passes_quoted (not_mem_escape_attribute value))
  simpa [renderAttribute] using hvalue

theorem passes_renderOptional (name : String)
    (h : name.toList.all Xml.isUnquoted = true) (value : List Char) :
    Xml.Passes (renderOptional name value) := by
  unfold renderOptional
  split
  · exact Xml.passes_nil
  · exact passes_renderAttribute name h value

theorem isTag_imageContent (url alt : List Char) (title : Option (List Char)) :
    Xml.IsTag (imageContent url alt title) := by
  have himage : Xml.Passes imageTag.toList := Xml.passes_of_all (by decide)
  have hslash : Xml.Passes ['/'] := Xml.passes_of_all (by decide)
  have hall := (((himage.append (passes_renderAttribute "url" (by decide) url)).append
    (passes_renderOptional "alt" (by decide) alt)).append
    (passes_renderOptional "title" (by decide) (title.getD []))).append hslash
  exact hall.isTag (c := 'i') (by decide) (by decide)

theorem newlines_renderAttribute (name : String) (h : newlines name.toList = 0) (value : List Char) :
    newlines (renderAttribute name value) = newlines value := by
  simp [renderAttribute, newlines_cons, h, newlines_escape]

theorem newlines_renderOptional (name : String) (h : newlines name.toList = 0) (value : List Char) :
    newlines (renderOptional name value) = newlines value := by
  unfold renderOptional
  split
  · next hempty => rw [List.isEmpty_iff.1 hempty]
  · exact newlines_renderAttribute name h value

theorem newlines_imageContent (url alt : List Char) (title : Option (List Char)) :
    newlines (imageContent url alt title) = newlines url + newlines alt + newlines (title.getD []) := by
  rw [imageContent, newlines_append, newlines_append, newlines_append, newlines_append,
    newlines_renderAttribute _ (by decide), newlines_renderOptional _ (by decide),
    newlines_renderOptional _ (by decide)]
  have himage : newlines imageTag.toList = 0 := by decide
  have hslash : newlines ['/'] = 0 := rfl
  omega

end TaggedProse
