import Mathlib.Data.List.TakeWhile
import TaggedProse.Proofs.Paragraph.Items

/-! Reading the rendered items gives one event for each item, at the byte where the item begins. -/
namespace TaggedProse
variable {s t rest content : List Char} {items : List Item}

namespace Xml
variable {opened : List (List Char)} {position : Nat}

theorem readFrom_tag (h : IsTag content) (opened : List (List Char)) (position : Nat) (rest : List Char) :
    readFrom opened position ('<' :: (content ++ '>' :: rest)) =
      match track position opened (tagEvent content) with
      | .error fault => ⟨[], some fault⟩
      | .ok opened' =>
        let r := readFrom opened' (position + byteLength content + 2) rest
        { r with events := (position, tagEvent content) :: r.events } := by
  rw [readFrom, if_pos rfl]
  split
  · next e heq =>
    rw [h.bounds] at heq
    cases heq
  · next content' rest' heq =>
    rw [h.bounds] at heq
    cases heq
    cases htrack : track position opened (tagEvent content) with
    | error fault => simp only [h.event, htrack]
    | ok opened' => simp only [h.event, htrack]

theorem readFrom_text (hs : s ≠ []) (ht : '<' ∉ s) (hrest : ∀ c ∈ rest.head?, c = '<')
    (opened : List (List Char)) (position : Nat) :
    readFrom opened position (s ++ rest) =
      let r := readFrom opened (position + byteLength s) rest
      { r with events := (position, .text s) :: r.events } := by
  obtain ⟨c, t, rfl⟩ := List.exists_cons_of_ne_nil hs
  rw [List.mem_cons, not_or] at ht
  have hin : ∀ c ∈ t, isText c = true := fun c hc => bne_iff_ne.2 fun h => ht.2 (h ▸ hc)
  have htake : (t ++ rest).takeWhile isText = t := by
    rw [List.takeWhile_append_of_pos hin]
    cases rest with
    | nil => simp
    | cons c rest => simp [isText, hrest c rfl]
  have hdrop : (t ++ rest).dropWhile isText = rest := by
    rw [List.dropWhile_append_of_pos hin]
    cases rest with
    | nil => rfl
    | cons c rest => simp [isText, hrest c rfl]
  rw [List.cons_append, readFrom, if_neg (Ne.symm ht.1), htake, hdrop]

end Xml

def follow (opened : List (List Char)) (position : Nat) : List Item → Xml.Reading
  | [] => ⟨[], none⟩
  | .text s _ :: items =>
    let r := follow opened (position + byteLength (escape .content s)) items
    { r with events := (position, .text (escape .content s)) :: r.events }
  | .tag content _ :: items =>
    match Xml.track position opened (Xml.tagEvent content) with
    | .error fault => ⟨[], some fault⟩
    | .ok opened' =>
      let r := follow opened' (position + byteLength content + 2) items
      { r with events := (position, Xml.tagEvent content) :: r.events }

theorem escape_ne_nil (h : s ≠ []) : escape .content s ≠ [] := by
  obtain ⟨c, s, rfl⟩ := List.exists_cons_of_ne_nil h
  unfold escape
  refine List.append_ne_nil_of_left_ne_nil ?_ _
  split
  · simp
  · simp
  · simp
  · split <;> simp
  · simp

/-- What is not text begins with a bracket. -/
theorem head?_render (h : TextLess items) : ∀ c ∈ (items.flatMap Item.render).head?, c = '<' := by
  cases items with
  | nil => intro c hc; cases hc
  | cons it items =>
    cases it with
    | text s line => exact absurd rfl (h s line items)
    | tag content line => intro c hc; cases hc; rfl

theorem readFrom_render (hs : ∀ it ∈ items, it.Sound) (ha : Apart items)
    (opened : List (List Char)) (position : Nat) :
    Xml.readFrom opened position (items.flatMap Item.render) = follow opened position items := by
  induction items generalizing opened position with
  | nil => rw [List.flatMap_nil, Xml.readFrom]; rfl
  | cons it items ih =>
    have hit := hs it List.mem_cons_self
    have hrest := fun it' hm => hs it' (List.mem_cons_of_mem _ hm)
    cases it with
    | text s line =>
      rw [List.flatMap_cons, Item.render, Xml.readFrom_text (escape_ne_nil hit) (not_mem_escape _ s)
        (head?_render ha.1), ih hrest ha.2]
      rfl
    | tag content line =>
      rw [List.flatMap_cons, Item.render, List.append_assoc, List.cons_append, List.singleton_append,
        Xml.readFrom_tag hit, follow]
      cases Xml.track position opened (Xml.tagEvent content) with
      | error fault => rfl
      | ok opened' =>
        dsimp only
        rw [ih hrest ha]

theorem read_render (source : List Char) :
    Xml.read (render (tokenize documentRules source)) = follow [] 0 (sourceItems source) := by
  rw [← readFrom_render (sound_sourceItems source) (apart_sourceItems source), render_sourceItems]
  rfl

end TaggedProse
