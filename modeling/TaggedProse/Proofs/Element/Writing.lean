import TaggedProse.Proofs.Element.Bare
import TaggedProse.Proofs.Element.Evaluation
import TaggedProse.Proofs.Text.Words

/-! Values written as elements. The tables say which fields of an object go into attributes and which into
child elements; a list has one element for each of its items, and text one line between each two line
breaks. -/
namespace TaggedProse
variable {schema : Schema} {t : String} {refuse : String → Fault} {ns : List Tree}

/-! ### Text -/

def TidyText (t : String) : Prop :=
  ∃ segments : List (List Char), t.toList = joinWith '\n' (segments.map squeeze)

theorem TidyText.squeeze_of_mem (h : TidyText t) : ∀ l ∈ splitLines t.toList, squeeze l = l := by
  obtain ⟨segments, heq⟩ := h
  intro l hl
  cases segments with
  | nil =>
    rw [heq] at hl
    rw [List.mem_singleton.1 hl]
    rfl
  | cons s segments =>
    have hlines : ∀ l ∈ (s :: segments).map squeeze, newlines l = 0 :=
      List.forall_mem_map.2 fun l _ => newlines_squeeze l
    rw [heq, splitLines_joinWith (by simp) hlines] at hl
    obtain ⟨s', -, rfl⟩ := List.mem_map.1 hl
    exact squeeze_squeeze s'

namespace Tree

def ofLines : List (List Char) → List Tree
  | [] => []
  | [s] => [.text s 0]
  | s :: s' :: ss => .text s 0 :: .element breakTag [] 0 [] 0 :: ofLines (s' :: ss)

def ofText (t : String) : List Tree := ofLines (splitLines t.toList)

theorem map_bare_ofLines (ls : List (List Char)) : (ofLines ls).map bare = ofLines ls := by
  fun_induction ofLines ls with
  | case1 => rfl
  | case2 s => rfl
  | case3 s s' ss ih => rw [List.map_cons, List.map_cons, ih]; rfl

theorem exists_gatherAll_ofLines (ls : List (List Char)) (hls : ls ≠ []) (p : Prose)
    (hp : p.passage.current = []) (hns : ns.map bare = ofLines ls) :
    ∃ q, gatherAll refuse p ns = .ok q ∧ q.passage.pieces = p.passage.before ++ ls := by
  induction ls generalizing p ns with
  | nil => exact absurd rfl hls
  | cons s ls ih =>
    cases ls with
    | nil =>
      obtain ⟨n, rfl, hn⟩ := List.map_eq_singleton_iff.1 hns
      obtain ⟨line, rfl⟩ := exists_of_bare_eq_text hn
      exact ⟨p.write s line, rfl, by simp [Prose.write, hp]⟩
    | cons s' ls =>
      obtain ⟨n, ns', rfl, hn, hns'⟩ := List.map_eq_cons_iff.1 hns
      obtain ⟨line, rfl⟩ := exists_of_bare_eq_text hn
      obtain ⟨m, ms, rfl, hm, hms⟩ := List.map_eq_cons_iff.1 hns'
      obtain ⟨breakLine, inside, closing, rfl, hinside⟩ := exists_of_bare_eq_element hm
      obtain rfl := List.map_eq_nil_iff.1 hinside
      obtain ⟨q, hq, hpieces⟩ := ih (by simp) (p.write s line).lineBreak rfl hms
      refine ⟨q, ?_, ?_⟩
      · rw [gatherAll, gather, Except.bind, gatherAll, gather, if_pos rfl]
        exact hq
      · rw [hpieces]
        simp [Prose.lineBreak, Prose.write, Passage.lineBreak, Passage.write, hp]

/-- Tidy text is read as it was written. -/
theorem exists_gatherAll_ofText (refuse : String → Fault) (ht : TidyText t) (hns : ns.map bare = ofText t) :
    ∃ p, gatherAll refuse {} ns = .ok p ∧ p.text = t := by
  obtain ⟨p, hp, hpieces⟩ := exists_gatherAll_ofLines _ (splitLines_ne_nil _) {} rfl hns
  have hsqueeze : (splitLines t.toList).map squeeze = splitLines t.toList :=
    List.map_congr_left ht.squeeze_of_mem |>.trans (List.map_id _)
  refine ⟨p, hp, ?_⟩
  rw [Prose.text, Passage.text, Passage.chars, hpieces, List.nil_append, hsqueeze, joinWith_splitLines,
    String.ofList_toList]

end Tree

/-! ### Fields -/

def Schema.inner? (schema : Schema) (f : Field) (name : String) : Option Field :=
  f.nested?.bind (schema.field? · name)

def Schema.inAttribute (schema : Schema) (f : Field) (e : String × Value) : Bool :=
  (schema.inner? f e.1).any (·.role == .attribute)

def Schema.inElement (schema : Schema) (f : Field) (e : String × Value) : Bool :=
  (schema.inner? f e.1).any (·.role.isElement)

namespace Value

def writtenText (v : Value) : String := v.text?.getD ""

def attributes (schema : Schema) (f : Field) (fields : List (String × Value)) : List (String × String) :=
  (fields.filter (schema.inAttribute f)).map fun e => (e.1, e.2.writtenText)

mutual

def elements (schema : Schema) (tag : String) (f : Field) : Value → List Tree
  | .text _ t => [.element tag [] 0 (Tree.ofText t) 0]
  | .object _ fields => [.element tag (attributes schema f fields) 0 (fieldElements schema f fields) 0]
  | .list _ items => itemElements schema tag f items
  | .content id fields field =>
    [.element tag (attributes schema f fields) 0
      (Tree.ofText ((content id fields field).ownText?.getD "")) 0]

def fieldElements (schema : Schema) (f : Field) : List (String × Value) → List Tree
  | [] => []
  | (name, v) :: r =>
    match schema.inner? f name with
    | none => fieldElements schema f r
    | some g =>
      if g.role.isElement then elements schema name g v ++ fieldElements schema f r
      else fieldElements schema f r

def itemElements (schema : Schema) (tag : String) (f : Field) : List Value → List Tree
  | [] => []
  | v :: r => elements schema tag f v ++ itemElements schema tag f r

end

mutual

/-- There are no lines in what is written. -/
theorem map_bare_elements (schema : Schema) (tag : String) (f : Field) (v : Value) :
    (v.elements schema tag f).map Tree.bare = v.elements schema tag f := by
  cases v with
  | text id t => simp [elements, Tree.bare, Tree.bareAll_eq_map, Tree.ofText, Tree.map_bare_ofLines]
  | object id fields => simp [elements, Tree.bare, Tree.bareAll_eq_map, map_bare_fieldElements schema f fields]
  | list id items => exact map_bare_itemElements schema tag f items
  | content id fields field =>
    simp [elements, Tree.bare, Tree.bareAll_eq_map, Tree.ofText, Tree.map_bare_ofLines]

theorem map_bare_fieldElements (schema : Schema) (f : Field) (fields : List (String × Value)) :
    (fieldElements schema f fields).map Tree.bare = fieldElements schema f fields := by
  match fields with
  | [] => rfl
  | (name, v) :: r =>
    have hr := map_bare_fieldElements schema f r
    rw [fieldElements]
    split
    · exact hr
    · next g hg =>
      split
      · rw [List.map_append, map_bare_elements schema name g v, hr]
      · exact hr

theorem map_bare_itemElements (schema : Schema) (tag : String) (f : Field) (items : List Value) :
    (itemElements schema tag f items).map Tree.bare = itemElements schema tag f items := by
  match items with
  | [] => rfl
  | v :: r =>
    rw [itemElements, List.map_append, map_bare_elements schema tag f v, map_bare_itemElements schema tag f r]

end

mutual

def Tidy (schema : Schema) (f : Field) : Value → Prop
  | .text _ t => f.role ≠ .attribute → TidyText t
  | .object _ fields => TidyFields schema f fields
  | .list _ items => TidyItems schema f items
  | .content id fields field => TidyText ((content id fields field).ownText?.getD "")

def TidyFields (schema : Schema) (f : Field) : List (String × Value) → Prop
  | [] => True
  | (name, v) :: r => (∀ g, schema.inner? f name = some g → Tidy schema g v) ∧ TidyFields schema f r

def TidyItems (schema : Schema) (f : Field) : List Value → Prop
  | [] => True
  | v :: r => Tidy schema f v ∧ TidyItems schema f r

end

end Value

end TaggedProse
