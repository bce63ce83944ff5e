import TaggedProse.Proofs.Inline.Extent
import TaggedProse.Proofs.Text.Dereferencing

/-! Rendered attributes are read back as they were. -/
namespace TaggedProse
variable {name : String} {value s url alt : List Char} {title : Option (List Char)} {seen : List (List Char)}

def Referenceless (s : List Char) : Prop := ∀ name, ¬Refers s name

theorem Referenceless.decode_escape (h : Referenceless s) (place : Place) : Xml.decode (escape place s) = .ok s := by
  rw [TaggedProse.decode_escape fun name hname => absurd hname (h name), dereferenced_of_not_refers h]

namespace Xml

def IsKey (s : List Char) : Prop := s ≠ [] ∧ ∀ c ∈ s, isKeyEnd c = false

theorem readAttributes_cons {length : Nat} {key v value rest : List Char} {c q : Char}
    (hs : s.dropWhile isSpace = c :: (key ++ '=' :: q :: (v ++ q :: rest))) (hkey : ∀ d ∈ key, isKeyEnd d = false)
    (hseen : (c :: key) ∉ seen) (hq : q = '"' ∨ q = '\'') (hv : q ∉ v) (hdecode : decode v = .ok value) :
    readAttributes length seen s =
      (readAttributes length ((c :: key) :: seen) rest).map ((String.ofList (c :: key), String.ofList value) :: ·) := by
  obtain ⟨htake, hdrop⟩ : (key ++ '=' :: q :: (v ++ q :: rest)).takeWhile (!isKeyEnd ·) = key ∧
      (key ++ '=' :: q :: (v ++ q :: rest)).dropWhile (!isKeyEnd ·) = '=' :: q :: (v ++ q :: rest) :=
    span_stop (fun d hd => by rw [hkey d hd]; rfl) (by decide) _
  obtain ⟨hvalue, hafter⟩ : (v ++ q :: rest).takeWhile (· != q) = v ∧ (v ++ q :: rest).dropWhile (· != q) = q :: rest :=
    span_stop (fun d hd => bne_iff_ne.2 fun heq => hv (by rwa [heq] at hd)) (by simp) rest
  have hequals : ('=' :: q :: (v ++ q :: rest)).dropWhile isSpace = '=' :: q :: (v ++ q :: rest) := by rfl
  have hquote : (q :: (v ++ q :: rest)).dropWhile isSpace = q :: (v ++ q :: rest) := by
    rcases hq with rfl | rfl <;> rfl
  rw [readAttributes]
  split
  · next heq => rw [hs] at heq; cases heq
  · next c' t heq =>
    rw [hs] at heq
    cases heq
    simp only [htake]
    split
    · next u heq =>
      rw [hdrop, hequals] at heq
      cases heq
      rw [if_neg (by simpa using hseen)]
      split
      · next heq => rw [hquote] at heq; cases heq
      · next q' v' heq =>
        rw [hquote] at heq
        cases heq
        rw [if_pos hq]
        split
        · next heq => rw [hafter] at heq; cases heq
        · next heq =>
          rw [hafter] at heq
          cases heq
          rw [hvalue, hdecode]
    · next hother => exact absurd (by rw [hdrop, hequals]) (hother (q :: (v ++ q :: rest)))

theorem readAttributes_renderAttribute {length : Nat} (hkey : IsKey name.toList) (hseen : name.toList ∉ seen)
    (hvalue : Referenceless value) (rest : List Char) :
    readAttributes length seen (renderAttribute name value ++ rest) =
      (readAttributes length (name.toList :: seen) rest).map ((name, String.ofList value) :: ·) := by
  obtain ⟨hne, hall⟩ := hkey
  obtain ⟨c, key, hname⟩ := List.exists_cons_of_ne_nil hne
  rw [hname] at hall hseen
  obtain ⟨hc, hkey⟩ := List.forall_mem_cons.1 hall
  have hs : (renderAttribute name value ++ rest).dropWhile isSpace =
      c :: (key ++ '=' :: '"' :: (escape .attribute value ++ '"' :: rest)) := by
    have hspace : isSpace c = false := (Bool.or_eq_false_iff.1 hc).2
    have hfirst : isSpace ' ' = true := rfl
    simp [renderAttribute, hname, hspace, hfirst]
  rw [readAttributes_cons hs hkey hseen (.inl rfl) (not_mem_escape_attribute value) (hvalue.decode_escape .attribute),
    ← hname, String.ofList_toList]

end Xml

def renderAttributes (attributes : List (String × List Char)) : List Char :=
  attributes.flatMap fun e => renderAttribute e.1 e.2

namespace Xml

/-- Rendered attributes with distinct names are read back in their order. -/
theorem readAttributes_renderAttributes {length : Nat} {attrs : List (String × List Char)}
    (hkeys : ∀ e ∈ attrs, IsKey e.1.toList) (hnames : (attrs.map Prod.fst).Nodup)
    (hseen : ∀ e ∈ attrs, e.1.toList ∉ seen) (hvalues : ∀ e ∈ attrs, Referenceless e.2) :
    readAttributes length seen (renderAttributes attrs) =
      .ok (attrs.map fun e => (e.1, String.ofList e.2)) := by
  induction attrs generalizing seen with
  | nil =>
    rw [readAttributes]
    rfl
  | cons e attrs ih =>
    obtain ⟨hkey, hkeys⟩ := List.forall_mem_cons.1 hkeys
    obtain ⟨hvalue, hvalues⟩ := List.forall_mem_cons.1 hvalues
    obtain ⟨hnew, hseen⟩ := List.forall_mem_cons.1 hseen
    obtain ⟨hname, hnames⟩ := List.nodup_cons.1 hnames
    have hseen' : ∀ e' ∈ attrs, e'.1.toList ∉ e.1.toList :: seen := by
      intro e' he' hmem
      rcases List.mem_cons.1 hmem with heq | hmem
      · exact hname (List.mem_map.2 ⟨e', he', String.toList_inj.1 heq⟩)
      · exact hseen e' he' hmem
    rw [renderAttributes, List.flatMap_cons, ← renderAttributes, readAttributes_renderAttribute hkey hnew hvalue,
      ih hkeys hnames hseen' hvalues]
    rfl

end Xml

end TaggedProse
