import TaggedProse.Proofs.Text.Trimming
import TaggedProse.Schema.FieldType

/-! Field types that are printed and read again. What may be written for a type is a grammar, in which the printed
form is one of the words as long as the name of the schema can stand in it. -/
namespace TaggedProse
namespace FieldType
variable {s item schema word : List Char} {t : FieldType}

/-- What may be written for a type. -/
inductive Spells : List Char → FieldType → Prop
  | scalar {word : List Char} {t : FieldType} (named : scalar? (String.ofList word) = some t) : Spells word t
  | object {u name : List Char} (blank : allBlank u = true) (trimmed : Trimmed name) (nonempty : name ≠ []) :
      Spells ('o' :: 'b' :: 'j' :: 'e' :: 'c' :: 't' :: ':' :: (u ++ name)) (.object (String.ofList name))
  | list {item : List Char} {t : FieldType} (items : Spells item t) :
      Spells ('l' :: 'i' :: 's' :: 't' :: ':' :: item) (.list t)
  | spaced {u s v : List Char} {t : FieldType} (before : allBlank u = true) (after : allBlank v = true)
      (type : Spells s t) : Spells (u ++ s ++ v) t

def schemaName? : FieldType → Option String
  | .object schema => some schema
  | .list item => item.schemaName?
  | _ => none

/-- The name of a schema, where there is one, can be told from the white space around it. -/
def WellNamed (t : FieldType) : Prop := ∀ name ∈ t.schemaName?, name ≠ "" ∧ Trimmed name.toList

/-! ### Reading -/

theorem read_congr {s s' : List Char} (h : trim s = trim s') : read s = read s' := by
  rw [read, read, h]

theorem read_list (item : List Char) :
    read ('l' :: 'i' :: 's' :: 't' :: ':' :: item) = (read item).map .list := by
  have htrim := trim_cons_append_cons (d := 'l') (c := ':') (by decide) (by decide) ['i', 's', 't'] item
  simp only [List.cons_append, List.nil_append] at htrim
  rw [read, htrim]
  simp only
  rw [read_congr (trim_trimRight item)]
  cases read item <;> rfl

theorem read_object {name : List Char} (h : trim schema = name) (hne : name ≠ []) :
    read ('o' :: 'b' :: 'j' :: 'e' :: 'c' :: 't' :: ':' :: schema) = .ok (.object (String.ofList name)) := by
  have htrim := trim_cons_append_cons (d := 'o') (c := ':') (by decide) (by decide) ['b', 'j', 'e', 'c', 't'] schema
  simp only [List.cons_append, List.nil_append] at htrim
  rw [read, htrim]
  simp only [trim_trimRight, h]

theorem read_scalar (h : scalar? (String.ofList word) = some t) : read word = .ok t := by
  have hword : ∀ w : String, String.ofList word = w → word = w.toList := fun w hw => hw ▸ String.toList_ofList.symm
  unfold scalar? at h
  split at h <;> cases h
  all_goals
    next hw =>
      rw [hword _ hw, read]
      rfl

theorem schemaName?_of_scalar? {w : String} (h : scalar? w = some t) : t.schemaName? = none := by
  unfold scalar? at h
  split at h <;> cases h <;> rfl

/-- What a text that is read begins with. -/
theorem exists_of_read (h : read s = .ok t) :
    (∃ item t', trim s = 'l' :: 'i' :: 's' :: 't' :: ':' :: item ∧ read item = .ok t' ∧ t = .list t') ∨
      (∃ schema, trim s = 'o' :: 'b' :: 'j' :: 'e' :: 'c' :: 't' :: ':' :: schema ∧ trim schema ≠ [] ∧
        t = .object (String.ofList (trim schema))) ∨
      scalar? (String.ofList (trim s)) = some t := by
  rw [read] at h
  split at h
  · next item htrim =>
    split at h
    · next t' hitem =>
      cases h
      exact .inl ⟨item, t', htrim, hitem, rfl⟩
    · cases h
  · next schema htrim =>
    split at h
    · cases h
    · next hne =>
      cases h
      exact .inr (.inl ⟨schema, htrim, hne, rfl⟩)
  · split at h
    · next hword =>
      cases h
      exact .inr (.inr hword)
    · cases h

theorem Spells.read_eq (h : Spells s t) : read s = .ok t := by
  induction h with
  | scalar named => exact read_scalar named
  | @object u name blank trimmed nonempty =>
    refine read_object ?_ nonempty
    have hspaced := trim_blanks (v := []) blank rfl name
    rw [List.append_nil] at hspaced
    rw [hspaced, trim_eq_self_iff.2 trimmed]
  | list _ ih => rw [read_list, ih]; rfl
  | spaced before after _ ih => rw [read_congr (trim_blanks before after _), ih]

theorem Spells.of_trim (h : Spells (trim s) t) : Spells s t := by
  obtain ⟨u, v, hu, hv, heq⟩ := exists_trim s
  rw [heq]
  exact .spaced hu hv h

theorem spells_of_read (h : read s = .ok t) : Spells s t := by
  induction hn : s.length using Nat.strongRecOn generalizing s t with
  | _ n ih =>
    refine .of_trim ?_
    rcases exists_of_read h with ⟨item, t', htrim, hitem, rfl⟩ | ⟨schema, htrim, hne, rfl⟩ | hword
    · have hshorter : item.length < n := by
        have hlength := length_trim_le s
        rw [htrim] at hlength
        simp only [List.length_cons] at hlength
        omega
      rw [htrim]
      exact .list (ih _ hshorter hitem rfl)
    · obtain ⟨u, v, hu, hv, heq⟩ := exists_trim schema
      have htrimmed := trimmed_trim schema
      rw [htrim]
      generalize trim schema = name at heq hne htrimmed
      have hspaced := Spells.spaced (u := []) rfl hv (.object hu htrimmed hne)
      rw [heq]
      simpa using hspaced
    · exact .scalar hword

theorem read_eq_ok_iff : read s = .ok t ↔ Spells s t := ⟨spells_of_read, Spells.read_eq⟩

/-! ### Printing -/

theorem Spells.wellNamed (h : Spells s t) : t.WellNamed := by
  induction h with
  | scalar named =>
    rw [WellNamed, schemaName?_of_scalar? named]
    exact fun _ hname => nomatch hname
  | object _ trimmed nonempty =>
    rintro _ ⟨⟩
    rw [String.toList_ofList]
    exact ⟨fun h => nonempty (by simpa using h), trimmed⟩
  | list _ ih => exact ih
  | spaced _ _ _ ih => exact ih

/-- The printed form of a type is one of those that are written for it. -/
theorem WellNamed.spells_print (h : t.WellNamed) : Spells t.print.toList t := by
  induction t with
  | object schema =>
    obtain ⟨hne, htrimmed⟩ := h schema rfl
    have hspells := Spells.object (u := []) rfl htrimmed (by simpa using hne)
    rw [String.ofList_toList] at hspells
    rw [print, String.toList_append]
    exact hspells
  | list item ih =>
    rw [print, String.toList_append]
    exact .list (ih h)
  | _ => exact .scalar (by decide)

theorem parse_eq_ok_iff {s : String} : parse s = .ok t ↔ Spells s.toList t := read_eq_ok_iff

theorem parse_print_eq_ok_iff : parse t.print = .ok t ↔ t.WellNamed :=
  ⟨fun h => (parse_eq_ok_iff.1 h).wellNamed, fun h => parse_eq_ok_iff.2 h.spells_print⟩

/-- A type is read again from its printed form exactly when the name of a schema that it mentions can be told from the
white space around it. Types that were read are of this kind, so that their printed form stands for good. -/
theorem parse_print (t : FieldType) :
    (parse t.print = .ok t ↔ ∀ name ∈ t.schemaName?, name ≠ "" ∧ Trimmed name.toList) ∧
      ∀ s, parse s = .ok t → parse t.print = .ok t :=
  ⟨parse_print_eq_ok_iff, fun _ h => parse_print_eq_ok_iff.2 (parse_eq_ok_iff.1 h).wellNamed⟩

theorem parse_print_spaced :
    parse " list:\tlist: object: card \n" = .ok (.list (.list (.object "card"))) ∧
      parse "list:list:object:card" = .ok (.list (.list (.object "card"))) := by
  have h : parse " list:\tlist: object: card \n" = .ok (.list (.list (.object "card"))) := by cbv
  exact ⟨h, (parse_print (.list (.list (.object "card")))).2 _ h⟩

end FieldType

end TaggedProse
