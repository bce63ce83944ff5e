import Mathlib.Data.List.Induction
import TaggedProse.Proofs.Schema.Names

/-! Which fields may be declared together, and which fault is named where they may not: the first one in the order of
declaration, and only behind all fields the one of several contents. -/
namespace TaggedProse

namespace FieldDeclaration

def Misplaced (d : FieldDeclaration) : Prop :=
  (d.placement = some .attribute ∨ d.placement = some .content) ∧ d.type.isScalar = false

/-- Objects and lists are elements of their own. Plain text is an attribute unless it is placed elsewhere. -/
def ownRole (d : FieldDeclaration) : Role :=
  match d.type, d.placement with
  | .object _, _ => .object
  | .list _, _ => .list
  | _, some .element => .scalar
  | _, some .content => .content
  | _, _ => .attribute

def entry (d : FieldDeclaration) : String × Field := (d.name, ⟨d.ownRole, d.type⟩)

def isContent (d : FieldDeclaration) : Bool := d.placement == some .content

theorem isScalar_of_not_misplaced {d : FieldDeclaration} (h : ¬d.Misplaced)
    (hplacement : d.placement = some .attribute ∨ d.placement = some .content) : d.type.isScalar = true :=
  Bool.of_not_eq_false fun htype => h ⟨hplacement, htype⟩

theorem role_of_not_misplaced {d : FieldDeclaration} (h : ¬d.Misplaced) : d.role = .ok d.ownRole := by
  have hscalar := isScalar_of_not_misplaced h
  obtain ⟨name, type, _ | _ | _ | _⟩ := d
  · cases type <;> rfl
  · have htype := hscalar (.inl rfl)
    cases type <;> first | rfl | cases htype
  · cases type <;> rfl
  · have htype := hscalar (.inr rfl)
    cases type <;> first | rfl | cases htype

theorem role_of_misplaced {d : FieldDeclaration} (h : d.Misplaced) : d.role = .error (.notScalar d.name) := by
  obtain ⟨hplacement | hplacement, htype⟩ := h <;> simp [role, hplacement, htype]

theorem ownRole_eq_content {d : FieldDeclaration} (h : ¬d.Misplaced) : d.ownRole = .content ↔ d.isContent = true := by
  have hscalar := isScalar_of_not_misplaced h
  obtain ⟨name, type, _ | _ | _ | _⟩ := d
  · cases type <;> exact iff_of_false nofun nofun
  · cases type <;> exact iff_of_false nofun nofun
  · cases type <;> exact iff_of_false nofun nofun
  · have htype := hscalar (.inr rfl)
    cases type <;> first | exact iff_of_true rfl rfl | cases htype

end FieldDeclaration

/-- The fields may be declared in this order, as long as contents are not counted. -/
structure FieldsValid (ds : List FieldDeclaration) : Prop where
  named : ∀ d ∈ ds, isFieldName d.name = true
  distinct : (ds.map FieldDeclaration.name).Nodup
  placed : ∀ d ∈ ds, ¬d.Misplaced

/-- Why the field cannot be declared behind those before it. -/
inductive FieldFault (schema : String) (before : List FieldDeclaration) (d : FieldDeclaration) : SchemaError → Prop
  | badName (unnamed : isFieldName d.name = false) : FieldFault schema before d (.badFieldName schema d.name)
  | duplicate (named : isFieldName d.name = true) (known : d.name ∈ before.map FieldDeclaration.name) :
      FieldFault schema before d (.duplicateField schema d.name)
  | notScalar (named : isFieldName d.name = true) (new : d.name ∉ before.map FieldDeclaration.name)
      (misplaced : d.Misplaced) : FieldFault schema before d (.notScalar d.name)

instance (d : FieldDeclaration) : Decidable d.Misplaced := inferInstanceAs (Decidable (_ ∧ _))

instance (ds : List FieldDeclaration) : Decidable (FieldsValid ds) :=
  decidable_of_iff
    ((∀ d ∈ ds, isFieldName d.name = true) ∧ (ds.map FieldDeclaration.name).Nodup ∧ ∀ d ∈ ds, ¬d.Misplaced)
    ⟨fun ⟨named, distinct, placed⟩ => ⟨named, distinct, placed⟩,
      fun ⟨named, distinct, placed⟩ => ⟨named, distinct, placed⟩⟩

variable {schema name : String} {before ds more : List FieldDeclaration} {d : FieldDeclaration} {e : SchemaError}

theorem fieldsValid_nil : FieldsValid [] := ⟨by simp, List.nodup_nil, by simp⟩

theorem fieldsValid_append_singleton : FieldsValid (before ++ [d]) ↔
    FieldsValid before ∧ isFieldName d.name = true ∧ d.name ∉ before.map FieldDeclaration.name ∧ ¬d.Misplaced := by
  constructor
  · rintro ⟨hnamed, hdistinct, hplaced⟩
    rw [List.forall_mem_append, List.forall_mem_singleton] at hnamed hplaced
    rw [List.map_append, List.map_singleton, List.nodup_append, List.forall_mem_map] at hdistinct
    refine ⟨⟨hnamed.1, hdistinct.1, hplaced.1⟩, hnamed.2, fun hm => ?_, hplaced.2⟩
    obtain ⟨d', hd', heq⟩ := List.mem_map.1 hm
    exact hdistinct.2.2 d' hd' _ List.mem_cons_self heq
  · rintro ⟨⟨hnamed, hdistinct, hplaced⟩, hname, hnew, hplace⟩
    refine ⟨List.forall_mem_append.2 ⟨hnamed, List.forall_mem_singleton.2 hname⟩, ?_,
      List.forall_mem_append.2 ⟨hplaced, List.forall_mem_singleton.2 hplace⟩⟩
    rw [List.map_append, List.map_singleton]
    exact List.Nodup.append hdistinct (List.nodup_singleton _) (List.disjoint_singleton.2 hnew)

theorem FieldsValid.of_append (h : FieldsValid (before ++ more)) : FieldsValid before := by
  obtain ⟨hnamed, hdistinct, hplaced⟩ := h
  rw [List.map_append] at hdistinct
  exact ⟨(List.forall_mem_append.1 hnamed).1, (List.nodup_append.1 hdistinct).1, (List.forall_mem_append.1 hplaced).1⟩

/-- Either a field fits behind valid ones, or there is a fault. -/
theorem exists_fieldFault_or (schema : String) (hbefore : FieldsValid before) (d : FieldDeclaration) :
    FieldsValid (before ++ [d]) ∨ ∃ e, FieldFault schema before d e := by
  cases hname : isFieldName d.name with
  | false => exact .inr ⟨_, .badName hname⟩
  | true =>
    by_cases hknown : d.name ∈ before.map FieldDeclaration.name
    · exact .inr ⟨_, .duplicate hname hknown⟩
    · by_cases hplace : d.Misplaced
      · exact .inr ⟨_, .notScalar hname hknown hplace⟩
      · exact .inl (fieldsValid_append_singleton.2 ⟨hbefore, hname, hknown, hplace⟩)

/-- Where fields are not valid there is a first fault. -/
theorem valid_or_exists_fieldFault (schema : String) (ds : List FieldDeclaration) :
    FieldsValid ds ∨
      ∃ before d after e, ds = before ++ d :: after ∧ FieldsValid before ∧ FieldFault schema before d e := by
  induction ds using List.reverseRecOn with
  | nil => exact .inl fieldsValid_nil
  | append_singleton ds d ih =>
    rcases ih with hvalid | ⟨before, d', after, e, rfl, hbefore, hfault⟩
    · refine (exists_fieldFault_or schema hvalid d).imp_right ?_
      rintro ⟨e, hfault⟩
      exact ⟨ds, d, [], e, rfl, hvalid, hfault⟩
    · exact .inr ⟨before, d', after ++ [d], e, by simp, hbefore, hfault⟩

/-! ### Adding fields to a table -/

theorem map_name_entry (ds : List FieldDeclaration) :
    (ds.map FieldDeclaration.entry).map Prod.fst = ds.map FieldDeclaration.name := by
  rw [List.map_map]
  rfl

theorem isSome_lookup_entry : ((before.map FieldDeclaration.entry).lookup name).isSome = true ↔
    name ∈ before.map FieldDeclaration.name := by
  rw [← map_name_entry]
  constructor
  · intro h
    by_contra hm
    obtain ⟨f, hf⟩ := Option.isSome_iff_exists.1 h
    obtain ⟨l₁, l₂, heq, -⟩ := List.lookup_eq_some_iff.1 hf
    exact hm (by rw [heq]; simp)
  · intro hm
    by_contra hnone
    exact not_mem_of_lookup_eq_none (Option.not_isSome_iff_eq_none.1 hnone) hm

theorem addFields_fault (h : FieldFault schema before d e) :
    addFields schema (before.map FieldDeclaration.entry) (d :: ds) = .error e := by
  rw [addFields]
  cases h with
  | badName unnamed => simp [unnamed]
  | duplicate named known => simp [named, isSome_lookup_entry.2 known]
  | notScalar named new misplaced =>
    rw [← isSome_lookup_entry] at new
    simp [named, new, FieldDeclaration.role_of_misplaced misplaced]

theorem addFields_append (schema : String) (before : List FieldDeclaration) (h : FieldsValid (before ++ ds))
    (more : List FieldDeclaration) :
    addFields schema (before.map FieldDeclaration.entry) (ds ++ more) =
      addFields schema ((before ++ ds).map FieldDeclaration.entry) more := by
  induction ds generalizing before with
  | nil => rw [List.nil_append, List.append_nil]
  | cons d ds ih =>
    rw [List.append_cons] at h
    obtain ⟨-, hname, hnew, hplace⟩ := fieldsValid_append_singleton.1 h.of_append
    rw [← isSome_lookup_entry] at hnew
    have hstep : addFields schema (before.map FieldDeclaration.entry) (d :: (ds ++ more)) =
        addFields schema ((before ++ [d]).map FieldDeclaration.entry) (ds ++ more) := by
      simp [addFields, hname, hnew, FieldDeclaration.role_of_not_misplaced hplace, FieldDeclaration.entry]
    rw [List.cons_append, hstep, ih _ h, ← List.append_cons]

theorem addFields_of_valid (h : FieldsValid ds) : addFields schema [] ds = .ok (ds.map FieldDeclaration.entry) := by
  have happend := addFields_append schema [] h []
  rwa [List.append_nil] at happend

/-! ### Schemas -/

namespace SchemaDeclaration
variable {s : SchemaDeclaration} {t : Table}

def contents (s : SchemaDeclaration) : List String :=
  (s.fields.filter FieldDeclaration.isContent).map FieldDeclaration.name

structure Valid (s : SchemaDeclaration) : Prop where
  fields : FieldsValid s.fields
  single : s.contents.length ≤ 1

instance (s : SchemaDeclaration) : Decidable s.Valid :=
  decidable_of_iff (FieldsValid s.fields ∧ s.contents.length ≤ 1)
    ⟨fun ⟨fields, single⟩ => ⟨fields, single⟩, fun ⟨fields, single⟩ => ⟨fields, single⟩⟩

inductive FailsWith (name : String) (s : SchemaDeclaration) : SchemaError → Prop
  | field {before after : List FieldDeclaration} {d : FieldDeclaration} {e : SchemaError}
      (split : s.fields = before ++ d :: after) (valid : FieldsValid before) (fault : FieldFault name before d e) :
      FailsWith name s e
  | contents (valid : FieldsValid s.fields) (several : 1 < s.contents.length) :
      FailsWith name s (.severalContents s.contents)

def declared (name : String) (s : SchemaDeclaration) : Table := ⟨name, s.fields.map FieldDeclaration.entry⟩

theorem valid_or_failsWith (name : String) (s : SchemaDeclaration) : s.Valid ∨ ∃ e, s.FailsWith name e := by
  rcases valid_or_exists_fieldFault name s.fields with hvalid | ⟨before, d, after, e, hsplit, hbefore, hfault⟩
  · by_cases hsingle : s.contents.length ≤ 1
    · exact .inl ⟨hvalid, hsingle⟩
    · exact .inr ⟨_, .contents hvalid (Nat.lt_of_not_le hsingle)⟩
  · exact .inr ⟨e, .field hsplit hbefore hfault⟩

theorem filter_content_entry (h : FieldsValid ds) :
    ((ds.map FieldDeclaration.entry).filter fun (_, f) => f.role == .content) =
      (ds.filter FieldDeclaration.isContent).map FieldDeclaration.entry := by
  rw [List.filter_map]
  refine congrArg _ (List.filter_congr fun d hd => ?_)
  rw [Bool.eq_iff_iff, ← FieldDeclaration.ownRole_eq_content (h.placed d hd)]
  exact beq_iff_eq

theorem names_content_entry (s : SchemaDeclaration) :
    ((s.fields.filter FieldDeclaration.isContent).map FieldDeclaration.entry).map Prod.fst = s.contents :=
  map_name_entry _

theorem table_of_valid (h : s.Valid) (name : String) : s.table name = .ok (s.declared name) := by
  have hsingle : ((s.fields.filter FieldDeclaration.isContent).map FieldDeclaration.entry).length ≤ 1 := by
    simpa [contents] using h.single
  rw [table, addFields_of_valid h.fields]
  dsimp only
  rw [filter_content_entry h.fields]
  split
  · next heq =>
    rw [heq] at hsingle
    simp at hsingle
  · rfl

theorem table_of_failsWith (h : s.FailsWith name e) : s.table name = .error e := by
  cases h with
  | field split valid fault =>
    have happend := addFields_append name [] valid
    rw [table, split]
    rw [List.map_nil] at happend
    rw [happend, List.nil_append, addFields_fault fault]
  | contents valid several =>
    have hlength : 1 < ((s.fields.filter FieldDeclaration.isContent).map FieldDeclaration.entry).length := by
      simpa [SchemaDeclaration.contents] using several
    rw [table, addFields_of_valid valid]
    dsimp only
    rw [filter_content_entry valid, names_content_entry]
    split
    · rfl
    · next hne =>
      match hcontents : (s.fields.filter FieldDeclaration.isContent).map FieldDeclaration.entry with
      | [] | [_] =>
        rw [hcontents] at hlength
        simp at hlength
      | a :: b :: l => exact absurd hcontents (hne a b l)

end SchemaDeclaration

end TaggedProse
