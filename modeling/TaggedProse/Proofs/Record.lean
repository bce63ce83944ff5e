import TaggedProse.Record

/-! Records in ascending order: every name has at most one entry, and insertions under different names commute. -/
namespace TaggedProse.Record
variable {α : Type}

theorem mem_of_get?_eq_some {name : String} {a : α} {r : Record α} (h : get? name r = some a) :
    (name, a) ∈ r := by
  induction r with
  | nil => simp [get?] at h
  | cons d r ih =>
    obtain ⟨n, b⟩ := d
    rw [get?] at h
    split at h
    · next heq => simp_all
    · exact List.mem_cons_of_mem _ (ih h)

/-- Of two insertions under one name the later counts. -/
theorem insert_insert (name : String) (a b : α) (r : Record α) :
    insert name a (insert name b r) = insert name a r := by
  induction r with
  | nil => simp [insert]
  | cons e r ih =>
    obtain ⟨n, c⟩ := e
    by_cases hlt : name < n
    · simp [insert, hlt]
    · by_cases heq : name = n
      · simp [insert, heq]
      · simp [insert, hlt, heq, ih]

/-- A record is known by its entries. -/
theorem Ascending.eq_of_perm {r s : Record α} (hr : Ascending r) (hs : Ascending s) (h : r.Perm s) :
    r = s := by
  refine h.eq_of_pairwise (fun d e _ _ hde hed => ?_) hr hs
  exact absurd (String.lt_trans hde hed) (String.lt_irrefl d.1)

theorem Ascending.nodup_names {r : Record α} (h : Ascending r) : (r.map Prod.fst).Nodup := by
  refine List.pairwise_map.2 (h.imp fun {d e} hlt heq => ?_)
  rw [heq] at hlt
  exact String.lt_irrefl e.1 hlt

theorem get?_eq_none_of_not_mem {name : String} {r : Record α} (h : name ∉ r.map Prod.fst) :
    get? name r = none := by
  cases hget : get? name r with
  | none => rfl
  | some a => exact absurd (List.mem_map.2 ⟨_, mem_of_get?_eq_some hget, rfl⟩) h

theorem contains_iff {name : String} {r : Record α} : contains name r = true ↔ name ∈ r.map Prod.fst := by
  constructor
  · intro h
    obtain ⟨a, ha⟩ := Option.isSome_iff_exists.1 h
    exact List.mem_map.2 ⟨_, mem_of_get?_eq_some ha, rfl⟩
  · intro hm
    induction r with
    | nil => cases hm
    | cons e r ih =>
      rw [contains, get?]
      split
      · rfl
      · next hne => exact ih ((List.mem_cons.1 hm).resolve_left hne)

/-- The entries in front are those with smaller names. -/
theorem Ascending.mem_front_iff {name : String} {a : α} {front back : Record α}
    (h : Ascending (front ++ (name, a) :: back)) {e : String × α} :
    e ∈ front ↔ e ∈ front ++ (name, a) :: back ∧ e.1 < name := by
  obtain ⟨-, hback, hfront⟩ := List.pairwise_append.1 h
  constructor
  · exact fun he => ⟨List.mem_append_left _ he, hfront e he (name, a) List.mem_cons_self⟩
  · rintro ⟨he, hlt⟩
    rcases List.mem_append.1 he with he | he
    · exact he
    · rcases List.mem_cons.1 he with rfl | he
      · exact absurd hlt (String.lt_irrefl _)
      · exact absurd (String.lt_trans hlt ((List.pairwise_cons.1 hback).1 e he)) (String.lt_irrefl _)

/-- To change all values is the same before an insertion as after it. -/
theorem insert_map {β : Type} (f : α → β) (name : String) (a : α) (r : Record α) :
    insert name (f a) (r.map fun e => (e.1, f e.2)) = (insert name a r).map fun e => (e.1, f e.2) := by
  induction r with
  | nil => rfl
  | cons e r ih =>
    rw [List.map_cons, insert, insert]
    by_cases hlt : name < e.1
    · simp [hlt]
    · by_cases heq : name = e.1
      · simp [heq]
      · simp [hlt, heq, ih]

theorem get?_mapEntries {β : Type} (f : String → α → β) (name : String) (r : Record α) :
    get? name (r.map fun e => (e.1, f e.1 e.2)) = (get? name r).map (f name) := by
  induction r with
  | nil => rfl
  | cons e r ih =>
    rw [List.map_cons, get?, get?, ih]
    by_cases heq : name = e.1 <;> simp [heq]

theorem get?_map {β : Type} (f : α → β) (name : String) (r : Record α) :
    get? name (r.map fun e => (e.1, f e.2)) = (get? name r).map f :=
  get?_mapEntries (fun _ => f) name r

/-- A new name gets an entry of its own. -/
theorem insert_of_get?_none {name : String} {r : Record α} (h : get? name r = none) (a : α) :
    ∃ front back, r = front ++ back ∧ insert name a r = front ++ (name, a) :: back := by
  induction r with
  | nil => exact ⟨[], [], rfl, rfl⟩
  | cons e r ih =>
    obtain ⟨n, b⟩ := e
    by_cases heq : name = n
    · simp [get?, heq] at h
    · rw [get?, if_neg heq] at h
      by_cases hlt : name < n
      · exact ⟨[], (n, b) :: r, rfl, by simp [insert, hlt]⟩
      · obtain ⟨front, back, hr, hinsert⟩ := ih h
        exact ⟨(n, b) :: front, back, by simp [hr], by simp [insert, hlt, heq, hinsert]⟩

theorem insert_perm {name : String} {r : Record α} (h : get? name r = none) (a : α) :
    (insert name a r).Perm ((name, a) :: r) := by
  obtain ⟨front, back, rfl, hinsert⟩ := insert_of_get?_none h a
  rw [hinsert]
  exact List.perm_middle

/-- A known name keeps its place, and its entry is replaced. -/
theorem insert_of_get?_some {name : String} {r : Record α} (hr : Ascending r) {b : α}
    (h : get? name r = some b) (a : α) :
    ∃ front back, r = front ++ (name, b) :: back ∧ insert name a r = front ++ (name, a) :: back := by
  induction r with
  | nil => cases h
  | cons e r ih =>
    obtain ⟨n, c⟩ := e
    by_cases heq : name = n
    · subst heq
      have hb : c = b := by simpa [get?] using h
      exact ⟨[], r, by simp [hb], by simp [insert]⟩
    · rw [get?, if_neg heq] at h
      obtain ⟨hn, hr⟩ := List.pairwise_cons.1 hr
      have hlt : ¬ name < n := fun hlt =>
        String.lt_irrefl name (String.lt_trans hlt (hn (name, b) (mem_of_get?_eq_some h)))
      obtain ⟨front, back, hsplit, hinsert⟩ := ih hr h
      exact ⟨(n, c) :: front, back, by simp [hsplit], by simp [insert, hlt, heq, hinsert]⟩

theorem insert_of_lt {m n : String} (h : m < n) (a b : α) (r : Record α) :
    insert m a ((n, b) :: r) = (m, a) :: (n, b) :: r := if_pos h

theorem insert_of_gt {m n : String} (h : n < m) (a b : α) (r : Record α) :
    insert m a ((n, b) :: r) = (n, b) :: insert m a r := by
  have hlt : ¬m < n := fun hlt => String.lt_irrefl m (String.lt_trans hlt h)
  have hne : m ≠ n := by
    rintro rfl
    exact String.lt_irrefl m h
  rw [insert, if_neg hlt, if_neg hne]

theorem insert_comm_of_lt {m n : String} (h : m < n) (a b : α) (r : Record α) :
    insert m a (insert n b r) = insert n b (insert m a r) := by
  induction r with
  | nil => rw [insert, insert, insert_of_lt h, insert_of_gt h]; rfl
  | cons e r ih =>
    obtain ⟨k, c⟩ := e
    rcases Std.lt_trichotomy m k with hm | rfl | hm
    · rw [insert_of_lt hm, insert_of_gt h]
      rcases Std.lt_trichotomy n k with hn | rfl | hn
      · rw [insert_of_lt hn, insert_of_lt h]
      · simp [insert, h]
      · rw [insert_of_gt hn, insert_of_lt hm]
    · rw [insert_of_gt h]
      simp [insert, insert_of_gt h]
    · rw [insert_of_gt hm, insert_of_gt (String.lt_trans hm h), insert_of_gt hm,
        insert_of_gt (String.lt_trans hm h), ih]

/-- Insertions under different names commute. -/
theorem insert_comm {m n : String} (h : m ≠ n) (a b : α) (r : Record α) :
    insert m a (insert n b r) = insert n b (insert m a r) := by
  rcases Std.lt_trichotomy m n with hlt | heq | hgt
  · exact insert_comm_of_lt hlt a b r
  · exact absurd heq h
  · exact (insert_comm_of_lt hgt b a r).symm

end TaggedProse.Record
