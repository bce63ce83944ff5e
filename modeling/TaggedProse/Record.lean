/-!
Records: named entries in ascending order of their names, each name once. Names are compared by
code points.
-/
namespace TaggedProse
variable {α β : Type}

/-- The only value that a name has among some entries: `some none` if it has none, and nothing if it
has several. -/
def single? [BEq β] (name : β) (entries : List (β × α)) : Option (Option α) :=
  match entries.filter (·.1 == name) with
  | [] => some none
  | [(_, a)] => some (some a)
  | _ => none

abbrev Record (α : Type) := List (String × α)

namespace Record

/-- The record with the entry for `name` set to `a`, whether or not there was one before. -/
def insert (name : String) (a : α) : Record α → Record α
  | [] => [(name, a)]
  | (n, b) :: r =>
    if name < n then (name, a) :: (n, b) :: r
    else if name = n then (name, a) :: r
    else (n, b) :: insert name a r

def get? (name : String) : Record α → Option α
  | [] => none
  | (n, b) :: r => if name = n then some b else get? name r

def contains (name : String) (r : Record α) : Bool := (get? name r).isSome

theorem get?_insert_self (name : String) (a : α) (r : Record α) :
    get? name (insert name a r) = some a := by
  induction r with
  | nil => simp [insert, get?]
  | cons e r ih =>
    rw [insert]
    split
    · simp [get?]
    · split
      · simp [get?]
      · next h => simp [get?, h, ih]

theorem get?_insert_of_ne {m n : String} (h : m ≠ n) (a : α) (r : Record α) :
    get? m (insert n a r) = get? m r := by
  induction r with
  | nil => simp [insert, get?, h]
  | cons e r ih =>
    rw [insert]
    split
    · simp [get?, h]
    · split
      · next heq => simp [get?, ← heq, h]
      · simp [get?, ih]

/-! ### Entries in order -/

/-- The names ascend, so that no name has two entries. -/
def Ascending (r : Record α) : Prop := r.Pairwise fun d e => d.1 < e.1

theorem lt_of_not_lt_of_ne {m n : String} (h : ¬ m < n) (hne : m ≠ n) : n < m := by
  rcases Std.lt_trichotomy m n with hlt | heq | hgt
  · exact absurd hlt h
  · exact absurd heq hne
  · exact hgt

theorem eq_or_mem_of_mem_insert {name : String} {a : α} {r : Record α} {e : String × α}
    (h : e ∈ insert name a r) : e = (name, a) ∨ e ∈ r := by
  induction r with
  | nil => simpa [insert] using h
  | cons d r ih =>
    obtain ⟨n, b⟩ := d
    rw [insert] at h
    split at h
    · simpa using h
    · split at h
      · exact (List.mem_cons.1 h).imp_right (List.mem_cons_of_mem _)
      · rcases List.mem_cons.1 h with rfl | h
        · exact .inr List.mem_cons_self
        · exact (ih h).imp_right (List.mem_cons_of_mem _)

theorem ascending_nil : Ascending ([] : Record α) := List.Pairwise.nil

theorem Ascending.insert {r : Record α} (h : Ascending r) (name : String) (a : α) :
    Ascending (insert name a r) := by
  induction r with
  | nil => exact List.pairwise_singleton _ _
  | cons d r ih =>
    obtain ⟨n, b⟩ := d
    obtain ⟨hn, hr⟩ := List.pairwise_cons.1 h
    rw [Record.insert]
    split
    · next hlt =>
      refine List.pairwise_cons.2 ⟨fun e he => ?_, h⟩
      rcases List.mem_cons.1 he with rfl | he
      · exact hlt
      · exact String.lt_trans hlt (hn e he)
    · next hlt =>
      split
      · next heq => exact List.pairwise_cons.2 ⟨fun e he => heq ▸ hn e he, hr⟩
      · next hne =>
        refine List.pairwise_cons.2 ⟨fun e he => ?_, ih hr⟩
        rcases eq_or_mem_of_mem_insert he with rfl | he
        · exact lt_of_not_lt_of_ne hlt hne
        · exact hn e he

instance (r : Record α) : Decidable (Ascending r) := inferInstanceAs (Decidable (List.Pairwise _ _))

/-- Records whose names do ascend. -/
abbrev Ordered (α : Type) := { r : Record α // Ascending r }

namespace Ordered

def empty : Ordered α := ⟨[], ascending_nil⟩

def insert (name : String) (a : α) (r : Ordered α) : Ordered α := ⟨Record.insert name a r.1, r.2.insert name a⟩

/-- The record of some entries; of several with the same name the last counts. -/
def ofList (entries : List (String × α)) : Ordered α :=
  entries.foldl (fun r (name, a) => r.insert name a) empty

end Ordered

end Record

end TaggedProse
