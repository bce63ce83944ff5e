import Mathlib.Data.List.Nodup
import TaggedProse.Ledger

/-! What a ledger remembers. Identities are given in ascending order, so that a note is never lost
to a later one. -/
namespace TaggedProse.Ledger
variable {l l' l'' : Ledger} {id line n : Nat}

def line? (l : Ledger) (id : Nat) : Option Nat := l.pending.lookup id

def Sound (l : Ledger) : Prop := (l.next :: l.pending.map Prod.fst).Pairwise (· > ·)

structure Grows (l l' : Ledger) : Prop where
  sound : l'.Sound
  line? : ∀ id line, l.line? id = some line → l'.line? id = some line

theorem sound_clear (l : Ledger) : l.clear.Sound := List.pairwise_singleton _ _

theorem Sound.note (h : l.Sound) (line : Nat) : (l.note line).Sound := by
  refine List.pairwise_cons.2 ⟨fun id hid => ?_, h⟩
  rcases List.mem_cons.1 hid with rfl | hid
  · exact Nat.lt_succ_self _
  · exact Nat.lt_succ_of_lt ((List.pairwise_cons.1 h).1 id hid)

theorem lt_next_of_line? (h : l.Sound) (hid : l.line? id = some line) : id < l.next := by
  rw [Ledger.line?, List.lookup_eq_some_iff] at hid
  obtain ⟨l₁, l₂, heq, -⟩ := hid
  exact (List.pairwise_cons.1 h).1 id (by simp [heq])

@[simp] theorem line?_note_next (l : Ledger) (line : Nat) : (l.note line).line? l.next = some line := by
  simp [Ledger.line?, note]

theorem Grows.refl (h : l.Sound) : l.Grows l := ⟨h, fun _ _ h => h⟩

theorem Grows.trans (h : l.Grows l') (h' : l'.Grows l'') : l.Grows l'' :=
  ⟨h'.sound, fun id line hid => h'.line? id line (h.line? id line hid)⟩

theorem Sound.grows_note (h : l.Sound) (line : Nat) : l.Grows (l.note line) := by
  refine ⟨Sound.note h line, fun id n hid => ?_⟩
  have hne : id ≠ l.next := Nat.ne_of_lt (lt_next_of_line? h hid)
  rw [Ledger.line?, Ledger.note, List.lookup_cons, beq_false_of_ne hne]
  exact hid

theorem Grows.note (h : l.Grows l') (line : Nat) : l.Grows (l'.note line) :=
  h.trans (h.sound.grows_note line)

/-- With each key once, to look a key up is to find its entry. -/
theorem lookup_eq_some_iff_mem {entries : List (Nat × Nat)} (h : (entries.map Prod.fst).Nodup) :
    entries.lookup id = some n ↔ (id, n) ∈ entries := by
  induction entries with
  | nil => simp
  | cons e entries ih =>
    obtain ⟨k, m⟩ := e
    obtain ⟨hk, hr⟩ := List.nodup_cons.1 h
    by_cases heq : id = k
    · subst heq
      have habsent : (id, n) ∉ entries := fun hm => hk (List.mem_map.2 ⟨(id, n), hm, rfl⟩)
      simp [habsent, eq_comm]
    · simp [List.lookup_cons, beq_false_of_ne heq, ih hr, heq]

theorem Sound.nodup (h : l.Sound) : (l.pending.map Prod.fst).Nodup :=
  (List.pairwise_cons.1 h).2.imp Nat.ne_of_gt

/-- The notes tell the noted lines, shifted. -/
theorem lookup_notes (h : l.Sound) (offset id : Nat) :
    (l.notes offset).lookup id = (l.line? id).map (· + offset) := by
  have hkeys : ((l.notes offset).map Prod.fst).Nodup := by
    rw [notes, List.map_map, List.map_reverse]
    exact List.nodup_reverse.2 h.nodup
  ext n
  rw [lookup_eq_some_iff_mem hkeys, Option.map_eq_some_iff]
  simp only [Ledger.line?, lookup_eq_some_iff_mem h.nodup, notes, List.mem_map, List.mem_reverse,
    Prod.exists, Prod.mk.injEq]
  constructor
  · rintro ⟨i, m, hm, rfl, rfl⟩
    exact ⟨m, hm, rfl⟩
  · rintro ⟨m, hm, rfl⟩
    exact ⟨id, m, hm, rfl, rfl⟩

end TaggedProse.Ledger
