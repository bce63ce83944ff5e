import Mathlib.Data.List.Nodup
import TaggedProse.Ledger
import TaggedProse.Proofs.Value.Walk

/-! The balance of a ledger. The values that are held change as the ledger grows: those that come are the
ones that are noted, each once. -/
namespace TaggedProse.Ledger
variable {l l' l'' : Ledger} {name : String} {before after more : List Value} {fields : Record Value}

/-- The values that are held go from `before` to `after`, and those that come are the ones that are noted
from `l` to `l'`, each once. -/
structure Balances (l l' : Ledger) (before after : List Value) : Prop where
  le : l.next ≤ l'.next
  pending : l'.pending.map Prod.fst =
    (List.range' l.next (l'.next - l.next)).reverse ++ l.pending.map Prod.fst
  ids : (after.map Value.id).Perm (before.map Value.id ++ List.range' l.next (l'.next - l.next))
  ordered : (∀ v ∈ before, v.Ordered) → ∀ v ∈ after, v.Ordered

/-- Nothing is noted, and the same identities are held. -/
theorem balances_of_ids (l : Ledger) (hids : (after.map Value.id).Perm (before.map Value.id))
    (hordered : (∀ v ∈ before, v.Ordered) → ∀ v ∈ after, v.Ordered) : l.Balances l before after := by
  refine ⟨Nat.le_refl _, ?_, ?_, hordered⟩
  · simp
  · simpa using hids

theorem balances_refl (l : Ledger) (held : List Value) : l.Balances l held held :=
  balances_of_ids l (List.Perm.refl _) id

theorem range'_append {first middle next : Nat} (h : first ≤ middle) (h' : middle ≤ next) :
    List.range' first (middle - first) ++ List.range' middle (next - middle) =
      List.range' first (next - first) := by
  have happend : List.range' first (middle - first) ++
      List.range' (first + (middle - first)) (next - middle) = _ := List.range'_append_1
  have hmiddle : first + (middle - first) = middle := by omega
  have hsize : middle - first + (next - middle) = next - first := by omega
  rwa [hmiddle, hsize] at happend

theorem Balances.trans (h : l.Balances l' before after) (h' : l'.Balances l'' after more) :
    l.Balances l'' before more := by
  have hrange := range'_append h.le h'.le
  refine ⟨Nat.le_trans h.le h'.le, ?_, ?_, h'.ordered ∘ h.ordered⟩
  · rw [h'.pending, h.pending, ← hrange, List.reverse_append, List.append_assoc]
  · rw [← hrange, ← List.append_assoc]
    exact h'.ids.trans (h.ids.append_right _)

/-- When nothing was held, the identities that are held are the new ones. -/
theorem Balances.ids_new (h : l.Balances l' [] after) :
    (after.map Value.id).Perm (List.range' l.next (l'.next - l.next)) := h.ids

/-- A new value is noted. -/
theorem balances_note (l : Ledger) (line : Nat) {v : Value} (hid : v.id = l.next) (hv : v.Ordered)
    (held : List Value) : l.Balances (l.note line) held (held ++ [v]) := by
  have hsize : l.next + 1 - l.next = 1 := by omega
  refine ⟨Nat.le_succ _, ?_, ?_, fun hheld => ?_⟩
  · simp [note, hsize]
  · simp [note, hsize, hid]
  · intro w hw
    rcases List.mem_append.1 hw with hw | hw
    · exact hheld w hw
    · rwa [List.mem_singleton.1 hw]

theorem Balances.append_left (h : l.Balances l' before after) (others : List Value) :
    l.Balances l' (others ++ before) (others ++ after) := by
  refine ⟨h.le, h.pending, ?_, fun hheld v hv => ?_⟩
  · rw [List.map_append, List.map_append, List.append_assoc]
    exact h.ids.append_left _
  · rcases List.mem_append.1 hv with hv | hv
    · exact hheld v (List.mem_append_left _ hv)
    · exact h.ordered (fun w hw => hheld w (List.mem_append_right _ hw)) v hv

theorem Balances.perm (h : l.Balances l' before after) {before' after' : List Value}
    (hb : before'.Perm before) (ha : after.Perm after') : l.Balances l' before' after' := by
  refine ⟨h.le, h.pending, ?_, fun hheld v hv => ?_⟩
  · exact ((ha.map _).symm.trans h.ids).trans ((hb.map _).symm.append_right _)
  · exact h.ordered (fun w hw => hheld w (hb.mem_iff.2 hw)) v (ha.mem_iff.2 hv)

theorem Balances.append_right (h : l.Balances l' before after) (others : List Value) :
    l.Balances l' (before ++ others) (after ++ others) :=
  (h.append_left others).perm List.perm_append_comm List.perm_append_comm

/-- What else is held makes no difference. -/
theorem Balances.frame (h : l.Balances l' before after) (front back : List Value) :
    l.Balances l' (front ++ (before ++ back)) (front ++ (after ++ back)) :=
  (h.append_right back).append_left front

/-- What comes later is added to what is held. -/
theorem Balances.add (h : l.Balances l' before after) (h' : l'.Balances l'' [] more) :
    l.Balances l'' before (after ++ more) := by
  have hlater := h'.append_left after
  rw [List.append_nil] at hlater
  exact h.trans hlater

/-! ### Fields -/

/-- A text is noted and becomes a field of a new name. -/
theorem balances_insert_text (hf : Record.get? name fields = none) (l : Ledger) (line : Nat) (t : String) :
    l.Balances (l.note line) (Value.fieldNodes fields)
      (Value.fieldNodes (Record.insert name (.text l.next t) fields)) :=
  (balances_note l line (v := .text l.next t) rfl trivial _).perm (List.Perm.refl _)
    (Value.fieldNodes_insert hf (.text l.next t)).symm

/-- What a list has gained stands in it, under the same name. -/
theorem balances_insert_item (hr : Record.Ascending fields) {id : Nat} {items : List Value}
    (hf : Record.get? name fields = some (.list id items)) (l : Ledger) (v : Value) :
    l.Balances l (Value.fieldNodes fields ++ v.nodes)
      (Value.fieldNodes (Record.insert name (.list id (items ++ [v])) fields)) := by
  obtain ⟨front, back, rfl, hinsert⟩ := Record.insert_of_get?_some hr hf (.list id (items ++ [v]))
  rw [hinsert]
  have hitems : Value.itemNodes (items ++ [v]) = Value.itemNodes items ++ v.nodes := by
    simp [Value.itemNodes_append, Value.itemNodes]
  refine balances_of_ids l ?_ fun hheld w hw => ?_
  · simp only [Value.fieldNodes_append, Value.fieldNodes, Value.nodes, hitems, List.map_append,
      List.append_assoc, List.map_cons, List.map_nil, Value.id]
    refine List.Perm.append_left _ (List.Perm.append_left _ ?_)
    have hcomm : (v.nodes.map Value.id ++ ([id] ++ (Value.fieldNodes back).map Value.id)).Perm _ :=
      List.perm_append_comm
    rwa [List.append_assoc] at hcomm
  · simp only [Value.fieldNodes_append, Value.fieldNodes, Value.nodes, hitems, List.mem_append,
      List.mem_singleton] at hheld hw
    rcases hw with hw | ((hw | hw) | rfl) | hw
    · exact hheld w (.inl (.inl hw))
    · exact hheld w (.inl (.inr (.inl (.inl hw))))
    · exact hheld w (.inr hw)
    · trivial
    · exact hheld w (.inl (.inr (.inr hw)))

end TaggedProse.Ledger
