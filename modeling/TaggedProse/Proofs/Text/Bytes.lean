import TaggedProse.Proofs.Text.Lines
import TaggedProse.Proofs.Text.Visible

/-! Texts in UTF-8, cut at positions in bytes. A cut is refused where no character begins, and what is cut for escaping
and for counting lines is never refused. -/
namespace TaggedProse
variable {s t a b m : List Char} {n i j : Nat} {p : Char → Bool}

/-! ### Bytes -/

def bytes (s : List Char) : List UInt8 := s.flatMap String.utf8EncodeChar

theorem bytes_cons (c : Char) (s : List Char) : bytes (c :: s) = String.utf8EncodeChar c ++ bytes s := List.flatMap_cons

theorem bytes_append (s t : List Char) : bytes (s ++ t) = bytes s ++ bytes t := List.flatMap_append

theorem length_bytes (s : List Char) : (bytes s).length = byteLength s := by
  induction s with
  | nil => rfl
  | cons c s ih => rw [bytes_cons, List.length_append, String.length_utf8EncodeChar, ih, byteLength_cons]

theorem bytes_spaces (n : Nat) : bytes (List.replicate n ' ') = List.replicate n 0x20 := by
  induction n with
  | zero => rfl
  | succ n ih => rw [List.replicate_succ, bytes_cons, ih]; rfl

section Ascii
variable {c d : Char} {k x : UInt8}

/-- A byte below 128 is a character of its own. -/
theorem toNat_eq_of_mem_utf8EncodeChar (hx : x ∈ String.utf8EncodeChar c) (hlt : x.toNat < 128) :
    c.toNat = x.toNat := by
  have hc : c.val.toNat = c.toNat := rfl
  simp only [String.utf8EncodeChar, hc] at hx
  split at hx
  · next hle =>
    obtain rfl := List.mem_singleton.1 hx
    rw [UInt8.toNat_ofNat']
    omega
  · exfalso
    revert hlt
    split at hx
    · simp only [List.mem_cons, List.not_mem_nil, or_false] at hx
      rcases hx with rfl | rfl <;> rw [UInt8.toNat_ofNat'] <;> omega
    · split at hx
      · simp only [List.mem_cons, List.not_mem_nil, or_false] at hx
        rcases hx with rfl | rfl | rfl <;> rw [UInt8.toNat_ofNat'] <;> omega
      · simp only [List.mem_cons, List.not_mem_nil, or_false] at hx
        rcases hx with rfl | rfl | rfl | rfl <;> rw [UInt8.toNat_ofNat'] <;> omega

theorem ne_of_mem_utf8EncodeChar (hk : k.toNat = d.toNat) (hlt : k.toNat < 128) (hcd : c ≠ d)
    (hx : x ∈ String.utf8EncodeChar c) : x ≠ k := by
  rintro rfl
  exact hcd (Char.toNat_inj.1 ((toNat_eq_of_mem_utf8EncodeChar hx hlt).trans hk))

theorem not_mem_head?_bytes (hk : k.toNat = d.toNat) (hlt : k.toNat < 128) (hs : d ∉ s.head?) :
    k ∉ (bytes s).head? := by
  cases s with
  | nil => exact fun h => nomatch h
  | cons c s =>
    have hne : String.utf8EncodeChar c ≠ [] := by
      rw [← List.length_pos_iff, String.length_utf8EncodeChar]
      exact c.utf8Size_pos
    obtain ⟨x, xs, hx⟩ := List.exists_cons_of_ne_nil hne
    rw [bytes_cons, hx]
    rintro ⟨⟩
    exact ne_of_mem_utf8EncodeChar hk hlt (fun heq => hs (congrArg some heq)) (hx ▸ List.mem_cons_self) rfl

end Ascii

/-! ### Positions in bytes -/

/-- A character of the text begins at the position, or the text ends there. -/
def IsBoundary (s : List Char) (n : Nat) : Prop := String.Pos.Raw.IsValid (String.ofList s) ⟨n⟩

def cutAt? : Nat → List Char → Option (List Char × List Char)
  | 0, s => some ([], s)
  | _ + 1, [] => none
  | n + 1, c :: s =>
    if c.utf8Size ≤ n + 1 then (cutAt? (n + 1 - c.utf8Size) s).map fun (a, t) => (c :: a, t) else none

def upTo? (n : Nat) (s : List Char) : Option (List Char) := (cutAt? n s).map Prod.fst

def from? (n : Nat) (s : List Char) : Option (List Char) := (cutAt? n s).map Prod.snd

def slice? (i j : Nat) (s : List Char) : Option (List Char) := (upTo? j s).bind (from? i)

def position? (p : Char → Bool) : List Char → Option Nat
  | [] => none
  | c :: s => if p c then some 0 else (position? p s).map (c.utf8Size + ·)

/-! ### Cutting -/

theorem byteLength_pos_iff : 0 < byteLength s ↔ s ≠ [] := by
  cases s with
  | nil => simp
  | cons c s => simpa using Nat.add_pos_left c.utf8Size_pos _

theorem cutAt?_append (a t : List Char) : cutAt? (byteLength a) (a ++ t) = some (a, t) := by
  induction a with
  | nil => simp [cutAt?]
  | cons c a ih =>
    obtain ⟨k, hk⟩ : ∃ k, c.utf8Size + byteLength a = k + 1 :=
      Nat.exists_eq_add_one.2 (Nat.add_pos_left c.utf8Size_pos _)
    rw [byteLength_cons, List.cons_append, hk, cutAt?, ← hk, if_pos (Nat.le_add_right _ _), Nat.add_sub_cancel_left, ih]
    rfl

theorem cutAt?_eq_some_iff : cutAt? n s = some (a, t) ↔ s = a ++ t ∧ byteLength a = n := by
  refine ⟨fun h => ?_, fun ⟨hs, hn⟩ => hs ▸ hn ▸ cutAt?_append a t⟩
  fun_induction cutAt? n s generalizing a with
  | case1 => cases h; exact ⟨rfl, rfl⟩
  | case2 => cases h
  | case3 n c s hle ih =>
    obtain ⟨⟨a', t'⟩, hcut, heq⟩ := Option.map_eq_some_iff.1 h
    cases heq
    obtain ⟨rfl, hn⟩ := ih hcut
    exact ⟨rfl, by rw [byteLength_cons, hn, Nat.add_sub_cancel' hle]⟩
  | case4 => cases h

theorem upTo?_append (a t : List Char) : upTo? (byteLength a) (a ++ t) = some a := by
  rw [upTo?, cutAt?_append]
  rfl

theorem from?_append (a t : List Char) : from? (byteLength a) (a ++ t) = some t := by
  rw [from?, cutAt?_append]
  rfl

theorem slice?_append (a m b : List Char) : slice? (byteLength a) (byteLength (a ++ m)) (a ++ m ++ b) = some m := by
  rw [slice?, upTo?_append, Option.bind_some, from?_append]

theorem exists_of_upTo? (h : upTo? n s = some a) : ∃ t, s = a ++ t ∧ byteLength a = n := by
  obtain ⟨⟨a, t⟩, hcut, rfl⟩ := Option.map_eq_some_iff.1 h
  exact ⟨t, cutAt?_eq_some_iff.1 hcut⟩

theorem exists_of_from? (h : from? n s = some t) : ∃ a, s = a ++ t ∧ byteLength a = n := by
  obtain ⟨⟨a, t⟩, hcut, rfl⟩ := Option.map_eq_some_iff.1 h
  exact ⟨a, cutAt?_eq_some_iff.1 hcut⟩

/-! ### Boundaries -/

theorem byteLength_eq_utf8ByteSize (s : List Char) : byteLength s = (String.ofList s).utf8ByteSize := by
  induction s with
  | nil => rfl
  | cons c s ih =>
    rw [byteLength_cons, ih, ← List.singleton_append, String.ofList_append, String.utf8ByteSize_append]
    simp

theorem isBoundary_iff : IsBoundary s n ↔ ∃ a t, s = a ++ t ∧ byteLength a = n := by
  rw [IsBoundary, String.Pos.Raw.isValid_iff_exists_append]
  constructor
  · rintro ⟨s₁, s₂, hs, hn⟩
    refine ⟨s₁.toList, s₂.toList, ?_, ?_⟩
    · rw [← String.toList_append, ← hs, String.toList_ofList]
    · rw [byteLength_eq_utf8ByteSize, String.ofList_toList]
      exact (congrArg String.Pos.Raw.byteIdx hn).symm
  · rintro ⟨a, t, rfl, rfl⟩
    refine ⟨String.ofList a, String.ofList t, String.ofList_append, ?_⟩
    rw [byteLength_eq_utf8ByteSize]
    rfl

theorem isBoundary_append (a t : List Char) : IsBoundary (a ++ t) (byteLength a) := isBoundary_iff.2 ⟨a, t, rfl, rfl⟩

theorem IsBoundary.le (h : IsBoundary s n) : n ≤ byteLength s := by
  obtain ⟨a, t, rfl, rfl⟩ := isBoundary_iff.1 h
  rw [byteLength_append]
  exact Nat.le_add_right _ _

/-- A slice is refused unless it begins and ends on boundaries, one before the other. -/
theorem slice?_isSome_iff : (slice? i j s).isSome ↔ i ≤ j ∧ IsBoundary s i ∧ IsBoundary s j := by
  constructor
  · intro h
    obtain ⟨m, hm⟩ := Option.isSome_iff_exists.1 h
    obtain ⟨front, hfront, hback⟩ := Option.bind_eq_some_iff.1 hm
    obtain ⟨b, rfl, rfl⟩ := exists_of_upTo? hfront
    obtain ⟨a, rfl, rfl⟩ := exists_of_from? hback
    refine ⟨(isBoundary_append a m).le, ?_, isBoundary_append _ b⟩
    rw [List.append_assoc]
    exact isBoundary_append a _
  · rintro ⟨hle, hi, hj⟩
    obtain ⟨a, t, rfl, rfl⟩ := isBoundary_iff.1 hi
    obtain ⟨a', t', hs, rfl⟩ := isBoundary_iff.1 hj
    rcases List.append_eq_append_iff.1 hs with ⟨m, rfl, rfl⟩ | ⟨m, rfl, rfl⟩
    · rw [← List.append_assoc, slice?_append]
      rfl
    · -- the first part is no longer than the second, so that they are the same
      have hm : m = [] := by
        by_contra hne
        rw [byteLength_append] at hle
        exact Nat.not_lt_of_le hle (Nat.lt_add_of_pos_right (byteLength_pos_iff.2 hne))
      subst hm
      have hself := slice?_append a' [] t
      rw [List.append_nil] at hself ⊢
      rw [hself]
      rfl

/-! ### Finding -/

theorem position?_eq_of_any (h : s.any p = true) : position? p s = some (byteLength (s.takeWhile (!p ·))) := by
  induction s with
  | nil => cases h
  | cons c s ih =>
    cases hc : p c with
    | true => simp [position?, hc]
    | false =>
      rw [List.any_cons, hc, Bool.false_or] at h
      simp [position?, hc, ih h]

theorem position?_eq_none (h : s.any p = false) : position? p s = none := by
  induction s with
  | nil => rfl
  | cons c s ih =>
    obtain ⟨hc, hs⟩ := Bool.or_eq_false_iff.1 h
    rw [position?, hc, ih hs]
    rfl

theorem upTo?_takeWhile (p : Char → Bool) (s : List Char) :
    upTo? (byteLength (s.takeWhile p)) s = some (s.takeWhile p) := by
  have hcut := upTo?_append (s.takeWhile p) (s.dropWhile p)
  rwa [List.takeWhile_append_dropWhile] at hcut

/-! ### Escaping by positions -/

/-- Whether the text after an ampersand completes a reference, the name of which ends where the first semicolon is. -/
def completesReferenceAt? (s : List Char) : Option Bool :=
  match position? (· == ';') s with
  | none => some false
  | some last => (upTo? last s).map isReferenceName

def writtenAt? (place : Place) (text : List Char) (position : Nat) : Char → Option (List Char)
  | '<' => some "&lt;".toList
  | '>' => some "&gt;".toList
  | '"' => some (if place = .attribute then "&quot;".toList else ['"'])
  | '&' =>
    ((from? (position + 1) text).bind completesReferenceAt?).map fun completes =>
      if completes then ['&'] else "&amp;".toList
  | c => some [c]

def escapeFrom? (place : Place) (text : List Char) (position : Nat) : List Char → Option (List Char)
  | [] => some []
  | c :: s => do
    let written ← writtenAt? place text position c
    let escaped ← escapeFrom? place text (position + c.utf8Size) s
    some (written ++ escaped)

theorem completesReferenceAt?_eq (s : List Char) : completesReferenceAt? s = some (completesReference s) := by
  have hany : s.any (· == ';') = s.contains ';' := Bool.eq_iff_iff.2 (by simp)
  rw [completesReferenceAt?, completesReference, ← hany]
  cases h : s.any (· == ';') with
  | false => rw [position?_eq_none h, Bool.false_and]
  | true =>
    rw [position?_eq_of_any h, Bool.true_and]
    simp only [upTo?_takeWhile, Option.map_some]
    rfl

/-- An ampersand is one byte long, so that the text behind it can be cut off. -/
theorem exists_writtenAt? (place : Place) (a : List Char) (c : Char) (s : List Char) :
    ∃ written, writtenAt? place (a ++ c :: s) (byteLength a) c = some written ∧
      escape place (c :: s) = written ++ escape place s := by
  by_cases hlt : c = '<'
  · subst hlt
    exact ⟨_, rfl, rfl⟩
  by_cases hgt : c = '>'
  · subst hgt
    exact ⟨_, rfl, rfl⟩
  by_cases hquote : c = '"'
  · subst hquote
    exact ⟨_, rfl, rfl⟩
  by_cases hamp : c = '&'
  · subst hamp
    have hafter : from? (byteLength a + 1) (a ++ '&' :: s) = some s := by
      have hcut := from?_append (a ++ ['&']) s
      rw [byteLength_append, List.append_assoc] at hcut
      exact hcut
    rw [writtenAt?, hafter, Option.bind_some, completesReferenceAt?_eq, Option.map_some]
    exact ⟨_, rfl, rfl⟩
  · exact ⟨[c], by simp [writtenAt?], by simp [escape]⟩

theorem escapeFrom?_append (place : Place) (a s : List Char) :
    escapeFrom? place (a ++ s) (byteLength a) s = some (escape place s) := by
  induction s generalizing a with
  | nil => rfl
  | cons c s ih =>
    obtain ⟨written, hwritten, hescape⟩ := exists_writtenAt? place a c s
    have hrest := ih (a ++ [c])
    rw [List.append_assoc, List.singleton_append, byteLength_append, byteLength_cons, byteLength_nil,
      Nat.add_zero] at hrest
    rw [escapeFrom?, hwritten, hrest, hescape]
    rfl

/-! ### Lines by positions -/

def visibleLineAt? (line : Nat) (s : List Char) : Option (Option Nat) :=
  match position? (!isBlank ·) s with
  | none => some none
  | some position => (upTo? position s).map fun before => some (line + newlines before)

theorem visibleLineAt?_eq (line : Nat) (s : List Char) : visibleLineAt? line s = some (visibleLine? line s) := by
  have hany : s.any (!isBlank ·) = !allBlank s := by rw [allBlank, List.not_all_eq_any_not]
  rw [visibleLineAt?]
  cases h : allBlank s with
  | true => rw [position?_eq_none (by rw [hany, h]; rfl), visibleLine?_eq_none.2 h]
  | false =>
    rw [position?_eq_of_any (by rw [hany, h]; rfl), visibleLine?_of_visible h]
    simp only [Bool.not_not, upTo?_takeWhile, Option.map_some]

end TaggedProse
