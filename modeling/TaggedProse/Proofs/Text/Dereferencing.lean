import Mathlib.Data.List.Infix
import TaggedProse.Proofs.Paragraph.Markup
import TaggedProse.Proofs.Text.Decoding
import TaggedProse.Proofs.Text.Words

/-! What escaped text is decoded to: the text that was escaped, with its references replaced by the characters they
denote. -/
namespace TaggedProse
variable {s t name digits : List Char} {c : Char} {start code : Nat}

def denoted : List Char → Char
  | '#' :: 'x' :: digits => Char.ofNat (numberFrom 16 0 digits)
  | '#' :: digits => Char.ofNat (numberFrom 10 0 digits)
  | name => (namedReference? name).getD '&'

def dereferenced : List Char → List Char
  | [] => []
  | c :: s =>
    if c = '&' ∧ completesReference s then
      denoted (s.takeWhile (· != ';')) :: dereferenced (s.dropWhile (· != ';')).tail
    else c :: dereferenced s
termination_by s => s.length
decreasing_by
  · have hdrop := (List.dropWhile_suffix (l := s) (· != ';')).length_le
    rw [List.length_tail, List.length_cons]
    omega
  · simp

/-! ### Names -/

theorem denoted_decimal (hne : digits ≠ []) (hdigits : ∀ c ∈ digits, c.isDigit = true) :
    denoted ('#' :: digits) = Char.ofNat (numberFrom 10 0 digits) := by
  obtain ⟨d, digits, rfl⟩ := List.exists_cons_of_ne_nil hne
  have hx : d ≠ 'x' := by
    rintro rfl
    cases hdigits 'x' List.mem_cons_self
  simp [denoted, hx]

theorem denoted_named (h : namedReference? name = some c) : denoted name = c := by
  unfold denoted
  split
  · cases h
  · cases h
  · rw [h]
    rfl

namespace Xml

theorem readCode_decimal (hne : digits ≠ []) (hdigits : ∀ c ∈ digits, c.isDigit = true) :
    readCode digits = readNumber 10 digits := by
  obtain ⟨d, digits, rfl⟩ := List.exists_cons_of_ne_nil hne
  have hx : d ≠ 'x' := by
    rintro rfl
    cases hdigits 'x' List.mem_cons_self
  simp [readCode, hx]

theorem resolve_number (h : readCode digits = .ok code) (hcode : IsCode code) :
    resolve start ('#' :: digits) = .ok (Char.ofNat code) := by
  have hchar : charOfCode code = .ok (Char.ofNat code) := by
    rw [charOfCode, if_neg hcode.1, if_pos hcode.2]
  simp only [resolve, h, hchar]

/-- A name is resolved to the character it denotes. -/
theorem resolve_eq_denoted (h : Denotes name) : resolve start name = .ok (denoted name) := by
  cases h with
  | named known =>
    obtain ⟨c, hc⟩ := Option.isSome_iff_exists.1 known
    rw [resolve_named hc, denoted_named hc]
  | decimal nonempty digital code =>
    have hread : readNumber 10 _ = .ok _ := (readNumber_eq_ok (by decide) _).2
      ⟨nonempty, fun c hc => isSome_digit?_ten.2 (digital c hc), rfl, lt_of_isCode code⟩
    rw [denoted_decimal nonempty digital]
    exact resolve_number ((readCode_decimal nonempty digital).trans hread) code
  | hexadecimal nonempty digital code =>
    have hread : readNumber 16 _ = .ok _ := (readNumber_eq_ok (by decide) _).2
      ⟨nonempty, fun c hc => isSome_digit?_sixteen.2 (digital c hc), rfl, lt_of_isCode code⟩
    exact resolve_number hread code

end Xml

/-! ### Texts -/

theorem dereferenced_reference (h : isReferenceName name = true) (rest : List Char) :
    dereferenced ('&' :: (name ++ ';' :: rest)) = denoted name :: dereferenced rest := by
  obtain ⟨htake, hdrop⟩ := span_semicolon (isDelimiter_of_isReferenceName h) rest
  rw [dereferenced, if_pos ⟨rfl, completesReference_append h rest⟩, htake, hdrop, List.tail_cons]

theorem dereferenced_literal (hc : ¬(c = '&' ∧ completesReference s = true)) :
    dereferenced (c :: s) = c :: dereferenced s := by
  rw [dereferenced, if_neg hc]

/-- A text without references is left as it is. -/
theorem dereferenced_of_not_refers (h : ∀ name, ¬Refers s name) : dereferenced s = s := by
  induction s using reference_induction with
  | nil => rw [dereferenced]
  | reference name rest hname ih => exact absurd ⟨[], rest, rfl, hname⟩ (h name)
  | literal c s hc ih =>
    rw [dereferenced_literal hc, ih fun name hname => h name ((refers_literal hc).2 hname)]

/-! ### Texts without references -/

instance (s : List Char) : Decidable (∀ name, ¬Refers s name) :=
  decidable_of_iff (∀ t ∈ s.tails, t.head? = some '&' → completesReference t.tail = false) <| by
    constructor
    · rintro h name ⟨front, rest, rfl, hname⟩
      have hsuffix : '&' :: (name ++ ';' :: rest) <:+ front ++ '&' :: (name ++ ';' :: rest) := List.suffix_append _ _
      have hnone := h _ ((List.mem_tails _ _).2 hsuffix) rfl
      rw [List.tail_cons, completesReference_append hname] at hnone
      cases hnone
    · intro h t ht hamp
      obtain ⟨t, rfl⟩ := List.head?_eq_some_iff.1 hamp
      obtain ⟨front, rfl⟩ := (List.mem_tails _ _).1 ht
      rw [Bool.eq_false_iff]
      intro hcompletes
      obtain ⟨name, rest, rfl, hname⟩ := exists_of_completesReference hcompletes
      exact h name ⟨front, rest, rfl, hname⟩

theorem not_refers_of_not_mem (h : '&' ∉ s) (name : List Char) : ¬Refers s name := by
  rintro ⟨front, rest, rfl, -⟩
  exact h (by simp)

theorem completesReference_append_iff (ht : ';' ∉ t) :
    completesReference (s ++ t) = true ↔ completesReference s = true := by
  constructor
  · intro h
    obtain ⟨name, rest, heq, hname⟩ := exists_of_completesReference h
    rcases List.append_eq_append_iff.1 heq with ⟨front, -, rfl⟩ | ⟨back, rfl, hback⟩
    · simp at ht
    · cases back with
      | nil =>
        rw [List.nil_append] at hback
        exact absurd (hback ▸ List.mem_cons_self) ht
      | cons c back =>
        obtain ⟨rfl, -⟩ := List.cons.inj hback
        exact completesReference_append hname back
  · intro h
    obtain ⟨name, rest, rfl, hname⟩ := exists_of_completesReference h
    rw [List.append_assoc, List.cons_append]
    exact completesReference_append hname _

/-- What stands at the end of a text makes no difference to the references before it. -/
theorem refers_append_iff (hamp : '&' ∉ t) (hsemi : ';' ∉ t) : Refers (s ++ t) name ↔ Refers s name := by
  induction s using reference_induction with
  | nil => exact iff_of_false (not_refers_of_not_mem hamp name) (not_refers_of_not_mem (by simp) name)
  | reference other rest hother ih =>
    rw [List.cons_append, List.append_assoc, List.cons_append, refers_reference hother, refers_reference hother, ih]
  | literal c s hc ih =>
    have hct := hc
    rw [← completesReference_append_iff hsemi] at hct
    rw [List.cons_append, refers_literal hct, refers_literal hc, ih]

theorem dereferenced_append (hamp : '&' ∉ t) (hsemi : ';' ∉ t) (s : List Char) :
    dereferenced (s ++ t) = dereferenced s ++ t := by
  induction s using reference_induction with
  | nil =>
    have hnil : dereferenced [] = [] := by rw [dereferenced]
    rw [hnil, List.nil_append, dereferenced_of_not_refers (not_refers_of_not_mem hamp)]
  | reference name rest hname ih =>
    rw [List.cons_append, List.append_assoc, List.cons_append, dereferenced_reference hname,
      dereferenced_reference hname, ih, List.cons_append]
  | literal c s hc ih =>
    have hct := hc
    rw [← completesReference_append_iff hsemi] at hct
    rw [List.cons_append, dereferenced_literal hct, dereferenced_literal hc, ih, List.cons_append]

/-! ### Visible characters -/

/-- An ampersand and a semicolon are more than the one character they make with a name between them. -/
theorem countP_reference_lt (h : isReferenceName name = true) {rest : List Char}
    (hrest : (dereferenced rest).countP (!isBlank ·) ≤ rest.countP (!isBlank ·)) :
    (dereferenced ('&' :: (name ++ ';' :: rest))).countP (!isBlank ·) <
      ('&' :: (name ++ ';' :: rest)).countP (!isBlank ·) := by
  have hdenoted : (dereferenced ('&' :: (name ++ ';' :: rest))).countP (!isBlank ·) ≤
      (dereferenced rest).countP (!isBlank ·) + 1 := by
    rw [dereferenced_reference h, List.countP_cons]
    split <;> omega
  have hwritten : ('&' :: (name ++ ';' :: rest)).countP (!isBlank ·) =
      name.countP (!isBlank ·) + (rest.countP (!isBlank ·) + 1) + 1 := by
    rw [List.countP_cons_of_pos (by decide), List.countP_append, List.countP_cons_of_pos (by decide)]
  omega

theorem countP_dereferenced_le (s : List Char) :
    (dereferenced s).countP (!isBlank ·) ≤ s.countP (!isBlank ·) := by
  induction s using reference_induction with
  | nil => rw [dereferenced]
  | reference name rest hname ih => exact (countP_reference_lt hname ih).le
  | literal c s hc ih =>
    rw [dereferenced_literal hc, List.countP_cons, List.countP_cons]
    exact Nat.add_le_add_right ih _

theorem countP_dereferenced_lt (h : Refers s name) :
    (dereferenced s).countP (!isBlank ·) < s.countP (!isBlank ·) := by
  induction s using reference_induction with
  | nil => exact absurd h (not_refers_of_not_mem (by simp) name)
  | reference other rest hother ih => exact countP_reference_lt hother (countP_dereferenced_le rest)
  | literal c s hc ih =>
    rw [dereferenced_literal hc, List.countP_cons, List.countP_cons]
    exact Nat.add_lt_add_right (ih ((refers_literal hc).1 h)) _

/-- References leave their mark on a text, even when it is squeezed. -/
theorem squeeze_dereferenced_ne (h : Refers s name) : squeeze (dereferenced s) ≠ squeeze s := by
  intro heq
  have hvisible := congrArg (List.filter (!isBlank ·)) heq
  rw [filter_squeeze, filter_squeeze] at hvisible
  have hlt := countP_dereferenced_lt h
  rw [List.countP_eq_length_filter, List.countP_eq_length_filter, hvisible] at hlt
  exact Nat.lt_irrefl _ hlt

/-! ### Decoding -/

theorem decodeFrom_escape (h : ∀ name, Refers s name → Denotes name) (length position : Nat) (place : Place) :
    Xml.decodeFrom length position (escape place s) = .ok (dereferenced s) := by
  induction s using reference_induction generalizing position with
  | nil => rw [escape, Xml.decodeFrom, dereferenced]
  | reference name rest hname ih =>
    simp only [refers_reference hname, forall_eq_or_imp] at h
    rw [escape_reference place hname, decodeFrom_reference (isDelimiter_of_isReferenceName hname),
      Xml.resolve_eq_denoted h.1, ih h.2, dereferenced_reference hname]
    rfl
  | literal c s hc ih =>
    simp only [refers_literal hc] at h
    rw [dereferenced_literal hc]
    rcases escape_literal place hc with ⟨hamp, hescape⟩ | ⟨written, hwritten, hresolve, hescape⟩
    · rw [hescape, decodeFrom_cons hamp, ih h]
      rfl
    · rw [hescape, decodeFrom_reference (isDelimiter_of_isReferenceName hwritten), hresolve, ih h]
      rfl

theorem decode_escape (h : ∀ name, Refers s name → Denotes name) (place : Place) :
    Xml.decode (escape place s) = .ok (dereferenced s) :=
  decodeFrom_escape h _ 0 place

/-- Escaped text is decoded exactly if every reference in the text denotes a character, and then to the text with
these characters in place of the references. It holds nothing that ends the text or the attribute it is put in. -/
theorem decode_escape_eq_ok_iff (s : List Char) :
    (∀ place d, Xml.decode (escape place s) = .ok d ↔
      (∀ name, Refers s name → Denotes name) ∧ dereferenced s = d) ∧
    (∀ place, '<' ∉ escape place s) ∧ '"' ∉ escape .attribute s := by
  refine ⟨fun place d => ⟨fun h => ?_, ?_⟩, fun place => not_mem_escape place s, not_mem_escape_attribute s⟩
  · have hdenotes := (exists_decode_escape place s).1 ⟨d, h⟩
    exact ⟨hdenotes, Except.ok.inj ((decode_escape hdenotes place).symm.trans h)⟩
  · rintro ⟨hdenotes, rfl⟩
    exact decode_escape hdenotes place

/-- Only the ampersand next to a name is replaced with it, and what comes out is not replaced again. -/
example : dereferenced "&&amp; &#x; &amp;lt; &#x41;&#66; &copy;".toList = "&& &#x; &lt; AB &copy;".toList := by
  decide +kernel

end TaggedProse
