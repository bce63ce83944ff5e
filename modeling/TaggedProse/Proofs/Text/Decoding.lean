import TaggedProse.Proofs.Text.Glyph

/-! When escaped text can be decoded. Escaping takes more names for references than there are characters
with such names; a text that has one of the others cannot be decoded once it is escaped. -/
namespace TaggedProse
variable {s rest name : List Char} {c : Char} {base n code length position start : Nat} {place : Place}

/-- The reference `&name;` is written in the text, and escaping leaves it there. -/
def Refers (s name : List Char) : Prop :=
  ∃ front rest, s = front ++ '&' :: (name ++ ';' :: rest) ∧ isReferenceName name = true

def digitValue (c : Char) : Nat :=
  if c.isDigit then c.toNat - '0'.toNat
  else if c.isLower then c.toNat - 'a'.toNat + 10
  else c.toNat - 'A'.toNat + 10

/-- The number whose digits are those of `n` and then those of `s`. -/
def numberFrom (base n : Nat) (s : List Char) : Nat := s.foldl (fun n c => n * base + digitValue c) n

def IsCode (code : Nat) : Prop := code ≠ 0 ∧ code.isValidChar

inductive Denotes : List Char → Prop
  | named {name : List Char} (known : (namedReference? name).isSome = true) : Denotes name
  | decimal {digits : List Char} (nonempty : digits ≠ []) (digital : ∀ c ∈ digits, c.isDigit = true)
      (code : IsCode (numberFrom 10 0 digits)) : Denotes ('#' :: digits)
  | hexadecimal {digits : List Char} (nonempty : digits ≠ []) (digital : ∀ c ∈ digits, isHexDigit c = true)
      (code : IsCode (numberFrom 16 0 digits)) : Denotes ('#' :: 'x' :: digits)

/-! ### Numbers -/

theorem le_numberFrom (hbase : 1 ≤ base) (n : Nat) (s : List Char) : n ≤ numberFrom base n s := by
  induction s generalizing n with
  | nil => exact Nat.le_refl n
  | cons c s ih =>
    have hgrow : n ≤ n * base + digitValue c :=
      (Nat.le_mul_of_pos_right n hbase).trans (Nat.le_add_right _ _)
    exact hgrow.trans (ih _)

namespace Xml

theorem isDigit_iff (c : Char) : c.isDigit = true ↔ 0x30 ≤ c.toNat ∧ c.toNat ≤ 0x39 := by
  simp [Char.isDigit, UInt32.le_iff_toNat_le]

theorem isLower_iff (c : Char) : c.isLower = true ↔ 0x61 ≤ c.toNat ∧ c.toNat ≤ 0x7A := by
  have hlower : c.isLower = (decide (c.val ≥ 'a'.val) && decide (c.val ≤ 'z'.val)) := rfl
  simp [hlower, UInt32.le_iff_toNat_le]

theorem isHexDigit_iff (c : Char) : isHexDigit c = true ↔ (0x30 ≤ c.toNat ∧ c.toNat ≤ 0x39) ∨
    (0x61 ≤ c.toNat ∧ c.toNat ≤ 0x66) ∨ 0x41 ≤ c.toNat ∧ c.toNat ≤ 0x46 := by
  simp only [isHexDigit, Bool.or_eq_true, isDigit_iff, Bool.and_eq_true, decide_eq_true_eq, Char.le_def,
    UInt32.le_iff_toNat_le, or_assoc]
  rfl

/-- A digit of a base is a hexadecimal digit whose value is below the base. -/
theorem digit?_eq_some {d : Nat} :
    digit? base c = some d ↔ isHexDigit c = true ∧ digitValue c = d ∧ d < base := by
  have hzero : '0'.toNat = 0x30 := rfl
  have hlower : 'a'.toNat = 0x61 := rfl
  have hupper : 'A'.toNat = 0x41 := rfl
  simp only [digit?, digitValue, isHexDigit_iff, isDigit_iff, isLower_iff, hzero, hlower, hupper,
    Bool.and_eq_true, decide_eq_true_eq, Option.filter_eq_some_iff]
  grind

theorem isSome_digit?_iff : (digit? base c).isSome = true ↔ isHexDigit c = true ∧ digitValue c < base := by
  rw [Option.isSome_iff_exists]
  simp only [digit?_eq_some]
  exact ⟨fun ⟨d, hhex, hvalue, hlt⟩ => ⟨hhex, hvalue ▸ hlt⟩, fun ⟨hhex, hlt⟩ => ⟨_, hhex, rfl, hlt⟩⟩

theorem isSome_digit?_ten : (digit? 10 c).isSome = true ↔ c.isDigit = true := by
  have hzero : '0'.toNat = 0x30 := rfl
  simp only [isSome_digit?_iff, digitValue, isHexDigit_iff, isDigit_iff, hzero]
  split_ifs <;> omega

theorem isSome_digit?_sixteen : (digit? 16 c).isSome = true ↔ isHexDigit c = true := by
  have hzero : '0'.toNat = 0x30 := rfl
  have hlower : 'a'.toNat = 0x61 := rfl
  have hupper : 'A'.toNat = 0x41 := rfl
  simp only [isSome_digit?_iff, digitValue, isHexDigit_iff, isDigit_iff, isLower_iff, hzero, hlower, hupper]
  split_ifs <;> omega

/-- Digits are read to their number, unless it is too large. -/
theorem readDigits_eq_ok (hbase : 1 ≤ base) (hn : n < UInt32.size) (s : List Char) :
    readDigits base n s = .ok code ↔
      (∀ c ∈ s, (digit? base c).isSome = true) ∧ numberFrom base n s = code ∧ code < UInt32.size := by
  induction s generalizing n with
  | nil =>
    rw [readDigits]
    simp only [Except.ok.injEq, List.not_mem_nil, false_implies, implies_true, true_and]
    exact ⟨fun h => ⟨h, h ▸ hn⟩, fun h => h.1⟩
  | cons c s ih =>
    rw [readDigits, List.forall_mem_cons]
    cases hd : digit? base c with
    | none => simp
    | some d =>
      obtain ⟨-, rfl, -⟩ := digit?_eq_some.1 hd
      have hnumber : numberFrom base n (c :: s) = numberFrom base (n * base + digitValue c) s := rfl
      dsimp only
      rw [hnumber]
      by_cases hlarge : UInt32.size ≤ n * base + digitValue c
      · -- more digits do not make the number smaller
        have hle := le_numberFrom hbase (n * base + digitValue c) s
        rw [if_pos hlarge]
        constructor
        · intro h
          cases h
        · rintro ⟨-, hcode, hsmall⟩
          omega
      · rw [if_neg hlarge, ih (Nat.lt_of_not_le hlarge)]
        simp only [Option.isSome_some, true_and]

theorem readNumber_eq_ok (hbase : 1 ≤ base) (s : List Char) :
    readNumber base s = .ok code ↔
      s ≠ [] ∧ (∀ c ∈ s, (digit? base c).isSome = true) ∧ numberFrom base 0 s = code ∧ code < UInt32.size := by
  cases s with
  | nil => simp [readNumber]
  | cons c s =>
    rw [readNumber]
    split
    · next hsign =>
      have hnone : digit? base c = none := by
        rcases hsign with rfl | rfl
        · rfl
        · rfl
      constructor
      · intro h
        cases h
      · rintro ⟨-, hdigits, -⟩
        have hc := hdigits c List.mem_cons_self
        rw [hnone] at hc
        cases hc
    · rw [readDigits_eq_ok hbase (by decide)]
      simp only [ne_eq, reduceCtorEq, not_false_eq_true, true_and]

theorem lt_of_isCode (h : IsCode code) : code < UInt32.size := by
  have hsize : UInt32.size = 0x100000000 := rfl
  rcases h.2 with h | h
  · omega
  · omega

theorem exists_charOfCode_iff : (∃ c, charOfCode code = .ok c) ↔ IsCode code := by
  unfold charOfCode IsCode
  by_cases hzero : code = 0
  · simp [hzero]
  · by_cases hvalid : code.isValidChar
    · simp [hzero, hvalid]
    · simp [hzero, hvalid]

theorem exists_readNumber_iff (hbase : 1 ≤ base) (s : List Char) :
    (∃ code, readNumber base s = .ok code ∧ IsCode code) ↔
      s ≠ [] ∧ (∀ c ∈ s, (digit? base c).isSome = true) ∧ IsCode (numberFrom base 0 s) := by
  constructor
  · rintro ⟨code, hread, hcode⟩
    obtain ⟨hne, hdigits, rfl, -⟩ := (readNumber_eq_ok hbase s).1 hread
    exact ⟨hne, hdigits, hcode⟩
  · rintro ⟨hne, hdigits, hcode⟩
    exact ⟨_, (readNumber_eq_ok hbase s).2 ⟨hne, hdigits, rfl, lt_of_isCode hcode⟩, hcode⟩

theorem exists_resolve_number_iff (s : List Char) :
    (∃ c, resolve start ('#' :: s) = .ok c) ↔ ∃ code, readCode s = .ok code ∧ IsCode code := by
  simp only [resolve, ← exists_charOfCode_iff]
  cases readCode s with
  | error e => simp
  | ok code =>
    simp only [Except.ok.injEq, exists_eq_left']
    cases charOfCode code with
    | error e => simp
    | ok c => simp

theorem denotes_number_iff (s : List Char) : Denotes ('#' :: s) ↔
    (s ≠ [] ∧ (∀ c ∈ s, c.isDigit = true) ∧ IsCode (numberFrom 10 0 s)) ∨
      ∃ digits, s = 'x' :: digits ∧ digits ≠ [] ∧ (∀ c ∈ digits, isHexDigit c = true) ∧
        IsCode (numberFrom 16 0 digits) := by
  constructor
  · intro h
    cases h with
    | named known => cases known
    | decimal nonempty digital code => exact .inl ⟨nonempty, digital, code⟩
    | hexadecimal nonempty digital code => exact .inr ⟨_, rfl, nonempty, digital, code⟩
  · rintro (⟨nonempty, digital, code⟩ | ⟨digits, rfl, nonempty, digital, code⟩)
    · exact .decimal nonempty digital code
    · exact .hexadecimal nonempty digital code

/-- The names that are resolved are those of characters. -/
theorem exists_resolve_iff (name : List Char) : (∃ c, resolve start name = .ok c) ↔ Denotes name := by
  by_cases hnumber : ∃ s, name = '#' :: s
  · obtain ⟨s, rfl⟩ := hnumber
    rw [exists_resolve_number_iff, denotes_number_iff]
    by_cases hx : ∃ digits, s = 'x' :: digits
    · obtain ⟨digits, rfl⟩ := hx
      have hdecimal : ¬∀ c ∈ 'x' :: digits, c.isDigit = true := fun h => by
        cases h 'x' List.mem_cons_self
      rw [readCode, exists_readNumber_iff (by decide)]
      simp only [isSome_digit?_sixteen, hdecimal, false_and, and_false, false_or, List.cons.injEq, true_and,
        exists_eq_left']
    · have hcode : readCode s = readNumber 10 s := by
        unfold readCode
        split
        · exact absurd ⟨_, rfl⟩ hx
        · rfl
      have hnone : ∀ digits, s ≠ 'x' :: digits := fun digits heq => hx ⟨digits, heq⟩
      rw [hcode, exists_readNumber_iff (by decide)]
      simp only [isSome_digit?_ten, hnone, false_and, exists_false, or_false]
  · have hresolve : (∃ c, resolve start name = .ok c) ↔ (namedReference? name).isSome = true := by
      unfold resolve
      split
      · exact absurd ⟨_, rfl⟩ hnumber
      · cases namedReference? name <;> simp
    rw [hresolve]
    constructor
    · exact .named
    · intro h
      cases h with
      | named known => exact known
      | decimal => exact absurd ⟨_, rfl⟩ hnumber
      | hexadecimal => exact absurd ⟨_, rfl⟩ hnumber

end Xml

/-! ### References in a text -/

theorem refers_cons : Refers (c :: s) name ↔
    (c = '&' ∧ isReferenceName name = true ∧ ∃ rest, s = name ++ ';' :: rest) ∨ Refers s name := by
  constructor
  · rintro ⟨front, rest, heq, hname⟩
    cases front with
    | nil =>
      obtain ⟨rfl, rfl⟩ := List.cons.inj heq
      exact .inl ⟨rfl, hname, rest, rfl⟩
    | cons d front =>
      obtain ⟨rfl, rfl⟩ := List.cons.inj heq
      exact .inr ⟨front, rest, rfl, hname⟩
  · rintro (⟨rfl, hname, rest, rfl⟩ | ⟨front, rest, rfl, hname⟩)
    · exact ⟨[], rest, rfl, hname⟩
    · exact ⟨c :: front, rest, rfl, hname⟩

theorem refers_literal (hc : ¬(c = '&' ∧ completesReference s = true)) :
    Refers (c :: s) name ↔ Refers s name := by
  rw [refers_cons, or_iff_right]
  rintro ⟨hamp, hname, rest, rfl⟩
  exact hc ⟨hamp, completesReference_append hname rest⟩

theorem refers_append_of_isReferenceChar {front : List Char} (h : ∀ c ∈ front, isReferenceChar c = true) :
    Refers (front ++ s) name ↔ Refers s name := by
  induction front with
  | nil => rfl
  | cons c front ih =>
    have hc : c ≠ '&' := by
      rintro rfl
      cases h '&' List.mem_cons_self
    rw [List.cons_append, refers_literal fun hamp => hc hamp.1,
      ih fun d hd => h d (List.mem_cons_of_mem _ hd)]

theorem refers_reference {other : List Char} (h : isReferenceName name = true) :
    Refers ('&' :: (name ++ ';' :: rest)) other ↔ other = name ∨ Refers rest other := by
  have hrest : Refers (name ++ ';' :: rest) other ↔ Refers rest other := by
    rw [refers_append_of_isReferenceChar (isReferenceChar_of_isReferenceName h),
      refers_literal (by simp)]
  rw [refers_cons, hrest]
  refine or_congr_left ⟨?_, ?_⟩
  · -- both names end at the first semicolon
    rintro ⟨-, hother, rest', heq⟩
    rw [← (span_semicolon (isDelimiter_of_isReferenceName hother) rest').1, ← heq,
      (span_semicolon (isDelimiter_of_isReferenceName h) rest).1]
  · rintro rfl
    exact ⟨rfl, h, rest, rfl⟩

/-- A text is read reference by reference, and character by character between them. -/
theorem reference_induction {P : List Char → Prop} (nil : P [])
    (reference : ∀ name rest, isReferenceName name = true → P rest → P ('&' :: (name ++ ';' :: rest)))
    (literal : ∀ c s, ¬(c = '&' ∧ completesReference s = true) → P s → P (c :: s)) (s : List Char) : P s := by
  refine glyphs.induct (fun _ _ s => P s) (fun _ _ => nil) ?_ (fun _ _ c s hc ih => literal c s hc ih) 0 0 s
  rintro - - c s ⟨rfl, hs⟩ ih
  obtain ⟨name, rest, rfl, hname⟩ := exists_of_completesReference hs
  rw [(span_semicolon (isDelimiter_of_isReferenceName hname) rest).2] at ih
  exact reference name rest hname ih

/-! ### Escaped text -/

theorem exists_map_eq_ok {r : Except Xml.ReferenceError (List Char)} :
    (∃ d, r.map (c :: ·) = .ok d) ↔ ∃ d, r = .ok d := by
  cases r with
  | error e => simp [Except.map]
  | ok d => simp [Except.map]

theorem exists_decodeFrom_reference (h : isReferenceName name = true) (s : List Char) :
    (∃ d, Xml.decodeFrom length position ('&' :: (name ++ ';' :: s)) = .ok d) ↔
      Denotes name ∧ ∃ d, Xml.decodeFrom length (position + byteLength name + 2) s = .ok d := by
  rw [decodeFrom_reference (isDelimiter_of_isReferenceName h), ← Xml.exists_resolve_iff]
  cases Xml.resolve (position + 1) name with
  | error e => simp
  | ok c => simp [exists_map_eq_ok]

theorem exists_decodeFrom_escape (length position : Nat) (place : Place) (s : List Char) :
    (∃ d, Xml.decodeFrom length position (escape place s) = .ok d) ↔
      ∀ name, Refers s name → Denotes name := by
  induction s using reference_induction generalizing position with
  | nil =>
    refine ⟨?_, fun _ => ⟨[], by rw [escape, Xml.decodeFrom]⟩⟩
    rintro - name ⟨front, rest, heq, -⟩
    simp at heq
  | reference name rest hname ih =>
    rw [escape_reference place hname, exists_decodeFrom_reference hname, ih]
    simp only [refers_reference hname, forall_eq_or_imp]
  | literal c s hc ih =>
    simp only [refers_literal hc]
    rcases escape_literal place hc with ⟨hamp, hescape⟩ | ⟨written, hwritten, hresolve, hescape⟩
    · rw [hescape, decodeFrom_cons hamp, exists_map_eq_ok, ih]
    · have hdenotes : Denotes written := Xml.exists_resolve_iff written |>.1 ⟨c, hresolve 0⟩
      rw [hescape, exists_decodeFrom_reference hwritten, ih, and_iff_right hdenotes]

/-- Escaped text can be decoded if every reference in the text denotes a character. -/
theorem exists_decode_escape (place : Place) (s : List Char) :
    (∃ d, Xml.decode (escape place s) = .ok d) ↔ ∀ name, Refers s name → Denotes name :=
  exists_decodeFrom_escape _ 0 place s

end TaggedProse
