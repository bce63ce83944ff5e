import Mathlib.Data.List.TakeWhile
import TaggedProse.Assembly.Basic
import TaggedProse.Proofs.Text.Lines

/-! The characters of prose, where they are written. Prose is escaped, and later decoded; a character
that comes out stands for itself or for a reference. A reference to a newline is no line end, but it is
counted as one for what comes after it. -/
namespace TaggedProse
variable {s rest : List Char} {c : Char} {line carried length position : Nat} {place : Place}

structure Glyph where
  char : Char
  /-- The line on which it, or the reference to it, is written. -/
  line : Nat
  /-- How many references before it, in the same stretch of text, stand for newlines. -/
  carried : Nat

def Glyph.part (g : Glyph) : Part := .text [g.char] (g.line + g.carried)

def textParts (line : Nat) : List Char → List Part
  | [] => []
  | c :: s => .text [c] line :: textParts (line + newlines [c]) s

/-- What the reference stands for whose ampersand is before `s`. -/
def referent (s : List Char) : Char :=
  (Xml.resolve 0 (s.takeWhile (· != ';'))).toOption.getD '&'

/-- The characters of a stretch of text. A reference takes the line of its ampersand. -/
def glyphs (line carried : Nat) : List Char → List Glyph
  | [] => []
  | c :: s =>
    if c = '&' ∧ completesReference s then
      ⟨referent s, line, carried⟩ ::
        glyphs line (carried + newlines [referent s]) (s.dropWhile (· != ';')).tail
    else ⟨c, line, carried⟩ :: glyphs (line + newlines [c]) carried s
termination_by s => s.length
decreasing_by
  · have hdrop := (List.dropWhile_suffix (l := s) (· != ';')).length_le
    rw [List.length_tail, List.length_cons]
    omega
  · simp

/-! ### References -/

def isDelimiter (c : Char) : Bool := c == '&' || c == '<' || c == '>' || c == ';' || c == '\n'

def isReferenceChar (c : Char) : Bool := c == '#' || c.isAlphanum

theorem isReferenceChar_of_isHexDigit (h : isHexDigit c = true) : isReferenceChar c = true := by
  have halpha : c.isAlpha = (c.isUpper || c.isLower) := rfl
  have hupper : c.isUpper = decide (c.val ≥ 'A'.val ∧ c.val ≤ 'Z'.val) := rfl
  have hlower : c.isLower = (decide (c.val ≥ 'a'.val) && decide (c.val ≤ 'z'.val)) := rfl
  simp only [isHexDigit, isReferenceChar, Char.isAlphanum, halpha, hupper, hlower, Char.isDigit, Char.le_def,
    UInt32.le_iff_toNat_le, Bool.or_eq_true, Bool.and_eq_true, decide_eq_true_eq, ge_iff_le] at h ⊢
  have hf : 'f'.val.toNat ≤ 'z'.val.toNat := by decide
  have hF : 'F'.val.toNat ≤ 'Z'.val.toNat := by decide
  rcases h with (h | h) | h
  · exact .inr (.inr h)
  · exact .inr (.inl (.inr ⟨h.1, h.2.trans hf⟩))
  · exact .inr (.inl (.inl ⟨h.1, h.2.trans hF⟩))

theorem isReferenceChar_of_isDigit (h : c.isDigit = true) : isReferenceChar c = true :=
  isReferenceChar_of_isHexDigit (by simp [isHexDigit, h])

theorem isReferenceChar_of_isReferenceName (h : isReferenceName s = true) : ∀ c ∈ s, isReferenceChar c = true := by
  unfold isReferenceName at h
  split at h
  · next digits =>
    have hdigits := List.all_eq_true.1 (Bool.and_eq_true_iff.1 h).2
    rw [List.forall_mem_cons, List.forall_mem_cons]
    exact ⟨rfl, rfl, fun c hc => isReferenceChar_of_isHexDigit (hdigits c hc)⟩
  · next digits =>
    have hdigits := List.all_eq_true.1 (Bool.and_eq_true_iff.1 h).2
    rw [List.forall_mem_cons, List.forall_mem_cons]
    exact ⟨rfl, rfl, fun c hc => isReferenceChar_of_isHexDigit (hdigits c hc)⟩
  · next digits _ _ =>
    have hdigits := List.all_eq_true.1 (Bool.and_eq_true_iff.1 h).2
    rw [List.forall_mem_cons]
    exact ⟨rfl, fun c hc => isReferenceChar_of_isDigit (hdigits c hc)⟩
  · rw [← List.all_eq_true]
    unfold namedReference? at h
    split at h
    · decide
    · decide
    · decide
    · decide
    · decide
    · cases h

theorem isDelimiter_of_isReferenceChar (h : isReferenceChar c = true) : isDelimiter c = false := by
  rw [Bool.eq_false_iff]
  intro hn
  simp only [isDelimiter, Bool.or_eq_true, beq_iff_eq] at hn
  rcases hn with (((rfl | rfl) | rfl) | rfl) | rfl <;> revert h <;> decide

theorem isDelimiter_of_isReferenceName (h : isReferenceName s = true) :
    ∀ c ∈ s, isDelimiter c = false :=
  fun c hc => isDelimiter_of_isReferenceChar (isReferenceChar_of_isReferenceName h c hc)

/-- The name of a reference and the text after its semicolon. -/
theorem exists_of_completesReference (h : completesReference s = true) :
    ∃ name rest, s = name ++ ';' :: rest ∧ isReferenceName name = true := by
  obtain ⟨hmem, hname⟩ := Bool.and_eq_true_iff.1 h
  have hsplit := List.takeWhile_append_dropWhile (p := (· != ';')) (l := s)
  cases hdrop : s.dropWhile (· != ';') with
  | nil =>
    have hall := List.dropWhile_eq_nil_iff.1 hdrop ';' (List.contains_iff_mem.1 hmem)
    cases hall
  | cons c rest =>
    have hc := List.head?_dropWhile_not (· != ';') s
    rw [hdrop] at hc hsplit
    obtain rfl : c = ';' := by simpa using hc
    exact ⟨_, rest, hsplit.symm, hname⟩

/-- A name ends at the first semicolon. -/
theorem span_semicolon {name : List Char} (h : ∀ c ∈ name, isDelimiter c = false) (s : List Char) :
    (name ++ ';' :: s).takeWhile (· != ';') = name ∧
      (name ++ ';' :: s).dropWhile (· != ';') = ';' :: s := by
  have hname : ∀ c ∈ name, (c != ';') = true := by
    intro c hc
    have hplain := h c hc
    simp only [isDelimiter, Bool.or_eq_false_iff, beq_eq_false_iff_ne] at hplain
    simp [hplain]
  rw [List.takeWhile_append_of_pos hname, List.dropWhile_append_of_pos hname]
  simp

/-! ### Escaping, and decoding what was escaped -/

/-- The name under which a character is written that begins no reference, if it may not stand for itself. -/
def Place.name? (place : Place) (c : Char) : Option (List Char) :=
  match c with
  | '<' => some ['l', 't']
  | '>' => some ['g', 't']
  | '&' => some ['a', 'm', 'p']
  | '"' => if place = .attribute then some ['q', 'u', 'o', 't'] else none
  | _ => none

theorem namedReference?_of_name? {name : List Char} (h : place.name? c = some name) :
    namedReference? name = some c := by
  unfold Place.name? at h
  split at h
  · cases h; rfl
  · cases h; rfl
  · cases h; rfl
  · split at h
    · cases h; rfl
    · cases h
  · cases h

theorem isReferenceName_of_isSome {name : List Char} (h : (namedReference? name).isSome = true) :
    isReferenceName name = true := by
  unfold isReferenceName
  split
  · cases h
  · cases h
  · cases h
  · exact h

theorem isReferenceName_of_name? {name : List Char} (h : place.name? c = some name) :
    isReferenceName name = true :=
  isReferenceName_of_isSome (by rw [namedReference?_of_name? h]; rfl)

/-- What is written for a character that begins no reference does not depend on what follows. -/
theorem escape_cons (place : Place) (hc : ¬(c = '&' ∧ completesReference s = true)) :
    escape place (c :: s) =
      match place.name? c with
      | some name => '&' :: (name ++ ';' :: escape place s)
      | none => c :: escape place s := by
  generalize hrest : escape place s = rest
  unfold escape
  subst hrest
  split
  · rfl
  · rfl
  · cases place <;> rfl
  · rw [if_neg fun hs => hc ⟨rfl, hs⟩]
    rfl
  · have hname : place.name? c = none := by simp [Place.name?]
    rw [hname]
    rfl

theorem resolve_named {start : Nat} {name : List Char} (h : namedReference? name = some c) :
    Xml.resolve start name = .ok c := by
  unfold Xml.resolve
  split
  · cases h
  · rw [h]

/-- A character that begins no reference is written as it is, or as a reference to it. -/
theorem escape_literal (place : Place) (hc : ¬(c = '&' ∧ completesReference s = true)) :
    (c ≠ '&' ∧ escape place (c :: s) = c :: escape place s) ∨
      ∃ name, isReferenceName name = true ∧ (∀ start, Xml.resolve start name = .ok c) ∧
        escape place (c :: s) = '&' :: (name ++ ';' :: escape place s) := by
  rw [escape_cons place hc]
  cases hname : place.name? c with
  | some name =>
    exact .inr ⟨name, isReferenceName_of_name? hname,
      fun _ => resolve_named (namedReference?_of_name? hname), rfl⟩
  | none =>
    have hamp : c ≠ '&' := by
      rintro rfl
      cases hname
    exact .inl ⟨hamp, rfl⟩

theorem escape_append_of_isReferenceChar (place : Place) (h : ∀ c ∈ s, isReferenceChar c = true) (t : List Char) :
    escape place (s ++ t) = s ++ escape place t := by
  induction s with
  | nil => rfl
  | cons c s ih =>
    have hc := h c List.mem_cons_self
    have hrest := ih fun d hd => h d (List.mem_cons_of_mem _ hd)
    rw [List.cons_append, List.cons_append, ← hrest]
    generalize hwritten : escape place (s ++ t) = written
    unfold escape
    subst hwritten
    split
    · cases hc
    · cases hc
    · cases hc
    · cases hc
    · rfl

theorem completesReference_append {name : List Char} (h : isReferenceName name = true) (s : List Char) :
    completesReference (name ++ ';' :: s) = true := by
  obtain ⟨htake, -⟩ := span_semicolon (isDelimiter_of_isReferenceName h) s
  rw [completesReference, htake, h]
  simp

/-- A reference is written as it is. -/
theorem escape_reference (place : Place) {name : List Char} (h : isReferenceName name = true) (s : List Char) :
    escape place ('&' :: (name ++ ';' :: s)) = '&' :: (name ++ ';' :: escape place s) := by
  have hname := escape_append_of_isReferenceChar place (isReferenceChar_of_isReferenceName h) (';' :: s)
  change (if completesReference (name ++ ';' :: s) then ['&'] else "&amp;".toList) ++ _ = _
  rw [completesReference_append h, hname]
  rfl

theorem decodeFrom_cons (h : c ≠ '&') (s : List Char) :
    Xml.decodeFrom length position (c :: s) =
      (Xml.decodeFrom length (position + c.utf8Size) s).map (c :: ·) := by
  rw [Xml.decodeFrom, if_neg h]

theorem decodeFrom_reference {name : List Char} (h : ∀ c ∈ name, isDelimiter c = false) (s : List Char) :
    Xml.decodeFrom length position ('&' :: (name ++ ';' :: s)) =
      match Xml.resolve (position + 1) name with
      | .error e => .error e
      | .ok d =>
        (Xml.decodeFrom length (position + byteLength name + 2) s).map (d :: ·) := by
  have hin : ∀ c ∈ name, Xml.inReference c = true := by
    intro c hc
    have := h c hc
    simp only [isDelimiter, Bool.or_eq_false_iff, beq_eq_false_iff_ne] at this
    simp [Xml.inReference, this]
  have htake : (name ++ ';' :: s).takeWhile Xml.inReference = name := by
    rw [List.takeWhile_append_of_pos hin]
    simp [Xml.inReference]
  have hdrop : (name ++ ';' :: s).dropWhile Xml.inReference = ';' :: s := by
    rw [List.dropWhile_append_of_pos hin]
    simp [Xml.inReference]
  rw [Xml.decodeFrom, if_pos rfl]
  dsimp only
  split
  · next rest heq =>
    rw [hdrop] at heq
    cases heq
    cases hresolve : Xml.resolve (position + 1) name with
    | error e => simp only [htake, hresolve]
    | ok d => simp only [htake, hresolve]
  · next hne => exact absurd hdrop (hne s)

theorem resolve_eq_ok {start start' : Nat} {name : List Char} {d : Char}
    (h : Xml.resolve start name = .ok d) : Xml.resolve start' name = .ok d := by
  unfold Xml.resolve at h ⊢
  split at h
  · exact h
  · split at h
    · cases h
    · exact h

theorem textParts_cons (line : Nat) (c : Char) (s : List Char) :
    textParts line (c :: s) = .text [c] line :: textParts (line + newlines [c]) s := rfl

/-- Every character that is written as a reference has a name. -/
theorem exists_of_decodeFrom_named (name : List Char) {d : List Char} (hname : isReferenceName name = true)
    (hresolve : ∀ start, Xml.resolve start name = .ok c)
    (h : Xml.decodeFrom length position ('&' :: (name ++ ';' :: s)) = .ok d) :
    ∃ position' d', d = c :: d' ∧ Xml.decodeFrom length position' s = .ok d' := by
  rw [decodeFrom_reference (isDelimiter_of_isReferenceName hname), hresolve] at h
  cases hrest : Xml.decodeFrom length (position + byteLength name + 2) s with
  | error e => simp [hrest, Except.map] at h
  | ok d' =>
    refine ⟨_, d', ?_, hrest⟩
    simpa [hrest, Except.map] using h.symm

theorem exists_of_decodeFrom_literal {d : List Char} (hc : ¬(c = '&' ∧ completesReference s = true))
    (h : Xml.decodeFrom length position (escape .content (c :: s)) = .ok d) :
    ∃ position' d', d = c :: d' ∧
      Xml.decodeFrom length position' (escape .content s) = .ok d' := by
  rcases escape_literal .content hc with ⟨hamp, hescape⟩ | ⟨name, hname, hresolve, hescape⟩
  · rw [hescape, decodeFrom_cons hamp] at h
    cases hrest : Xml.decodeFrom length (position + c.utf8Size) (escape .content s) with
    | error e => simp [hrest, Except.map] at h
    | ok d' =>
      refine ⟨_, d', ?_, hrest⟩
      simpa [hrest, Except.map] using h.symm
  · rw [hescape] at h
    exact exists_of_decodeFrom_named name hname hresolve h

/-- What escaped text is decoded to are its glyphs. -/
theorem map_part_glyphs {d : List Char} (s : List Char) (line carried : Nat)
    (h : Xml.decodeFrom length position (escape .content s) = .ok d) :
    (glyphs line carried s).map Glyph.part = textParts (line + carried) d := by
  fun_induction glyphs line carried s generalizing position d with
  | case1 line carried =>
    rw [escape, Xml.decodeFrom] at h
    cases h
    rfl
  | case2 line carried c s href ih =>
    obtain ⟨rfl, hs⟩ := href
    obtain ⟨name, rest, rfl, hname⟩ := exists_of_completesReference hs
    have hplain := isDelimiter_of_isReferenceName hname
    obtain ⟨htake, hdrop⟩ := span_semicolon hplain rest
    rw [escape_reference .content hname, decodeFrom_reference hplain] at h
    split at h
    · cases h
    · next char hresolve =>
      have hreferent : referent (name ++ ';' :: rest) = char := by
        rw [referent, htake, resolve_eq_ok hresolve]
        rfl
      rw [hreferent, hdrop] at ih ⊢
      cases hrest : Xml.decodeFrom length (position + byteLength name + 2) (escape .content rest) with
      | error e => rw [hrest] at h; cases h
      | ok d =>
        rw [hrest] at h
        cases h
        rw [List.map_cons, textParts_cons, Nat.add_assoc, ← ih hrest]
        rfl
  | case3 line carried c s hliteral ih =>
    obtain ⟨position', d', rfl, hrest⟩ := exists_of_decodeFrom_literal hliteral h
    rw [List.map_cons, textParts_cons, Nat.add_right_comm, ← ih hrest]
    rfl

end TaggedProse
