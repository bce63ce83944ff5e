import TaggedProse.Proofs.Inline.Positions

/-! Where a rule for a fixed word gives its token. It is tried wherever a piece begins; prose ends in front of the
characters the standard rules begin with, and asks no other rule. So within prose the word is found exactly if prose
ends in front of it. -/
namespace TaggedProse
variable {rules ahead front : List Rule} {word s a b t : List Char} {c : Char} {token : Token} {m : Match}

/-- The standard rules and some others, and among those a rule for a fixed word. -/
def withLiteral (ahead : List Rule) (word : List Char) (token : Token) (front : List Rule) : List Rule :=
  ahead ++ .literal word token :: (front ++ Rule.standard)

/-- `m` is the piece of `s` that begins behind `a`. -/
def PieceAt (rules : List Rule) (s a : List Char) (m : Match) : Prop :=
  ∃ ms ns, pieces rules s = ms ++ m :: ns ∧ ms.flatMap Match.source = a

/-- The piece `m` of `a ++ t` begins in `a` and ends in `t`. -/
def Straddles (rules : List Rule) (a t : List Char) (m : Match) : Prop :=
  ∃ begun x y, PieceAt rules (a ++ t) begun m ∧ a = begun ++ x ∧ m.source = x ++ y ∧ x ≠ [] ∧ y ≠ []

def Match.IsProse (rules : List Rule) (m : Match) : Prop :=
  ∀ r ∈ rules, r ≠ .text → r.scan (m.source ++ m.rest) = none

/-- Nothing but prose reaches from `a` into `t`, and none of the rules `ahead` takes the beginning of `t`. -/
structure Unclaimed (ahead rules : List Rule) (a t : List Char) : Prop where
  prose : ∀ m, Straddles rules a t m → m.IsProse rules
  first : ∀ r ∈ ahead, r.scan t = none

def EndsMarkup (rules : List Rule) (s a : List Char) : Prop :=
  ∃ begun m, PieceAt rules s begun m ∧ ¬m.IsProse rules ∧ begun ++ m.source = a

/-! ### Pieces and positions -/

theorem PieceAt.exists_eq (h : PieceAt rules s a m) : ∃ ms c t, ms.flatMap Match.source = a ∧ s = a ++ c :: t ∧
    m = nextPiece rules c t ∧ pieces rules s = ms ++ m :: pieces rules m.rest := by
  obtain ⟨ms, ns, hpieces, rfl⟩ := h
  have hcover := flatMap_source_pieces rules s
  have hagain := pieces_of_append hpieces
  rw [hpieces, List.flatMap_append] at hcover
  cases hrest : (m :: ns).flatMap Match.source with
  | nil =>
    rw [hrest, pieces] at hagain
    cases hagain
  | cons c t =>
    rw [hrest, pieces] at hagain
    obtain ⟨rfl, rfl⟩ := List.cons.inj hagain
    exact ⟨ms, c, t, rfl, hrest ▸ hcover.symm, rfl, hpieces⟩

theorem PieceAt.eq_nextPiece (h : PieceAt rules s a m) :
    ∃ c t, m = nextPiece rules c t ∧ m.source ++ m.rest = c :: t ∧ s = a ++ c :: t := by
  obtain ⟨-, c, t, -, hs, rfl, -⟩ := h.exists_eq
  exact ⟨c, t, rfl, (append_nextPiece rules c t).1, hs⟩

theorem pieceAt_nil (rules : List Rule) (c : Char) (t : List Char) :
    PieceAt rules (c :: t) [] (nextPiece rules c t) :=
  ⟨[], _, by rw [pieces]; rfl, rfl⟩

theorem PieceAt.cons {begun : List Char} (h : PieceAt rules (nextPiece rules c t).rest begun m) :
    PieceAt rules (c :: t) ((nextPiece rules c t).source ++ begun) m := by
  obtain ⟨ms, ns, hpieces, rfl⟩ := h
  exact ⟨nextPiece rules c t :: ms, ns, by rw [pieces, hpieces]; rfl, rfl⟩

theorem PieceAt.ne_nil (h : PieceAt rules s a m) : m.source ≠ [] := by
  obtain ⟨c, t, rfl, -⟩ := h.eq_nextPiece
  exact (append_nextPiece rules c t).2

/-- At every position a piece begins, or one goes on. -/
theorem pieceAt_or_straddles (rules : List Rule) (a : List Char) (c : Char) (t : List Char) :
    PieceAt rules (a ++ c :: t) a (nextPiece rules c t) ∨ ∃ m, Straddles rules a (c :: t) m := by
  generalize hs : a ++ c :: t = s
  fun_induction pieces rules s generalizing a with
  | case1 => simp at hs
  | case2 d s first ih =>
    have hcover : first.source ++ first.rest = a ++ c :: t := (append_nextPiece rules d s).1.trans hs.symm
    rcases append_cases hcover with ⟨a', rfl, hrest⟩ | ⟨e, he, hsource, -⟩
    · rcases ih a' hrest.symm with hbegins | ⟨m, begun, x, y, hm, rfl, hcut⟩
      · exact .inl hbegins.cons
      · rw [← hrest] at hm
        have hm : PieceAt rules (d :: s) (first.source ++ begun) m := hm.cons
        exact .inr ⟨m, first.source ++ begun, x, y, by rwa [hs], (List.append_assoc _ _ _).symm, hcut⟩
    · cases a with
      | nil =>
        cases hs
        exact .inl (pieceAt_nil rules c t)
      | cons d' a =>
        have hm := pieceAt_nil rules d s
        rw [← hs] at hm
        exact .inr ⟨first, [], _, e, hm, rfl, hsource, List.cons_ne_nil _ _, he⟩

/-- Where one piece ends the next one begins. -/
theorem PieceAt.next {begun : List Char} (h : PieceAt rules (a ++ c :: t) begun m) (ha : begun ++ m.source = a) :
    PieceAt rules (a ++ c :: t) a (nextPiece rules c t) := by
  obtain ⟨_, _, -, hcover, hs⟩ := h.eq_nextPiece
  obtain ⟨ms, -, -, rfl, -, -, hpieces⟩ := h.exists_eq
  have hrest : m.rest = c :: t := by
    rw [← ha, List.append_assoc, ← hcover] at hs
    simpa using hs.symm
  rw [hrest, pieces] at hpieces
  exact ⟨ms ++ [m], pieces rules (nextPiece rules c t).rest, by simp [hpieces], by simp [ha]⟩

/-- A piece that does not begin the text begins where another one ends. -/
theorem PieceAt.previous (h : PieceAt rules s a m) :
    a = [] ∨ ∃ begun m', PieceAt rules s begun m' ∧ begun ++ m'.source = a ∧ m'.rest = m.source ++ m.rest := by
  obtain ⟨ms, ns, hpieces, rfl⟩ := id h
  rcases List.eq_nil_or_concat ms with rfl | ⟨ms, m', rfl⟩
  · exact .inl rfl
  · have hm' : PieceAt rules s (ms.flatMap Match.source) m' := ⟨ms, m :: ns, by simp [hpieces], rfl⟩
    refine .inr ⟨_, m', hm', by simp, ?_⟩
    obtain ⟨c, t, -, hcover, hs⟩ := h.eq_nextPiece
    obtain ⟨d, u, -, hcover', hs'⟩ := hm'.eq_nextPiece
    rw [hs, ← hcover, ← hcover'] at hs'
    simpa using hs'.symm

/-! ### Stretches of prose -/

theorem stopsProse_append (hs : s ≠ []) (h : stopsProse s = true) (t : List Char) : stopsProse (s ++ t) = true := by
  cases s with
  | nil => exact absurd rfl hs
  | cons c s =>
    simp only [List.cons_append, stopsProse, Bool.or_eq_true, Bool.and_eq_true] at h ⊢
    refine h.imp_right (And.imp_right fun hbreak => ?_)
    obtain ⟨rest, hrest⟩ := Option.isSome_iff_exists.1 hbreak
    obtain ⟨n, e, he, hs⟩ := afterSpacedNewline?_eq_some.1 hrest
    refine Option.isSome_iff_exists.2 ⟨rest ++ t, afterSpacedNewline?_eq_some.2 ⟨n, e, he, ?_⟩⟩
    rw [← List.cons_append, hs, List.append_assoc]

/-- Where no other rule recognises anything there is a stretch of prose. -/
theorem nextPiece_of_isProse (htext : .text ∈ rules) (h : (nextPiece rules c t).IsProse rules) :
    nextPiece rules c t = ⟨.text (c :: (splitProse t).1), c :: (splitProse t).1, (splitProse t).2⟩ := by
  rw [Match.IsProse, (append_nextPiece rules c t).1] at h
  cases hfirst : firstMatch rules (c :: t) with
  | none => cases List.findSome?_eq_none_iff.1 hfirst .text htext
  | some m =>
    obtain ⟨r, hr, hfilter⟩ := List.exists_of_findSome?_eq_some hfirst
    obtain ⟨hscan, -⟩ := Option.filter_eq_some_iff.1 hfilter
    obtain rfl : r = .text := by
      by_contra hne
      cases hscan.symm.trans (h r hr hne)
    cases hscan
    rw [nextPiece, hfirst]
    rfl

theorem PieceAt.stopsProse_rest (htext : .text ∈ rules) (h : PieceAt rules s a m) (hm : m.IsProse rules) :
    stopsProse m.rest = true := by
  obtain ⟨c, t, rfl, -⟩ := h.eq_nextPiece
  rw [nextPiece_of_isProse htext hm]
  exact stopsProse_splitProse t

/-- Prose goes on at every position inside it. -/
theorem Straddles.stopsProse_eq (htext : .text ∈ rules) (h : Straddles rules a t m) (hm : m.IsProse rules) :
    stopsProse t = false := by
  obtain ⟨begun, x, y, hpiece, rfl, hsource, hx, hy⟩ := h
  obtain ⟨c, u, rfl, hcover, hs⟩ := hpiece.eq_nextPiece
  have ht : t = y ++ (nextPiece rules c u).rest := by
    rw [← hcover, hsource] at hs
    simpa using hs
  have hprose := nextPiece_of_isProse htext hm
  obtain ⟨d, x, rfl⟩ := List.exists_cons_of_ne_nil hx
  rw [hprose, List.cons_append] at hsource
  rw [ht, hprose]
  exact stopsProse_of_suffix hy ⟨x, (List.cons.inj hsource).2.symm⟩

/-! ### The rule for the word -/

theorem text_mem_withLiteral (ahead : List Rule) (word : List Char) (token : Token) (front : List Rule) :
    .text ∈ withLiteral ahead word token front := by
  simp [withLiteral, Rule.standard]

/-- The rule is tried where a piece begins. -/
theorem nextPiece_withLiteral (hahead : ∀ r ∈ ahead, r.scan (word ++ b) = none) (h : word ++ b = c :: t)
    (hword : word ≠ []) (token : Token) (front : List Rule) :
    nextPiece (withLiteral ahead word token front) c t = ⟨token, word, b⟩ := by
  have hnone : firstMatch ahead (word ++ b) = none :=
    List.findSome?_eq_none_iff.2 fun r hr => by rw [hahead r hr]; rfl
  have hscan : (Rule.literal word token).scan (word ++ b) = some ⟨token, word, b⟩ := by
    simp [Rule.scan]
  have hfirst : firstMatch (withLiteral ahead word token front) (word ++ b) = some ⟨token, word, b⟩ := by
    rw [firstMatch] at hnone ⊢
    rw [withLiteral, List.findSome?_append, hnone, Option.none_or, List.findSome?_cons, hscan, Option.filter_some]
    simp [hword]
  rw [nextPiece, ← h, hfirst]
  rfl

/-- An unclaimed word is found where a piece that is no prose ends, or where prose ends. -/
theorem pieceAt_withLiteral_iff (hword : word ≠ [])
    (h : Unclaimed ahead (withLiteral ahead word token front) a (word ++ b)) :
    PieceAt (withLiteral ahead word token front) (a ++ (word ++ b)) a ⟨token, word, b⟩ ↔
      a = [] ∨ EndsMarkup (withLiteral ahead word token front) (a ++ (word ++ b)) a ∨
        stopsProse (word ++ b) = true := by
  have htext := text_mem_withLiteral ahead word token front
  obtain ⟨hclaims, hfirst⟩ := h
  obtain ⟨c, t, hct⟩ := List.exists_cons_of_ne_nil (List.append_ne_nil_of_left_ne_nil hword b)
  have hnext := nextPiece_withLiteral hfirst hct hword token front
  rw [hct] at hclaims ⊢
  constructor
  · intro hfound
    rcases hfound.previous with ha | ⟨begun, m, hm, ha, hrest⟩
    · exact .inl ha
    · by_cases hprose : m.IsProse (withLiteral ahead word token front)
      · have hstops := hm.stopsProse_rest htext hprose
        rw [hrest, hct] at hstops
        exact .inr (.inr hstops)
      · exact .inr (.inl ⟨begun, m, hm, hprose, ha⟩)
  · rw [← hnext]
    rintro (rfl | ⟨begun, m, hm, -, ha⟩ | hstops)
    · exact pieceAt_nil _ c t
    · exact hm.next ha
    · refine (pieceAt_or_straddles _ a c t).resolve_right ?_
      rintro ⟨m, hm⟩
      cases hstops.symm.trans (hm.stopsProse_eq htext (hclaims m hm))

/-- Every occurrence of the word that is not claimed gives its token. -/
def FindsAll (ahead : List Rule) (word : List Char) (token : Token) (front : List Rule) : Prop :=
  ∀ a b, Unclaimed ahead (withLiteral ahead word token front) a (word ++ b) →
    PieceAt (withLiteral ahead word token front) (a ++ (word ++ b)) a ⟨token, word, b⟩

theorem isProse_withLiteral (hrules : ∀ r ∈ ahead ++ front, r.isLiteral = false)
    (hstops : stopsProse (m.source ++ m.rest) = false) (hword : ¬word <+: m.source ++ m.rest) :
    m.IsProse (withLiteral ahead word token front) := by
  intro r hr hne
  have hstandard : ∀ r ∈ Rule.standard, r.isLiteral = false := by decide
  simp only [withLiteral, List.mem_append, List.mem_cons] at hr
  rcases hr with hr | rfl | hr | hr
  · exact scan_eq_none_of_stopsProse hstops (hrules r (List.mem_append_left _ hr)) hne
  · simp [Rule.scan, hword]
  · exact scan_eq_none_of_stopsProse hstops (hrules r (List.mem_append_right _ hr)) hne
  · exact scan_eq_none_of_stopsProse hstops (hstandard r hr) hne

/-- In front of a letter that the word does not begin with there is prose. -/
theorem PieceAt.isProse_letter (h : PieceAt (withLiteral ahead word token front) (c :: t) [] m)
    (hrules : ∀ r ∈ ahead ++ front, r.isLiteral = false) (hstops : stopsProse (c :: t) = false)
    (hword : ¬word <+: c :: t) : m.IsProse (withLiteral ahead word token front) := by
  obtain ⟨d, u, -, hcover, hs⟩ := h.eq_nextPiece
  have hcover : m.source ++ m.rest = c :: t := hcover.trans hs.symm
  exact isProse_withLiteral hrules (by rwa [hcover]) (by rwa [hcover])

theorem unclaimed_letter (hrules : ∀ r ∈ ahead ++ front, r.isLiteral = false)
    (hahead : ∀ r ∈ ahead, r.scan t = none) (hstops : stopsProse (c :: t) = false) (hword : ¬word <+: c :: t) :
    Unclaimed ahead (withLiteral ahead word token front) [c] t := by
  refine ⟨?_, hahead⟩
  rintro m ⟨begun, x, y, hm, hx, -, hne, -⟩
  obtain ⟨rfl, -⟩ : begun = [] ∧ x = [c] := by simpa [List.singleton_eq_append_iff, hne] using hx
  exact hm.isProse_letter hrules hstops hword

theorem not_endsMarkup_letter (hrules : ∀ r ∈ ahead ++ front, r.isLiteral = false)
    (hstops : stopsProse (c :: t) = false) (hword : ¬word <+: c :: t) :
    ¬EndsMarkup (withLiteral ahead word token front) (c :: t) [c] := by
  rintro ⟨begun, m, hm, hmarkup, hends⟩
  obtain ⟨rfl, -⟩ : begun = [] ∧ m.source = [c] := by
    simpa [List.append_eq_singleton_iff, hm.ne_nil] using hends
  exact hmarkup (hm.isProse_letter hrules hstops hword)

/-- There is a letter that the word does not begin with. -/
theorem exists_letter (hword : word ≠ []) : ∃ c, ∀ t, stopsProse (c :: t) = false ∧ ¬word <+: c :: t := by
  obtain ⟨d, word, rfl⟩ := List.exists_cons_of_ne_nil hword
  by_cases hd : d = 'x'
  · exact ⟨'y', fun t => ⟨rfl, by simp [hd]⟩⟩
  · exact ⟨'x', fun t => ⟨rfl, by simp [hd]⟩⟩

theorem findsAll_iff (hword : word ≠ []) (hrules : ∀ r ∈ ahead ++ front, r.isLiteral = false)
    (hahead : .text ∉ ahead) : FindsAll ahead word token front ↔ stopsProse word = true := by
  constructor
  · intro hfinds
    by_contra hprose
    rw [Bool.not_eq_true] at hprose
    obtain ⟨c, hc⟩ := exists_letter hword
    obtain ⟨hstops, hprefix⟩ := hc (word ++ [])
    have hnone : ∀ r ∈ ahead, r.scan (word ++ []) = none := fun r hr => by
      rw [List.append_nil]
      exact scan_eq_none_of_stopsProse hprose (hrules r (List.mem_append_left _ hr)) (ne_of_mem_of_not_mem hr hahead)
    have hunclaimed : Unclaimed ahead (withLiteral ahead word token front) [c] (word ++ []) :=
      unclaimed_letter hrules hnone hstops hprefix
    rcases (pieceAt_withLiteral_iff hword hunclaimed).1 (hfinds _ _ hunclaimed) with hnil | hmarkup | hends
    · cases hnil
    · exact not_endsMarkup_letter hrules hstops hprefix hmarkup
    · rw [List.append_nil, hprose] at hends
      cases hends
  · intro hends a b hunclaimed
    exact (pieceAt_withLiteral_iff hword hunclaimed).2 (.inr (.inr (stopsProse_append hword hends b)))

/-! ### Tokens -/

theorem PieceAt.tokenize_eq (h : PieceAt rules s a m) (htoken : ∀ u, m.token ≠ .text u) :
    ∃ ms : List Match, ms.flatMap Match.source = a ∧
      tokenize rules s = joinText (ms.map Match.token) ++ m.token :: tokenize rules m.rest := by
  obtain ⟨ms, -, -, ha, -, -, hpieces⟩ := h.exists_eq
  refine ⟨ms, ha, ?_⟩
  rw [tokenize, hpieces, List.map_append, List.map_cons, joinText_append_cons htoken, tokenize]

/-- What becomes of the word where it is not claimed, for which words it is always found, and its token among those
of the text. -/
theorem found_iff_and_findsAll_iff (hword : word ≠ []) (hrules : ∀ r ∈ ahead ++ front, r.isLiteral = false)
    (hahead : .text ∉ ahead) :
    (∀ a b, Unclaimed ahead (withLiteral ahead word token front) a (word ++ b) →
      (PieceAt (withLiteral ahead word token front) (a ++ (word ++ b)) a ⟨token, word, b⟩ ↔
        a = [] ∨ EndsMarkup (withLiteral ahead word token front) (a ++ (word ++ b)) a ∨
          stopsProse (word ++ b) = true)) ∧
    (FindsAll ahead word token front ↔ stopsProse word = true) ∧
    ∀ a b, PieceAt (withLiteral ahead word token front) (a ++ (word ++ b)) a ⟨token, word, b⟩ →
      (∀ u, token ≠ .text u) → ∃ ms : List Match, ms.flatMap Match.source = a ∧
        tokenize (withLiteral ahead word token front) (a ++ (word ++ b)) =
          joinText (ms.map Match.token) ++ token :: tokenize (withLiteral ahead word token front) b :=
  ⟨fun _ _ => pieceAt_withLiteral_iff hword, findsAll_iff hword hrules hahead, fun _ _ h => h.tokenize_eq⟩

def bangRules : List Rule := withLiteral [.tag] ['!'] (.markup ['X']) []

theorem tokenize_bang :
    Unclaimed [.tag] bangRules ['a'] "!b".toList ∧
      PieceAt bangRules "a!b".toList ['a'] ⟨.markup ['X'], ['!'], ['b']⟩ ∧
      ∃ ms : List Match, ms.flatMap Match.source = ['a'] ∧
        tokenize bangRules "a!b".toList =
          joinText (ms.map Match.token) ++ .markup ['X'] :: tokenize bangRules ['b'] := by
  have hrules : ∀ r ∈ [Rule.tag] ++ [], r.isLiteral = false := by decide
  have hunclaimed : Unclaimed [.tag] bangRules ['a'] "!b".toList :=
    unclaimed_letter hrules (by decide) rfl (by decide)
  obtain ⟨-, hfinds, htokens⟩ :=
    @found_iff_and_findsAll_iff [.tag] [] ['!'] (.markup ['X']) (by decide) hrules (by decide)
  have hfound := hfinds.2 rfl ['a'] ['b'] hunclaimed
  exact ⟨hunclaimed, hfound, htokens ['a'] ['b'] hfound (by simp)⟩

def atRules : List Rule := withLiteral [] ['@'] (.markup ['X']) [.tag]

theorem swallowed_at :
    Unclaimed [] atRules ['a'] "@b".toList ∧
      ¬PieceAt atRules "a@b".toList ['a'] ⟨.markup ['X'], ['@'], ['b']⟩ ∧
      tokenize atRules "a@b".toList = [.text "a@b".toList] := by
  have hpieces : pieces atRules "a@b".toList = [⟨.text "a@b".toList, "a@b".toList, []⟩] := by
    decide +kernel
  refine ⟨unclaimed_letter (by decide) (by decide) rfl (by decide), ?_, ?_⟩
  · rintro ⟨ms, ns, hmem, -⟩
    have hmem : ⟨.markup ['X'], ['@'], ['b']⟩ ∈ pieces atRules "a@b".toList :=
      hmem ▸ List.mem_append_right ms List.mem_cons_self
    rw [hpieces] at hmem
    simp at hmem
  · rw [tokenize, hpieces]
    rfl

end TaggedProse
