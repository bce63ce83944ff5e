import TaggedProse.Proofs.Inline.Pieces

/-! Prose is taken in stretches. The lexer finds the same tokens as one that tries the other rules at every
single position, because no other rule recognises anything where a stretch goes on. -/
namespace TaggedProse
variable {rules : List Rule} {r : Rule} {s a b rest : List Char} {m : Match}

/-- The rules that have their say before the first one for prose, which takes any text. -/
def rulesBeforeText (rules : List Rule) : List Rule := rules.takeWhile (· != .text)

/-- Goes from position to position, past the first `skip` characters, which were taken before. Where no
rule recognises anything, the character is prose. -/
def tokensByPosition (rules : List Rule) : Nat → List Char → List Token
  | _, [] => []
  | skip + 1, _ :: s => tokensByPosition rules skip s
  | 0, c :: s =>
    match (rulesBeforeText rules).findSome? (·.scan (c :: s)) with
    | some m => m.token :: tokensByPosition rules (m.source.length - 1) s
    | none => .text [c] :: tokensByPosition rules 0 s

theorem rulesBeforeText_documentRules : rulesBeforeText documentRules = [.tag, .escape, .image, .lineBreak] := by
  decide

theorem ne_text_of_mem_rulesBeforeText (h : r ∈ rulesBeforeText rules) : r ≠ .text := by
  simpa using List.all_eq_true.1 List.all_takeWhile r h

theorem tokensByPosition_skip (rules : List Rule) (h : a ++ rest = s) :
    tokensByPosition rules a.length s = tokensByPosition rules 0 rest := by
  subst h
  induction a with
  | nil => rfl
  | cons c a ih => exact ih

/-! ### Where prose goes on -/

/-- In front of such a text only prose can be recognised. -/
theorem scan_eq_none_of_stopsProse (h : stopsProse s = false) (hr : r.isLiteral = false) (ht : r ≠ .text) :
    r.scan s = none := by
  cases s with
  | nil => cases h
  | cons c s =>
    simp only [stopsProse, Bool.or_eq_false_iff, beq_eq_false_iff_ne] at h
    obtain ⟨⟨⟨htag, himage⟩, hescape⟩, hbreak⟩ := h
    cases r with
    | tag => simp [Rule.scan, scanTag, TagSpan.scan?, htag]
    | escape => simp [Rule.scan, scanEscape, hescape]
    | image => simp [Rule.scan, scanImage, himage]
    | lineBreak =>
      have hspaced : afterSpacedNewline? (c :: s) = none := by
        by_cases hc : c = ' '
        · simpa [hc] using hbreak
        · simp [afterSpacedNewline?, hc]
      simp [Rule.scan, scanLineBreak, hescape, hspaced]
    | text => exact absurd rfl ht
    | literal word token => cases hr

/-- Every position inside a stretch of prose is one where prose goes on. -/
theorem stopsProse_of_suffix (hb : b ≠ []) (h : b <:+ (splitProse s).1) :
    stopsProse (b ++ (splitProse s).2) = false := by
  induction s with
  | nil => exact absurd (List.suffix_nil.1 h) hb
  | cons c s ih =>
    rw [splitProse] at h ⊢
    split at h
    · exact absurd (List.suffix_nil.1 h) hb
    · next hstop =>
      rw [if_neg hstop]
      rcases List.suffix_cons_iff.1 h with rfl | h
      · rw [List.cons_append, Rule.append_splitProse]
        exact Bool.eq_false_iff.2 hstop
      · exact ih h

theorem stopsProse_splitProse (s : List Char) : stopsProse (splitProse s).2 = true := by
  induction s with
  | nil => rfl
  | cons c s ih =>
    rw [splitProse]
    split
    · assumption
    · exact ih

/-- What a stretch of prose takes, the position-by-position lexer takes character by character. -/
theorem tokensByPosition_splitProse (hrules : ∀ r ∈ rulesBeforeText rules, r.isLiteral = false)
    (s : List Char) :
    tokensByPosition rules 0 s =
      (splitProse s).1.map (fun c => .text [c]) ++ tokensByPosition rules 0 (splitProse s).2 := by
  induction s with
  | nil => rfl
  | cons c s ih =>
    rw [splitProse]
    split
    · rfl
    · next hstop =>
      have hnone : (rulesBeforeText rules).findSome? (·.scan (c :: s)) = none :=
        List.findSome?_eq_none_iff.2 fun r hr => scan_eq_none_of_stopsProse (Bool.eq_false_iff.2 hstop)
          (hrules r hr) (ne_text_of_mem_rulesBeforeText hr)
      rw [tokensByPosition, hnone]
      exact congrArg (_ :: ·) ih

/-! ### The first rule that matches -/

theorem firstMatch_eq_findSome? (hrules : ∀ r ∈ rules, r.isLiteral = false) (s : List Char) :
    firstMatch rules s = rules.findSome? (·.scan s) := by
  induction rules with
  | nil => rfl
  | cons r rules ih =>
    obtain ⟨hr, hrest⟩ := List.forall_mem_cons.1 hrules
    have hfirst : (r.scan s).filter (!·.source.isEmpty) = r.scan s := by
      cases hscan : r.scan s with
      | none => rfl
      | some m => simpa using source_ne_nil_of_keeps (keeps_of_scan hr hscan)
    rw [firstMatch, List.findSome?_cons, List.findSome?_cons, hfirst]
    cases r.scan s with
    | none => exact ih hrest
    | some m => rfl

/-- The next piece is what one of the rules before prose takes, or else a stretch of prose, or one
character if there is no rule for prose. -/
theorem nextPiece_cases (hrules : ∀ r ∈ rules, r.isLiteral = false) (c : Char) (s : List Char) :
    (rulesBeforeText rules).findSome? (·.scan (c :: s)) = some (nextPiece rules c s) ∨
      (rulesBeforeText rules).findSome? (·.scan (c :: s)) = none ∧
        (nextPiece rules c s = ⟨.text [c], [c], s⟩ ∨
          nextPiece rules c s = ⟨.text (c :: (splitProse s).1), c :: (splitProse s).1, (splitProse s).2⟩) := by
  have hsplit : rulesBeforeText rules ++ rules.dropWhile (· != .text) = rules :=
    List.takeWhile_append_dropWhile
  have hfirst : firstMatch rules (c :: s) =
      ((rulesBeforeText rules).findSome? (·.scan (c :: s))).or
        ((rules.dropWhile (· != .text)).findSome? (·.scan (c :: s))) := by
    rw [firstMatch_eq_findSome? hrules, ← List.findSome?_append, hsplit]
  rw [nextPiece, hfirst]
  cases hbefore : (rulesBeforeText rules).findSome? (·.scan (c :: s)) with
  | some m => exact .inl rfl
  | none =>
    refine .inr ⟨rfl, ?_⟩
    cases hafter : rules.dropWhile (· != .text) with
    | nil => exact .inl rfl
    | cons r post =>
      have htext := List.head?_dropWhile_not (· != Rule.text) rules
      rw [hafter] at htext
      have htext : r = .text := bne_eq_false_iff_eq.1 htext
      exact .inr (by rw [htext]; rfl)

/-! ### Joining what was taken character by character -/

theorem joinText_cons_congr {ts us : List Token} (t : Token) (h : joinText ts = joinText us) :
    joinText (t :: ts) = joinText (t :: us) := by
  cases t <;> simp only [joinText, h]

theorem joinText_text_append (s t : List Char) (ts : List Token) :
    joinText (.text s :: .text t :: ts) = joinText (.text (s ++ t) :: ts) := by
  rw [joinText.eq_2, joinText.eq_2, joinText.eq_2]
  cases joinText ts with
  | nil => rfl
  | cons u us => cases u <;> simp

theorem joinText_singletons (c : Char) (a : List Char) (ts : List Token) :
    joinText (.text [c] :: (a.map (fun c => .text [c]) ++ ts)) = joinText (.text (c :: a) :: ts) := by
  induction a generalizing c with
  | nil => rfl
  | cons d a ih =>
    rw [List.map_cons, List.cons_append, joinText_cons_congr _ (ih d), joinText_text_append]
    rfl

/-! ### The two lexers -/

theorem joinText_pieces (hrules : ∀ r ∈ rules, r.isLiteral = false) (s : List Char) :
    joinText ((pieces rules s).map Match.token) = joinText (tokensByPosition rules 0 s) := by
  have hbefore : ∀ r ∈ rulesBeforeText rules, r.isLiteral = false := fun r hr =>
    hrules r ((List.takeWhile_prefix _).subset hr)
  fun_induction pieces rules s with
  | case1 => rfl
  | case2 c s m ih =>
    have hcover := append_nextPiece rules c s
    rw [List.map_cons, joinText_cons_congr _ ih, tokensByPosition]
    rcases nextPiece_cases hrules c s with hmatch | ⟨hnone, hchar | hprose⟩
    · -- a rule before prose has matched, and both lexers go on after what it took
      obtain ⟨d, taken, hsource⟩ := List.exists_cons_of_ne_nil hcover.2
      rw [hsource, List.cons_append] at hcover
      obtain ⟨-, hrest⟩ := List.cons.inj hcover.1
      rw [hmatch]
      simp only [m, hsource, List.length_cons, Nat.add_sub_cancel, tokensByPosition_skip rules hrest]
    · rw [hnone]
      simp only [m, hchar]
    · rw [hnone, tokensByPosition_splitProse hbefore s]
      simp only [m, hprose]
      exact (joinText_singletons c _ _).symm

/-- The tokens are those of the lexer that goes from position to position, with neighbouring texts joined:
where a stretch of prose goes on, no rule before prose recognises anything. -/
theorem tokenize_eq_tokensByPosition (front : List Rule) (h : ∀ r ∈ front, r.isLiteral = false)
    (s : List Char) :
    tokenize (front ++ Rule.standard) s = joinText (tokensByPosition (front ++ Rule.standard) 0 s) ∧
      ∀ m a b, Rule.text.scan s = some m → m.source = a ++ b → a ≠ [] → b ≠ [] →
        ∀ r ∈ rulesBeforeText (front ++ Rule.standard), r.scan (b ++ m.rest) = none := by
  have hstandard : ∀ r ∈ Rule.standard, r.isLiteral = false := by decide
  have hrules : ∀ r ∈ front ++ Rule.standard, r.isLiteral = false := fun r hr =>
    (List.mem_append.1 hr).elim (h r) (hstandard r)
  refine ⟨joinText_pieces hrules s, fun m a b hscan hsource ha hb r hr => ?_⟩
  cases s with
  | nil => cases hscan
  | cons c s =>
    cases hscan
    obtain ⟨d, a, rfl⟩ := List.exists_cons_of_ne_nil ha
    have hsuffix : b <:+ (splitProse s).1 := ⟨a, (List.cons.inj hsource).2.symm⟩
    exact scan_eq_none_of_stopsProse (stopsProse_of_suffix hb hsuffix)
      (hrules r ((List.takeWhile_prefix _).subset hr)) (ne_text_of_mem_rulesBeforeText hr)

def proseBeforeEscapes : List Rule := [.image, .lineBreak, .text, .tag]

theorem tokenize_proseBeforeEscapes :
    (∀ r ∈ proseBeforeEscapes, r.isLiteral = false) ∧
      tokenize (proseBeforeEscapes ++ Rule.standard) "\\! ![a   \n![b](u)".toList =
        [.text "\\! ![a".toList, .lineBreak, .image "u".toList "b".toList none] := by
  have hfront : ∀ r ∈ proseBeforeEscapes, r.isLiteral = false := by decide
  refine ⟨hfront, ?_⟩
  rw [(tokenize_eq_tokensByPosition proseBeforeEscapes hfront _).1]
  decide +kernel

end TaggedProse
