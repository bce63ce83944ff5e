import TaggedProse.Proofs.Inline.Extent
import TaggedProse.Proofs.Inline.Plain
import TaggedProse.Proofs.Inline.Spacing

/-! From one position of a text to a later one. Where the lexer goes from one to the other, it does so too when there
are more or fewer blanks behind the later one, unless an image or a hard break would take them in. -/
namespace TaggedProse
variable {s t r r' c v v' w : List Char} {d : Char} {ts : List Token} {m : Match} {ms ns : List Match}

/-- One beginning of a text goes as far as the other one, or ends within it. -/
theorem append_cases (h : s ++ t = c ++ r) :
    (∃ c', c = s ++ c' ∧ t = c' ++ r) ∨ ∃ e, e ≠ [] ∧ s = c ++ e ∧ r = e ++ t := by
  rcases List.append_eq_append_iff.1 h with ⟨c', hc, ht⟩ | ⟨e, hs, hr⟩
  · exact .inl ⟨c', hc, ht⟩
  · by_cases he : e = []
    · subst he
      rw [List.append_nil] at hs
      exact .inl ⟨[], by rw [hs, List.append_nil], hr.symm⟩
    · exact .inr ⟨e, he, hs, hr⟩

/-- The tokens between two positions of a text; prose goes character by character. -/
inductive Lexes : List Char → List Token → List Char → Prop
  | done {s : List Char} : Lexes s [] s
  | marker {s t : List Char} {m : Match} {ts : List Token} (first : marker? s = some m) (rest : Lexes m.rest ts t) :
      Lexes s (m.token :: ts) t
  | prose {d : Char} {s t : List Char} {ts : List Token} (first : marker? (d :: s) = none) (rest : Lexes s ts t) :
      Lexes (d :: s) (.text [d] :: ts) t

/-! ### One step -/

theorem tokensByPosition_of_marker? (h : marker? s = some m) :
    tokensByPosition documentRules 0 s = m.token :: tokensByPosition documentRules 0 m.rest := by
  obtain ⟨rfl, hne, -⟩ := append_of_marker? h
  obtain ⟨d, taken, hsource⟩ := List.exists_cons_of_ne_nil hne
  rw [hsource, List.cons_append] at h ⊢
  rw [tokensByPosition, ← marker?, h]
  simp only [hsource, List.length_cons, Nat.add_sub_cancel, tokensByPosition_skip documentRules rfl]

theorem tokensByPosition_of_none (h : marker? (d :: s) = none) :
    tokensByPosition documentRules 0 (d :: s) = .text [d] :: tokensByPosition documentRules 0 s := by
  rw [tokensByPosition, ← marker?, h]

theorem Lexes.tokensByPosition_eq (h : Lexes s ts t) :
    tokensByPosition documentRules 0 s = ts ++ tokensByPosition documentRules 0 t := by
  induction h with
  | done => rfl
  | marker first rest ih => rw [tokensByPosition_of_marker? first, ih]; rfl
  | prose first rest ih => rw [tokensByPosition_of_none first, ih]; rfl

theorem nextPiece_of_marker? (h : marker? (d :: s) = some m) : nextPiece documentRules d s = m := by
  rcases nextPiece_cases isLiteral_of_mem_documentRules d s with hsome | ⟨hnone, -⟩
  · exact Option.some.inj (hsome.symm.trans h)
  · exact absurd (hnone.symm.trans h) (by simp)

theorem pieces_of_marker? (h : marker? s = some m) : pieces documentRules s = m :: pieces documentRules m.rest := by
  cases s with
  | nil => cases h
  | cons d s => rw [pieces, nextPiece_of_marker? h]

theorem nextPiece_of_none (h : marker? (d :: s) = none) :
    nextPiece documentRules d s = ⟨.text (d :: (splitProse s).1), d :: (splitProse s).1, (splitProse s).2⟩ := by
  have hfirst : firstMatch documentRules (d :: s) = (marker? (d :: s)).or (scanText (d :: s)) := by
    have hrules : documentRules = rulesBeforeText documentRules ++ [.text] := by decide
    rw [firstMatch_eq_findSome? isLiteral_of_mem_documentRules, marker?]
    conv => lhs; rw [hrules]
    rw [List.findSome?_append]
    simp [Rule.scan]
  rw [nextPiece, hfirst, h]
  rfl

theorem pieces_of_none (h : marker? (d :: s) = none) : pieces documentRules (d :: s) =
    ⟨.text (d :: (splitProse s).1), d :: (splitProse s).1, (splitProse s).2⟩ ::
      pieces documentRules (splitProse s).2 := by
  rw [pieces, nextPiece_of_none h]

/-- In front of such a text there is no marker. -/
theorem marker?_of_stopsProse (h : stopsProse s = false) : marker? s = none :=
  List.findSome?_eq_none_iff.2 fun r hr => scan_eq_none_of_stopsProse h
    (isLiteral_of_mem_documentRules r ((List.takeWhile_prefix _).subset hr)) (ne_text_of_mem_rulesBeforeText hr)

/-! ### Pieces -/

def Token.isProse : Token → Bool
  | .text _ | .lineBreak => true
  | _ => false

def Token.singles : Token → List Token
  | .text s => s.map fun d => .text [d]
  | token => [token]

theorem singles_of_marker? (h : marker? s = some m) : m.token.singles = [m.token] := by
  rw [marker?_eq, Option.or_eq_some_iff, Option.or_eq_some_iff, Option.or_eq_some_iff] at h
  rcases h with h | ⟨-, h | ⟨-, h | ⟨-, h⟩⟩⟩
  · obtain ⟨t, -, rfl⟩ := Option.map_eq_some_iff.1 h
    rfl
  · unfold scanEscape at h
    split at h
    · split at h <;> cases h
      rfl
    · cases h
  · unfold scanImage at h
    split at h
    · split at h
      · cases h
      · next hbody =>
        cases h
        obtain ⟨-, url, alt, title, rfl, -⟩ := newlines_of_imageBody? hbody
        rfl
    · cases h
  · rw [(scanLineBreak_eq_some.1 h).1]
    rfl

theorem Lexes.of_splitProse (h : Lexes (splitProse s).2 ts t) :
    Lexes s ((splitProse s).1.map (fun d => .text [d]) ++ ts) t := by
  induction s with
  | nil => exact h
  | cons d s ih =>
    rw [splitProse] at h ⊢
    split at h
    · next hstop => rwa [if_pos hstop]
    · next hstop =>
      rw [if_neg hstop]
      exact .prose (marker?_of_stopsProse (Bool.eq_false_iff.2 hstop)) (ih h)

/-- The lexer that goes from position to position comes to the end of every piece. -/
theorem lexes_of_pieces (h : pieces documentRules s = ms ++ ns) :
    Lexes s (ms.flatMap fun m => m.token.singles) (ns.flatMap Match.source) := by
  induction ms generalizing s with
  | nil =>
    rw [List.nil_append] at h
    rw [← h, flatMap_source_pieces]
    exact .done
  | cons m ms ih =>
    cases s with
    | nil => rw [pieces] at h; cases h
    | cons d s =>
      cases hmarker : marker? (d :: s) with
      | some m' =>
        rw [pieces_of_marker? hmarker, List.cons_append] at h
        obtain ⟨rfl, hrest⟩ := List.cons.inj h
        rw [List.flatMap_cons, singles_of_marker? hmarker]
        exact .marker hmarker (ih hrest)
      | none =>
        rw [pieces_of_none hmarker, List.cons_append] at h
        obtain ⟨rfl, hrest⟩ := List.cons.inj h
        exact .prose hmarker (.of_splitProse (ih hrest))

theorem Lexes.suffix (h : Lexes s ts t) : ∃ front, s = front ++ t := by
  induction h with
  | done => exact ⟨[], rfl⟩
  | @marker s t m ts first rest ih =>
    obtain ⟨front, hfront⟩ := ih
    obtain ⟨hcover, -⟩ := append_of_marker? first
    exact ⟨m.source ++ front, by rw [List.append_assoc, ← hfront, hcover]⟩
  | @prose d s t ts first rest ih =>
    obtain ⟨front, rfl⟩ := ih
    exact ⟨d :: front, rfl⟩

theorem Lexes.append {us : List Token} (h : Lexes s ts t) (h' : Lexes t us r) : Lexes s (ts ++ us) r := by
  induction h with
  | done => exact h'
  | marker first rest ih => exact .marker first (ih h')
  | prose first rest ih => exact .prose first (ih h')

theorem pieces_of_append {rules : List Rule} (h : pieces rules s = ms ++ ns) :
    pieces rules (ns.flatMap Match.source) = ns := by
  induction ms generalizing s with
  | nil =>
    rw [List.nil_append] at h
    rw [← h, flatMap_source_pieces]
  | cons m ms ih =>
    cases s with
    | nil => rw [pieces] at h; cases h
    | cons d s =>
      rw [pieces, List.cons_append] at h
      exact ih (List.cons.inj h).2

/-- What is no prose is a marker. -/
theorem marker?_of_mem_pieces (hm : m ∈ pieces documentRules s) (htoken : m.token.isProse = false) :
    marker? (m.source ++ m.rest) = some m := by
  fun_induction pieces documentRules s with
  | case1 => cases hm
  | case2 d s first ih =>
    rcases List.mem_cons.1 hm with rfl | hm
    · cases hmarker : marker? (d :: s) with
      | some m =>
        obtain ⟨hcover, -⟩ := append_of_marker? hmarker
        change marker? ((nextPiece documentRules d s).source ++ (nextPiece documentRules d s).rest) = _
        rw [nextPiece_of_marker? hmarker, hcover, hmarker, ← nextPiece_of_marker? hmarker]
      | none =>
        have htext : (nextPiece documentRules d s).token.isProse = true := by
          rw [nextPiece_of_none hmarker]
          rfl
        exact absurd htext (ne_of_eq_of_ne htoken (by decide))
    · exact ih hm

/-! ### Images -/

/-- An image begins before the blanks `v` and ends behind them. -/
def InImage (c v w : List Char) : Prop :=
  ∃ m ∈ pieces documentRules (c ++ (v ++ w)), m.token.isImage = true ∧ m.rest.length < w.length ∧
    (v ++ w).length < (m.source ++ m.rest).length

theorem mem_pieces_splitProse (htoken : m.token.isImage = true) (h : m ∈ pieces documentRules s) :
    m ∈ pieces documentRules (splitProse s).2 := by
  cases s with
  | nil => exact h
  | cons d s =>
    rw [splitProse]
    split
    · exact h
    · next hstop =>
      rw [pieces_of_none (marker?_of_stopsProse (Bool.eq_false_iff.2 hstop))] at h
      refine (List.mem_cons.1 h).resolve_left ?_
      rintro rfl
      cases htoken

/-- What lies in no image of the text lies in none when the text is read from a later position on. -/
theorem InImage.of_prose (hnone : marker? (d :: (c ++ (v ++ w))) = none) (h : InImage c v w) :
    InImage (d :: c) v w := by
  obtain ⟨m, hm, htoken, hends, hbegins⟩ := h
  refine ⟨m, ?_, htoken, hends, hbegins⟩
  rw [List.cons_append, pieces_of_none hnone]
  exact List.mem_cons_of_mem _ (mem_pieces_splitProse htoken hm)

theorem InImage.of_marker (hmarker : marker? (s ++ (c ++ (v ++ w))) = some m) (hrest : m.rest = c ++ (v ++ w))
    (h : InImage c v w) : InImage (s ++ c) v w := by
  obtain ⟨m', hm, htoken, hends, hbegins⟩ := h
  refine ⟨m', ?_, htoken, hends, hbegins⟩
  rw [List.append_assoc, pieces_of_marker? hmarker, hrest]
  exact List.mem_cons_of_mem _ hm

/-! ### Positions with more or fewer blanks behind them -/

def EndsFirmly (c : List Char) : Prop := ∀ d, c.getLast? = some d → isBlank d = true → d = '\n'

/-- An escape is cut behind its backslash only. -/
theorem eq_of_scanEscape_append {e : List Char} (h : scanEscape s = some m) (hsource : m.source = c ++ e) (hc : c ≠ [])
    (he : e ≠ []) : c = ['\\'] := by
  unfold scanEscape at h
  split at h
  · split at h
    · cases h
      obtain ⟨d, c, rfl⟩ := List.exists_cons_of_ne_nil hc
      obtain ⟨rfl, htail⟩ := List.cons.inj hsource
      cases c with
      | nil => rfl
      | cons d c =>
        obtain ⟨-, hnil⟩ := List.append_eq_nil_iff.1 (List.cons.inj htail).2.symm
        exact absurd hnil he
    · cases h
  · cases h

/-- An image that goes on behind `c` does not end in the blanks. -/
theorem inImage_of_scanImage {e : List Char} (hm : marker? (c ++ (v ++ w)) = some m)
    (h : scanImage (c ++ (v ++ w)) = some m) (hsource : m.source = c ++ e) (hrest : v ++ w = e ++ m.rest) (hc : c ≠ [])
    (he : e ≠ []) (hv : allBlank v = true) : InImage c v w := by
  obtain ⟨htoken, hbracket, -⟩ := exists_of_scanImage h
  obtain ⟨hcover, -⟩ := append_of_marker? hm
  have hbegins := List.length_pos_iff.2 hc
  refine ⟨m, ?_, htoken, ?_, ?_⟩
  · rw [pieces_of_marker? hm]
    exact List.mem_cons_self
  · rw [hsource, List.getLast?_append_of_ne_nil _ he] at hbracket
    rcases append_cases hrest.symm with ⟨e', rfl, -⟩ | ⟨e', he', -, hw⟩
    · have hblank := List.all_eq_true.1 hv ')' (List.mem_append_left _ (List.mem_of_getLast? hbracket))
      cases hblank
    · have hlength := List.length_pos_iff.2 he'
      rw [hw, List.length_append]
      omega
  · rw [hcover]
    simp only [List.length_append]
    omega

/-- Where prose goes on in front of some blanks, it does so in front of others. -/
theorem marker?_spaced (hc : c ≠ []) (hb : TagSpan.Borders c w) (hfirm : EndsFirmly c)
    (hbackslash : c ≠ ['\\']) (hv : allBlank v = true) (hv' : allBlank v' = true) (himage : ¬InImage c v' w)
    (h : marker? (c ++ (v ++ w)) = none) : marker? (c ++ (v' ++ w)) = none := by
  cases hm : marker? (c ++ (v' ++ w)) with
  | none => rfl
  | some m =>
    exfalso
    obtain ⟨hcover, -⟩ := append_of_marker? hm
    -- a marker that ends before the blanks is there with other blanks too
    obtain ⟨e, he, hsource, hrest⟩ : ∃ e, e ≠ [] ∧ m.source = c ++ e ∧ v' ++ w = e ++ m.rest := by
      refine (append_cases hcover).resolve_left ?_
      rintro ⟨e, rfl, -⟩
      have hagain := marker?_append hm (e ++ (v ++ w))
      rw [← List.append_assoc, h] at hagain
      cases hagain
    have hscan := hm
    rw [marker?_eq, Option.or_eq_some_iff, Option.or_eq_some_iff, Option.or_eq_some_iff] at hscan
    rcases hscan with htag | ⟨-, hescape | ⟨-, hscan | ⟨-, hlineBreak⟩⟩⟩
    · -- tags are recognised with any number of blanks
      have hkind := (TagSpan.map_kind_scan?_spaced hc hb hv').trans (TagSpan.map_kind_scan?_spaced hc hb hv).symm
      obtain ⟨t, ht, -⟩ := Option.map_eq_some_iff.1 htag
      rw [marker?_eq, Option.or_eq_none_iff] at h
      rw [ht, Option.map_eq_none_iff.1 h.1] at hkind
      cases hkind
    · exact hbackslash (eq_of_scanEscape_append hescape hsource hc he)
    · exact himage (inImage_of_scanImage hm hscan hsource hrest hc he hv')
    · obtain ⟨-, hhard, -⟩ := scanLineBreak_eq_some.1 hlineBreak
      rw [hsource] at hhard
      rcases hhard.of_append hc he with heq | ⟨d, hlast, hblank, hne⟩
      · exact hbackslash heq
      · exact hne (hfirm d hlast hblank)

theorem EndsFirmly.of_suffix (h : EndsFirmly c) {c' : List Char} (hc : c' <:+ c) : EndsFirmly c' := by
  obtain ⟨front, rfl⟩ := hc
  intro d hd
  refine h d ?_
  rw [List.getLast?_append, hd]
  rfl

theorem Lexes.eq_nil (h : Lexes s ts s) : ts = [] := by
  cases h with
  | done => rfl
  | marker first rest =>
    obtain ⟨hcover, hne, -⟩ := append_of_marker? first
    obtain ⟨front, hfront⟩ := rest.suffix
    have hlength := congrArg List.length hcover
    have hpos := List.length_pos_iff.2 hne
    rw [hfront] at hlength
    simp only [List.length_append] at hlength
    omega
  | prose first rest =>
    obtain ⟨front, hfront⟩ := rest.suffix
    have hlength := congrArg List.length hfront
    simp only [List.length_append, List.length_cons] at hlength
    omega

/-- The tokens up to a position do not depend on the blanks behind it. -/
theorem Lexes.spaced (h : Lexes (c ++ (v ++ w)) ts (v ++ w)) (hb : c ≠ [] → TagSpan.Borders c w)
    (hfirm : EndsFirmly c) (hbackslash : ts.getLast? ≠ some (.text ['\\'])) (hv : allBlank v = true)
    (hv' : allBlank v' = true) (himage : ¬InImage c v' w) : Lexes (c ++ (v' ++ w)) ts (v' ++ w) := by
  generalize hs : c ++ (v ++ w) = s at h
  generalize ht : v ++ w = t at h hs
  induction h generalizing c with
  | done =>
    subst ht
    obtain rfl : c = [] := List.append_left_eq_self.1 hs
    exact .done
  | @marker s t m ts first rest ih =>
    subst ht
    obtain ⟨c', hrest⟩ := rest.suffix
    obtain ⟨hcover, -⟩ := append_of_marker? first
    obtain rfl : c = m.source ++ c' := by
      rw [hrest, ← hs, ← List.append_assoc] at hcover
      exact (List.append_cancel_right hcover).symm
    have hagain := marker?_append first (c' ++ (v' ++ w))
    have hsuffix : c' <:+ m.source ++ c' := List.suffix_append _ _
    have htail : Lexes (c' ++ (v' ++ w)) ts (v' ++ w) := by
      refine ih (fun hne => ?_) (hfirm.of_suffix hsuffix) (fun hlast => hbackslash ?_)
        (fun hin => himage (.of_marker hagain rfl hin)) rfl hrest.symm
      · exact (hb (List.append_ne_nil_of_right_ne_nil _ hne)).of_suffix hne hsuffix
      · rw [List.getLast?_cons, hlast]
        rfl
    have hfound := Lexes.marker hagain htail
    rwa [← List.append_assoc] at hfound
  | @prose d s t ts first rest ih =>
    subst ht
    cases c with
    | nil => cases Lexes.eq_nil (hs ▸ Lexes.prose first rest)
    | cons d' c =>
      obtain ⟨rfl, rfl⟩ := List.cons.inj hs
      have hsuffix : c <:+ d' :: c := List.suffix_cons _ _
      have hnone : marker? (d' :: (c ++ (v' ++ w))) = none := by
        refine marker?_spaced (List.cons_ne_nil _ _) (hb (List.cons_ne_nil _ _)) hfirm (fun heq => hbackslash ?_)
          hv hv' himage first
        cases heq
        rw [Lexes.eq_nil rest]
        rfl
      refine .prose hnone (ih (fun hne => ?_) (hfirm.of_suffix hsuffix) (fun hlast => hbackslash ?_)
        (fun hin => himage (.of_prose hnone hin)) rfl rfl)
      · exact (hb (List.cons_ne_nil _ _)).of_suffix hne hsuffix
      · rw [List.getLast?_cons, hlast]
        rfl

/-! ### Positions in between -/

theorem not_mem_dropLast_of_marker? (h : marker? s = some m) (hm : m.token.isProse = true) :
    '\n' ∉ m.source.dropLast := by
  obtain ⟨-, -, hkeeps⟩ := append_of_marker? h
  cases htoken : m.token with
  | text u =>
    rw [htoken] at hkeeps
    have hsingle := singles_of_marker? h
    rw [htoken] at hsingle
    obtain ⟨d, rfl⟩ : ∃ d, u = [d] := by
      have hlength := congrArg List.length hsingle
      rw [Token.singles, List.length_map] at hlength
      exact List.length_eq_one_iff.1 hlength
    obtain ⟨-, hsource | ⟨e, -, -, hsource⟩⟩ := hkeeps
    · rw [hsource]
      simp
    · rw [hsource]
      simp
  | lineBreak =>
    rw [htoken] at hkeeps
    obtain ⟨front, hsource, hnone⟩ := hkeeps
    rw [hsource, List.dropLast_concat]
    exact List.count_eq_zero.1 hnone
  | markup u => rw [htoken] at hm; cases hm
  | image url alt title => rw [htoken] at hm; cases hm

def Seam (c r : List Char) : Prop :=
  (∀ d, c.getLast? = some d → d = '\n') ∨ ∀ d ∈ r, isBlank d = true ∧ d ≠ '\n'

theorem Seam.of_suffix {c' : List Char} (h : Seam c r) (hc : c' <:+ c) : Seam c' r := by
  obtain ⟨front, rfl⟩ := hc
  refine h.imp_left fun hlast d hd => hlast d ?_
  rw [List.getLast?_append, hd]
  rfl

/-- No token of prose goes on through a seam. -/
theorem Seam.not_marker {e front : List Char} (h : Seam c r) (hm : marker? s = some m) (hprose : m.token.isProse = true)
    (hsource : m.source = c ++ e) (hr : r = e ++ front) (hc : c ≠ []) (he : e ≠ []) : False := by
  rcases h with hnewline | hblank
  · refine not_mem_dropLast_of_marker? hm hprose ?_
    rw [hsource, List.dropLast_append_of_ne_nil he, ← hnewline _ (List.getLast?_eq_some_getLast hc)]
    exact List.mem_append_left _ (List.getLast_mem hc)
  · obtain ⟨hd, hne⟩ := hblank (e.getLast he) (by rw [hr]; exact List.mem_append_left _ (List.getLast_mem he))
    refine hne (getLast?_of_marker? hm ?_ hd)
    rw [hsource, List.getLast?_append_of_ne_nil _ he, List.getLast?_eq_some_getLast he]

/-- Prose can be cut at a seam. -/
theorem Lexes.cut (h : Lexes (c ++ (r ++ t)) ts t) (hts : ∀ token ∈ ts, token.isProse = true) (hseam : Seam c r) :
    ∃ ts₁ ts₂, ts = ts₁ ++ ts₂ ∧ Lexes (c ++ (r ++ t)) ts₁ (r ++ t) ∧ Lexes (r ++ t) ts₂ t := by
  generalize hs : c ++ (r ++ t) = s at h ⊢
  induction h generalizing c with
  | @done s =>
    have hnil : c ++ r = [] := by rwa [← List.append_assoc, List.append_left_eq_self] at hs
    obtain ⟨rfl, rfl⟩ := List.append_eq_nil_iff.1 hnil
    exact ⟨[], [], rfl, .done, .done⟩
  | @marker s t m ts first rest ih =>
    obtain ⟨hm, hts⟩ := List.forall_mem_cons.1 hts
    by_cases hc : c = []
    · subst hc
      rw [← hs]
      exact ⟨[], m.token :: ts, rfl, .done, hs ▸ .marker first rest⟩
    obtain ⟨front, hrest⟩ := rest.suffix
    obtain ⟨hcover, -⟩ := append_of_marker? first
    have hsplit : m.source ++ front = c ++ r := by
      rw [hrest, ← hs, ← List.append_assoc, ← List.append_assoc] at hcover
      exact List.append_cancel_right hcover
    rcases append_cases hsplit with ⟨c', rfl, hfront⟩ | ⟨e, he, hsource, hr⟩
    · have hrest' : c' ++ (r ++ t) = m.rest := by rw [hrest, hfront, List.append_assoc]
      obtain ⟨ts₁, ts₂, rfl, hto, hfrom⟩ := ih hts (hseam.of_suffix (List.suffix_append _ _)) hrest'
      exact ⟨m.token :: ts₁, ts₂, rfl, .marker first hto, hfrom⟩
    · exact (hseam.not_marker first hm hsource hr hc he).elim
  | @prose d s t ts first rest ih =>
    cases c with
    | nil =>
      rw [← hs]
      exact ⟨[], .text [d] :: ts, rfl, .done, hs ▸ .prose first rest⟩
    | cons d' c =>
      obtain ⟨rfl, hs'⟩ := List.cons.inj hs
      obtain ⟨ts₁, ts₂, rfl, hto, hfrom⟩ :=
        ih (List.forall_mem_cons.1 hts).2 (hseam.of_suffix (List.suffix_cons _ _)) hs'
      exact ⟨.text [d'] :: ts₁, ts₂, rfl, .prose first hto, hfrom⟩

end TaggedProse
