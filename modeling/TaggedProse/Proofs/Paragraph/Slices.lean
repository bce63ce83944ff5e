import TaggedProse.Proofs.Paragraph.Items

/-! Newlines, place by place. Whatever the rules are, a token is written behind as many newlines as there are before
the stretch of source that it was recognised in, and so is every character that is taken over into it. -/
namespace TaggedProse

/-- A character of prose, and what is written for it in the source. -/
structure Stroke where
  char : Char
  source : List Char

/-- A token and the stretch of source that it was recognised in. Prose goes character by character. -/
inductive Slice where
  | text (strokes : List Stroke)
  | markup (written source : List Char)
  | image (url alt : List Char) (title : Option (List Char)) (source : List Char)
  | lineBreak (source : List Char)

namespace Slice

def token : Slice → Token
  | .text xs => .text (xs.map Stroke.char)
  | .markup written _ => .markup written
  | .image url alt title _ => .image url alt title
  | .lineBreak _ => .lineBreak

def source : Slice → List Char
  | .text xs => xs.flatMap Stroke.source
  | .markup _ source | .image _ _ _ source | .lineBreak source => source

end Slice

/-- The strokes of a text. What `source` has more than the text is written for the first of them. -/
def strokes (source : List Char) : List Char → List Stroke
  | [] => []
  | c :: s => ⟨c, source.take (source.length - s.length)⟩ :: s.map fun c => ⟨c, [c]⟩

def Match.slice (m : Match) : Slice :=
  match m.token with
  | .text s => .text (strokes m.source s)
  | .markup written => .markup written m.source
  | .image url alt title => .image url alt title m.source
  | .lineBreak => .lineBreak m.source

def joinSlices : List Slice → List Slice
  | [] => []
  | .text xs :: slices =>
    match joinSlices slices with
    | .text ys :: rest => .text (xs ++ ys) :: rest
    | rest => .text xs :: rest
  | slice :: slices => slice :: joinSlices slices

def slicesOf (rules : List Rule) (source : List Char) : List Slice :=
  joinSlices ((pieces rules source).map Match.slice)

def Stroke.Sound (x : Stroke) : Prop :=
  ∃ dropped, x.source = dropped ++ [x.char] ∧ (dropped = [] ∨ dropped = ['\\'])

def Slice.Sound : Slice → Prop
  | .text xs => ∀ x ∈ xs, x.Sound
  | slice => slice.token.Keeps slice.source

variable {rules : List Rule} {source s : List Char} {m : Match} {slices : List Slice}

/-! ### The slice of a piece -/

theorem strokes_self (s : List Char) : strokes s s = s.map fun c => ⟨c, [c]⟩ := by
  cases s with
  | nil => rfl
  | cons c s => simp [strokes]

theorem map_char_strokes (source s : List Char) : (strokes source s).map Stroke.char = s := by
  cases s with
  | nil => rfl
  | cons c s => simp [strokes, Function.comp_def]

theorem flatMap_source_strokes (h : (Token.text s).Keeps source) :
    (strokes source s).flatMap Stroke.source = source := by
  obtain ⟨-, rfl | ⟨c, -, rfl, rfl⟩⟩ := h
  · rw [strokes_self, List.flatMap_map]
    exact List.flatMap_singleton' source
  · rfl

theorem sound_strokes (h : (Token.text s).Keeps source) : ∀ x ∈ strokes source s, x.Sound := by
  obtain ⟨-, rfl | ⟨c, -, rfl, rfl⟩⟩ := h
  · rw [strokes_self]
    intro x hx
    obtain ⟨c, -, rfl⟩ := List.mem_map.1 hx
    exact ⟨[], rfl, .inl rfl⟩
  · intro x hx
    obtain rfl := List.mem_singleton.1 hx
    exact ⟨['\\'], rfl, .inr rfl⟩

theorem token_slice (m : Match) : m.slice.token = m.token := by
  unfold Match.slice
  split
  · next heq => rw [heq, Slice.token, map_char_strokes]
  · next heq => exact heq.symm
  · next heq => exact heq.symm
  · next heq => exact heq.symm

theorem source_slice (h : m.token.Keeps m.source) : m.slice.source = m.source := by
  unfold Match.slice
  split
  · next heq =>
    rw [heq] at h
    exact flatMap_source_strokes h
  · rfl
  · rfl
  · rfl

theorem sound_slice (h : m.token.Keeps m.source) : m.slice.Sound := by
  unfold Match.slice
  split
  · next heq =>
    rw [heq] at h
    exact sound_strokes h
  · next heq => rwa [heq] at h
  · next heq => rwa [heq] at h
  · next heq => rwa [heq] at h

/-! ### Joining texts -/

theorem joinSlices_text (xs : List Stroke) (slices : List Slice) :
    (∃ ys rest, joinSlices slices = .text ys :: rest ∧
      joinSlices (.text xs :: slices) = .text (xs ++ ys) :: rest) ∨
    ((∀ ys rest, joinSlices slices ≠ .text ys :: rest) ∧
      joinSlices (.text xs :: slices) = .text xs :: joinSlices slices) := by
  rw [joinSlices]
  split
  · next ys rest heq => exact .inl ⟨ys, rest, heq, rfl⟩
  · next hne => exact .inr ⟨hne, rfl⟩

theorem map_token_joinSlices (slices : List Slice) :
    (joinSlices slices).map Slice.token = joinText (slices.map Slice.token) := by
  induction slices with
  | nil => rfl
  | cons slice slices ih =>
    cases slice with
    | text xs =>
      rcases joinSlices_text xs slices with ⟨ys, rest, heq, hjoin⟩ | ⟨hnone, hjoin⟩
      · rw [hjoin, List.map_cons (l := slices), Slice.token, joinText, ← ih, heq]
        simp [Slice.token]
      · rw [hjoin, List.map_cons, List.map_cons, Slice.token, joinText, ← ih]
        cases hslices : joinSlices slices with
        | nil => rfl
        | cons other rest =>
          cases other with
          | text ys => exact absurd hslices (hnone ys rest)
          | _ => rfl
    | _ => exact congrArg (_ :: ·) ih

theorem flatMap_source_joinSlices (slices : List Slice) :
    (joinSlices slices).flatMap Slice.source = slices.flatMap Slice.source := by
  induction slices with
  | nil => rfl
  | cons slice slices ih =>
    cases slice with
    | text xs =>
      rcases joinSlices_text xs slices with ⟨ys, rest, heq, hjoin⟩ | ⟨-, hjoin⟩
      · rw [heq] at ih
        rw [hjoin, List.flatMap_cons, List.flatMap_cons, ← ih]
        simp [Slice.source]
      · rw [hjoin, List.flatMap_cons, List.flatMap_cons, ih]
    | _ => exact congrArg (_ ++ ·) ih

theorem sound_joinSlices (h : ∀ slice ∈ slices, slice.Sound) : ∀ slice ∈ joinSlices slices, slice.Sound := by
  induction slices with
  | nil => exact h
  | cons slice slices ih =>
    obtain ⟨hslice, hslices⟩ := List.forall_mem_cons.1 h
    have hrest := ih hslices
    cases slice with
    | text xs =>
      rcases joinSlices_text xs slices with ⟨ys, rest, heq, hjoin⟩ | ⟨-, hjoin⟩
      · rw [heq] at hrest
        obtain ⟨hys, hrest⟩ := List.forall_mem_cons.1 hrest
        rw [hjoin]
        exact List.forall_mem_cons.2 ⟨List.forall_mem_append.2 ⟨hslice, hys⟩, hrest⟩
      · rw [hjoin]
        exact List.forall_mem_cons.2 ⟨hslice, hrest⟩
    | _ => exact List.forall_mem_cons.2 ⟨hslice, hrest⟩

theorem map_token_slicesOf (rules : List Rule) (source : List Char) :
    (slicesOf rules source).map Slice.token = tokenize rules source := by
  rw [slicesOf, map_token_joinSlices, List.map_map, tokenize]
  exact congrArg joinText (List.map_congr_left fun m _ => token_slice m)

theorem flatMap_source_slicesOf (hrules : ∀ r ∈ rules, r.isLiteral = false) (source : List Char) :
    (slicesOf rules source).flatMap Slice.source = source := by
  have hslices : (pieces rules source).map (fun m => m.slice.source) = (pieces rules source).map Match.source :=
    List.map_congr_left fun m hm => source_slice (keeps_of_mem_pieces hrules hm)
  rw [slicesOf, flatMap_source_joinSlices, List.flatMap_map, List.flatMap_def, hslices, ← List.flatMap_def,
    flatMap_source_pieces]

theorem sound_slicesOf (hrules : ∀ r ∈ rules, r.isLiteral = false) (source : List Char) :
    ∀ slice ∈ slicesOf rules source, slice.Sound := by
  refine sound_joinSlices fun slice hslice => ?_
  obtain ⟨m, hm, rfl⟩ := List.mem_map.1 hslice
  exact sound_slice (keeps_of_mem_pieces hrules hm)

end TaggedProse
