import TaggedProse.Inline.Tag
/-!
The tags in a text, and whether those of one name are balanced.
-/
namespace TaggedProse

namespace TagSpan

theorem source_ne_nil_of_named {closing : Bool} {opener s : List Char} {t : TagSpan}
    (h : named closing opener s = some t) : t.source ≠ [] := by
  cases s with
  | nil => simp [named] at h
  | cons c s =>
    rw [named] at h
    split at h
    · split at h
      · cases h
      · cases h; simp
    · cases h

theorem length_rest_of_scan? {s : List Char} {t : TagSpan} (h : scan? s = some t) :
    t.rest.length < s.length := by
  have hne : t.source ≠ [] := by
    unfold scan? at h
    split at h
    · exact source_ne_nil_of_named h
    · exact source_ne_nil_of_named h
    · cases h
  have := List.length_pos_iff.2 hne
  rw [← append_of_scan? h, List.length_append]
  omega

/-- Whether the tag opens an element that some other tag has to close. -/
def opens (t : TagSpan) : Bool := !t.closing && !t.selfClosing

/-- One for a tag that opens an element called `name`, minus one for a tag that closes one. -/
def weight (name : List Char) (t : TagSpan) : Int :=
  if t.name != name || t.selfClosing then 0 else if t.closing then -1 else 1

end TagSpan

def tagsIn : List Char → List TagSpan
  | [] => []
  | c :: s =>
    match _h : TagSpan.scan? (c :: s) with
    | some t => t :: tagsIn t.rest
    | none => tagsIn s
termination_by s => s.length
decreasing_by
  · exact TagSpan.length_rest_of_scan? _h
  · simp

/-- How many more elements called `name` are opened in `s` than closed. -/
def balance (name s : List Char) : Int := (tagsIn s).foldr (fun t n => t.weight name + n) 0

end TaggedProse
