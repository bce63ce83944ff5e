import TaggedProse.Assembly.Elements
import TaggedProse.Proofs.Assembly.Tags
import TaggedProse.Proofs.Text.Visible
import TaggedProse.Proofs.Xml.Tracking

/-! The reader and the assembly both keep the open elements, each in a stack of its own. The stacks agree after
every event, so the assembly need not look at the names of closing tags. -/
namespace TaggedProse
variable {schema : Schema} {line : Nat} {position : Nat} {s : List Char} {e : Failure} {parts : List Part}
  {ledger : Ledger} {opened opened' : List (List Char)} {root : List Char} {event : Xml.Event}
  {events done todo : List (Nat × Xml.Event)}

namespace Xml

def Event.Blank : Event → Prop
  | .ignored => True
  | .text source => ∃ s, decode source = .ok s ∧ allBlank s = true
  | .literal s => allBlank s = true
  | _ => False

inductive IsElement (name : List Char) : List (Nat × Event) → Prop
  | empty (position : Nat) {content : List Char} (named : tagName content = name) :
      IsElement name [(position, .empty content)]
  | tags (first last : Nat) {content : List Char} {inner : List (Nat × Event)} (named : tagName content = name)
      (nested : trackAll [] inner = .ok []) :
      IsElement name ((first, .opening content) :: (inner ++ [(last, .closing name)]))

def IsDocument (name : List Char) (events : List (Nat × Event)) : Prop :=
  ∃ front element back, events = front ++ (element ++ back) ∧ IsElement name element ∧
    (∀ e ∈ front, e.2.Blank) ∧ ∀ e ∈ back, e.2.Blank

def lined (index : LineIndex) (events : List (Nat × Event)) : List (Nat × Event) :=
  events.map fun (position, event) => (index.lineAt position, event)

end Xml

/-! ### What the assembly has open -/

theorem nest_event (ht : Xml.track position opened event = .ok opened') (hp : event.parts line = .ok parts) :
    nest (opened.map String.ofList) parts = some (opened'.map String.ofList) := by
  cases event with
  | opening content =>
    cases ht
    rw [Xml.Event.parts] at hp
    split at hp
    · cases hp
    · cases hp; rfl
  | empty content =>
    cases ht
    rw [Xml.Event.parts] at hp
    split at hp
    · cases hp
    · cases hp; simp [nest]
  | closing name =>
    cases hp
    cases opened with
    | nil => cases ht
    | cons expected outer =>
      rw [Xml.track] at ht
      split at ht
      · next heq => cases ht; simp [nest, heq]
      · cases ht
  | text s =>
    cases ht
    rw [Xml.Event.parts] at hp
    split at hp
    · cases hp
    · cases hp; rfl
  | literal s => cases ht; cases hp; rfl
  | ignored => cases ht; cases hp; rfl

theorem atClosing_of_parts (h : event.parts line = .error e) : e.item.atClosing = false := by
  cases event with
  | opening content | empty content | text source =>
    dsimp only [Xml.Event.parts] at h
    split at h <;> cases h
    rfl
  | _ => cases h

namespace Assembly
variable {a a' : Assembly} {stack : List String}

def Mirrors (a : Assembly) (opened : List (List Char)) : Prop := a.tags = opened.map String.ofList

theorem Mirrors.run (h : a.Mirrors opened) (ht : Xml.track position opened event = .ok opened')
    (hp : event.parts line = .ok parts) (hrun : run schema parts a = (.ok (), a')) : a'.Mirrors opened' :=
  tags_run (h ▸ nest_event ht hp) hrun

theorem exists_of_feed (h : feed schema line event a = (.ok (), a')) :
    ∃ parts, event.parts line = .ok parts ∧ run schema parts a = (.ok (), a') := by
  unfold feed at h
  split at h
  · cases h
  · next parts hparts => exact ⟨parts, hparts, h⟩

theorem exists_of_feedAll_cons (h : (feedAll schema ((line, event) :: events) a).result = .ok ()) :
    ∃ parts a', event.parts line = .ok parts ∧ run schema parts a = (.ok (), a') ∧
      (feedAll schema events a').result = .ok () ∧
      (feedAll schema ((line, event) :: events) a).assembly = (feedAll schema events a').assembly := by
  rw [feedAll] at h ⊢
  cases hfeed : feed schema line event a with
  | mk result a' =>
    rw [hfeed] at h
    cases result with
    | error e => cases h
    | ok u =>
      obtain ⟨parts, hparts, hrun⟩ := exists_of_feed hfeed
      refine ⟨parts, a', hparts, hrun, ?_, ?_⟩
      · dsimp only at h
        split at h <;> exact h
      · dsimp only
        split <;> rfl

/-- After every event that has been taken the two stacks agree. -/
theorem mirrors_feedAll {index : LineIndex} (hm : a.Mirrors opened)
    (ht : Xml.trackAll opened events = .ok opened')
    (h : (feedAll schema (Xml.lined index events) a).result = .ok ()) :
    (feedAll schema (Xml.lined index events) a).assembly.Mirrors opened' := by
  induction events generalizing a opened with
  | nil => cases ht; exact hm
  | cons first events ih =>
    obtain ⟨position, event⟩ := first
    obtain ⟨opened₁, htrack, hrest⟩ := Xml.exists_of_trackAll_cons ht
    obtain ⟨parts, a₁, hparts, hrun, hresult, hassembly⟩ := exists_of_feedAll_cons h
    rw [Xml.lined, List.map_cons, hassembly]
    exact ih (hm.run htrack hparts hrun) hrest hresult

/-- The element that a tag closes is the innermost of those that are open, and has the name in the tag. -/
theorem exists_of_closing {pre post : List Part} {tag : String} (hm : a.Mirrors opened)
    (ht : Xml.track position opened event = .ok opened')
    (hp : event.parts line = .ok (pre ++ .closing tag line :: post)) (h : run schema pre a = (.ok (), a')) :
    ∃ f below, a'.frames = f :: below ∧ f.tag = tag ∧
      (closeElement schema tag line a').2.tags = below.map Frame.tag := by
  have hnest := nest_event ht hp
  rw [← hm, nest_append] at hnest
  obtain ⟨stack, hpre, hclosing⟩ := Option.bind_eq_some_iff.1 hnest
  have htags := tags_run hpre h
  cases stack with
  | nil => cases hclosing
  | cons innermost outer =>
    obtain ⟨f, below, hframes, hf, -⟩ := List.map_eq_cons_iff.1 htags
    rw [nest] at hclosing
    split at hclosing
    · next heq => exact ⟨f, below, hframes, hf.trans heq, by rw [tags_closeElement, tags, hframes]; rfl⟩
    · cases hclosing

theorem atClosing_of_feed (ha : a.Standing) (hm : a.Mirrors opened)
    (ht : Xml.track position opened event = .ok opened') (h : (feed schema line event a).1 = .error e) :
    e.item.atClosing = false := by
  unfold feed at h
  split at h
  · next hparts => cases h; exact atClosing_of_parts hparts
  · next parts hparts => exact atClosing_of_run ha (hm ▸ nest_event ht hparts) h

theorem atClosing_of_feedAll {index : LineIndex} (ha : a.Standing) (hm : a.Mirrors opened)
    (ht : Xml.trackAll opened events = .ok opened')
    (h : (feedAll schema (Xml.lined index events) a).result = .error e) : e.item.atClosing = false := by
  induction events generalizing a opened with
  | nil => cases h
  | cons first events ih =>
    obtain ⟨position, event⟩ := first
    obtain ⟨opened₁, htrack, hrest⟩ := Xml.exists_of_trackAll_cons ht
    rw [Xml.lined, List.map_cons, feedAll] at h
    split at h
    · next e' a₁ hfeed => cases h; exact atClosing_of_feed ha hm htrack (by rw [hfeed])
    · next a₁ hfeed =>
      obtain ⟨parts, hparts, hrun⟩ := exists_of_feed hfeed
      refine ih (ha.of_run hrun) (hm.run htrack hparts hrun) hrest ?_
      dsimp only at h
      split at h <;> exact h

/-! ### The paragraph's element -/

theorem frames_eq_nil_of_mirrors (h : a.Mirrors []) : a.frames = [] := List.map_eq_nil_iff.1 h

/-- When nothing is open any more after a closing tag, that was the paragraph's. -/
theorem closed_of_closeElement {tag : String} (ha : a.Standing)
    (h : closeElement schema tag line a = (.ok (), a')) (hframes : a'.frames = []) : a'.closed = true := by
  have htags := tags_closeElement schema tag line a
  rw [h, tags, hframes] at htags
  unfold closeElement at h
  split at h
  · cases h
  · next f below heq =>
    have hbelow : below = [] := by
      rw [tags, heq] at htags
      exact List.map_eq_nil_iff.1 htags.symm
    have hkind := (heq ▸ ha.rooted : Rooted (f :: below)).1.2 hbelow
    split at h
    · cases h
    · next ledger hclose =>
      obtain ⟨commands, hcommands⟩ := (Body.kind_of_close (by rw [hclose])).1 hkind
      cases hcommands
    · cases h; rfl
    · next v ledger hclose =>
      obtain ⟨commands, hcommands⟩ := (Body.kind_of_close (by rw [hclose])).1 hkind
      cases hcommands

theorem closed_of_openElement {tag : String} {attributes : List (String × String)} (hf : a.frames = [])
    (h : openElement schema tag attributes line a = (.ok (), a')) : a.closed = false ∧ tag = paragraphTag := by
  rw [openElement, hf] at h
  change (if _ then _ else _) = _ at h
  split at h
  · cases h
  · next hopen => simpa using hopen

theorem allBlank_of_write (hf : a.frames = []) (h : write s line a = (.ok (), a')) :
    allBlank s = true ∧ a' = a := by
  rw [write, hf] at h
  obtain ⟨hrefuse, rfl⟩ := Prod.mk.inj h
  unfold refuseText at hrefuse
  split at hrefuse
  · next hnone => exact ⟨visibleLine?_eq_none.1 hnone, rfl⟩
  · cases hrefuse

/-- Where nothing is open there may be white space, or the paragraph's element may begin. -/
theorem blank_or_tag_of_run (hm : a.Mirrors []) (ht : Xml.track position [] event = .ok opened)
    (hp : event.parts line = .ok parts) (h : run schema parts a = (.ok (), a')) :
    event.Blank ∧ a' = a ∨ a.closed = false ∧ ∃ content,
      Xml.tagName content = paragraphTag.toList ∧ (event = .opening content ∨ event = .empty content) := by
  have hf := frames_eq_nil_of_mirrors hm
  have htag : ∀ {name : List Char}, String.ofList name = paragraphTag → name = paragraphTag.toList := by
    rintro name heq
    rw [← heq, String.toList_ofList]
  cases event with
  | opening content | empty content =>
    dsimp only [Xml.Event.parts] at hp
    split at hp
    · cases hp
    · cases hp
      obtain ⟨a₁, hstep, -⟩ := exists_of_run_cons h
      obtain ⟨hclosed, hname⟩ := closed_of_openElement hf hstep
      exact .inr ⟨hclosed, content, htag hname, by simp⟩
  | closing name => cases ht
  | text source =>
    dsimp only [Xml.Event.parts] at hp
    split at hp
    · cases hp
    · next text hdecode =>
      cases hp
      obtain ⟨a₁, hstep, hrest⟩ := exists_of_run_cons h
      cases hrest
      obtain ⟨hblank, rfl⟩ := allBlank_of_write hf hstep
      exact .inl ⟨⟨text, hdecode, hblank⟩, rfl⟩
  | literal text =>
    cases hp
    obtain ⟨a₁, hstep, hrest⟩ := exists_of_run_cons h
    cases hrest
    obtain ⟨hblank, rfl⟩ := allBlank_of_write hf hstep
    exact .inl ⟨hblank, rfl⟩
  | ignored =>
    cases hp
    cases h
    exact .inl ⟨trivial, rfl⟩

/-- After the paragraph's element there is only white space. -/
theorem blank_of_feedAll {index : LineIndex} (hclosed : a.closed = true) (hm : a.Mirrors [])
    (ht : Xml.trackAll [] events = .ok opened)
    (h : (feedAll schema (Xml.lined index events) a).result = .ok ()) : ∀ e ∈ events, e.2.Blank := by
  induction events generalizing a with
  | nil => exact List.forall_mem_nil _
  | cons first events ih =>
    obtain ⟨position, event⟩ := first
    obtain ⟨opened₁, htrack, hrest⟩ := Xml.exists_of_trackAll_cons ht
    obtain ⟨parts, a₁, hparts, hrun, hresult, -⟩ := exists_of_feedAll_cons h
    rcases blank_or_tag_of_run hm htrack hparts hrun with ⟨hblank, rfl⟩ | ⟨hopen, -⟩
    · have hopened : opened₁ = [] := by
        have hmirrors := hm.run htrack hparts hrun
        exact List.map_eq_nil_iff.1 (hmirrors.symm.trans hm)
      rw [hopened] at hrest
      exact List.forall_mem_cons.2 ⟨hblank, ih hclosed hm hrest hresult⟩
    · rw [hclosed] at hopen
      cases hopen

/-- Inside an element the events go on to its closing tag, and after it there is only white space. -/
theorem exists_of_feedAll_inside {index : LineIndex} (upper : List (List Char)) (ha : a.Standing)
    (hm : a.Mirrors (upper ++ [root])) (ht : Xml.trackAll (upper ++ [root]) events = .ok opened)
    (h : (feedAll schema (Xml.lined index events) a).result = .ok ())
    (hclosed : (feedAll schema (Xml.lined index events) a).assembly.closed = true) :
    ∃ inner last back, events = inner ++ (last, .closing root) :: back ∧ Xml.trackAll upper inner = .ok [] ∧
      ∀ e ∈ back, e.2.Blank := by
  induction events generalizing a upper with
  | nil =>
    have hnil : a.frames = [] := ha.settled hclosed
    rw [Mirrors, tags, hnil] at hm
    simp at hm
  | cons first events ih =>
    obtain ⟨position, event⟩ := first
    obtain ⟨opened₁, htrack, hrest⟩ := Xml.exists_of_trackAll_cons ht
    obtain ⟨parts, a₁, hparts, hrun, hresult, hassembly⟩ := exists_of_feedAll_cons h
    have hm₁ := hm.run htrack hparts hrun
    have hstanding := ha.of_run hrun
    -- either the element closes here, or it is still open after the event
    rcases Xml.track_append htrack with ⟨rfl, rfl, rfl⟩ | ⟨upper', hupper, rfl⟩
    · cases hparts
      obtain ⟨a₂, hstep, hnone⟩ := exists_of_run_cons hrun
      cases hnone
      have hend := closed_of_closeElement ha hstep (frames_eq_nil_of_mirrors hm₁)
      exact ⟨[], position, events, rfl, rfl, blank_of_feedAll hend hm₁ hrest hresult⟩
    · rw [Xml.lined, List.map_cons, hassembly] at hclosed
      obtain ⟨inner, last, back, rfl, hinner, hback⟩ := ih upper' hstanding hm₁ hrest hresult hclosed
      exact ⟨(position, event) :: inner, last, back, rfl, by rw [Xml.trackAll, hupper]; exact hinner, hback⟩

/-- Before the paragraph's element there is only white space, too. -/
theorem isDocument_of_feedAll {index : LineIndex} (ha : a.Standing) (hopen : a.closed = false) (hm : a.Mirrors [])
    (ht : Xml.trackAll [] events = .ok opened)
    (h : (feedAll schema (Xml.lined index events) a).result = .ok ())
    (hclosed : (feedAll schema (Xml.lined index events) a).assembly.closed = true) :
    Xml.IsDocument paragraphTag.toList events := by
  induction events with
  | nil =>
    rw [show (feedAll schema (Xml.lined index []) a).assembly.closed = a.closed from rfl, hopen] at hclosed
    cases hclosed
  | cons first events ih =>
    obtain ⟨position, event⟩ := first
    obtain ⟨opened₁, htrack, hrest⟩ := Xml.exists_of_trackAll_cons ht
    obtain ⟨parts, a₁, hparts, hrun, hresult, hassembly⟩ := exists_of_feedAll_cons h
    have hm₁ := hm.run htrack hparts hrun
    have hstanding := ha.of_run hrun
    rw [Xml.lined, List.map_cons, hassembly] at hclosed
    -- white space changes nothing, and a tag has to be the paragraph's
    rcases blank_or_tag_of_run hm htrack hparts hrun with ⟨hblank, rfl⟩ | ⟨-, content, hname, rfl | rfl⟩
    · have hopened : opened₁ = [] := List.map_eq_nil_iff.1 (hm₁.symm.trans hm)
      rw [hopened] at hrest
      obtain ⟨front, element, back, rfl, helement, hfront, hback⟩ := ih hrest hresult hclosed
      exact ⟨(position, event) :: front, element, back, rfl, helement,
        List.forall_mem_cons.2 ⟨hblank, hfront⟩, hback⟩
    · cases htrack
      obtain ⟨inner, last, back, rfl, hinner, hback⟩ :=
        exists_of_feedAll_inside [] hstanding hm₁ hrest hresult hclosed
      rw [hname]
      exact ⟨[], _, back, by simp, .tags position last hname hinner, List.forall_mem_nil _, hback⟩
    · cases htrack
      have hend : a₁.closed = true := by
        dsimp only [Xml.Event.parts] at hparts
        split at hparts
        · cases hparts
        · cases hparts
          obtain ⟨a₂, hfirst, hlast⟩ := exists_of_run_cons hrun
          obtain ⟨a₃, hlast, hnone⟩ := exists_of_run_cons hlast
          cases hnone
          exact closed_of_closeElement (ha.of_step hfirst) hlast (frames_eq_nil_of_mirrors hm₁)
      have hback := blank_of_feedAll hend hm₁ hrest hresult
      exact ⟨[], _, events, rfl, .empty position hname, List.forall_mem_nil _, hback⟩

end Assembly

/-! ### Texts of elements -/

def fedWith (schema : Schema) (ledger : Ledger) (s : List Char) (events : List (Nat × Xml.Event)) : Fed :=
  Assembly.feedAll schema (Xml.lined (LineIndex.of s) events) { ledger }

/-- Reading a text and assembling it, the two stacks of open elements stay the same. -/
structure Coupled (schema : Schema) (ledger : Ledger) (s : List Char) : Prop where
  /-- After the events `done` the reader goes on inside the elements that the assembly has open. -/
  mirrors : ∀ done todo, (Xml.read s).events = done ++ todo → (fedWith schema ledger s done).result = .ok () →
    ∃ opened position rest, Xml.trackAll [] done = .ok opened ∧
      Xml.readFrom opened position rest = ⟨todo, (Xml.read s).fault⟩ ∧
      (fedWith schema ledger s done).assembly.Mirrors opened
  /-- A closing tag closes the innermost element, which has its name. -/
  closes : ∀ done position event todo, (Xml.read s).events = done ++ (position, event) :: todo →
    (fedWith schema ledger s done).result = .ok () →
    ∀ line pre tag post, event.parts line = .ok (pre ++ .closing tag line :: post) →
    ∀ a, Assembly.run schema pre (fedWith schema ledger s done).assembly = (.ok (), a) →
      ∃ f below, a.frames = f :: below ∧ f.tag = tag ∧
        (Assembly.closeElement schema tag line a).2.tags = below.map Frame.tag
  unreached : ∀ tag line, (assemble schema ledger s).result ≠ .error ⟨.unexpectedClosing tag, line⟩
  document : ∀ commands, (assemble schema ledger s).result = .ok commands →
    (Xml.read s).fault = none ∧ Xml.IsDocument paragraphTag.toList (Xml.read s).events

theorem mirrors_new (ledger : Ledger) : Assembly.Mirrors { ledger } [] := rfl

theorem exists_of_fedWith (ledger : Ledger) (h : (Xml.read s).events = done ++ todo)
    (hfed : (fedWith schema ledger s done).result = .ok ()) :
    ∃ opened position rest, Xml.trackAll [] done = .ok opened ∧
      Xml.readFrom opened position rest = ⟨todo, (Xml.read s).fault⟩ ∧
      (fedWith schema ledger s done).assembly.Mirrors opened := by
  obtain ⟨opened, position, rest, htrack, hgoes⟩ := Xml.exists_of_read_append h
  exact ⟨opened, position, rest, htrack, hgoes, Assembly.mirrors_feedAll (mirrors_new ledger) htrack hfed⟩

/-- The result for a text, from what has become of its events. -/
theorem result_assemble (schema : Schema) (ledger : Ledger) (s : List Char) :
    (assemble schema ledger s).result =
      match (fedWith schema ledger s (Xml.read s).events).result, (Xml.read s).fault with
      | .error e, _ => .error e
      | .ok (), some (position, e) => .error ⟨.badMarkup e, (LineIndex.of s).lineAt position⟩
      | .ok (), none =>
        (fedWith schema ledger s (Xml.read s).events).assembly.finish (LineIndex.of s).lastLine := rfl

theorem exists_trackAll_read (s : List Char) : ∃ opened, Xml.trackAll [] (Xml.read s).events = .ok opened := by
  obtain ⟨opened, -, -, htrack, -⟩ := Xml.exists_of_read_append (List.append_nil (Xml.read s).events).symm
  exact ⟨opened, htrack⟩

theorem atClosing_of_assemble (h : (assemble schema ledger s).result = .error e) : e.item.atClosing = false := by
  obtain ⟨opened, htrack⟩ := exists_trackAll_read s
  rw [result_assemble] at h
  split at h
  · next e' hfed =>
    cases h
    exact Assembly.atClosing_of_feedAll (Assembly.standing_new ledger) (mirrors_new ledger) htrack hfed
  · cases h; rfl
  · obtain ⟨tag, rfl⟩ := Assembly.exists_of_finish_error h
    rfl

theorem coupled_assemble (schema : Schema) (ledger : Ledger) (s : List Char) : Coupled schema ledger s := by
  refine ⟨fun done todo h hfed => exists_of_fedWith ledger h hfed, ?_, ?_, ?_⟩
  · intro done position event todo h hfed line pre tag post hparts a hrun
    obtain ⟨opened, _, _, -, hgoes, hmirrors⟩ := exists_of_fedWith ledger h hfed
    obtain ⟨opened', -, -, htrack, -⟩ := Xml.exists_of_readFrom_cons hgoes
    exact Assembly.exists_of_closing hmirrors htrack hparts hrun
  · intro tag line h
    have hclosing := atClosing_of_assemble h
    cases hclosing
  · intro commands h
    obtain ⟨opened, htrack⟩ := exists_trackAll_read s
    rw [result_assemble] at h
    split at h
    · cases h
    · cases h
    · next hfed hfault =>
      exact ⟨hfault, Assembly.isDocument_of_feedAll (Assembly.standing_new ledger) rfl (mirrors_new ledger) htrack
        hfed (Assembly.closed_of_finish h)⟩

end TaggedProse
