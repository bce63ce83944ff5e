import TaggedProse.Proofs.Assembly.Tags
import TaggedProse.Proofs.Element.Refinement

/-! Tags that are nested make up element trees, and an assembly that succeeds has been fed with one. -/
namespace TaggedProse
variable {schema : Schema} {tag : String} {line : Nat} {stack stack' : List String} {parts : List Part}

/-- Trees, and between them the closing tags of the open elements. -/
def Forested : List String → List Part → Prop
  | [], parts => ∃ ns, parts = Tree.partsOf ns
  | tag :: stack, parts => ∃ ns line rest,
    parts = Tree.partsOf ns ++ .closing tag line :: rest ∧ Forested stack rest

theorem Forested.cons (h : Forested stack parts) (n : Tree) : Forested stack (n.parts ++ parts) := by
  cases stack with
  | nil =>
    obtain ⟨ns, rfl⟩ := h
    exact ⟨n :: ns, rfl⟩
  | cons tag stack =>
    obtain ⟨ns, line, rest, rfl, hrest⟩ := h
    exact ⟨n :: ns, line, rest, by rw [← List.append_assoc]; rfl, hrest⟩

theorem forested_of_nest (h : nest stack parts = some []) : Forested stack parts := by
  induction parts generalizing stack with
  | nil =>
    cases h
    exact ⟨[], rfl⟩
  | cons part parts ih =>
    cases part with
    | text s line => exact (ih h).cons (.text s line)
    | opening tag attributes line =>
      obtain ⟨ns, closing, rest, rfl, hrest⟩ := ih h
      have htree := hrest.cons (.element tag attributes line ns closing)
      rwa [Tree.parts, List.cons_append, List.append_assoc] at htree
    | closing tag line =>
      cases stack with
      | nil => cases h
      | cons innermost outer =>
        rw [nest] at h
        split at h
        · next heq => exact ⟨[], line, parts, by rw [heq]; rfl, ih h⟩
        · cases h

/-- Nested tags with nothing left open are those of some trees. -/
theorem exists_nodes_of_nest (h : nest [] parts = some []) : ∃ ns, parts = Tree.partsOf ns :=
  forested_of_nest h

namespace Assembly
variable {a a' : Assembly}

/-- Nothing but text may follow the paragraph's element. -/
theorem forall_text_of_run {ns : List Tree} (hc : a.closed = true) (hf : a.frames = [])
    (h : run schema (Tree.partsOf ns) a = (.ok (), a')) : ∀ n ∈ ns, ∃ s line, n = .text s line := by
  induction ns generalizing a with
  | nil => simp
  | cons n ns ih =>
    cases n with
    | text s line =>
      have hstep : step schema (.text s line) a = (refuseText paragraphTag s line, a) := by
        rw [step, write, hf]
        rfl
      rw [Tree.partsOf, Tree.parts, List.singleton_append, run, hstep] at h
      split at h
      · next a₁ heq =>
        obtain ⟨-, rfl⟩ := Prod.mk.inj heq
        intro n hn
        rcases List.mem_cons.1 hn with rfl | hn
        · exact ⟨s, line, rfl⟩
        · exact ih hc hf h n hn
      · cases h
    | element tag attributes line children closing =>
      have hstep : step schema (.opening tag attributes line) a = (.error ⟨.unexpectedRoot tag, line⟩, a) := by
        rw [step, openElement, hf, hc]
        rfl
      rw [Tree.partsOf, Tree.parts, List.cons_append, run, hstep] at h
      cases h

end Assembly

theorem exists_text_of_getLast? {ns : List Tree} (hne : ns ≠ [])
    (ht : ∀ n ∈ ns, ∃ s line, n = .text s line) :
    ∃ s line, (Tree.partsOf ns).getLast? = some (.text s line) := by
  induction ns with
  | nil => exact absurd rfl hne
  | cons n ns ih =>
    obtain ⟨s, line, rfl⟩ := ht n List.mem_cons_self
    cases ns with
    | nil => exact ⟨s, line, rfl⟩
    | cons m ns =>
      obtain ⟨s', line', hlast⟩ := ih (by simp) fun n hn => ht n (List.mem_cons_of_mem _ hn)
      refine ⟨s', line', ?_⟩
      rw [Tree.partsOf, Tree.parts, List.getLast?_append, hlast]
      rfl

/-- An assembly that does not fail, between the tags of a paragraph, was fed with that element only. -/
theorem exists_children_of_run {a' : Assembly} {attributes : List (String × String)} {last : Nat} {l : Ledger}
    {rest front : List Part} (hfirst : parts = .opening paragraphTag attributes line :: rest)
    (hlast : parts = front ++ [.closing paragraphTag last]) (hn : nest [] parts = some [])
    (hrun : Assembly.run schema parts { ledger := l.clear } = (.ok (), a')) :
    ∃ children, parts = (Tree.element paragraphTag attributes line children last).parts := by
  obtain ⟨ns, hparts⟩ := exists_nodes_of_nest hn
  cases ns with
  | nil => rw [hparts] at hfirst; cases hfirst
  | cons n ns =>
    cases n with
    | text s line' => rw [hparts] at hfirst; cases hfirst
    | element tag attributes' line' children closing =>
      have htag := hparts.symm.trans hfirst
      rw [Tree.partsOf, Tree.parts, List.cons_append] at htag
      obtain ⟨hopening, -⟩ := List.cons.inj htag
      cases hopening
      have hgives := gives_paragraph schema attributes line closing children l
      rw [hparts, Tree.partsOf, Assembly.run_append] at hrun
      split at hrun
      · next a₁ hfirstRun =>
        have hconcluded : a₁.frames = [] ∧ a₁.closed = true := by
          cases hvalue : Tree.evaluate schema children with
          | error e => rw [hvalue, Gives, hfirstRun] at hgives; cases hgives
          | ok lined =>
            rw [hvalue] at hgives
            obtain ⟨a₂, hrun₂, hframes, hclosed, -⟩ := hgives
            rw [hfirstRun] at hrun₂
            cases hrun₂
            exact ⟨hframes, hclosed⟩
        have htexts := Assembly.forall_text_of_run hconcluded.2 hconcluded.1 hrun
        obtain rfl : ns = [] := by
          by_contra hne
          obtain ⟨s, line', htext⟩ := exists_text_of_getLast? hne htexts
          have hends := congrArg List.getLast? (hparts.symm.trans hlast)
          rw [Tree.partsOf, List.getLast?_append, htext] at hends
          simp at hends
        rw [Tree.partsOf, Tree.partsOf, List.append_nil, Tree.parts] at hparts
        have hends := congrArg List.getLast? (hparts.symm.trans hlast)
        rw [← List.cons_append, List.getLast?_concat, List.getLast?_concat] at hends
        cases hends
        exact ⟨children, hparts⟩
      · cases hrun

end TaggedProse
