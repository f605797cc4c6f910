import ModuleSurface.Narrowing.Infer
import ModuleSurface.Proofs.Lexing.TopLevel
import ModuleSurface.Proofs.Text.Strip

/-!
# A template literal as a value

The code of a text that is exactly one template literal is the code of its substitutions.  So the
searches outside brackets come to nothing in it, if that code is in brackets, and else the literal
is taken apart: `answers_topLevel`.
-/

namespace ModuleSurface.Narrowing

open ModuleSurface.Lexing

/-- The text is exactly one template literal. -/
structure IsTemplate (text : Text) : Prop where
  /-- It begins like one. -/
  head : text.head? = some '\x60'
  /-- It is a literal and nothing else. -/
  single : Literal.isSingle text = true

namespace IsTemplate

variable {text : Text}

/-- The pass is in the literal from its first step on to the end of the text. -/
theorem exists_moments (h : IsTemplate text) :
    ∃ front last behind, (pass text).moments = front ++ last :: behind ∧ last.stop = text.length ∧
      ∀ m ∈ front, m.after.context ≠ .normal := by
  have hsingle := h.single
  unfold Literal.isSingle at hsingle
  split at hsingle
  · rename_i m hm
    obtain ⟨-, front, behind, hsplit, hfront⟩ := List.find?_eq_some_iff_append.1 hm
    exact ⟨front, m, behind, hsplit, beq_iff_eq.1 hsingle, fun n hn => by simpa using hfront n hn⟩
  · cases hsingle

/-- A step that begins in the text is the first one, or behind a step that stays in the literal. -/
theorem exists_front (h : IsTemplate text) {m : Moment} (hm : m ∈ (pass text).moments)
    (hlt : m.index < text.length) :
    ∃ front behind, (pass text).moments = front ++ m :: behind ∧
      ∀ n ∈ front, n.after.context ≠ .normal := by
  obtain ⟨front, last, behind, hsplit, hstop, hfront⟩ := h.exists_moments
  have htrace := trace_pass text
  rw [hsplit] at hm htrace
  rcases List.mem_append.1 hm with hm | hm
  · obtain ⟨front', behind', rfl⟩ := List.append_of_mem hm
    refine ⟨front', behind' ++ last :: behind, by simp [hsplit], fun n hn => ?_⟩
    exact hfront n (List.mem_append_left _ hn)
  · rcases List.mem_cons.1 hm with rfl | hm
    · exact ⟨front, behind, hsplit, hfront⟩
    · have hle := htrace.split.2.2.le_index m hm
      omega

/-- The code of a template literal is in its substitutions. -/
theorem context_of_mem_visits (h : IsTemplate text) {v : Visit} (hv : v ∈ visits text) :
    v.state.context = .templateExpr := by
  obtain ⟨m, hm, hindex, hbefore⟩ := exists_moment_of_mem_visits hv
  obtain ⟨-, -, hreads, -⟩ := exists_run_of_mem_visits hv
  obtain ⟨hcode, -, hquote, -⟩ := Cursor.readsCode_iff.1 hreads
  have hchar := getElem?_of_mem_visits hv
  have hlt : m.index < text.length := by
    rw [hindex]
    exact (List.getElem?_eq_some_iff.1 hchar).1
  obtain ⟨front, behind, hsplit, hfront⟩ := h.exists_front hm hlt
  have htrace := trace_pass text
  rw [hsplit] at htrace
  suffices hctx : v.state.context ≠ .normal by
    rw [State.inCode] at hcode
    cases hs : v.state.context <;> rw [hs] at hcode hctx <;> first | rfl | contradiction
  rcases List.eq_nil_or_concat front with rfl | ⟨front', n, hn⟩
  · -- the first step reads the delimiter, which is not visited
    rw [← hindex, htrace.head_eq.2, ← List.head?_eq_getElem?, h.head] at hchar
    rw [← Option.some.inj hchar] at hquote
    cases hquote
  · rw [List.concat_eq_append] at hn
    subst hn
    rw [← hbefore, ← htrace.split.1.split.2.2.eq_of_nil]
    exact hfront n (by simp)

/-- Outside brackets there is no code in it, if there is none directly in its substitutions. -/
theorem outermost_eq_nil (h : IsTemplate text) (hb : BracketedSubstitutions text)
    (angles : Bool) : outermost text angles = [] := by
  refine List.eq_nil_iff_forall_not_mem.2 fun v hv => ?_
  obtain ⟨hmem, hdepth⟩ := mem_of_mem_outermostFrom hv
  exact hb v hmem (h.context_of_mem_visits hmem) hdepth

theorem splitOutermost_eq (h : IsTemplate text) {isSeparator : Char → Bool} {angles : Bool}
    (hcuts : cuts text isSeparator angles = []) :
    splitOutermost text isSeparator angles = [Text.strip text] := by
  have hne : Text.strip text ≠ [] := by
    obtain ⟨r, rfl⟩ := List.head?_eq_some_iff.1 h.head
    exact Text.strip_ne_nil (by decide) List.mem_cons_self
  rw [Lexing.splitOutermost_eq, hcuts, cutAt, List.map_singleton,
    List.filter_cons_of_pos (by simpa using hne), List.filter_nil]

/-- A template literal stays in one piece just if no code stands directly in its substitutions. -/
theorem cuts_eq_nil_iff (h : IsTemplate text) :
    (∀ isSeparator angles, cuts text isSeparator angles = []) ↔ BracketedSubstitutions text := by
  refine ⟨fun hcuts v hv _ hdepth => ?_, fun hb isSeparator angles => ?_⟩
  · have hcut : v.index ∈ cuts text (· == v.char) false := mem_cuts_of_mem_visits hv hdepth
    rw [hcuts] at hcut
    cases hcut
  · rw [cuts, h.outermost_eq_nil hb]
    rfl

/-- Then nothing is asserted of it, and no arrow is found in it. -/
theorem assertion?_eq_none (h : IsTemplate text) (hb : BracketedSubstitutions text) :
    assertion? text = none := by
  have hword : ∀ word, lastAssertion? text word = none := by
    intro word
    rw [lastAssertion?, findLastOutermost?, h.outermost_eq_nil hb]
    rfl
  rw [assertion?, assertionPlace?, hword, hword]

theorem findOutermost?_eq_none (h : IsTemplate text) (hb : BracketedSubstitutions text)
    (target : Text) (start : Nat) (angles : Bool) :
    findOutermost? text target start angles = none := by
  rw [findOutermost?, h.outermost_eq_nil hb]
  rfl

end IsTemplate

/-- **What the searches take for the top level.**  They answer in code with no bracket open.  That
is the top level of the pass, for every answer, just if no code stands directly in a substitution.
A text that is one template literal is never cut just under the same condition, and then no
assertion and no arrow is found in it. -/
theorem answers_topLevel (text : Text) :
    (∀ i, Answer text i → ∃ v ∈ visits text, v.index = i ∧ ∀ b, v.state.depthOf b = 0) ∧
      ((∀ i, Answer text i → AtTopLevel text i) ↔ BracketedSubstitutions text) ∧
      (IsTemplate text →
        ((∀ isSeparator angles, cuts text isSeparator angles = []) ↔
          BracketedSubstitutions text) ∧
        (BracketedSubstitutions text →
          (∀ isSeparator angles, splitOutermost text isSeparator angles = [Text.strip text]) ∧
            assertion? text = none ∧ findOutermost? text "=>".toList 0 true = none)) := by
  refine ⟨fun i hi => ?_, answers_atTopLevel_iff text, fun h => ⟨h.cuts_eq_nil_iff, fun hb => ?_⟩⟩
  · obtain ⟨v, hv, hindex, hdepth⟩ := hi.exists_visit
    exact ⟨v, hv, hindex, State.depth_eq_zero_iff.1 hdepth⟩
  · exact ⟨fun isSeparator angles =>
        h.splitOutermost_eq (h.cuts_eq_nil_iff.2 hb isSeparator angles),
      h.assertion?_eq_none hb, h.findOutermost?_eq_none hb _ _ _⟩

/-- Code that stands directly in a substitution is taken for the top level, and a template literal
is cut there. -/
theorem answers_topLevel_substitution :
    (¬ ∀ text i, Answer text i → AtTopLevel text i) ∧
      ¬ ∀ text, IsTemplate text → splitCommas text = [text] := by
  refine ⟨fun h => ?_, fun h => ?_⟩
  · have hall := (answers_atTopLevel_iff "\x60$\x7ba\x7d\x60".toList).1 (h _)
    exact absurd hall (by decide +kernel)
  · have hpiece := h "\x60$\x7ba, b\x7d\x60".toList ⟨by decide, by decide +kernel⟩
    exact absurd hpiece (by decide +kernel)

/-- In brackets it is not. -/
example : splitCommas "\x60$\x7bf(a, b)\x7d\x60".toList = ["\x60$\x7bf(a, b)\x7d\x60".toList] := by
  decide +kernel

end ModuleSurface.Narrowing
