import ModuleSurface.Proofs.Lexing.Comments
import ModuleSurface.Proofs.Outline.Composition

/-!
# Comments between tokens

A comment can be replaced by a blank: `outcome_comment`.  Two things stand in the way, and both come
from slashes.  A slash in front of the comment whose line is still open may begin a regular
expression literal that the delimiter of the comment closes; and whether a slash behind it divides
is judged by the characters in front of that slash, which may be the comment's.
-/

namespace ModuleSurface.Lexing

open Cursor

/-- What is wrong with a module is what the plain pass over it finds. -/
theorem exists_ofSource_iff (text : Text) :
    (∃ o, Outline.ofSource text = .ok o) ↔ (pass text).outcome.verdict = none := by
  have hverdict : Outline.fault? text = (pass text).verdict :=
    (Statement.ending_segments (l := .module) (by decide) text).1
  have hiff : (pass text).outcome.verdict = none ↔ Outline.fault? text = none := by
    rw [hverdict]
    exact Option.map_eq_none_iff
  rw [hiff]
  refine ⟨?_, ?_⟩
  · rintro ⟨o, ho⟩
    exact Outline.fault?_of_ofSource ho
  · intro h
    obtain ⟨o, ho, -⟩ := Outline.ofSource_of_ok h
    exact ⟨o, ho⟩

/-- **Comments are transparent**: a comment behind a text that ends in code can be replaced by a
blank, or by a newline if it is a line comment, without a change in what a pass comes to.  So a
module has an outline with the comment exactly if it has one without. -/
theorem outcome_comment {A B : Text} (m : Comment) (hfault : (pass A).fault = none)
    (hcode : (pass A).state.inCode = true) (hlast : A.getLast? ≠ some '/') (hsettled : Settled A)
    (hunseen : m.Unseen A B) :
    (pass (A ++ (m.text ++ B))).outcome = (pass (A ++ m.blank :: B)).outcome ∧
      ((∃ o, Outline.ofSource (A ++ (m.text ++ B)) = .ok o) ↔
        ∃ o, Outline.ofSource (A ++ m.blank :: B) = .ok o) := by
  have hrun : ∀ more : Text, more ≠ [] → more.head?.any Text.isIdentChar = false →
      (pass (A ++ more)).outcome =
        (passFrom (pass A).state A.reverse more A.length).outcome := by
    intro more hne hident
    obtain ⟨ps, hrun, -⟩ := exists_run_append hfault hne (.inl hcode)
      fun r hplaced hvisit hin c u hrest => hsettled.keepsUnit hlast hident hplaced hvisit hin hrest
    exact hrun.outcome_eq
  have hcomment : (pass (A ++ (m.text ++ B))).outcome =
      (passFrom (pass A).state (m.text.reverse ++ A.reverse) B
        (A.length + m.text.length)).outcome := by
    obtain ⟨t, ht⟩ := m.exists_text
    obtain ⟨ps, hback⟩ := m.exists_run hcode A.reverse B A.length
    refine (hrun _ ?_ ?_).trans hback.outcome_eq
    · simp [ht]
    · rw [ht]
      exact (by decide : Text.isIdentChar '/' = false)
  have hblank : (pass (A ++ m.blank :: B)).outcome =
      (passFrom (pass A).state (m.blank :: A.reverse) B (A.length + 1)).outcome := by
    obtain ⟨ps, hback⟩ := m.exists_run_blank hcode A.reverse B A.length
    refine (hrun _ (List.cons_ne_nil _ _) ?_).trans hback.outcome_eq
    cases m with
    | block => exact (by decide : Text.isIdentChar ' ' = false)
    | line => exact (by decide : Text.isIdentChar '\n' = false)
  have hjudged : Judged (m.text.reverse ++ A.reverse) (m.blank :: A.reverse) B := by
    refine .of_gap ?_ ?_ ?_
    · cases m with
      | block body closed =>
        simp only [Comment.text, List.reverse_append]
        exact (by decide : Text.isIdentChar '/' = false)
      | line body within =>
        simp only [Comment.text, List.reverse_append]
        exact (by decide : Text.isIdentChar '\n' = false)
    · cases m with
      | block => exact (by decide : Text.isIdentChar ' ' = false)
      | line => exact (by decide : Text.isIdentChar '\n' = false)
    · intro r hrest hline hblock
      rw [hunseen r hrest hline hblock, RegexLiteral.beginsAfter, RegexLiteral.beginsAfter,
        List.dropWhile_cons_of_pos m.isGap_blank]
  have houtcome : (pass (A ++ (m.text ++ B))).outcome = (pass (A ++ m.blank :: B)).outcome := by
    rw [hcomment, hblank]
    exact outcome_of_sameShape (.refl _) hjudged _ _
  refine ⟨houtcome, ?_⟩
  rw [exists_ofSource_iff, exists_ofSource_iff, houtcome]

/-- A comment with a quote in it, between a name in a substitution and the slash behind the name. -/
theorem outcome_comment_division :
    (pass "x = \x60$\x7ba".toList).state.inCode = true ∧
      (pass ("x = \x60$\x7ba".toList ++ ("/* ' */".toList ++ " / 2\x7d\x60".toList))).outcome =
        ⟨.normal, 0, 0, 0, none, none⟩ := by
  have hsettled : Settled "x = \x60$\x7ba".toList := by
    have hnone : (visits "x = \x60$\x7ba".toList).all (·.char != '/') = true := by
      decide +kernel
    intro v hv hslash
    simpa [hslash] using List.all_eq_true.1 hnone v hv
  have hunseen : (Comment.block " ' ".toList (by decide)).Unseen "x = \x60$\x7ba".toList
      " / 2\x7d\x60".toList := by
    intro r _ _ _
    decide +kernel
  have houtcome := (outcome_comment (.block " ' ".toList (by decide)) (by decide +kernel)
    (by decide +kernel) (by decide) hsettled hunseen).1
  refine ⟨by decide +kernel, ?_⟩
  refine Eq.trans houtcome ?_
  decide +kernel

/-- Behind a slash whose line is still open, the delimiter of a comment closes a regular expression
literal, and the comment is none. -/
theorem not_outcome_comment :
    ¬ ∀ (A B : Text) (m : Comment), (pass A).fault = none → (pass A).state.inCode = true →
      A.getLast? ≠ some '/' →
        (pass (A ++ (m.text ++ B))).outcome = (pass (A ++ m.blank :: B)).outcome := by
  intro h
  have hsame := h "x = /ab".toList [] (.block ['\''] (by decide)) (by decide +kernel)
    (by decide +kernel) (by decide)
  exact absurd hsame (by decide +kernel)

end ModuleSurface.Lexing
