import Mathlib.Algebra.Ring.Parity
import ModuleSurface.Proofs.Outline.Composition
import ModuleSurface.Proofs.Statement.Line

/-!
# Statements under control headers

A header of a control statement without a body in its line takes the next statement as that body,
and nothing is declared in it.  The next statement may be a header itself: then that one is the
body, and what follows is not.  So headers one under the other are taken in pairs, and a statement
under them is passed over only if their number is odd: `Outline.ofSource_controlled`.
-/

namespace ModuleSurface

open ModuleSurface.Lexing
open ModuleSurface.Statement

/-! ## Headers -/

namespace Statement

/-- The keywords of headers with a condition. -/
def conditionWords : List Text :=
  ["if", "for", "while", "with"].map String.toList

/-- A header of a control statement without its body. -/
inductive ControlHeader where
  /-- A keyword and its condition, which is closed. -/
  | conditional (word t : Text) (hword : word ∈ conditionWords) (ht : Closed t)
  /-- The keyword of the other branch. -/
  | otherwise
  /-- The keyword of a loop with its condition at the end. -/
  | loop

namespace ControlHeader

/-- The header as it is written. -/
def text : ControlHeader → Text
  | conditional word t _ _ => word ++ [' '] ++ ('(' :: t ++ [')'])
  | otherwise => "else".toList
  | loop => "do".toList

theorem isIdentChar_of_conditionWords {word : Text} (h : word ∈ conditionWords) :
    word ≠ [] ∧ ∀ c ∈ word, Text.isIdentChar c = true := by
  have hall : ∀ word ∈ conditionWords, word ≠ [] ∧ ∀ c ∈ word, Text.isIdentChar c = true := by
    decide
  exact hall word h

/-- A condition in round brackets. -/
theorem isCondition_of_closed {t : Text} (ht : Closed t) :
    isCondition ('(' :: t ++ [')']) = true := by
  have hslash : LeavesSlashes t (Bracket.round.closer :: []) := by
    intro v hv hchar hbegins
    have hnil := leavesSlashes_nil t v hv hchar hbegins
    rw [List.append_nil] at hnil
    rw [RegexLiteral.bodyWidth?_append (bars_closer .round (fun _ => rfl) _), hnil]
  have hmatch : matching? ('(' :: t ++ [')']) 0 = some (1 + t.length) := by
    have hbracket := ht.matching?_bracket Phrase.nil .round hslash
    simp only [List.nil_append, List.append_nil, List.length_nil, Nat.zero_add] at hbracket
    exact hbracket
  rw [isCondition, hmatch]
  have hlength : ('(' :: t ++ [')']).length = 1 + t.length + 1 := by
    rw [List.length_append, List.length_cons, List.length_singleton, Nat.add_comm 1]
  have hdrop : ('(' :: t ++ [')']).drop (1 + t.length + 1) = [] :=
    List.drop_eq_nil_of_le (Nat.le_of_eq hlength)
  simp only [hdrop]
  rfl

variable (h : ControlHeader)

/-- A header is a statement of its own. -/
theorem whole : Whole h.text := by
  cases h with
  | conditional word t hword ht =>
    obtain ⟨hne, hident⟩ := isIdentChar_of_conditionWords hword
    obtain ⟨c, r, rfl⟩ := List.exists_cons_of_ne_nil hne
    have hsign : ∀ d ∈ c :: r, ∀ e, Text.isIdentChar e = false → d ≠ e := by
      rintro d hd e he rfl
      rw [hident d hd] at he
      cases he
    have hphrase : Phrase (c :: r ++ [' ']) := by
      refine Phrase.of_plain fun d hd => ?_
      rcases List.mem_append.1 hd with hd | hd
      · exact ⟨plain_of_isIdentChar (hident d hd), hsign d hd _ (by decide),
          hsign d hd _ (by decide)⟩
      · rw [List.mem_singleton.1 hd]
        decide
    have hc := List.mem_cons_self (a := c) (l := r)
    have hseparator : c ∉ Layout.module.separators :=
      fun h => hsign c hc ';' (by decide) (List.mem_singleton.1 h)
    exact Whole.of_bracketed .round hphrase ht
      ⟨plain_of_isIdentChar (hident c hc), hsign c hc _ (by decide)⟩
      ⟨Text.isBlank_of_isIdentChar (hident c hc), hseparator⟩
  | otherwise =>
    refine ⟨⟨'e', "lse".toList, rfl, fun _ => ?_⟩, ?_, ?_, ?_⟩ <;> decide +kernel
  | loop =>
    refine ⟨⟨'d', "o".toList, rfl, fun _ => ?_⟩, ?_, ?_, ?_⟩ <;> decide +kernel

/-- A header is recognized as such. -/
theorem isControlHeader_text : isControlHeader (Text.stripRight h.text) = true := by
  cases h with
  | conditional word t hword ht =>
    have hstrip : Text.stripRight (word ++ [' '] ++ ('(' :: t ++ [')'])) =
        word ++ [' '] ++ ('(' :: t ++ [')']) := by
      rw [← List.append_assoc]
      exact Text.stripRight_concat (by decide) _
    have hcondition : isCondition (Text.strip (' ' :: ('(' :: t ++ [')']))) = true := by
      have hstrip := Text.strip_between [' '] ('(' :: t ++ [')']) [] (by decide) (by simp)
      rw [List.append_nil, List.singleton_append] at hstrip
      rw [hstrip, Text.strip_eq_self (by decide) (by decide)]
      exact isCondition_of_closed ht
    simp only [conditionWords, List.map_cons, List.map_nil, List.mem_cons, List.not_mem_nil,
      or_false] at hword
    rw [text, hstrip]
    rcases hword with rfl | rfl | rfl | rfl <;> exact hcondition
  | otherwise => decide +kernel
  | loop => decide +kernel

theorem continues_text : continues h.text = false := by
  cases h with
  | conditional word t hword ht =>
    simp only [conditionWords, List.map_cons, List.map_nil, List.mem_cons, List.not_mem_nil,
      or_false] at hword
    rcases hword with rfl | rfl | rfl | rfl <;> rfl
  | otherwise => rfl
  | loop => rfl

theorem leavesSlashes_text (B : Text) : LeavesSlashes h.text ('\n' :: B) := by
  refine leavesSlashes_newline ?_ B
  cases h with
  | conditional word t hword ht =>
    rw [text, ← List.append_assoc, List.getLast?_concat]
    decide
  | otherwise => decide
  | loop => decide

end ControlHeader

/-- Headers in lines of their own, and what stands under them. -/
def headed : List ControlHeader → Text → Text
  | [], text => text
  | h :: hs, text => h.text ++ '\n' :: headed hs text

theorem headed_append (hs : List ControlHeader) (t u : Text) :
    headed hs t ++ u = headed hs (t ++ u) := by
  induction hs with
  | nil => rfl
  | cons h hs ih => simp [headed, ih]

theorem length_headed (hs : List ControlHeader) (t : Text) :
    (headed hs t).length = (headed hs []).length + t.length := by
  rw [← List.nil_append t, ← headed_append, List.length_append, List.nil_append]

theorem continues_headed (hs : List ControlHeader) {t : Text} (ht : continues t = false) :
    continues (headed hs t) = false := by
  cases hs with
  | nil => exact ht
  | cons h hs => rw [headed, h.whole.continues_line, h.continues_text]

end Statement

/-! ## What is found under headers -/

namespace Outline

/-- What the statements of a text declare.  `skipping` says that the first of them is controlled by
a header in front of the text. -/
def found (skipping : Bool) (text : Text) : Finding :=
  findings text skipping (segmentsIn text)

section

variable {lead t B : Text} {doc : Option Text} (hlead : Lead none lead doc) (h : Whole t)
  (hcontinues : continues t = false) (hB : continues B = false)
  (hslash : LeavesSlashes t ('\n' :: B))

include hlead h hcontinues hB hslash

/-- A whole statement, with `lead` in front of it, is a segment of its own. -/
theorem exists_segment_of_whole :
    ∃ s, Text.stripRight s.text = Text.stripRight t ∧
      segmentsIn (lead ++ (t ++ '\n' :: B)) =
        s :: (segmentsIn B).map (Segment.moved (lead.length + (t.length + 1))) ∧
      fault? (lead ++ (t ++ '\n' :: B)) =
        (fault? B).map (Fault.moved (lead.length + (t.length + 1))) := by
  obtain ⟨s, hs⟩ := h.exists_cutOff hB hslash doc
  obtain ⟨there, hthere, hcut⟩ := hs.behind
  have hmoved : Segmentation.Moved lead.length
      (segmentsFrom .module (t ++ '\n' :: B) {} none doc true [] (t ++ '\n' :: B) 0)
      (segments .module (lead ++ (t ++ '\n' :: B))) := by
    have hline : continues (t ++ '\n' :: B) = false := by
      rw [h.continues_line, hcontinues]
    obtain ⟨c, r, rfl, hbegins⟩ := h.begins
    exact hlead.moved_segments (hbegins.append ⟨by simp, by simp⟩) hline
  rw [hcut] at hmoved
  refine ⟨s.moved lead.length, hs.text, ?_, ?_⟩
  · have hbehind : segmentsOf there.pieces =
        (segmentsIn B).map (Segment.moved (t.length + 1)) := by
      rw [hthere.pieces, segmentsOf_segments]
      rfl
    have hall : segmentsOf (there.prepend [.segment s]).pieces = s :: segmentsOf there.pieces := rfl
    rw [segmentsIn, hmoved.pieces, segmentsOf_segments, hall, hbehind, List.map_cons, List.map_map]
    refine congrArg _ (List.map_congr_left fun e _ => ?_)
    simp [Segment.moved, Nat.add_assoc]
  · rw [fault?, hmoved.fault, Segmentation.prepend, hthere.fault, ← fault?, Option.map_map]
    refine congrArg (Option.map · _) (funext fun f => ?_)
    simp [Fault.moved, Nat.add_assoc]

/-- A controlled statement and a header declare nothing, and what is behind them declares what it
does on its own: controlled exactly if it is behind a header that is not controlled itself. -/
theorem moved_found_whole (skipping : Bool)
    (hquiet : skipping = false → isControlHeader (Text.stripRight t) = true) :
    Finding.Moved (lead.length + (t.length + 1))
      (found (!skipping && isControlHeader (Text.stripRight t)) B)
      (found skipping (lead ++ (t ++ '\n' :: B))) := by
  obtain ⟨s, htext, hsegments, -⟩ := exists_segment_of_whole hlead h hcontinues hB hslash
  rw [found, found, hsegments, findings_cons, htext]
  have hnone : ∀ text, Finding.Moved (lead.length + (t.length + 1)) {}
      (findings text skipping [s]) := by
    intro text
    cases skipping with
    | true => exact ⟨rfl, rfl⟩
    | false =>
      have hheader : isControlHeader (Text.stripRight s.text) = true := by
        rw [htext]
        exact hquiet rfl
      simp only [findings, hheader]
      exact ⟨rfl, rfl⟩
  exact (hnone _).append (moved_findings _ B _ _ (segmentsIn B))

theorem fault?_whole (hfault : fault? B = none) :
    fault? (lead ++ (t ++ '\n' :: B)) = none := by
  obtain ⟨s, -, -, hmoved⟩ := exists_segment_of_whole hlead h hcontinues hB hslash
  rw [hmoved, hfault]
  rfl

end

/-- Each header under another one is controlled or not in turns. -/
theorem moved_found_headed (hs : List ControlHeader) {t : Text} (ht : continues t = false)
    (skipping : Bool) :
    Finding.Moved (headed hs []).length (found (not^[hs.length] skipping) t)
      (found skipping (headed hs t)) := by
  induction hs generalizing skipping with
  | nil =>
    exact ⟨(List.map_id'' Declaration.moved_zero _).symm, rfl⟩
  | cons h hs ih =>
    have hline := moved_found_whole (.nil none) h.whole h.continues_text (continues_headed hs ht)
      (h.leavesSlashes_text _) skipping fun _ => h.isControlHeader_text
    rw [h.isControlHeader_text, Bool.and_true] at hline
    have hlength : (headed (h :: hs) []).length =
        ([] : Text).length + (h.text.length + 1) + (headed hs []).length := by
      simp [headed]
      omega
    rw [hlength]
    exact (ih (!skipping)).trans hline

theorem fault?_headed (hs : List ControlHeader) {t : Text} (ht : continues t = false)
    (hfault : fault? t = none) : fault? (headed hs t) = none := by
  induction hs with
  | nil => exact hfault
  | cons h hs ih =>
    exact fault?_whole (.nil none) h.whole h.continues_text (continues_headed hs ht)
      (h.leavesSlashes_text _) ih

/-- A text in which the same is found at other offsets has the same outline, moved. -/
theorem exists_ofSource_of_moved {here text : Text} {n : Nat} {o : Outline}
    (ho : ofSource here = .ok o) (hfault : fault? text = none)
    (h : Finding.Moved n (found false here) (found false text)) :
    ∃ o', ofSource text = .ok o' ∧ o'.declarations = o.declarations.map (Declaration.moved n) ∧
      o'.imports = o.imports := by
  obtain ⟨a, ha, hdeclarations, himports, -⟩ := ofSource_of_ok (fault?_of_ofSource ho)
  cases ho.symm.trans ha
  obtain ⟨o', ho', hdeclarations', himports', -⟩ := ofSource_of_ok hfault
  refine ⟨o', ho', ?_, ?_⟩
  · rw [hdeclarations', hdeclarations, ← Declaration.groupOverloads_moved]
    exact congrArg _ h.declarations
  · rw [himports', himports]
    exact h.imports

/-- **A statement under control headers** declares nothing if the number of headers is odd.  If it
is even, the headers are bodies of each other, and the statement declares what it does without
them. -/
theorem ofSource_controlled (hs : List ControlHeader) {lead t C : Text} {doc : Option Text}
    {c : Outline} (hlead : Lead none lead doc) (ht : Whole t) (hcontinues : continues t = false)
    (hC : continues C = false) (hslash : LeavesSlashes t ('\n' :: C)) (hc : ofSource C = .ok c) :
    ∃ o, ofSource (headed hs (lead ++ (t ++ '\n' :: C))) = .ok o ∧
      (Odd hs.length →
        o.declarations = c.declarations.map
          (Declaration.moved (headed hs (lead ++ (t ++ ['\n']))).length) ∧
        o.imports = c.imports) ∧
      (Even hs.length → ∃ a, ofSource (lead ++ (t ++ '\n' :: C)) = .ok a ∧
        o.declarations = a.declarations.map (Declaration.moved (headed hs []).length) ∧
        o.imports = a.imports) := by
  have hstatement : continues (lead ++ (t ++ '\n' :: C)) = false :=
    hlead.continues_append (by rw [ht.continues_line, hcontinues])
  have hfault : fault? (lead ++ (t ++ '\n' :: C)) = none :=
    fault?_whole hlead ht hcontinues hC hslash (fault?_of_ofSource hc)
  have hall := fault?_headed hs hstatement hfault
  have hheaded := moved_found_headed hs hstatement false
  have hinvolutive : Function.Involutive not := Bool.not_not
  rcases Nat.even_or_odd hs.length with heven | hodd
  · obtain ⟨a, ha, -⟩ := ofSource_of_ok hfault
    rw [hinvolutive.iterate_even heven, id_eq] at hheaded
    obtain ⟨o, ho, hsame⟩ := exists_ofSource_of_moved ha hall hheaded
    exact ⟨o, ho, fun hodd => absurd heven (Nat.not_even_iff_odd.2 hodd), fun _ => ⟨a, ha, hsame⟩⟩
  · -- the last header is in force: the statement is passed over
    rw [hinvolutive.iterate_odd hodd, Bool.not_false] at hheaded
    have hpassed := moved_found_whole hlead ht hcontinues hC hslash true fun h => by cases h
    have hlength : (headed hs (lead ++ (t ++ ['\n']))).length =
        (headed hs []).length + (lead.length + (t.length + 1)) := by
      rw [length_headed]
      simp
    obtain ⟨o, ho, hsame⟩ := exists_ofSource_of_moved hc hall (hpassed.trans hheaded)
    rw [← hlength] at hsame
    exact ⟨o, ho, fun _ => hsame, fun heven => absurd heven (Nat.not_even_iff_odd.2 hodd)⟩

/-- Three headers, the last of them an alternative, and one statement under them. -/
theorem ofSource_controlled_three :
    ∃ o, ofSource ("if (a)\nfor (let i = 0; i < n; i++)\nelse\n /* b */ var x = f(')');\n" ++
        "let y = 2\n").toList = .ok o ∧
      o.declarations.map (fun d => (d.name, d.start, d.stop)) = [("y".toList, 65, 74)] := by
  have hC : continues "let y = 2\n".toList = false := by decide +kernel
  obtain ⟨c, hc, hdeclarations, -⟩ :=
    ofSource_of_ok (by decide +kernel : fault? "let y = 2\n".toList = none)
  have hlead : Lead none (' ' :: ("/*".toList ++ " b ".toList ++ "*/".toList ++ [' '])) none :=
    .blank (by decide) (.comment (by decide) (.blank (by decide) (.nil _)))
  obtain ⟨o, ho, hodd, -⟩ := ofSource_controlled
    [.conditional "if".toList "a".toList (by decide) (by decide +kernel),
      .conditional "for".toList "let i = 0; i < n; i++".toList (by decide) (by decide +kernel),
      .otherwise]
    (t := "var x = f(')');".toList) hlead (by decide +kernel) (by decide +kernel) hC
    (by decide +kernel) hc
  refine ⟨o, ho, ?_⟩
  rw [(hodd (by decide)).1, hdeclarations]
  decide +kernel

/-- Under two headers the statement declares.  A semicolon alone is no statement, so what stands
behind it is controlled, and an escaped newline does not end what a slash begins. -/
theorem not_ofSource_controlled :
    let declared (text : String) := (ofSource text.toList).toOption.map fun o =>
      o.declarations.map fun d => (d.name, d.start, d.stop)
    declared "let y = 2\n" = some [("y".toList, 0, 9)] ∧
      declared "if (a)\nif (b)\nlet x = 1\nlet y = 2\n" =
        some [("x".toList, 14, 23), ("y".toList, 24, 33)] ∧
      declared "if (a)\n;\nlet y = 2\n" = some [] ∧
      declared "let y = 1 / 2\n" = some [("y".toList, 0, 13)] ∧
      declared "if (a)\nx = /b\\\nlet y = 1 / 2\n" = some [] := by
  intro declared
  refine ⟨?_, ?_, ?_, ?_, ?_⟩ <;> decide +kernel

end Outline

end ModuleSurface
