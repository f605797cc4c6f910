import Mathlib.Algebra.GroupWithZero.Nat
import ModuleSurface.Outline
import ModuleSurface.Proofs.Lexing.Openings
import ModuleSurface.Proofs.Lexing.Reachable
import ModuleSurface.Proofs.Statement.Lockstep

/-!
# What a fault points at

A source that cannot be read is answered with a reason and a place.  The place is the delimiter that
opened what the reason complains about, and line and column say the same as the offset.

* `Located.position_eq` — line and column determine the offset;
* `State.Coherent.fault_finish` — what is open at the end of a text when a reason is given for it;
* `opening_of_ofSource_error` — the step of the pass that a fault of a source points at.
-/

namespace ModuleSurface

open ModuleSurface.Lexing
open ModuleSurface.Statement

/-! ## Lines and columns -/

namespace Located

/-- The offset of the first character of a line, the lines being counted from one. -/
def lineStart (text : Text) (line : Nat) : Nat :=
  (((text.splitOn '\n').take (line - 1)).map (·.length + 1)).sum

theorem length_splitOn (t : Text) : (t.splitOn '\n').length = t.count '\n' + 1 := by
  induction t with
  | nil => rfl
  | cons c t ih =>
    rw [List.splitOn_cons_eq_if_modifyHead, List.count_cons]
    split
    · rw [List.length_cons, ih]
    · rw [List.length_modifyHead, ih, Nat.add_zero]

theorem sum_length_splitOn (t : Text) :
    ((t.splitOn '\n').map (·.length + 1)).sum = t.length + 1 := by
  induction t with
  | nil => rfl
  | cons c t ih =>
    rw [List.splitOn_cons_eq_if_modifyHead]
    split
    · rw [List.map_cons, List.sum_cons, ih, List.length_cons, List.length_nil]
      omega
    · obtain ⟨line, others, hlines⟩ := List.exists_cons_of_ne_nil (List.splitOn_ne_nil '\n' t)
      rw [hlines] at ih ⊢
      simp only [List.modifyHead_cons, List.map_cons, List.sum_cons, List.length_cons] at ih ⊢
      omega

/-- Characters without a newline stand at the front of the first line. -/
theorem splitOn_append_of_notMem {b : Text} (hb : '\n' ∉ b) (u : Text) :
    ∃ line others, (b ++ u).splitOn '\n' = (b ++ line) :: others := by
  induction b with
  | nil => exact List.exists_cons_of_ne_nil (List.splitOn_ne_nil '\n' u)
  | cons c b ih =>
    rw [List.mem_cons, not_or] at hb
    obtain ⟨line, others, hlines⟩ := ih hb.2
    refine ⟨line, others, ?_⟩
    rw [List.cons_append, List.splitOn_cons_eq_if_modifyHead, if_neg (by simpa using Ne.symm hb.1),
      hlines]
    rfl

/-- A text is a part that is empty or ends with a newline, and the characters behind it. -/
theorem exists_lastLine (t : Text) :
    ∃ a b, t = a ++ b ∧ '\n' ∉ b ∧ (t.reverse.takeWhile (· != '\n')).length = b.length ∧
      (a = [] ∨ ∃ a', a = a' ++ ['\n']) := by
  refine ⟨(t.reverse.dropWhile (· != '\n')).reverse, (t.reverse.takeWhile (· != '\n')).reverse,
    ?_, ?_, by simp, ?_⟩
  · rw [← List.reverse_append, List.takeWhile_append_dropWhile, List.reverse_reverse]
  · intro h
    simpa using List.mem_takeWhile_imp (List.mem_reverse.1 h)
  · cases hd : t.reverse.dropWhile (· != '\n') with
    | nil => exact .inl rfl
    | cons c r =>
      have hc := List.head?_dropWhile_not (· != '\n') t.reverse
      rw [hd] at hc
      refine .inr ⟨r.reverse, ?_⟩
      rw [List.reverse_cons, show c = '\n' by simpa using hc]

/-- **Line and column determine the offset**: it is the start of the line and the columns in front
of it, and the line has that many. -/
theorem position_eq {text : Text} {position : Nat} (h : position ≤ text.length) :
    position = lineStart text (lineAt text position) + (columnAt text position - 1) ∧
      ∃ line, (text.splitOn '\n')[lineAt text position - 1]? = some line ∧
        columnAt text position ≤ line.length + 1 := by
  obtain ⟨a, b, htake, hb, hcolumn, ha⟩ := exists_lastLine (text.take position)
  have hposition := congrArg List.length htake
  rw [List.length_take, Nat.min_eq_left h, List.length_append] at hposition
  have htext : text = a ++ (b ++ text.drop position) := by
    rw [← List.append_assoc, ← htake, List.take_append_drop]
  obtain ⟨line, others, hlines⟩ := splitOn_append_of_notMem hb (text.drop position)
  have hcount : (text.take position).count '\n' = a.count '\n' := by
    rw [htake, List.count_append, List.count_eq_zero_of_not_mem hb, Nat.add_zero]
  simp only [lineStart, lineAt, columnAt, hcolumn, hcount, Nat.add_sub_cancel]
  -- the lines in front of the column's line are those of `a` without its last newline
  obtain ⟨before, hsplit, hlength, hsum⟩ : ∃ before, text.splitOn '\n' =
      before ++ (b ++ line) :: others ∧ before.length = a.count '\n' ∧
        (before.map (·.length + 1)).sum = a.length := by
    rcases ha with rfl | ⟨a', rfl⟩
    · exact ⟨[], by rw [htext, List.nil_append, hlines]; rfl, rfl, rfl⟩
    · refine ⟨a'.splitOn '\n', ?_, ?_, ?_⟩
      · conv_lhs => rw [htext, List.append_assoc]
        rw [List.singleton_append, List.splitOn_append_cons_self, hlines]
      · simp [length_splitOn]
      · rw [sum_length_splitOn, List.length_append, List.length_singleton]
  rw [hsplit, ← hlength]
  refine ⟨?_, b ++ line, ?_, by simp⟩
  · rw [List.take_left, hsum, hposition]
  · rw [List.getElem?_append_right (Nat.le_refl _), Nat.sub_self]
    rfl

end Located

/-! ## What is open at the end of a text -/

namespace Lexing

/-- A pass that does not fail reads the whole text. -/
theorem unread_eq_nil {s : State} {past rest : Text} {position : Nat}
    (h : (passFrom s past rest position).fault = none) :
    (passFrom s past rest position).unread = [] := by
  fun_induction passFrom s past rest position with
  | case1 => rfl
  | case2 => cases h
  | case3 s past position c r k s' hstep p m ih => exact ih h

/-- At the end of a text a line comment is left for the code around it. -/
theorem State.Coherent.stack_finish {s : State} (h : s.Coherent) :
    s.finish.1.opened = s.opened ∧
      (s.stack = s.finish.1.stack ∨ (s.finish.1.inCode = true ∧
        ∃ start, s.stack = (.lineComment, start) :: s.finish.1.stack)) := by
  simp only [State.finish]
  split
  · rename_i hline
    have hout : s.inCode = false := by rw [State.inCode, hline]; rfl
    have hleave := State.stack_leave (h.enclosing_ne_nil (Coherent.ne_normal_of_inCode hout))
    refine ⟨State.opened_leave s, .inr ⟨h.inCode_leave hout, s.contextStart, ?_⟩⟩
    rw [hleave, State.stack, hline]
    rfl
  · exact ⟨rfl, .inl rfl⟩

/-- The fault at the end of a text, read off the state behind a last line comment. -/
theorem State.fault_finish_eq (s : State) :
    s.finish.2 = match s.finish.1.context with
      | .normal | .lineComment =>
        s.finish.1.opened.head?.map fun (b, position) => ⟨.unclosed b, position⟩
      | .blockComment => some ⟨.unterminatedComment, s.finish.1.contextStart⟩
      | .singleQuote | .doubleQuote => some ⟨.unterminatedString, s.finish.1.contextStart⟩
      | .template => some ⟨.unterminatedTemplate, s.finish.1.contextStart⟩
      | .templateExpr => some ⟨.unterminatedTemplate,
          ((s.finish.1.enclosing.find? (·.1 == .template)).map (·.2)).getD
            s.finish.1.contextStart⟩ :=
  rfl

/-- A comment or a string is not left at the end of the text. -/
theorem State.Coherent.head?_finish {s : State} (h : s.Coherent) {context : Context}
    (hctx : s.finish.1.context = context) (hout : s.finish.1.inCode = false) :
    s.stack.head? = some (context, s.finish.1.contextStart) := by
  rcases h.stack_finish.2 with hsame | ⟨hin, -⟩
  · rw [hsame, ← hctx]
    rfl
  · rw [hout] at hin
    cases hin

/-- In an expression of a template at the end of the text, the template is the innermost that is
open. -/
theorem State.Coherent.exists_template_finish {s : State} (h : s.Coherent)
    (hctx : s.finish.1.context = .templateExpr) :
    ∃ start others above, s.finish.1.enclosing = (.template, start) :: others ∧
      s.stack = above ++ (.template, start) :: others ∧ ∀ e ∈ above, e.1 ≠ .template := by
  obtain ⟨start, e, es, hbelow⟩ := State.enclosing_of_templateExpr h.finish hctx
  have hinner : s.finish.1.stack =
      [(.templateExpr, s.finish.1.contextStart)] ++ (.template, start) :: e :: es := by
    rw [State.stack, hctx, hbelow]
    rfl
  rcases h.stack_finish.2 with hsame | ⟨-, line, hline⟩
  · exact ⟨start, e :: es, _, hbelow, hsame.trans hinner, by simp⟩
  · exact ⟨start, e :: es, _ :: _, hbelow, hline.trans (congrArg _ hinner), by simp⟩

/-- **What a fault at the end of a text is about**: the comment or the string that the pass is in,
the innermost template literal that is open, or the last bracket that is. -/
theorem State.Coherent.fault_finish {s : State} (h : s.Coherent) {f : Fault}
    (hf : s.finish.2 = some f) :
    match f.reason with
    | .unterminatedComment => s.stack.head? = some (.blockComment, f.position)
    | .unterminatedString => ∃ literal, (literal = .singleQuote ∨ literal = .doubleQuote) ∧
        s.stack.head? = some (literal, f.position)
    | .unterminatedTemplate => ∃ above below,
        s.stack = above ++ (.template, f.position) :: below ∧ ∀ e ∈ above, e.1 ≠ .template
    | .unclosed b => s.opened.head? = some (b, f.position) := by
  rw [State.fault_finish_eq] at hf
  cases hctx : s.finish.1.context with
  | normal | lineComment =>
    simp only [hctx, Option.map_eq_some_iff] at hf
    obtain ⟨⟨b, start⟩, hlast, rfl⟩ := hf
    rw [h.stack_finish.1] at hlast
    exact hlast
  | blockComment =>
    simp only [hctx, Option.some.injEq] at hf
    subst hf
    exact h.head?_finish hctx (by rw [State.inCode, hctx]; rfl)
  | singleQuote =>
    simp only [hctx, Option.some.injEq] at hf
    subst hf
    exact ⟨_, .inl rfl, h.head?_finish hctx (by rw [State.inCode, hctx]; rfl)⟩
  | doubleQuote =>
    simp only [hctx, Option.some.injEq] at hf
    subst hf
    exact ⟨_, .inr rfl, h.head?_finish hctx (by rw [State.inCode, hctx]; rfl)⟩
  | template =>
    simp only [hctx, Option.some.injEq] at hf
    subst hf
    obtain ⟨below, hbelow⟩ :=
      List.head?_eq_some_iff.1 (h.head?_finish hctx (by rw [State.inCode, hctx]; rfl))
    exact ⟨[], below, hbelow, by simp⟩
  | templateExpr =>
    obtain ⟨start, others, above, hbelow, hstack, habove⟩ := h.exists_template_finish hctx
    simp only [hctx, hbelow, Option.some.injEq] at hf
    subst hf
    exact ⟨above, others, hstack, habove⟩

end Lexing

/-! ## The opening that a fault points at -/

/-- In the pass over `text`, the step `m` with the steps `behind` it opened what the reason says is
not closed. -/
def Lexing.Reason.OpenedBy (text : Text) (m : Moment) (behind : List Moment) : Reason → Prop
  -- the pass is in the string where it ends, which is at a newline or at the end of the text
  | unterminatedString => ∃ quote literal,
      (quote = '\'' ∧ literal = .singleQuote ∨ quote = '"' ∧ literal = .doubleQuote) ∧
        text[m.index]? = some quote ∧ m.Enters literal ∧ m.StaysOpen behind ∧
          (pass text).state.stack = m.after.stack ∧
            ((pass text).unread = [] ∨ (pass text).unread.head? = some '\n')
  -- every template literal that is entered behind the step is left again
  | unterminatedTemplate =>
      text[m.index]? = some '\x60' ∧ m.Enters .template ∧ m.StaysOpen behind ∧
        (pass text).unread = [] ∧ ∀ between n later, behind = between ++ n :: later →
          n.Enters .template → ¬ n.StaysOpen later
  | unterminatedComment =>
      "/*".toList <+: text.drop m.index ∧ m.Enters .blockComment ∧ m.StaysOpen behind ∧
        (pass text).state.stack = m.after.stack ∧ (pass text).unread = []
  -- every bracket that is opened behind the step is closed again
  | unclosed b =>
      text[m.index]? = some b.opener ∧ m.Opens b ∧ m.NeverCloses b behind ∧
        (pass text).unread = [] ∧ ∀ between n later b', behind = between ++ n :: later →
          n.Opens b' → ¬ n.NeverCloses b' later

namespace Lexing

theorem Moment.Recorded.getElem?_index {text : Text} {m : Moment} (h : m.Recorded text) {c : Char}
    (hread : m.read = [c]) : text[m.index]? = some c := by
  obtain ⟨rest, hrest⟩ := h.read_prefix
  rw [hread] at hrest
  rw [← List.head?_drop, ← hrest]
  rfl

/-- Where the construct that the pass is in at its end began. -/
theorem exists_enters_innermost {text : Text} {context : Context} {start : Nat}
    (hcontext : context ≠ .normal)
    (h : (pass text).state.stack.head? = some (context, start)) :
    ∃ front m behind, (pass text).moments = front ++ m :: behind ∧ m.index = start ∧
      m.Recorded text ∧ m.Enters context ∧ m.StaysOpen behind ∧
        (pass text).state.stack = m.after.stack := by
  obtain ⟨below, hstack⟩ := List.head?_eq_some_iff.1 h
  have hsuffix : (context, start) :: below <:+ (pass text).state.stack := ⟨[], hstack.symm⟩
  obtain ⟨front, m, behind, hsplit, hindex, henters, hafter, hstays⟩ :=
    exists_enters hcontext hsuffix
  have hm := (trace_pass text).recorded m (by simp [hsplit])
  exact ⟨front, m, behind, hsplit, hindex, hm, henters, hstays, hstack.trans hafter.symm⟩

/-- Where the innermost open template literal began: the ones entered later were left again. -/
theorem exists_enters_template {text : Text} {start : Nat} {above below : List (Context × Nat)}
    (hstack : (pass text).state.stack = above ++ (.template, start) :: below)
    (habove : ∀ e ∈ above, e.1 ≠ .template) :
    ∃ front m behind, (pass text).moments = front ++ m :: behind ∧ m.index = start ∧
      m.Recorded text ∧ m.Enters .template ∧ m.StaysOpen behind ∧
        ∀ between n later, behind = between ++ n :: later → n.Enters .template →
          ¬ n.StaysOpen later := by
  have hsuffix : (.template, start) :: below <:+ (pass text).state.stack := ⟨above, hstack.symm⟩
  obtain ⟨front, m, behind, hsplit, hindex, henters, hafter, hstays⟩ :=
    exists_enters (by decide) hsuffix
  have htrace := trace_pass text
  rw [hsplit] at htrace
  obtain ⟨-, hm, hbehind⟩ := htrace.split
  refine ⟨front, m, behind, hsplit, hindex, hm, henters, hstays, ?_⟩
  rintro between n later rfl hn hlater
  obtain ⟨hbetween, -, hend⟩ := hbehind.split
  -- the literal that `n` enters would stand above the one that `m` enters
  obtain ⟨inner, hinner⟩ : m.after.stack <:+ n.before.stack :=
    hbetween.last (P := fun s => m.after.stack <:+ s.stack) (List.suffix_refl _)
      fun k hk => hstays k (List.mem_append_left _ hk)
  obtain ⟨outer, houter⟩ : n.after.stack <:+ (pass text).state.stack :=
    hend.last (P := fun s => n.after.stack <:+ s.stack) (List.suffix_refl _) hlater
  have hover : above ++ (.template, start) :: below =
      (outer ++ (.template, n.index) :: inner) ++ (.template, start) :: below := by
    rw [← hstack, ← houter, hn.2, ← hinner, hafter]
    simp
  have hmem : (Context.template, n.index) ∈ above := by
    rw [List.append_cancel_right hover]
    simp
  exact habove _ hmem rfl

/-- **What the pass finds wrong was opened where it says.** -/
theorem exists_opening_of_verdict {text : Text} {f : Fault} (h : (pass text).verdict = some f) :
    ∃ front m behind, (pass text).moments = front ++ m :: behind ∧ m.index = f.position ∧
      f.reason.OpenedBy text m behind := by
  have hcoherent := coherent_pass text
  -- a string that the pass is in when it ends, at a newline or at the end of the text
  have hstring : ∀ literal start, (literal = .singleQuote ∨ literal = .doubleQuote) →
      (pass text).state.stack.head? = some (literal, start) →
      ((pass text).unread = [] ∨ (pass text).unread.head? = some '\n') →
      ∃ front m behind, (pass text).moments = front ++ m :: behind ∧ m.index = start ∧
        Reason.unterminatedString.OpenedBy text m behind := by
    intro literal start hliteral hhead hunread
    obtain ⟨front, m, behind, hsplit, hindex, hm, henters, hstays, hend⟩ :=
      exists_enters_innermost (by rcases hliteral with rfl | rfl <;> decide) hhead
    refine ⟨front, m, behind, hsplit, hindex, ?_⟩
    rcases hliteral with rfl | rfl
    · exact ⟨'\'', _, .inl ⟨rfl, rfl⟩, hm.getElem?_index henters.1, henters, hstays, hend, hunread⟩
    · exact ⟨'"', _, .inr ⟨rfl, rfl⟩, hm.getElem?_index henters.1, henters, hstays, hend, hunread⟩
  cases hfault : (pass text).fault with
  | some fault =>
    rw [Pass.verdict, hfault, Option.some_or, Option.some.injEq] at h
    subst h
    obtain ⟨-, past, c, rest, position, hunread, hstep⟩ := State.passFrom_fault hfault
    obtain ⟨hliteral, rfl, rfl⟩ := State.step_eq_error hstep
    refine hstring _ _ hliteral rfl (.inr ?_)
    exact congrArg List.head? hunread
  | none =>
    have hunread : (pass text).unread = [] := unread_eq_nil hfault
    rw [Pass.verdict, hfault, Option.none_or] at h
    have hopen := hcoherent.fault_finish h
    obtain ⟨reason, start⟩ := f
    cases reason with
    | unterminatedComment =>
      obtain ⟨front, m, behind, hsplit, hindex, hm, henters, hstays, hend⟩ :=
        exists_enters_innermost (by decide) hopen
      have hread := hm.read_prefix
      rw [henters.1] at hread
      exact ⟨front, m, behind, hsplit, hindex, hread, henters, hstays, hend, hunread⟩
    | unterminatedString =>
      obtain ⟨literal, hliteral, hhead⟩ := hopen
      exact hstring literal start hliteral hhead (.inl hunread)
    | unterminatedTemplate =>
      obtain ⟨above, below, hstack, habove⟩ := hopen
      obtain ⟨front, m, behind, hsplit, hindex, hm, henters, hstays, hinner⟩ :=
        exists_enters_template hstack habove
      exact ⟨front, m, behind, hsplit, hindex, hm.getElem?_index henters.1, henters, hstays,
        hunread, hinner⟩
    | unclosed b =>
      obtain ⟨others, hothers⟩ := List.head?_eq_some_iff.1 hopen
      obtain ⟨front, m, behind, hsplit, hindex, hopens, hnever, hlast⟩ := exists_opens hothers
      have hm := (trace_pass text).recorded m (by simp [hsplit])
      exact ⟨front, m, behind, hsplit, hindex, hm.getElem?_index hopens.1, hopens, hnever,
        hunread, hlast⟩

theorem Reason.OpenedBy.lt_length {text : Text} {m : Moment} {behind : List Moment} {r : Reason}
    (h : r.OpenedBy text m behind) : m.index < text.length := by
  have hchar : ∀ {c : Char}, text[m.index]? = some c → m.index < text.length :=
    fun hc => (List.getElem?_eq_some_iff.1 hc).1
  cases r with
  | unterminatedString =>
    obtain ⟨quote, literal, -, hquote, -⟩ := h
    exact hchar hquote
  | unterminatedTemplate => exact hchar h.1
  | unterminatedComment =>
    have hlength := h.1.length_le
    rw [List.length_drop] at hlength
    simp at hlength
    omega
  | unclosed b => exact hchar h.1

end Lexing

/-- **A fault points at the delimiter that opened the construct**: for a string, at the quote that
opened the string in which the pass ended; for a template literal, at the backtick of the innermost
one that is open; for a block comment, at its two opening characters; and for a bracket, at the last
one opened that is never closed.  Line and column say the same as the offset. -/
theorem opening_of_ofSource_error {text : Text} {e : ScanError}
    (h : Outline.ofSource text = .error e) :
    (∃ front m behind, (pass text).moments = front ++ m :: behind ∧ m.index = e.position ∧
        e.reason.OpenedBy text m behind) ∧
      1 ≤ e.line ∧ 1 ≤ e.column ∧
      e.position = Located.lineStart text e.line + (e.column - 1) ∧
      ∃ line, (text.splitOn '\n')[e.line - 1]? = some line ∧ e.column ≤ line.length + 1 := by
  have hending := (ending_segments (l := .module) (by decide) text).1
  cases hverdict : (pass text).verdict with
  | none => simp [Outline.ofSource, hending, hverdict] at h
  | some f =>
    have hlocate : f.locate text = e := by
      simpa [Outline.ofSource, hending, hverdict] using h
    obtain ⟨front, m, behind, hsplit, hindex, hopened⟩ := exists_opening_of_verdict hverdict
    have hlt := hopened.lt_length
    rw [hindex] at hlt
    have hclamp : Located.clamp text f.position = f.position :=
      Nat.min_eq_left (Nat.le_of_lt hlt)
    subst hlocate
    simp only [Fault.locate, Located.locate, hclamp]
    obtain ⟨hposition, hline⟩ := Located.position_eq (Nat.le_of_lt hlt)
    exact ⟨⟨front, m, behind, hsplit, hindex, hopened⟩, Nat.le_add_left 1 _, Nat.le_add_left 1 _,
      hposition, hline⟩

/-- The text ends in a line comment in a substitution of the second of two nested literals, behind
one that was closed: the fault is at the backtick of the innermost open one. -/
theorem opening_of_ofSource_error_nested :
    ∃ text : Text, ∃ e : ScanError,
      text = "a\n\x60x$\x7b \x60y\x60 + \x60z$\x7b 1 // \x60".toList ∧
        e = ⟨.unterminatedTemplate, 13, 2, 12⟩ ∧ Outline.ofSource text = .error e ∧
        (∃ front m behind, (pass text).moments = front ++ m :: behind ∧ m.index = 13 ∧
          Reason.unterminatedTemplate.OpenedBy text m behind) ∧
        13 = Located.lineStart text 2 + 11 := by
  have herror : Outline.ofSource "a\n\x60x$\x7b \x60y\x60 + \x60z$\x7b 1 // \x60".toList =
      .error ⟨.unterminatedTemplate, 13, 2, 12⟩ := by decide +kernel
  obtain ⟨hopened, -, -, hposition, -⟩ := opening_of_ofSource_error herror
  exact ⟨_, _, rfl, rfl, herror, hopened, hposition⟩

end ModuleSurface
