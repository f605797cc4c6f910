import ModuleSurface.Proofs.Lexing.Run
import ModuleSurface.Proofs.Text.Strip
import ModuleSurface.Statement.Segment

/-!
# Segmentation in step with the plain pass

Cutting a text into segments skips white space, separators and comments by rules of its own and
reads everything else by lexical steps.  `ending_segmentsFrom` says that it ends as the plain pass
over the same text does: with the same fault at the same offset, or with none.
-/

namespace ModuleSurface.Text

theorem drop_length_takeWhile (p : Char → Bool) (t : Text) :
    t.drop (t.takeWhile p).length = t.dropWhile p := by
  have h : (t.takeWhile p ++ t.dropWhile p).drop (t.takeWhile p).length = t.dropWhile p :=
    List.drop_left
  rwa [List.takeWhile_append_dropWhile] at h

end ModuleSurface.Text

namespace ModuleSurface.Lexing

/-- What is wrong with a text that was passed over: the fault that ended the pass, or else what is
still open at the end of the text. -/
def Pass.verdict (p : Pass) : Option Fault :=
  p.fault.or p.state.finish.2

/-! ## Plain characters -/

/-- The characters that are never plain code. -/
def specials : Text :=
  ['/', '\'', '"', '\x60', '{', '}', '[', ']', '(', ')']

/-- A character that neither begins nor ends anything. -/
def Plain (c : Char) : Prop :=
  c ∉ specials

instance : DecidablePred Plain :=
  fun c => inferInstanceAs (Decidable (c ∉ specials))

theorem plain_of_pred {p : Char → Bool} {c : Char} (hc : p c = true)
    (hp : ∀ d ∈ specials, p d = false) : Plain c := by
  intro h
  rw [hp c h] at hc
  cases hc

theorem plain_of_isBlank {c : Char} (h : Text.isBlank c = true) : Plain c :=
  plain_of_pred h (by decide)

theorem plain_of_isIdentChar {c : Char} (h : Text.isIdentChar c = true) : Plain c :=
  plain_of_pred h (by decide)

/-- A plain character of code is read alone and changes nothing. -/
theorem State.step_of_plain {s : State} (hs : s.inCode = true) {c : Char} (hc : Plain c)
    (past rest : Text) (position : Nat) : s.step past c rest position = .ok (1, s) := by
  simp only [Plain, specials, List.mem_cons, List.not_mem_nil, or_false, not_or] at hc
  obtain ⟨h₁, h₂, h₃, h₄, h₅, h₆, h₇, h₈, h₉, h₁₀⟩ := hc
  rw [step_of_inCode hs]
  simp [stepCode, Context.ofQuote?, RegexLiteral.width?, Bracket.ofOpener?, Bracket.ofCloser?,
    closesExpr, *]

end ModuleSurface.Lexing

namespace ModuleSurface.Statement

open ModuleSurface.Lexing
open ModuleSurface.Lexing.Cursor

/-! ## Agreement -/

/-- A segmentation ends as a pass does. -/
def Ending.Agrees (e : Ending) (p : Pass) : Prop :=
  e.fault? = p.verdict ∧ ∀ f, e = .faulty f → p.fault = some f

/-- What holds behind a run holds in front of it. -/
theorem Ending.Agrees.of_run {e : Ending} {p q : Cursor} {ps : List Cursor}
    (h : e.Agrees q.pass) (hrun : Run p ps q) : e.Agrees p.pass := by
  obtain ⟨hfault, hstate⟩ := hrun.pass_eq
  obtain ⟨hverdict, hfaulty⟩ := h
  refine ⟨?_, fun f hf => hfault.trans (hfaulty f hf)⟩
  rw [hverdict, Pass.verdict, Pass.verdict, hfault, hstate]

theorem inCode_of_atTopLevel {s : State} (h : s.atTopLevel = true) : s.inCode = true := by
  simp only [State.atTopLevel, Bool.and_eq_true, beq_iff_eq] at h
  rw [State.inCode, h.1]
  rfl

/-- A line comment at the end of the text leaves the verdict as it is. -/
theorem finish_enter_lineComment {s : State} (hs : s.inCode = true) (start : Nat) :
    (s.enter .lineComment start).finish = s.finish := by
  have hne : s.context ≠ .lineComment := by
    intro h
    rw [State.inCode, h] at hs
    cases hs
  simp only [State.finish, if_neg hne]
  rfl

/-- A line comment between two segments is neutral. -/
theorem Ending.Agrees.of_line {e : Ending} {s : State} (hs : s.inCode = true) {past t line : Text}
    {position : Nat} (hline : line = '/' :: '/' :: t.takeWhile (· != '\n'))
    (h : e.Agrees (passFrom s (line.reverse ++ past) (('/' :: '/' :: t).drop line.length)
      (position + line.length))) :
    e.Agrees (passFrom s past ('/' :: '/' :: t) position) := by
  have hpast : line.reverse ++ past =
      (t.takeWhile (· != '\n')).reverse ++ '/' :: '/' :: past := by
    simp [hline]
  have hrest : ('/' :: '/' :: t).drop line.length = t.dropWhile (· != '\n') := by
    rw [hline]
    exact Text.drop_length_takeWhile _ t
  have hposition : position + line.length = position + 2 + (t.takeWhile (· != '\n')).length := by
    rw [hline, List.length_cons, List.length_cons]
    omega
  rw [hpast, hrest, hposition] at h
  have hu : '\n' ∉ t.takeWhile (· != '\n') := by
    intro hmem
    simpa using List.mem_takeWhile_imp hmem
  have hsplit := List.takeWhile_append_dropWhile (p := (· != '\n')) (l := t)
  cases hd : t.dropWhile (· != '\n') with
  | nil =>
    rw [hd] at h hsplit
    obtain ⟨ps, hrun⟩ := Run.line hs past _ [] position hu (.inl rfl)
    rw [hsplit] at hrun
    refine of_run ?_ hrun
    rw [passFrom] at h
    rw [Cursor.pass, passFrom]
    exact ⟨by rw [h.1, Pass.verdict, Pass.verdict, finish_enter_lineComment hs], h.2⟩
  | cons c rest =>
    have hc : c = '\n' := by
      have hhead := List.head?_dropWhile_not (· != '\n') t
      rw [hd] at hhead
      simpa using hhead
    subst hc
    rw [hd] at h hsplit
    obtain ⟨ps, hrun⟩ := Run.line_newline hs past _ rest position hu
    rw [hsplit] at hrun
    exact of_run h hrun

/-- A block comment between two segments is neutral. -/
theorem Ending.Agrees.of_block {e : Ending} {s : State} (hs : s.inCode = true) {past t : Text}
    {position n : Nat} (hn : Text.find? t "*/".toList = some n)
    (h : e.Agrees (passFrom s ((('/' :: '*' :: t).take (n + 4)).reverse ++ past)
      (('/' :: '*' :: t).drop (n + 4)) (position + (n + 4)))) :
    e.Agrees (passFrom s past ('/' :: '*' :: t) position) := by
  have hpast : (('/' :: '*' :: t).take (n + 4)).reverse ++ past =
      (t.take (n + 2)).reverse ++ '*' :: '/' :: past := by
    simp
  rw [hpast, show position + (n + 4) = position + 2 + (n + 2) by omega] at h
  obtain ⟨ps, hrun⟩ := Run.block hs past t position n hn
  exact of_run h hrun

/-- A block comment that does not end is what is wrong with the text. -/
theorem agrees_openComment {s : State} (hs : s.inCode = true) {past t : Text} {position : Nat}
    (hn : Text.find? t "*/".toList = none) :
    (Ending.openComment position).Agrees (passFrom s past ('/' :: '*' :: t) position) := by
  obtain ⟨ps, past', position', hrun⟩ := Run.block_open hs past t position hn
  refine Ending.Agrees.of_run ?_ hrun
  rw [Cursor.pass, passFrom]
  exact ⟨rfl, fun f hf => by cases hf⟩

theorem agrees_faulty {s : State} {past : Text} {c : Char} {r : Text} {position : Nat} {f : Fault}
    (hstep : s.step past c r position = .error f) :
    (Ending.faulty f).Agrees (passFrom s past (c :: r) position) := by
  rw [passFrom]
  split
  · rename_i f' hf
    rw [hstep] at hf
    cases hf
    exact ⟨rfl, fun g hg => by cases hg; rfl⟩
  · rename_i hk
    rw [hstep] at hk
    cases hk

/-- A text that begins with the delimiter of a comment. -/
theorem eq_of_delimiter (d : Char) {c : Char} {r : Text}
    (h : ['/', d].isPrefixOf (c :: r) = true) : c = '/' ∧ ∃ t, r = d :: t := by
  obtain ⟨t, ht⟩ := List.isPrefixOf_iff_prefix.1 h
  exact ⟨(List.cons.inj ht).1.symm, t, (List.cons.inj ht).2.symm⟩

/-- **A segmentation ends as the plain pass does.** -/
theorem ending_segmentsFrom {l : Layout} (hl : ∀ c ∈ l.separators, Plain c) (text : Text)
    {s : State} (hs : s.Coherent) {current : Option Reading}
    (htop : current = none → s.atTopLevel = true) (pending : Option Text) (leading : Bool)
    (past rest : Text) (position : Nat) :
    (segmentsFrom l text s current pending leading past rest position).ending.Agrees
      (passFrom s past rest position) := by
  fun_induction segmentsFrom l text s current pending leading past rest position with
  | case1 s current pending leading past position =>
    rw [passFrom]
    exact ⟨rfl, fun f hf => by cases hf⟩
  | case2 s current pending leading past position c r hskip ih =>
    simp only [Bool.and_eq_true, Option.isNone_iff_eq_none, Bool.or_eq_true] at hskip
    have hplain : Plain c := by
      rcases hskip.2 with hc | hc
      · exact plain_of_isBlank hc
      · exact hl c (List.contains_iff_mem.1 hc)
    have hstep := State.step_of_plain (inCode_of_atTopLevel (htop hskip.1)) hplain past r position
    exact (ih hs fun _ => htop hskip.1).of_run (.single (.step hstep))
  | case3 s current pending past position c r _ hline line others ih =>
    rw [Bool.and_eq_true, Option.isNone_iff_eq_none] at hline
    obtain ⟨rfl, t, rfl⟩ := eq_of_delimiter '/' hline.2
    exact (ih hs fun _ => htop hline.1).of_line (inCode_of_atTopLevel (htop hline.1)) rfl
  | case4 s current pending leading past position c r _ hline line others hlead ih =>
    rw [Bool.and_eq_true, Option.isNone_iff_eq_none] at hline
    obtain ⟨rfl, t, rfl⟩ := eq_of_delimiter '/' hline.2
    exact (ih hs fun _ => htop hline.1).of_line (inCode_of_atTopLevel (htop hline.1)) rfl
  | case5 s current pending leading past position c r _ _ hblock hfind =>
    rw [Bool.and_eq_true, Option.isNone_iff_eq_none] at hblock
    obtain ⟨rfl, t, rfl⟩ := eq_of_delimiter '*' hblock.2
    exact agrees_openComment (inCode_of_atTopLevel (htop hblock.1)) hfind
  | case6 s current pending leading past position c r _ _ hblock n hfind comment ih =>
    rw [Bool.and_eq_true, Option.isNone_iff_eq_none] at hblock
    obtain ⟨rfl, t, rfl⟩ := eq_of_delimiter '*' hblock.2
    exact (ih hs fun _ => htop hblock.1).of_block (inCode_of_atTopLevel (htop hblock.1)) hfind
  | case7 s current pending leading past position c r _ _ _ f hstep =>
    exact agrees_faulty hstep
  | case8 s current pending leading past position c r _ _ _ first k s' hstep reading past' rest'
      stop? stop hstop ih =>
    refine (ih (hs.step hstep) fun _ => ?_).of_run (.single (.step hstep))
    simp only [stop?] at hstop
    split at hstop
    · rename_i h
      exact (Bool.and_eq_true_iff.1 h).2
    · cases hstop
  | case9 s current pending leading past position c r _ _ _ first k s' hstep reading past' rest'
      stop? hstop ih =>
    exact (ih (hs.step hstep) fun h => by cases h).of_run (.single (.step hstep))

/-- The segmentation of a whole text ends as the pass over it does. -/
theorem ending_segments {l : Layout} (hl : ∀ c ∈ l.separators, Plain c) (text : Text) :
    (segments l text).ending.Agrees (pass text) :=
  ending_segmentsFrom hl text .fresh (fun _ => rfl) none true [] text 0

end ModuleSurface.Statement
