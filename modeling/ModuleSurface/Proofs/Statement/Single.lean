import ModuleSurface.Proofs.Lexing.Phrase
import ModuleSurface.Proofs.Statement.Concatenation
import ModuleSurface.Proofs.Text.Strip

/-!
# A line that is one statement

A text in which no statement can end, and which leads back to the top level, is read as one segment
up to what stands behind it (`segments_of_reads`): a semicolon (`segments_of_semicolon`), or a
newline if the text does not go on in the next line (`segments_of_newline`).  A closed text is such
a text (`segments_of_unbroken`), and a header with brackets behind it does not go on
(`isIncomplete_of_bracketed`).
-/

namespace ModuleSurface.Lexing

open Cursor

/-! ## Comments along a run -/

theorem Cursor.Next.moments_eq {s s' : State} {past : Text} {c : Char} {rest : Text}
    {position k : Nat} (h : s.step past c rest position = .ok (k, s')) :
    Cursor.pass ⟨s, past, c :: rest, position⟩ =
      let p := Cursor.pass (advance ⟨s, past, c :: rest, position⟩ k s')
      { p with moments := ⟨position, position + k, (c :: rest).take k, s, s'⟩ :: p.moments } := by
  unfold Cursor.pass
  rw [passFrom]
  split
  · rename_i hf
    rw [h] at hf
    cases hf
  · rename_i hk
    rw [h] at hk
    cases hk
    rfl

/-- A pass goes through what a run goes through, and then through what follows. -/
theorem Cursor.Run.moments_eq {p q : Cursor} {ps : List Cursor} (h : Run p ps q) :
    ∃ ms, p.pass.moments = ms ++ q.pass.moments ∧ p.pass.unread = q.pass.unread := by
  induction h with
  | refl => exact ⟨[], rfl, rfl⟩
  | cons hnext _ ih =>
    obtain ⟨ms, hms, hunread⟩ := ih
    cases hnext with
    | step hstep =>
      rw [Next.moments_eq hstep]
      exact ⟨_ :: ms, congrArg (_ :: ·) hms, hunread⟩

/-- What a pass keeps when comments are taken out. -/
def Pass.code (p : Pass) : Text :=
  (p.moments.filter fun m => !m.before.context.isComment && !m.after.context.isComment).flatMap
    (·.read) ++ p.unread

theorem stripComments_eq_code (text : Text) :
    stripComments text = (Cursor.pass ⟨{}, [], text, 0⟩).code := rfl

/-- What a run keeps, it keeps in front of what follows. -/
theorem Cursor.Run.exists_code {p q : Cursor} {ps : List Cursor} (h : Run p ps q) :
    ∃ front, p.pass.code = front ++ q.pass.code := by
  obtain ⟨ms, hms, hunread⟩ := h.moments_eq
  simp only [Pass.code, hms, hunread, List.filter_append, List.flatMap_append, List.append_assoc]
  exact ⟨_, rfl⟩

/-- A step outside comments keeps what it reads. -/
theorem Cursor.code_of_uncommented {s s' : State} {past : Text} {c : Char} {rest : Text}
    {position k : Nat} (h : s.step past c rest position = .ok (k, s'))
    (hs : s.context.isComment = false) (hs' : s'.context.isComment = false) :
    (Cursor.pass ⟨s, past, c :: rest, position⟩).code =
      (c :: rest).take k ++ (Cursor.pass (advance ⟨s, past, c :: rest, position⟩ k s')).code := by
  rw [Next.moments_eq h]
  simp [Pass.code, hs, hs']

theorem State.isComment_of_inCode {s : State} (hs : s.inCode = true) :
    s.context.isComment = false := by
  rw [State.inCode] at hs
  cases hctx : s.context <;> rw [hctx] at hs <;> first | rfl | cases hs

/-- A step from code to code keeps what it reads. -/
theorem Cursor.code_of_step {s s' : State} {past : Text} {c : Char} {rest : Text}
    {position k : Nat} (h : s.step past c rest position = .ok (k, s')) (hs : s.inCode = true)
    (hs' : s'.inCode = true) :
    (Cursor.pass ⟨s, past, c :: rest, position⟩).code =
      (c :: rest).take k ++ (Cursor.pass (advance ⟨s, past, c :: rest, position⟩ k s')).code :=
  code_of_uncommented h (State.isComment_of_inCode hs) (State.isComment_of_inCode hs')

/-- A plain character at the start of a text is in no comment. -/
theorem exists_stripComments_cons {c : Char} (hc : Plain c) (t : Text) :
    ∃ behind, stripComments (c :: t) = c :: behind := by
  have hstep : State.step {} [] c t 0 = .ok (1, {}) := State.step_of_plain rfl hc [] t 0
  rw [stripComments_eq_code, code_of_step hstep rfl rfl]
  exact ⟨_, rfl⟩

/-- A closer at the end of a text is in no comment. -/
theorem exists_stripComments_concat {text : Text} {v : Visit} (hv : v ∈ visits text)
    {b : Bracket} (hchar : v.char = b.closer) (hrest : v.rest = []) :
    ∃ front, stripComments text = front ++ [b.closer] := by
  obtain ⟨ps, hrun, hreads, -⟩ := exists_run_of_mem_visits hv
  obtain ⟨hcode, -, -, hx⟩ := readsCode_iff.1 hreads
  rw [hchar, hrest] at hrun
  rw [hchar] at hx
  obtain ⟨front, hfront⟩ := hrun.exists_code
  have hcode' : (v.state.closeBracket b).inCode = true := by
    unfold State.closeBracket
    split
    · exact hcode
    · cases b <;> exact hcode
  refine ⟨front, ?_⟩
  rw [stripComments_eq_code, hfront, code_of_step (State.step_closer hcode hx _ _ _) hcode hcode']
  simp [advance, Cursor.pass, passFrom, Pass.code]

end ModuleSurface.Lexing

namespace ModuleSurface.Statement

open ModuleSurface.Lexing
open ModuleSurface.Lexing.Cursor

/-! ## One segment -/

variable {text : Text}

/-- Outside everything, the visit is neither a semicolon nor a newline at which a statement ends. -/
def Unended (v : Visit) : Prop :=
  v.state.atTopLevel = true → v.char ≠ ';' ∧
    (v.char = '\n' → endsBefore v.past.reverse v.rest = false)

instance : DecidablePred Unended := fun v =>
  inferInstanceAs (Decidable (v.state.atTopLevel = true → _ ∧ (_ → _)))

theorem endsBefore_of_incomplete {t : Text} (h : isIncomplete t = true) (rest : Text) :
    endsBefore t rest = false := by
  simp [endsBefore, h]

theorem stopAt_newline {s s' : State} {start position k : Nat}
    (h : endsBefore (Text.slice text start position) (text.drop (position + 1)) = false) :
    stopAt .module text s s' start position k '\n' = none := by
  unfold stopAt
  split
  · simp [Layout.stop?, h]
  · rfl

/-- What ends a statement is visited, so a unit that is not visited as such ends none. -/
theorem goesOn_module {p : Cursor} {start : Nat}
    (h : ∀ v, p.visit? = some v → v.state.atTopLevel = true → v.char ≠ ';' ∧
      (v.char = '\n' →
        endsBefore (Text.slice text start p.position) (text.drop (p.position + 1)) = false)) :
    GoesOn .module text start p := by
  intro c r k s' hrest hstep
  obtain ⟨s, past, rest, position⟩ := p
  subst hrest
  cases hstop : stopAt .module text s s' start position k c with
  | none => rfl
  | some stop =>
    obtain ⟨htop, -, -, hc⟩ := stopAt_module hstep hstop
    have hplain : Plain c := by
      rcases hc with ⟨rfl, -⟩ | ⟨rfl, -⟩ <;> decide
    have hnot := h _ (visit?_of_plain (inCode_of_atTopLevel htop) hplain past r position) htop
    rcases hc with ⟨hc, -⟩ | ⟨rfl, -⟩
    · exact absurd hc hnot.1
    · rw [stopAt_newline (hnot.2 rfl)] at hstop
      cases hstop

/-- A text that leads back to the top level and in which no statement ends is read as one. -/
theorem segments_of_reads {c : Char} {r more : Text} {vs : List Visit}
    (h : Reads {} [] (c :: r) more 0 vs) (hbegins : Begins .module none c (r ++ more))
    (hvs : ∀ v ∈ vs, Unended v) :
    segments .module (c :: r ++ more) =
      segmentsFrom .module (c :: r ++ more) {} (some ⟨0, none, []⟩) none false (c :: r).reverse more
        (c :: r).length := by
  have hvisits : visits (c :: r ++ more) = vs ++ _ := h.visits_eq
  obtain ⟨ps, hrun, rfl⟩ := h
  have hgoes : ∀ p ∈ ps, GoesOn .module (c :: r ++ more) 0 p := by
    intro p hp
    refine goesOn_module fun v hv htop => ?_
    have hmem : v ∈ ps.filterMap visit? := List.mem_filterMap.2 ⟨p, hp, hv⟩
    obtain ⟨hends, hline⟩ := hvs v hmem htop
    obtain ⟨htext, hindex⟩ := placed_of_mem_visits (hvisits ▸ List.mem_append_left _ hmem)
    obtain ⟨rfl, -⟩ := visit?_eq_some hv
    have hslice : Text.slice (c :: r ++ more) 0 v.index = v.past.reverse := by
      rw [Text.slice, List.drop_zero, ← htext, hindex, List.take_left' List.length_reverse]
    have hdrop : (c :: r ++ more).drop (v.index + 1) = v.rest := by
      rw [← htext, hindex, List.append_cons]
      exact List.drop_left' (by simp)
    rw [hslice, hdrop]
    exact ⟨hends, hline⟩
  have hne : more ≠ c :: (r ++ more) := by
    intro h
    have hlength := congrArg List.length h
    simp at hlength
    omega
  rw [List.cons_append] at hrun hgoes ⊢
  rw [segments, segmentsFrom_run_start hrun hne (Nat.le_refl _) hgoes hbegins]
  simp

/-- A statement that is complete when its line ends, at the end of a text. -/
theorem segments_of_newline {c : Char} {r : Text} {vs : List Visit}
    (h : Reads {} [] (c :: r) ['\n'] 0 vs) (hbegins : Begins .module none c (r ++ ['\n']))
    (hvs : ∀ v ∈ vs, Unended v) (hcomplete : isIncomplete (c :: r) = false) :
    segments .module (c :: r ++ ['\n']) = ⟨[.segment ⟨0, c :: r, none, []⟩], .finished {}⟩ := by
  have hslice : Text.slice (c :: r ++ ['\n']) 0 (c :: r).length = c :: r := by
    rw [Text.slice, List.take_left, List.drop_zero]
  have hdrop : (c :: r ++ ['\n']).drop ((c :: r).length + 1) = [] := by simp
  have hends : endsBefore (Text.slice (c :: r ++ ['\n']) 0 (c :: r).length)
      ((c :: r ++ ['\n']).drop ((c :: r).length + 1)) = true := by
    rw [hslice, hdrop, endsBefore, hcomplete]
    rfl
  rw [segments_of_reads h hbegins hvs, segmentsFrom_newline ⟨0, none, []⟩ rfl hends,
    segmentsFrom_nil, Reading.close, hslice]
  rfl

/-- A statement with a semicolon behind it, and only white space behind that. -/
theorem segments_of_semicolon {c : Char} {r more : Text} {vs : List Visit}
    (h : Reads {} [] (c :: r) (';' :: more) 0 vs)
    (hbegins : Begins .module none c (r ++ ';' :: more)) (hvs : ∀ v ∈ vs, Unended v)
    (hmore : ∀ d ∈ more, Text.isBlank d = true) :
    segments .module (c :: r ++ ';' :: more) =
      ⟨[.segment ⟨0, c :: r ++ [';'], none, []⟩], .finished {}⟩ := by
  have hslice : Text.slice (c :: r ++ ';' :: more) 0 ((c :: r).length + 1) = c :: r ++ [';'] := by
    rw [Text.slice, List.drop_zero, List.append_cons]
    exact List.take_left' (by simp)
  have hgap : ∀ d ∈ more, Text.isBlank d = true ∨ d ∈ Layout.module.separators :=
    fun d hd => .inl (hmore d hd)
  rw [segments_of_reads h hbegins hvs, segmentsFrom_semicolon ⟨0, none, []⟩ rfl, Reading.close,
    hslice, ← List.append_nil more, segmentsFrom_gap hgap, segmentsFrom_nil]
  rfl

/-- **A closed text in which no statement ends is one statement**, if it is complete when its line
ends. -/
theorem segments_of_unbroken {c : Char} {r : Text} (ht : Closed (c :: r))
    (hbreak : Unbroken (c :: r)) (hbegins : Begins .module none c (r ++ ['\n']))
    (hlast : (c :: r).getLast? ≠ some '\\') (hcomplete : isIncomplete (c :: r) = false) :
    segments .module (c :: r ++ ['\n']) = ⟨[.segment ⟨0, c :: r, none, []⟩], .finished {}⟩ := by
  have hslash : KeepsSlashes [] [] (c :: r) ['\n'] :=
    keepsSlashes_of_opens ⟨rfl, rfl⟩ (by simp) (bars_newline hlast []) []
  refine segments_of_newline (Reads.of_closed ht .fresh rfl hslash 0) hbegins ?_ hcomplete
  intro v hv htop
  obtain ⟨hends, hline⟩ := hbreak.lift 0 [] ['\n'] v hv htop
  exact ⟨hends, fun hc => absurd hc hline⟩

/-! ## A header with brackets behind it -/

theorem stripDecorators_eq {c : Char} {t r : Text} (h : Text.stripLeft t = c :: r) (hat : c ≠ '@') :
    Callable.stripDecorators t = c :: r := by
  rw [Callable.stripDecorators]
  split
  · rename_i hnil
    rw [h] at hnil
    cases hnil
  · rename_i hcons
    rw [h] at hcons
    cases hcons
    simp [hat]

theorem lastWord_concat_closer (b : Bracket) (t : Text) : lastWord (t ++ [b.closer]) = [] := by
  have hident : Text.isIdentChar b.closer = false := by
    cases b <;> decide
  simp [lastWord, hident]

/-- A text ends with no sign that ends with another character. -/
theorem isSuffixOf_concat {sign : Text} {c : Char} (hne : sign ≠ [])
    (hlast : sign.getLast? ≠ some c) (t : Text) : sign.isSuffixOf (t ++ [c]) = false := by
  rw [Bool.eq_false_iff]
  intro h
  apply hlast
  obtain ⟨u, hu⟩ := List.isSuffixOf_iff_suffix.1 h
  have hget := congrArg List.getLast? hu
  rwa [List.getLast?_append_of_ne_nil _ hne, List.getLast?_concat] at hget

/-- A text whose code ends with a closing bracket does not go on in the next line. -/
theorem isIncomplete_of_closer {b : Bracket} {t before back behind : Text} {c : Char}
    (hcode : stripComments t = before ++ [b.closer] ++ back)
    (hback : ∀ d ∈ back, Text.isBlank d = true) (hhead : before ++ [b.closer] = c :: behind)
    (hblank : Text.isBlank c = false) (hat : c ≠ '@') : isIncomplete t = false := by
  have hstrip : Text.stripRight (before ++ [b.closer] ++ back) = before ++ [b.closer] :=
    Text.dropRightWhile_append_of_last List.getLast?_concat (by cases b <;> decide) hback
  have hdecorators : (Callable.stripDecorators (before ++ [b.closer])).isEmpty = false := by
    rw [hhead, stripDecorators_eq (Text.stripLeft_cons hblank behind) hat]
    rfl
  have hsigns : ∀ signs : List Text,
      (∀ sign ∈ signs, sign ≠ [] ∧
        ∀ b ∈ [Bracket.brace, .square, .round], sign.getLast? ≠ some b.closer) →
          signs.any (·.isSuffixOf (before ++ [b.closer])) = false := by
    intro signs hsigns
    rw [List.any_eq_false]
    intro sign hsign
    obtain ⟨hne, hlast⟩ := hsigns sign hsign
    rw [isSuffixOf_concat hne (hlast b (by cases b <;> simp))]
    exact Bool.false_ne_true
  have hslash : ((before ++ [b.closer]).getLast? == some '/') = false := by
    rw [List.getLast?_concat]
    cases b <;> rfl
  rw [isIncomplete, hcode, hstrip, hdecorators, hsigns _ (by decide), hsigns _ (by decide),
    lastWord_concat_closer, hslash]
  simp [openWords]

/-- A header with a closed text in brackets behind it does not go on in the next line. -/
theorem isIncomplete_of_bracketed (b : Bracket) {c : Char} {r u : Text} (ht : Phrase (c :: r))
    (hu : Closed u) (hc : Plain c) (hblank : Text.isBlank c = false) (hat : c ≠ '@') :
    isIncomplete (c :: r ++ (b.opener :: u ++ [b.closer])) = false := by
  obtain ⟨-, front, inside, hvisits, -, -, v, hv, hchar, hrest⟩ := ht.visits_bracketed b hu
  have hmem : v ∈ visits (c :: r ++ (b.opener :: u ++ [b.closer])) := by
    rw [hvisits]
    exact List.mem_append_right _ (List.mem_cons_of_mem _ hv)
  obtain ⟨before, hbefore⟩ := exists_stripComments_concat hmem hchar hrest
  obtain ⟨behind, hbehind⟩ := exists_stripComments_cons hc (r ++ (b.opener :: u ++ [b.closer]))
  have hcode : stripComments (c :: r ++ (b.opener :: u ++ [b.closer])) =
      before ++ [b.closer] ++ [] := by
    rw [List.append_nil]
    exact hbefore
  exact isIncomplete_of_closer hcode (by simp) (hbefore.symm.trans hbehind) hblank hat

end ModuleSurface.Statement
