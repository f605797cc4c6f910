import ModuleSurface.ClassBody.Split
import ModuleSurface.Proofs.Lexing.Phrase
import ModuleSurface.Proofs.Statement.Concatenation

/-!
# Where a member ends

A member of a class body ends with a semicolon, with the curly bracket that leads back to where it
began, or with a line that is complete (`endsMember`); in the last two cases only if the text behind
does not continue it.  What can end a member is visited (`stopAt_classBody`), and a text ends in its
place inside a class body where it ends on its own (`stop?_lift`).
-/

namespace ModuleSurface.Lexing

open Cursor

/-! ## The text around a visit -/

section

variable {t : Text} {v : Visit}

theorem length_of_mem_visits (hv : v ∈ visits t) : t.length = v.index + 1 + v.rest.length := by
  obtain ⟨htext, hindex⟩ := placed_of_mem_visits hv
  rw [← htext, hindex]
  simp only [List.length_append, List.length_reverse, List.length_cons]
  omega

theorem take_of_mem_visits (hv : v ∈ visits t) :
    t.take v.index = v.past.reverse ∧ t.take (v.index + 1) = v.past.reverse ++ [v.char] := by
  obtain ⟨htext, hindex⟩ := placed_of_mem_visits hv
  rw [← htext, hindex, ← List.length_reverse]
  exact ⟨List.take_left, by rw [List.take_length_add_append]; rfl⟩

theorem drop_of_mem_visits (hv : v ∈ visits t) : t.drop (v.index + 1) = v.rest := by
  obtain ⟨htext, hindex⟩ := placed_of_mem_visits hv
  rw [← htext, hindex, ← List.length_reverse, List.drop_length_add_append]
  rfl

theorem getLast?_of_mem_visits (hv : v ∈ visits t) (hrest : v.rest = []) :
    t.getLast? = some v.char := by
  rw [← (placed_of_mem_visits hv).1, hrest, List.getLast?_concat]

end

/-! ## The state behind a visit -/

/-- The state behind a sign that may end a member. -/
def Visit.behind (v : Visit) : State :=
  if v.char = '}' then v.state.closeBracket .brace else v.state

theorem Visit.context_behind (v : Visit) : v.behind.context = v.state.context := by
  unfold Visit.behind
  split
  · exact State.context_closeBracket _ _
  · rfl

/-- In a larger text the state behind a sign is the one behind it in the piece, as nothing is open
around the piece. -/
theorem Visit.behind_lift {v : Visit} (hv : v.state.Coherent) (offset : Nat) (outer more : Text) :
    (v.lift {} offset outer more).behind = State.within {} offset v.behind := by
  unfold Visit.behind
  by_cases hc : v.char = '}'
  · have hc' : (v.lift {} offset outer more).char = '}' := hc
    rw [if_pos hc, if_pos hc']
    by_cases hd : v.state.depthOf .brace = 0
    · exact (State.within_closeBracket_of_eq hd rfl).symm
    · exact (State.within_closeBracket_of_ne hv hd).symm
  · have hc' : (v.lift {} offset outer more).char ≠ '}' := hc
    rw [if_neg hc, if_neg hc']
    rfl

/-- A plain character or a closing curly bracket is read alone. -/
theorem Visit.step_behind {v : Visit} (hreads : v.state.readsCode v.char v.rest = true)
    (hchar : v.char = '}' ∨ Plain v.char) :
    v.state.step v.past v.char v.rest v.index = .ok (1, v.behind) := by
  obtain ⟨hcode, -, -, hx⟩ := readsCode_iff.1 hreads
  by_cases hc : v.char = '}'
  · rw [hc] at hx
    rw [Visit.behind, if_pos hc, hc]
    exact State.step_closer (b := .brace) hcode hx _ _ _
  · rw [Visit.behind, if_neg hc]
    exact State.step_of_plain hcode (hchar.resolve_left hc) _ _ _

theorem Visit.coherent_behind {t : Text} {v : Visit} (hv : v ∈ visits t) : v.behind.Coherent := by
  have hs := coherent_of_mem_visits hv
  by_cases hc : v.char = '}'
  · obtain ⟨-, -, hreads, -⟩ := exists_run_of_mem_visits hv
    exact hs.step (v.step_behind hreads (.inl hc))
  · rw [Visit.behind, if_neg hc]
    exact hs

/-- A pass over plain characters stays in its state. -/
theorem Cursor.pass_state_of_plain {s : State} (hs : s.inCode = true) {t : Text}
    (ht : ∀ c ∈ t, Plain c) (past : Text) (position : Nat) :
    (Cursor.pass ⟨s, past, t, position⟩).state = s := by
  induction t generalizing past position with
  | nil => rw [Cursor.pass, passFrom]
  | cons c t ih =>
    have hnext := Next.step (State.step_of_plain hs (ht c List.mem_cons_self) past t position)
    exact hnext.pass_eq.2.trans (ih (fun d hd => ht d (List.mem_cons_of_mem _ hd)) _ _)

/-- A sign with nothing but plain characters behind it leads to the state at the end. -/
theorem Visit.behind_eq_of_plain {t : Text} {v : Visit} (hv : v ∈ visits t)
    (hchar : v.char = '}' ∨ Plain v.char) (hrest : ∀ c ∈ v.rest, Plain c) :
    v.behind = (Lexing.pass t).state := by
  obtain ⟨ps, hrun, hreads, -⟩ := exists_run_of_mem_visits hv
  have hcode : v.behind.inCode = true := by
    rw [State.inCode, v.context_behind]
    exact (readsCode_iff.1 hreads).1
  have hnext := Next.step (v.step_behind hreads hchar)
  exact ((hrun.pass_eq.2.trans hnext.pass_eq.2).trans
    (pass_state_of_plain hcode hrest _ _)).symm

/-- What is neutral at the end of a piece leads back to the state around it. -/
theorem Visit.within_behind {t : Text} (ht : Closed t) {v : Visit} (hv : v ∈ visits t)
    (hchar : v.char = '}' ∨ Plain v.char) (hrest : ∀ c ∈ v.rest, Plain c) (base : State)
    (offset : Nat) : base.within offset v.behind = base := by
  rw [Visit.behind_eq_of_plain hv hchar hrest]
  exact ht.within_eq base offset

end ModuleSurface.Lexing

namespace ModuleSurface.ClassBody

open ModuleSurface.Lexing
open ModuleSurface.Lexing.Cursor
open ModuleSurface.Statement

/-! ## Units that end a member -/

/-- Does a member end with the unit `v` of its text, with `more` behind that text? -/
def endsMember (more : Text) (v : Visit) : Bool :=
  v.behind.atTopLevel &&
    (v.char == ';' || v.char == '}' && !continues (v.rest ++ more) ||
      v.char == '\n' && endsBefore v.past.reverse (v.rest ++ more))

/-- The end of the member that began at `start`, if the unit ends it. -/
def stop? (text : Text) (start : Nat) (v : Visit) : Option Nat :=
  if v.behind.atTopLevel then Layout.classBody.stop? text start v.index (v.index + 1) v.char
  else none

theorem stop?_of_not_sign {c : Char} (h : ¬ (c = '}' ∨ c = ';' ∨ c = '\n')) (text : Text)
    (start position next : Nat) : Layout.classBody.stop? text start position next c = none := by
  rw [not_or, not_or] at h
  simp [Layout.stop?, h]

/-- Outside template literals a sign that can end a member is visited. -/
theorem visit?_of_sign {s : State} (hs : s.context = .normal) {c : Char}
    (hc : c = '}' ∨ Plain c) (past r : Text) (position : Nat) :
    visit? ⟨s, past, c :: r, position⟩ = some ⟨position, past, c, r, s⟩ := by
  have hcode : s.inCode = true := by
    rw [State.inCode, hs]
    rfl
  rcases hc with hc | hc
  · have hx : s.closesExpr c = false := by
      simp [State.closesExpr, hs]
    exact visit?_bracket (b := .brace) hcode (.inr hc) hx past r position
  · exact visit?_of_plain hcode hc past r position

/-- What can end a member is visited. -/
theorem stopAt_classBody {text : Text} {s s' : State} {past r : Text} {c : Char}
    {position k : Nat} (hstep : s.step past c r position = .ok (k, s')) (start : Nat) :
    stopAt .classBody text s s' start position k c =
      (visit? ⟨s, past, c :: r, position⟩).bind (stop? text start) := by
  by_cases hsign : s.context = .normal ∧ (c = '}' ∨ c = ';' ∨ c = '\n')
  · obtain ⟨hs, hc⟩ := hsign
    have hchar : c = '}' ∨ Plain c := by
      rcases hc with rfl | rfl | rfl <;> decide
    have hvisit := visit?_of_sign hs hchar past r position
    have hbehind := Visit.step_behind (visit?_eq_some hvisit).2.1 hchar
    have hread := hstep.symm.trans hbehind
    cases hread
    rw [hvisit, stopAt, hs]
    rfl
  · -- nothing else ends a member, in particular no unit of a substitution
    have hnone : ∀ v, visit? ⟨s, past, c :: r, position⟩ = some v → stop? text start v = none := by
      intro v hv
      obtain ⟨hplace, -⟩ := visit?_eq_some hv
      rw [stop?]
      split
      · rename_i htop
        have hs : v.state.context = .normal := by
          rw [← v.context_behind]
          exact beq_iff_eq.1 (Bool.and_eq_true_iff.1 htop).1
        cases hplace
        exact stop?_of_not_sign (fun hc => hsign ⟨hs, hc⟩) _ _ _ _
      · rfl
    have hleft : stopAt .classBody text s s' start position k c = none := by
      rw [stopAt]
      split
      · rename_i htop
        have hs := beq_iff_eq.1 (Bool.and_eq_true_iff.1 htop).1
        exact stop?_of_not_sign (fun hc => hsign ⟨hs, hc⟩) _ _ _ _
      · rfl
    rw [hleft]
    cases hv : visit? ⟨s, past, c :: r, position⟩ with
    | none => rfl
    | some v => exact (hnone v hv).symm

/-- A unit that ends a member and leads back to where the member began closes the segment. -/
theorem segmentsFrom_visit {text : Text} {v : Visit} (reading : Reading) {stop : Nat}
    (hvisit : visit? ⟨v.state, v.past, v.char :: v.rest, v.index⟩ = some v)
    (hchar : v.char = '}' ∨ Plain v.char) (hclamped : v.behind.clamped = v.state.clamped)
    (hstop : stop? text reading.start v = some stop) :
    segmentsFrom .classBody text v.state (some reading) none false v.past (v.char :: v.rest)
        v.index =
      (segmentsFrom .classBody text v.behind none none false (v.char :: v.past) v.rest
        (v.index + 1)).prepend [reading.close text stop] := by
  have hbegins : Begins .classBody (some reading) v.char v.rest := fun h => by cases h
  have hstep := v.step_behind (visit?_eq_some hvisit).2.1 hchar
  have hreading : readingAt (some reading) none v.state v.behind v.char v.index = reading :=
    if_pos hclamped
  rw [segmentsFrom_read hbegins hstep, hreading, stopAt_classBody hstep, hvisit, Option.bind_some,
    hstop]
  rfl

/-! ## A text in its place -/

/-- A text with more text around it, cut out again. -/
theorem slice_inner {m : Text} {n : Nat} (h : n ≤ m.length) (outer more : Text) :
    Text.slice (outer.reverse ++ (m ++ more)) outer.length (outer.length + n) = m.take n := by
  have hleft := slice_append_left outer.reverse (m ++ more) 0 n
  rw [List.length_reverse, Nat.add_zero] at hleft
  rw [hleft, Text.slice, List.drop_zero, List.take_append_of_le_length h]

theorem drop_inner {m : Text} {n : Nat} (h : n ≤ m.length) (outer more : Text) :
    (outer.reverse ++ (m ++ more)).drop (outer.length + n) = m.drop n ++ more := by
  rw [← List.length_reverse, List.drop_length_add_append, List.drop_append_of_le_length h]

/-- In its place a unit ends a member if it does in the text of the member with the same text
behind. -/
theorem stop?_lift {m : Text} {v : Visit} (hv : v ∈ visits m) (outer more : Text) :
    stop? (outer.reverse ++ (m ++ more)) outer.length (v.lift {} outer.length outer more) =
      if endsMember more v then
        some (outer.length + if v.char = '\n' then v.index else v.index + 1)
      else none := by
  have hlength := length_of_mem_visits hv
  have hslice : Text.slice (outer.reverse ++ (m ++ more)) outer.length (outer.length + v.index) =
      v.past.reverse := by
    rw [slice_inner (by omega), (take_of_mem_visits hv).1]
  have hdrop : (outer.reverse ++ (m ++ more)).drop (outer.length + v.index + 1) =
      v.rest ++ more := by
    rw [Nat.add_assoc, drop_inner (by omega), drop_of_mem_visits hv]
  have htop : (v.lift {} outer.length outer more).behind.atTopLevel = v.behind.atTopLevel := by
    rw [Visit.behind_lift (coherent_of_mem_visits hv),
      State.atTopLevel_within rfl (Visit.coherent_behind hv)]
  rw [stop?, htop, endsMember]
  cases v.behind.atTopLevel with
  | false => rfl
  | true =>
    simp only [Visit.lift, Layout.stop?, Layout.classBody, hslice, hdrop]
    by_cases hsemicolon : v.char = ';'
    · simp [hsemicolon, Nat.add_assoc]
    by_cases hbrace : v.char = '}'
    · cases continues (v.rest ++ more) <;> simp [hbrace, Nat.add_assoc]
    by_cases hnewline : v.char = '\n'
    · cases endsBefore v.past.reverse (v.rest ++ more) <;> simp [hnewline]
    · simp [hsemicolon, hbrace, hnewline]

/-! ## Lines that continue a member -/

/-- The first line that is not blank decides whether a text continues what is in front of it. -/
theorem continues_append_newline {t : Text} {c : Char} (hc : c ∈ t)
    (hblank : Text.isBlank c = false) (more : Text) :
    continues (t ++ '\n' :: more) = continues t := by
  have hline : ∀ u : Text, (u ++ '\n' :: more).takeWhile (· != '\n') = u.takeWhile (· != '\n') := by
    intro u
    induction u with
    | nil => rfl
    | cons d u ih => simp only [List.cons_append, List.takeWhile_cons, ih]
  rw [continues, continues, Text.stripLeft_append_of_not_blank hc hblank, hline]

theorem continues_newline (more : Text) : continues ('\n' :: more) = continues more := by
  have hstrip : Text.stripLeft ('\n' :: more) = Text.stripLeft more :=
    Text.stripLeft_append_of_blank (t := ['\n']) (by decide) more
  rw [continues, continues, hstrip]

/-- A text that begins with a semicolon continues nothing. -/
theorem continues_of_stripLeft {t u : Text} (h : Text.stripLeft t = ';' :: u) :
    continues t = false := by
  rw [continues, h]
  rfl

end ModuleSurface.ClassBody
