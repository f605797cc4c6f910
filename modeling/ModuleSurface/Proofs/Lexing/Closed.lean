import ModuleSurface.Proofs.Lexing.Run

/-!
# Closed texts

A text is closed if a pass over it fails nowhere, ends in the code outside everything, leaves no
bracket open and ignores no closer.  In any code such a text is read as it is on its own, and the
pass goes on behind it in the state in front of it, unless the text around it gives a slash in it
another meaning.

* `Run.lift` — a run over a piece of text is a run over the same piece inside a larger text;
* `Closed.run` — a closed text leads back to the state in front of it.
-/

namespace ModuleSurface.Lexing

/-- A text that is complete on its own. -/
structure Closed (t : Text) : Prop where
  /-- No string runs into the end of its line. -/
  fault : (pass t).fault = none
  /-- Everything that begins in the text ends in it. -/
  context : (pass t).state.context = .normal
  /-- Every bracket is closed. -/
  depth : (pass t).state.depth = 0
  /-- Every closer closes a bracket. -/
  clamped : (pass t).state.clamped = 0

instance (t : Text) : Decidable (Closed t) :=
  decidable_of_iff
    ((pass t).fault = none ∧ (pass t).state.context = .normal ∧ (pass t).state.depth = 0 ∧
      (pass t).state.clamped = 0)
    ⟨fun ⟨h₁, h₂, h₃, h₄⟩ => ⟨h₁, h₂, h₃, h₄⟩, fun ⟨h₁, h₂, h₃, h₄⟩ => ⟨h₁, h₂, h₃, h₄⟩⟩

/-- The text `outer` in front, in reverse, and `more` behind do not change what a slash in `t`
means, where `past` is what stands in front of `t` in the same piece, in reverse. -/
def KeepsSlashes (outer past t more : Text) : Prop :=
  ∀ u v, t = u ++ '/' :: v →
    RegexLiteral.beginsAfter (u.reverse ++ past ++ outer) =
        RegexLiteral.beginsAfter (u.reverse ++ past) ∧
      (more.head? ≠ some '/' ∧ more.head? ≠ some '*') ∧ RegexLiteral.Bars v more

theorem RegexLiteral.Bars.of_suffix {t u more : Text} (h : Bars t more) (hs : u <:+ t) :
    Bars u more := by
  obtain ⟨v, rfl⟩ := hs
  refine ⟨h.open_left, fun hu => h.hidden ?_, h.flags⟩
  rw [List.getLast?_append, hu]
  rfl

theorem keepsSlashes_of_not_mem {outer past t more : Text} (h : '/' ∉ t) :
    KeepsSlashes outer past t more := by
  rintro u v rfl
  simp at h

/-- Where a slash would begin a literal, a piece is read as at the start of a text. -/
theorem keepsSlashes_of_opens {outer t more : Text} (houter : RegexLiteral.Opens outer)
    (hmore : more.head? ≠ some '/' ∧ more.head? ≠ some '*') (hbars : RegexLiteral.Bars t more)
    (past : Text) : KeepsSlashes outer past t more := by
  rintro u v rfl
  exact ⟨RegexLiteral.beginsAfter_append_of_opens houter, hmore,
    hbars.of_suffix ((List.suffix_cons _ _).trans (List.suffix_append _ _))⟩

theorem opens_opener (b : Bracket) (outer : Text) : RegexLiteral.Opens (b.opener :: outer) := by
  cases b <;> exact ⟨rfl, rfl⟩

/-- A text that begins with neither a gap nor a slash has something of its own in front of every
slash. -/
theorem keepsSlashes_of_head {outer r more : Text} {c : Char} (hgap : RegexLiteral.isGap c = false)
    (hc : c ≠ '/') (houter : outer.head?.any Text.isIdentChar = false)
    (hmore : more.head? ≠ some '/' ∧ more.head? ≠ some '*')
    (hbars : RegexLiteral.Bars (c :: r) more) : KeepsSlashes outer [] (c :: r) more := by
  intro u v huv
  cases u with
  | nil => exact absurd (List.cons.inj huv).1 hc
  | cons d u =>
    obtain ⟨rfl, rfl⟩ := List.cons.inj huv
    refine ⟨RegexLiteral.beginsAfter_append (fun hnil => ?_) houter, hmore,
      hbars.of_suffix ((List.suffix_cons _ _).trans (List.suffix_append (c :: u) _))⟩
    have hall := List.dropWhile_eq_nil_iff.1 hnil c (by simp)
    rw [hgap] at hall
    cases hall

theorem KeepsSlashes.drop {outer past t more : Text} (h : KeepsSlashes outer past t more)
    (k : Nat) : KeepsSlashes outer (advancePast past t k) (t.drop k) more := by
  intro u v huv
  have hhere := h (t.take k ++ u) v (by rw [List.append_assoc, ← huv, List.take_append_drop])
  simpa [advancePast] using hhere

theorem KeepsSlashes.keepsSlash {outer past rest more : Text} {c : Char}
    (h : KeepsSlashes outer past (c :: rest) more) : State.KeepsSlash c rest more := by
  rintro rfl
  obtain ⟨-, hm, hbars⟩ := h [] rest rfl
  exact ⟨fun _ => hm, RegexLiteral.bodyWidth?_append hbars⟩

theorem KeepsSlashes.beginsAfter_append {outer past rest more : Text} {c : Char}
    (h : KeepsSlashes outer past (c :: rest) more) (hc : c = '/') :
    RegexLiteral.beginsAfter (past ++ outer) = RegexLiteral.beginsAfter past := by
  subst hc
  exact (h [] rest rfl).1

theorem KeepsSlashes.width?_append {outer past rest more : Text} {c : Char}
    (h : KeepsSlashes outer past (c :: rest) more) :
    RegexLiteral.width? (past ++ outer) c (rest ++ more) = RegexLiteral.width? past c rest := by
  rw [State.width?_append h.keepsSlash]
  by_cases hc : c = '/'
  · simp [RegexLiteral.width?, hc, h.beginsAfter_append hc]
  · simp [RegexLiteral.width?, hc]

/-! ## Ignored closers -/

namespace State

theorem eq_closer_of_ofCloser? {c : Char} {b : Bracket} (h : Bracket.ofCloser? c = some b) :
    c = b.closer := by
  unfold Bracket.ofCloser? at h
  split at h
  · cases h; assumption
  split at h
  · cases h; assumption
  split at h
  · cases h; assumption
  · cases h

/-- An opener in code opens a bracket. -/
theorem step_opener {s : State} (hs : s.inCode = true) (b : Bracket) (past rest : Text)
    (position : Nat) :
    s.step past b.opener rest position = .ok (1, s.openBracket b position) := by
  rw [step_of_inCode hs]
  cases b <;> rfl

/-- A closer in code closes a bracket, unless it ends a substitution. -/
theorem step_closer {s : State} (hs : s.inCode = true) {b : Bracket}
    (hx : s.closesExpr b.closer = false) (past rest : Text) (position : Nat) :
    s.step past b.closer rest position = .ok (1, s.closeBracket b) := by
  rw [step_of_inCode hs]
  cases b with
  | brace =>
    unfold stepCode
    rw [hx]
    rfl
  | square => rfl
  | round => rfl

/-- No step takes back that a closer was ignored. -/
theorem Move.clamped_le {s s' : State} (h : s.Move s') : s.clamped ≤ s'.clamped := by
  have hleave : ∀ s : State, s.leave.clamped = s.clamped := by
    intro s
    unfold State.leave
    split <;> rfl
  cases h with
  | stay | enter _ _ | substitute _ => exact Nat.le_refl _
  | leave _ => exact Nat.le_of_eq (hleave s).symm
  | resume _ _ => exact Nat.le_of_eq (hleave { s with exprDepths := s.exprDepths.tail }).symm
  | @openBracket b _ _ => cases b <;> exact Nat.le_refl _
  | @closeBracket b _ _ =>
    by_cases hd : s.depthOf b = 0
    · rw [closeBracket_of_depthOf hd]
      exact Nat.le_succ _
    · rw [State.closeBracket, if_neg hd]
      cases b <;> exact Nat.le_refl _

/-- A closer that is not ignored closes a bracket. -/
theorem depthOf_ne_zero {s s' : State} {past rest : Text} {position k : Nat} {b : Bracket}
    (hs : s.inCode = true) (hx : s.closesExpr b.closer = false)
    (hstep : s.step past b.closer rest position = .ok (k, s')) (hc : s'.clamped ≤ s.clamped) :
    s.depthOf b ≠ 0 := by
  intro hd
  rw [step_closer hs hx, closeBracket_of_depthOf hd] at hstep
  cases hstep
  exact Nat.not_succ_le_self _ hc

/-- Where no closer is ignored, none closes a bracket around the piece. -/
theorem keepsWithin_of_clamped {base s s' : State} {past : Text} {c : Char} {rest : Text}
    {position k : Nat} (hstep : s.step past c rest position = .ok (k, s'))
    (hc : s'.clamped ≤ s.clamped) : KeepsWithin base s c := by
  intro b hb hs hx hd
  obtain rfl := eq_closer_of_ofCloser? hb
  exact absurd hd (depthOf_ne_zero hs hx hstep hc)

end State

/-! ## Runs inside a larger text -/

/-- A visit of a piece as a visit of the larger text that has `outer` in front of the piece, in
reverse, and `more` behind it. -/
def Visit.lift (base : State) (offset : Nat) (outer more : Text) (v : Visit) : Visit where
  index := offset + v.index
  past := v.past ++ outer
  char := v.char
  rest := v.rest ++ more
  state := base.within offset v.state

namespace Cursor

/-- A place in a piece as a place in the larger text. -/
def lift (base : State) (offset : Nat) (outer more : Text) (p : Cursor) : Cursor :=
  ⟨base.within offset p.state, p.past ++ outer, p.rest ++ more, offset + p.position⟩

variable {base : State} {offset : Nat} {outer more : Text}

theorem advance_lift {p : Cursor} {k : Nat} (hk : k ≤ p.rest.length) (s : State) :
    (p.lift base offset outer more).advance k (base.within offset s) =
      (p.advance k s).lift base offset outer more := by
  simp [lift, advance, advancePast, List.take_append_of_le_length hk,
    List.drop_append_of_le_length hk, Nat.add_assoc]

theorem visit?_lift (hb : base.Coherent) (hbase : base.inCode = true) {s : State}
    (hs : s.Coherent) {past : Text} {c : Char} {rest : Text} {position : Nat}
    (hc : State.KeepsWithin base s c) (hslash : KeepsSlashes outer past (c :: rest) more) :
    (lift base offset outer more ⟨s, past, c :: rest, position⟩).visit? =
      (visit? ⟨s, past, c :: rest, position⟩).map (Visit.lift base offset outer more) := by
  have hreads : (base.within offset s).readsCode c (rest ++ more) = s.readsCode c rest := by
    unfold State.readsCode
    rw [State.inCode_within hbase hs, State.closesExpr_within hb hs hc, Bool.and_or_distrib_left,
      State.delimiter_append hslash.keepsSlash (.inl rfl),
      State.delimiter_append hslash.keepsSlash (.inr rfl), ← Bool.and_or_distrib_left]
  simp only [lift, visit?, List.cons_append, hreads, hslash.width?_append]
  split <;> rfl

/-- A step that ignores no closer and reads a whole unit is a step inside the larger text. -/
theorem Next.lift (hb : base.Coherent) (hbase : base.inCode = true) {p q : Cursor} (h : Next p q)
    (hp : p.state.Coherent) (hend : q.rest = [] → q.state.inCode = true)
    (hclamped : q.state.clamped ≤ p.state.clamped)
    (hslash : KeepsSlashes outer p.past p.rest more) :
    Next (p.lift base offset outer more) (q.lift base offset outer more) ∧
      (p.lift base offset outer more).visit? =
        p.visit?.map (Visit.lift base offset outer more) := by
  cases h with
  | @step s s' past c rest position k hstep =>
    have hkeep : State.KeepsWithin base s c := State.keepsWithin_of_clamped hstep hclamped
    refine ⟨?_, visit?_lift hb hbase hp hkeep hslash⟩
    obtain ⟨hlong, hk⟩ := State.step_append hstep hend fun _ => hslash.keepsSlash
    have hlift : (base.within offset s).step (past ++ outer) c (rest ++ more) (offset + position) =
        .ok (k, base.within offset s') := by
      rw [State.step_within hb hbase hp hkeep fun hc _ => hslash.beginsAfter_append hc, hlong]
      rfl
    rw [← advance_lift hk s']
    exact Next.step hlift

/-- A run over a piece that ends in code and ignores no closer is a run inside the larger text, and
it makes the same visits. -/
theorem Run.lift (hb : base.Coherent) (hbase : base.inCode = true) {p q : Cursor}
    {ps : List Cursor} (h : Run p ps q) (hp : p.state.Coherent) (hq : q.state.inCode = true)
    (hclamped : q.state.clamped ≤ p.state.clamped)
    (hslash : KeepsSlashes outer p.past p.rest more) (offset : Nat) :
    Run (p.lift base offset outer more) (ps.map (Cursor.lift base offset outer more))
        (q.lift base offset outer more) ∧
      ∀ r ∈ ps, (r.lift base offset outer more).visit? =
        r.visit?.map (Visit.lift base offset outer more) := by
  induction h with
  | refl p => exact ⟨.refl _, by simp⟩
  | @cons p p' q ps hnext hrun ih =>
    have hmono : p'.state.clamped ≤ q.state.clamped :=
      hrun.preserves (fun hm h => Nat.le_trans h hm.clamped_le) (Nat.le_refl _)
    have hmove : p.state.Move p'.state := by
      cases hnext with
      | step hstep => exact State.move_of_step hstep
    have hend : p'.rest = [] → p'.state.inCode = true := by
      intro h
      rw [← hrun.eq_of_rest h]
      exact hq
    have hslash' : KeepsSlashes outer p'.past p'.rest more := by
      cases hnext with
      | @step _ _ _ _ _ _ k _ => exact hslash.drop k
    obtain ⟨hfirst, hvisit⟩ := hnext.lift hb hbase hp hend (Nat.le_trans hmono hclamped) hslash
    obtain ⟨hothers, hvisits⟩ := ih (hp.move hmove) hq
      (Nat.le_trans hclamped hmove.clamped_le) hslash'
    refine ⟨.cons hfirst hothers, ?_⟩
    intro r hr
    rcases List.mem_cons.1 hr with rfl | hr
    · exact hvisit
    · exact hvisits r hr

/-! ## Where a run ends -/

theorem Run.past_append_rest {p q : Cursor} {ps : List Cursor} (h : Run p ps q) :
    q.past.reverse ++ q.rest = p.past.reverse ++ p.rest := by
  induction h with
  | refl => rfl
  | cons hnext _ ih =>
    rw [ih]
    cases hnext with
    | step _ => simp [advance, advancePast]

/-- A run to the end of a text, in code, reads as many characters as there are. -/
theorem Run.position_eq {p q : Cursor} {ps : List Cursor} (h : Run p ps q) (hrest : q.rest = [])
    (hq : q.state.inCode = true) : q.position = p.position + p.rest.length := by
  induction h with
  | refl p =>
    rw [hrest]
    rfl
  | @cons p p' q ps hnext hrun ih =>
    rw [ih hrest hq]
    cases hnext with
    | @step s s' past c rest position k hstep =>
      have hend : (c :: rest).drop k = [] → s'.inCode = true := by
        intro h
        have hstate := congrArg Cursor.state (hrun.eq_of_rest h)
        rwa [hstate] at hq
      have hslash : State.KeepsSlash c rest [] := fun _ => ⟨fun _ => by simp, by simp⟩
      have hk := (State.step_append hstep hend fun _ => hslash).2
      simp only [advance, List.length_drop, List.length_cons]
      omega

end Cursor

/-! ## Closed texts in context -/

namespace Closed

open Cursor

variable {t : Text}

/-- A pass over a closed text is a run over it. -/
theorem exists_run (ht : Closed t) :
    ∃ ps, Run ⟨{}, [], t, 0⟩ ps ⟨(pass t).state, t.reverse, [], t.length⟩ := by
  obtain ⟨ps, q, hrun, hrest, hstate⟩ := run_of_pass ⟨{}, [], t, 0⟩ ht.fault
  have hcode : q.state.inCode = true := by
    rw [hstate, State.inCode]
    exact congrArg Context.inCode ht.context
  have hpast := hrun.past_append_rest
  have hposition := hrun.position_eq hrest hcode
  obtain ⟨s, past, rest, position⟩ := q
  simp only [List.reverse_nil, List.nil_append, Nat.zero_add] at hrest hpast hposition hstate
  subst hrest hposition hstate
  obtain rfl : past = t.reverse := by
    rw [← hpast, List.append_nil, List.reverse_reverse]
  exact ⟨ps, hrun⟩

variable {base : State} {outer more : Text}

/-- A closed text leads back to the state in front of it. -/
theorem within_eq (ht : Closed t) (base : State) (offset : Nat) :
    base.within offset (pass t).state = base :=
  State.within_neutral (coherent_pass t) ht.context ht.depth ht.clamped

/-- A closed text leads back to the state in front of it, and what is visited in it is visited as on
its own. -/
theorem run (ht : Closed t) (hb : base.Coherent) (hbase : base.inCode = true)
    (hslash : KeepsSlashes outer [] t more) (offset : Nat) :
    ∃ ps, Run ⟨{}, [], t, 0⟩ ps ⟨(pass t).state, t.reverse, [], t.length⟩ ∧
      Run ⟨base, outer, t ++ more, offset⟩ (ps.map (lift base offset outer more))
        ⟨base, t.reverse ++ outer, more, offset + t.length⟩ ∧
      ∀ p ∈ ps, (p.lift base offset outer more).visit? =
        p.visit?.map (Visit.lift base offset outer more) := by
  obtain ⟨ps, hrun⟩ := ht.exists_run
  have hcode : (pass t).state.inCode = true := by
    rw [State.inCode, ht.context]
    rfl
  obtain ⟨hlift, hvisits⟩ := hrun.lift hb hbase .fresh hcode (Nat.le_of_eq ht.clamped)
    hslash offset
  simp only [lift] at hlift
  rw [State.within_neutral .fresh rfl rfl rfl, ht.within_eq] at hlift
  exact ⟨ps, hrun, hlift, hvisits⟩

end Closed

end ModuleSurface.Lexing
