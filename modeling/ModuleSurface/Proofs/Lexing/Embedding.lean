import ModuleSurface.Proofs.Lexing.Coherence

/-!
# A piece of text inside a larger one

A pass over a piece of text from a fresh state, and the pass over a larger text that comes to the
same piece in some state `base`, go through the same steps.  `base.within offset s` is the state of
the larger pass that corresponds to the state `s` of the smaller one: brackets, constructs and
depths of `s` stand on top of those of `base`, and offsets are moved.

* `step_within` — the two passes take the same step, unless the piece closes a bracket that `base`
  has open;
* `finish_within` — behind a piece that begins outside everything, what is still open is what the
  piece leaves open.
-/

namespace ModuleSurface.Lexing

/-- The fault at an offset moved by `offset`. -/
def Fault.moved (offset : Nat) (f : Fault) : Fault :=
  { f with position := offset + f.position }

namespace State

/-! ## The larger state -/

/-- The constructs around the current one, where the code outside everything is the construct that
`base` is in. -/
def enclosingOn (base : State) (offset : Nat) : List (Context × Nat) → List (Context × Nat)
  | [] => base.enclosing
  | [_] => (base.context, base.contextStart) :: base.enclosing
  | e :: e' :: es => (e.1, offset + e.2) :: enclosingOn base offset (e' :: es)

/-- The state of a pass that came to a piece of text at `offset` in the state `base`, where a pass
over the piece alone is in the state `s`. -/
def within (base : State) (offset : Nat) (s : State) : State where
  context := if s.enclosing.isEmpty then base.context else s.context
  contextStart := if s.enclosing.isEmpty then base.contextStart else offset + s.contextStart
  braces := base.braces + s.braces
  squares := base.squares + s.squares
  rounds := base.rounds + s.rounds
  clamped := base.clamped + s.clamped
  enclosing := enclosingOn base offset s.enclosing
  exprDepths := s.exprDepths.map (base.braces + ·) ++ base.exprDepths
  opened := s.opened.map (fun e => (e.1, offset + e.2)) ++ base.opened

variable {base s : State} {offset : Nat}

theorem depthOf_within (base s : State) (offset : Nat) (b : Bracket) :
    (base.within offset s).depthOf b = base.depthOf b + s.depthOf b := by
  cases b <;> rfl

theorem depth_within (base s : State) (offset : Nat) :
    (base.within offset s).depth = base.depth + s.depth := by
  simp only [within, depth]
  omega

/-- Without open brackets none is on record. -/
theorem opened_eq_nil (hs : s.Coherent) (hd : s.depth = 0) : s.opened = [] := by
  refine List.eq_nil_iff_forall_not_mem.2 fun e he => ?_
  have hpos : 0 < s.opened.countP (·.1 == e.1) := List.countP_pos_iff.2 ⟨e, he, beq_self_eq_true _⟩
  rw [← hs.depthOf_eq] at hpos
  simp only [depth] at hd
  cases h : e.1 <;> rw [h] at hpos <;> simp only [depthOf] at hpos <;> omega

/-- A state outside everything, without brackets or ignored closers, adds nothing. -/
theorem within_neutral (hs : s.Coherent) (hctx : s.context = .normal) (hd : s.depth = 0)
    (hc : s.clamped = 0) : base.within offset s = base := by
  have he := hs.enclosing_eq_nil_iff.2 hctx
  have hx := hs.exprDepths_eq_nil hctx
  have hz : s.braces = 0 ∧ s.squares = 0 ∧ s.rounds = 0 := by
    simp only [depth] at hd
    omega
  simp [within, he, hx, opened_eq_nil hs hd, hz, hc, enclosingOn]

/-- In the code outside everything the larger pass is where it was; elsewhere it is in the same
construct. -/
theorem context_within (hs : s.Coherent) :
    (base.within offset s).context = if s.context = .normal then base.context else s.context := by
  by_cases hctx : s.context = .normal
  · simp [within, hs.enclosing_eq_nil_iff.2 hctx, hctx]
  · simp [within, hs.enclosing_ne_nil hctx, hctx]

theorem inCode_within (hb : base.inCode = true) (hs : s.Coherent) :
    (base.within offset s).inCode = s.inCode := by
  rw [inCode, context_within hs]
  split
  · rename_i hctx
    rw [inCode, hctx]
    exact hb
  · rfl

/-! ## The operations -/

theorem within_enter (context : Context) (start : Nat) :
    base.within offset (s.enter context start) =
      (base.within offset s).enter context (offset + start) := by
  cases he : s.enclosing <;> simp [within, enter, enclosingOn, he]

theorem within_leave (he : s.enclosing ≠ []) :
    base.within offset s.leave = (base.within offset s).leave := by
  cases h : s.enclosing with
  | nil => exact absurd h he
  | cons e es => cases es <;> simp [within, leave, enclosingOn, h]

theorem within_openBracket (b : Bracket) (position : Nat) :
    base.within offset (s.openBracket b position) =
      (base.within offset s).openBracket b (offset + position) := by
  cases b <;> simp [within, openBracket, Nat.add_assoc]

/-- A bracket of the piece closes alike in the larger text. -/
theorem within_closeBracket_of_ne (hs : s.Coherent) {b : Bracket} (hb : s.depthOf b ≠ 0) :
    base.within offset (s.closeBracket b) = (base.within offset s).closeBracket b := by
  have hd : (base.within offset s).depthOf b ≠ 0 := by
    rw [depthOf_within]
    omega
  obtain ⟨e, he, heb⟩ := hs.mem_opened hb
  have hopen : (s.opened.map (fun e => (e.1, offset + e.2)) ++ base.opened).eraseP (·.1 == b) =
      (s.opened.eraseP (·.1 == b)).map (fun e => (e.1, offset + e.2)) ++ base.opened := by
    rw [List.eraseP_append_left (a := (e.1, offset + e.2)) heb _ (List.mem_map.2 ⟨e, he, rfl⟩),
      List.eraseP_map]
    rfl
  rw [closeBracket, closeBracket, if_neg hb, if_neg hd]
  cases b <;> simp only [within, depthOf] at hopen hb ⊢ <;> rw [hopen] <;> simp <;> omega

/-- A closer that closes nothing in the piece is ignored in the larger text too if nothing of its
kind is open there. -/
theorem within_closeBracket_of_eq {b : Bracket} (hb : s.depthOf b = 0)
    (hbase : base.depthOf b = 0) :
    base.within offset (s.closeBracket b) = (base.within offset s).closeBracket b := by
  have hd : (base.within offset s).depthOf b = 0 := by
    rw [depthOf_within, hb, hbase]
  rw [closeBracket_of_depthOf hb, closeBracket_of_depthOf hd]
  rfl

theorem within_substitute (position : Nat) :
    base.within offset
        ({ s with exprDepths := s.braces :: s.exprDepths }.enter .templateExpr position) =
      { base.within offset s with
          exprDepths := (base.within offset s).braces :: (base.within offset s).exprDepths }.enter
        .templateExpr (offset + position) := by
  rw [within_enter]
  rfl

theorem within_resume (hs : s.Coherent) (hctx : s.context = .templateExpr) :
    base.within offset { s with exprDepths := s.exprDepths.tail }.leave =
      { base.within offset s with exprDepths := (base.within offset s).exprDepths.tail }.leave := by
  obtain ⟨d, ds, hds⟩ := List.exists_cons_of_ne_nil (hs.exprDepths_ne_nil hctx)
  rw [within_leave (s := { s with exprDepths := s.exprDepths.tail })
    (hs.enclosing_ne_nil (by rw [hctx]; decide))]
  simp [within, hds]

/-! ## The same step -/

/-- The character does not close a bracket of `base` where the piece is in the state `s`: if it
closes nothing in the piece, nothing of its kind is open around the piece either, and no
substitution waits for it. -/
def KeepsWithin (base s : State) (c : Char) : Prop :=
  ∀ b, Bracket.ofCloser? c = some b → s.inCode = true → s.closesExpr c = false →
    s.depthOf b = 0 → base.depthOf b = 0 ∧ (b = .brace → base.context = .normal)

theorem closesExpr_within (hb : base.Coherent) (hs : s.Coherent) {c : Char}
    (hc : KeepsWithin base s c) : (base.within offset s).closesExpr c = s.closesExpr c := by
  by_cases hbrace : c = '}'
  · subst hbrace
    rw [closesExpr, closesExpr, context_within hs]
    cases hctx : s.context with
    | normal =>
      -- a substitution around the piece began with fewer curly brackets than are open now
      have hx := hs.exprDepths_eq_nil hctx
      suffices base.context = .templateExpr →
          base.exprDepths.head? ≠ some (base.braces + s.braces) by
        simpa [within, hx] using this
      intro hbase hhead
      have hle := hb.head_exprDepths_le _ hhead
      have hz : s.braces = 0 := by omega
      have hkeep := hc .brace rfl (by rw [inCode, hctx]; rfl) (by rw [closesExpr, hctx]; rfl) hz
      rw [hkeep.2 rfl] at hbase
      cases hbase
    | templateExpr =>
      obtain ⟨d, ds, hds⟩ := List.exists_cons_of_ne_nil (hs.exprDepths_ne_nil hctx)
      simp [within, hds]
    | _ => rfl
  · have hne : (c == '}') = false := beq_false_of_ne hbrace
    rw [closesExpr, closesExpr, hne]
    rfl

/-- A step of code is the same in the larger text. -/
theorem stepCode_within (hb : base.Coherent) (hs : s.Coherent) (hcode : s.inCode = true)
    {past past' : Text} {c : Char} {rest : Text} {position : Nat} (hc : KeepsWithin base s c)
    (hpast : c = '/' → RegexLiteral.beginsAfter past' = RegexLiteral.beginsAfter past) :
    (base.within offset s).stepCode past' c rest (offset + position) =
      ((s.stepCode past c rest position).1,
        base.within offset (s.stepCode past c rest position).2) := by
  have hw : RegexLiteral.width? past' c rest = RegexLiteral.width? past c rest := by
    by_cases h : c = '/'
    · simp [RegexLiteral.width?, h, hpast h]
    · simp [RegexLiteral.width?, h]
  unfold stepCode
  rw [hw, closesExpr_within hb hs hc]
  split
  · rw [within_enter]
  split
  · rw [within_enter]
  split
  · rw [within_enter]
  split
  · rfl
  split
  · rw [within_openBracket]
  split
  · rename_i hx
    simp only [closesExpr, Bool.and_eq_true, beq_iff_eq] at hx
    rw [within_resume hs hx.1.2]
  split
  · rename_i hx _ b hcl
    simp only [Bool.not_eq_true] at hx
    by_cases hd : s.depthOf b = 0
    · rw [within_closeBracket_of_eq hd (hc b hcl hcode hx hd).1]
    · rw [within_closeBracket_of_ne hs hd]
  · rfl

theorem stepString_within (hs : s.Coherent) (hcode : s.inCode = false) (quote c : Char) :
    (base.within offset s).stepString quote c =
      ((s.stepString quote c).map fun r => (r.1, base.within offset r.2)).mapError
        (Fault.moved offset) := by
  have he := hs.enclosing_ne_nil (Coherent.ne_normal_of_inCode hcode)
  unfold stepString
  split
  · rfl
  split
  · rw [← within_leave he]
    rfl
  split
  · simp [within, he, Except.map, Except.mapError, Fault.moved]
  · rfl

/-- **A step is the same in the larger text**, if what decides about regular expression literals is
the same and no bracket around the piece closes. -/
theorem step_within (hb : base.Coherent) (hbase : base.inCode = true) (hs : s.Coherent)
    {past past' : Text} {c : Char} {rest : Text} {position : Nat} (hc : KeepsWithin base s c)
    (hpast : c = '/' → s.inCode = true →
      RegexLiteral.beginsAfter past' = RegexLiteral.beginsAfter past) :
    (base.within offset s).step past' c rest (offset + position) =
      ((s.step past c rest position).map fun r => (r.1, base.within offset r.2)).mapError
        (Fault.moved offset) := by
  by_cases hcode : s.inCode = true
  · rw [step_of_inCode hcode, step_of_inCode (by rw [inCode_within hbase hs]; exact hcode),
      stepCode_within hb hs hcode hc (fun h => hpast h hcode)]
    rfl
  · have hout : s.inCode = false := by simpa using hcode
    have hn := Coherent.ne_normal_of_inCode hout
    have he := hs.enclosing_ne_nil hn
    have hctx : (base.within offset s).context = _ := context_within hs
    rw [if_neg hn] at hctx
    unfold step
    rw [hctx]
    split
    case h_1 h => rw [inCode, h] at hout; cases hout
    case h_2 h => rw [inCode, h] at hout; cases hout
    case h_3 =>
      unfold stepLineComment
      split
      · rw [← within_leave he]; rfl
      · rfl
    case h_4 =>
      unfold stepBlockComment
      split
      · rw [← within_leave he]; rfl
      · rfl
    case h_5 => exact stepString_within hs hout _ _
    case h_6 => exact stepString_within hs hout _ _
    case h_7 =>
      unfold stepTemplate
      split
      · rfl
      split
      · rw [← within_leave he]; rfl
      split
      · rw [← within_substitute]; rfl
      · rfl

/-! ## A piece outside everything -/

/-- Outside everything nothing is open that the piece could close. -/
theorem keepsWithin_of_atTopLevel (hb : base.atTopLevel = true) (s : State) (c : Char) :
    KeepsWithin base s c := by
  intro b _ _ _ _
  simp only [atTopLevel, Bool.and_eq_true, beq_iff_eq, depth] at hb
  refine ⟨?_, fun _ => hb.1⟩
  cases b <;> simp only [depthOf] <;> omega

theorem context_within_of_atTopLevel (hb : base.atTopLevel = true) (hs : s.Coherent) :
    (base.within offset s).context = s.context := by
  simp only [atTopLevel, Bool.and_eq_true, beq_iff_eq] at hb
  rw [context_within hs, hb.1]
  split
  · rename_i h
    exact h.symm
  · rfl

theorem atTopLevel_within (hb : base.atTopLevel = true) (hs : s.Coherent) :
    (base.within offset s).atTopLevel = s.atTopLevel := by
  have hd : base.depth = 0 := by
    simp only [atTopLevel, Bool.and_eq_true, beq_iff_eq] at hb
    exact hb.2
  rw [atTopLevel, atTopLevel, context_within_of_atTopLevel hb hs, depth_within, hd, Nat.zero_add]

/-- A substitution stands in the text of a template literal, which stands in code. -/
theorem enclosing_of_templateExpr (hs : s.Coherent) (hctx : s.context = .templateExpr) :
    ∃ start e es, s.enclosing = (.template, start) :: e :: es := by
  have hn := hs.nested
  obtain ⟨⟨context, start⟩, others, he⟩ :=
    List.exists_cons_of_ne_nil (hs.enclosing_ne_nil (by rw [hctx]; decide))
  rw [contexts, he, hctx, List.map_cons] at hn
  have hsits : context = .template := hn.sitsOn
  subst hsits
  cases others with
  | nil => cases hn.tail.eq_normal
  | cons e es => exact ⟨start, e, es, he⟩

/-- Where no line comment is left, what is open at the end of the text is open in the piece. -/
theorem finish_within_of_ne (hbase : base.Coherent) (hb : base.atTopLevel = true) (hs : s.Coherent)
    (hctx : s.context ≠ .lineComment) :
    (base.within offset s).finish.2 = s.finish.2.map (Fault.moved offset) := by
  have hd : base.depth = 0 := by
    simp only [atTopLevel, Bool.and_eq_true, beq_iff_eq] at hb
    exact hb.2
  have hsame : (base.within offset s).context = s.context := context_within_of_atTopLevel hb hs
  have hstart : s.context ≠ .normal →
      (base.within offset s).contextStart = offset + s.contextStart := by
    intro h
    simp [within, hs.enclosing_ne_nil h]
  simp only [finish, hsame, if_neg hctx]
  cases h : s.context with
  | lineComment => exact absurd h hctx
  | normal =>
    have hopened : (base.within offset s).opened = s.opened.map fun e => (e.1, offset + e.2) := by
      simp [within, opened_eq_nil hbase hd]
    simp only [hopened]
    cases s.opened <;> rfl
  | templateExpr =>
    obtain ⟨start, e, es, he⟩ := enclosing_of_templateExpr hs h
    have henclosing : (base.within offset s).enclosing =
        (.template, offset + start) :: enclosingOn base offset (e :: es) := by
      simp only [within, he, enclosingOn]
    simp only [henclosing, he]
    rfl
  | blockComment | singleQuote | doubleQuote | template =>
    simp only [hstart (by rw [h]; decide)]
    rfl

/-- What is open at the end of a text is what the piece at its end leaves open, if the piece begins
outside everything. -/
theorem finish_within (hbase : base.Coherent) (hb : base.atTopLevel = true) (hs : s.Coherent) :
    (base.within offset s).finish.2 = s.finish.2.map (Fault.moved offset) := by
  by_cases hctx : s.context = .lineComment
  · have hout : s.inCode = false := by
      rw [inCode, hctx]
      rfl
    have hleave : ∀ t : State, t.context = .lineComment → t.leave.context ≠ .lineComment →
        t.finish.2 = t.leave.finish.2 := by
      intro t ht hne
      simp only [finish, if_pos ht, if_neg hne]
    have hcode := hs.inCode_leave hout
    have hne : s.leave.context ≠ .lineComment := by
      intro h
      rw [inCode, h] at hcode
      cases hcode
    have hwithin : base.within offset s.leave = (base.within offset s).leave :=
      within_leave (hs.enclosing_ne_nil (Coherent.ne_normal_of_inCode hout))
    have hne' : (base.within offset s).leave.context ≠ .lineComment := by
      rw [← hwithin, context_within_of_atTopLevel hb (hs.leave hout)]
      exact hne
    rw [hleave s hctx hne, hleave _ (by rw [context_within_of_atTopLevel hb hs, hctx]) hne',
      ← hwithin, finish_within_of_ne hbase hb (hs.leave hout) hne]
  · exact finish_within_of_ne hbase hb hs hctx

end State

end ModuleSurface.Lexing
