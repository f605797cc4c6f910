import Mathlib.Data.List.Chain
import ModuleSurface.Lexing.Pass

/-!
# Coherence of the lexical state

The lexical state keeps three bracket counters, the list of the open brackets, a stack of
constructs and a stack of bracket depths, and every branch of a step updates a few of them.  This
file shows that they never disagree.

* **What a step can do** — `Move` lists the seven things that may happen to a state, and
  `move_of_step` says that every step is one of them.  Everything below is proved from the moves;
  no other proof looks into the branches of a step again.
* **Coherence** — `Coherent` says that the counters count the open brackets, that the constructs
  nest (`Context.Nested`) and that every substitution of a template literal has its depth on
  record; `Coherent.move` and `Coherent.finish` preserve it.
-/

namespace ModuleSurface.Lexing

/-! ## How constructs nest -/

namespace Context

/-- May a construct stand directly inside another one?  Comments and literals stand in code,
substitutions in the text of a template literal, and the outermost code in nothing. -/
def SitsOn : Context → Context → Prop
  | normal, _ => False
  | templateExpr, outer => outer = template
  | _, outer => outer.inCode = true

/-- A stack of constructs, innermost first: each sits on the next one, and the last one is the code
outside everything. -/
inductive Nested : List Context → Prop
  | outermost : Nested [normal]
  | inside {inner outer : Context} {others : List Context} :
      inner.SitsOn outer → Nested (outer :: others) → Nested (inner :: outer :: others)

/-- A comment or a literal sits on code. -/
theorem sitsOn_of_inCode {inner outer : Context} (hi : inner.inCode = false)
    (ho : outer.inCode = true) : inner.SitsOn outer := by
  cases inner <;> first | exact ho | cases hi

theorem inCode_of_sitsOn {inner outer : Context} (hi : inner.inCode = false)
    (h : inner.SitsOn outer) : outer.inCode = true := by
  cases inner <;> first | exact h | cases hi

/-- Only the outermost code has nothing around it. -/
theorem Nested.eq_normal {c : Context} (h : Nested [c]) : c = normal := by
  cases h
  rfl

theorem Nested.ne_normal {c d : Context} {others : List Context} (h : Nested (c :: d :: others)) :
    c ≠ normal := by
  cases h with
  | inside hs _ =>
    rintro rfl
    exact hs

theorem Nested.sitsOn {c d : Context} {others : List Context} (h : Nested (c :: d :: others)) :
    c.SitsOn d := by
  cases h with
  | inside hs _ => exact hs

theorem Nested.tail {c d : Context} {others : List Context} (h : Nested (c :: d :: others)) :
    Nested (d :: others) := by
  cases h with
  | inside _ ht => exact ht

/-- Neighbours in a nested stack sit on each other. -/
theorem Nested.isChain {stack : List Context} (h : Nested stack) : stack.IsChain SitsOn := by
  induction h with
  | outermost => exact .singleton _
  | inside hs _ ih => exact .cons_cons hs ih

/-- At the bottom of a nested stack is the code outside everything. -/
theorem Nested.getLast?_eq {stack : List Context} (h : Nested stack) :
    stack.getLast? = some normal := by
  induction h with
  | outermost => rfl
  | inside _ _ ih => rw [List.getLast?_cons_cons, ih]

end Context

namespace State

/-- The constructs the pass is in, innermost first. -/
def contexts (s : State) : List Context :=
  s.context :: s.enclosing.map (·.1)

/-! ## What a step can do -/

/-- What one step may make of a state. -/
inductive Move (s : State) : State → Prop
  /-- Nothing changes. -/
  | stay : Move s s
  /-- A comment, a string or a template literal begins. -/
  | enter {context : Context} {position : Nat} :
      s.inCode = true → context.inCode = false → Move s (s.enter context position)
  /-- A substitution begins in a template literal. -/
  | substitute {position : Nat} :
      s.context = .template →
        Move s ({ s with exprDepths := s.braces :: s.exprDepths }.enter .templateExpr position)
  /-- A comment, a string or a template literal ends. -/
  | leave : s.inCode = false → Move s s.leave
  /-- A substitution ends, at the number of curly brackets it began with. -/
  | resume :
      s.context = .templateExpr → s.exprDepths.head? = some s.braces →
        Move s { s with exprDepths := s.exprDepths.tail }.leave
  /-- A bracket opens. -/
  | openBracket {b : Bracket} {position : Nat} :
      s.inCode = true → Move s (s.openBracket b position)
  /-- A bracket closes, or is counted as one that closes nothing. -/
  | closeBracket {b : Bracket} :
      s.inCode = true →
        (b = .brace → s.context = .templateExpr → s.exprDepths.head? ≠ some s.braces) →
          Move s (s.closeBracket b)

theorem inCode_ofQuote? {c : Char} {literal : Context} (h : Context.ofQuote? c = some literal) :
    literal.inCode = false := by
  unfold Context.ofQuote? at h
  split at h
  · cases h; rfl
  split at h
  · cases h; rfl
  split at h
  · cases h; rfl
  · cases h

theorem ofCloser?_eq_brace {c : Char} (h : Bracket.ofCloser? c = some .brace) : c = '}' := by
  unfold Bracket.ofCloser? at h
  split at h
  · assumption
  split at h
  · cases h
  split at h <;> cases h

theorem move_stepCode {s : State} (hs : s.inCode = true) (past : Text) (c : Char) (rest : Text)
    (position : Nat) : s.Move (s.stepCode past c rest position).2 := by
  unfold stepCode
  split
  · exact .enter hs rfl
  split
  · exact .enter hs rfl
  split
  · rename_i literal hq
    exact .enter hs (inCode_ofQuote? hq)
  split
  · exact .stay
  split
  · exact .openBracket hs
  split
  · rename_i hc
    simp only [closesExpr, Bool.and_eq_true, beq_iff_eq] at hc
    exact .resume hc.1.2 hc.2
  split
  · rename_i hc _ b hb
    refine .closeBracket hs ?_
    rintro rfl hctx hhead
    exact hc (by simp [closesExpr, ofCloser?_eq_brace hb, hctx, hhead])
  · exact .stay

theorem move_stepString {s s' : State} (hs : s.inCode = false) {quote c : Char} {k : Nat}
    (h : s.stepString quote c = .ok (k, s')) : s.Move s' := by
  unfold stepString at h
  split at h
  · cases h; exact .stay
  split at h
  · cases h; exact .leave hs
  split at h
  · cases h
  · cases h; exact .stay

theorem move_stepLineComment {s : State} (hs : s.inCode = false) (c : Char) (rest : Text) :
    s.Move (s.stepLineComment c rest).2 := by
  unfold stepLineComment
  split
  · exact .leave hs
  · exact .stay

theorem move_stepBlockComment {s : State} (hs : s.inCode = false) (c : Char) (rest : Text) :
    s.Move (s.stepBlockComment c rest).2 := by
  unfold stepBlockComment
  split
  · exact .leave hs
  · exact .stay

theorem move_stepTemplate {s : State} (hs : s.context = .template) (c : Char) (rest : Text)
    (position : Nat) : s.Move (s.stepTemplate c rest position).2 := by
  unfold stepTemplate
  split
  · exact .stay
  split
  · exact .leave (by rw [inCode, hs]; rfl)
  split
  · exact .substitute hs
  · exact .stay

/-- Every step that does not fail is one of the moves. -/
theorem move_of_step {s s' : State} {past : Text} {c : Char} {rest : Text} {position k : Nat}
    (h : s.step past c rest position = .ok (k, s')) : s.Move s' := by
  have out : ∀ {r : Nat × State}, s.Move r.2 → (.ok r : Except Fault _) = .ok (k, s') →
      s.Move s' := by
    intro r hm hr
    rwa [Except.ok.inj hr] at hm
  unfold step at h
  split at h
  case h_1 hctx => exact out (move_stepCode (by rw [inCode, hctx]; rfl) ..) h
  case h_2 hctx => exact out (move_stepCode (by rw [inCode, hctx]; rfl) ..) h
  case h_3 hctx => exact out (move_stepLineComment (by rw [inCode, hctx]; rfl) ..) h
  case h_4 hctx => exact out (move_stepBlockComment (by rw [inCode, hctx]; rfl) ..) h
  case h_5 hctx => exact move_stepString (by rw [inCode, hctx]; rfl) h
  case h_6 hctx => exact move_stepString (by rw [inCode, hctx]; rfl) h
  case h_7 hctx => exact out (move_stepTemplate hctx ..) h

/-- In code a step is a step of code. -/
theorem step_of_inCode {s : State} (hs : s.inCode = true) (past : Text) (c : Char) (rest : Text)
    (position : Nat) : s.step past c rest position = .ok (s.stepCode past c rest position) := by
  unfold step
  split
  case h_1 | h_2 => rfl
  all_goals
    rename_i hctx
    rw [inCode, hctx] at hs
    cases hs

/-- A step fails only at a newline in a string, and the fault is at the opening quote. -/
theorem step_eq_error {s : State} {past : Text} {c : Char} {rest : Text} {position : Nat}
    {f : Fault} (h : s.step past c rest position = .error f) :
    (s.context = .singleQuote ∨ s.context = .doubleQuote) ∧ c = '\n' ∧
      f = ⟨.unterminatedString, s.contextStart⟩ := by
  have string : ∀ quote : Char, s.stepString quote c = .error f →
      c = '\n' ∧ f = ⟨.unterminatedString, s.contextStart⟩ := by
    intro quote h
    unfold stepString at h
    split at h
    · cases h
    split at h
    · cases h
    split at h
    · rename_i hc
      cases h
      exact ⟨by simpa using hc, rfl⟩
    · cases h
  unfold step at h
  split at h
  case h_5 hctx => exact ⟨.inl hctx, string _ h⟩
  case h_6 hctx => exact ⟨.inr hctx, string _ h⟩
  all_goals cases h

/-! ## What the operations do to the parts of a state -/

@[simp] theorem contexts_enter (s : State) (context : Context) (position : Nat) :
    (s.enter context position).contexts = context :: s.contexts := rfl

theorem contexts_leave {s : State} (h : s.enclosing ≠ []) :
    s.contexts = s.context :: s.leave.contexts := by
  obtain ⟨e, outer, he⟩ := List.exists_cons_of_ne_nil h
  simp [contexts, leave, he]

@[simp] theorem contexts_openBracket (s : State) (b : Bracket) (position : Nat) :
    (s.openBracket b position).contexts = s.contexts := by
  cases b <;> rfl

@[simp] theorem exprDepths_openBracket (s : State) (b : Bracket) (position : Nat) :
    (s.openBracket b position).exprDepths = s.exprDepths := by
  cases b <;> rfl

@[simp] theorem opened_openBracket (s : State) (b : Bracket) (position : Nat) :
    (s.openBracket b position).opened = (b, position) :: s.opened := by
  cases b <;> rfl

theorem context_openBracket (s : State) (b : Bracket) (position : Nat) :
    (s.openBracket b position).context = s.context := by
  cases b <;> rfl

theorem depthOf_openBracket (s : State) (b b' : Bracket) (position : Nat) :
    (s.openBracket b position).depthOf b' = s.depthOf b' + (if b = b' then 1 else 0) := by
  cases b <;> cases b' <;> rfl

theorem context_closeBracket (s : State) (b : Bracket) :
    (s.closeBracket b).context = s.context := by
  unfold closeBracket
  split
  · rfl
  · cases b <;> rfl

@[simp] theorem contexts_closeBracket (s : State) (b : Bracket) :
    (s.closeBracket b).contexts = s.contexts := by
  unfold closeBracket
  split
  · rfl
  · cases b <;> rfl

@[simp] theorem exprDepths_closeBracket (s : State) (b : Bracket) :
    (s.closeBracket b).exprDepths = s.exprDepths := by
  unfold closeBracket
  split
  · rfl
  · cases b <;> rfl

theorem opened_closeBracket {s : State} {b : Bracket} (h : s.depthOf b ≠ 0) :
    (s.closeBracket b).opened = s.opened.eraseP (·.1 == b) := by
  rw [closeBracket, if_neg h]
  cases b <;> rfl

theorem depthOf_closeBracket {s : State} {b : Bracket} (h : s.depthOf b ≠ 0) (b' : Bracket) :
    (s.closeBracket b).depthOf b' = s.depthOf b' - (if b = b' then 1 else 0) := by
  rw [closeBracket, if_neg h]
  cases b <;> cases b' <;> rfl

theorem closeBracket_of_depthOf {s : State} {b : Bracket} (h : s.depthOf b = 0) :
    s.closeBracket b = { s with clamped := s.clamped + 1 } :=
  if_pos h

/-! ## Coherence -/

/-- The parts of a state agree with each other. -/
structure Coherent (s : State) : Prop where
  /-- Each counter counts the open brackets of its kind. -/
  depthOf_eq : ∀ b : Bracket, s.depthOf b = s.opened.countP (·.1 == b)
  /-- The constructs nest. -/
  nested : Context.Nested s.contexts
  /-- Every substitution has its depth on record. -/
  length_exprDepths : s.exprDepths.length = s.contexts.count .templateExpr
  /-- Inner substitutions do not begin with fewer curly brackets than outer ones. -/
  pairwise_exprDepths : s.exprDepths.Pairwise (· ≥ ·)
  /-- The curly brackets around the innermost substitution are still open. -/
  head_exprDepths_le : ∀ d, s.exprDepths.head? = some d → d ≤ s.braces

namespace Coherent

variable {s : State}

theorem fresh : Coherent {} where
  depthOf_eq b := by cases b <;> rfl
  nested := .outermost
  length_exprDepths := rfl
  pairwise_exprDepths := .nil
  head_exprDepths_le d h := by cases h

/-- Nothing is around the code outside everything, and only around it. -/
theorem enclosing_eq_nil_iff (h : s.Coherent) : s.enclosing = [] ↔ s.context = .normal := by
  have hn := h.nested
  rw [contexts] at hn
  cases he : s.enclosing with
  | nil =>
    rw [he, List.map_nil] at hn
    exact ⟨fun _ => hn.eq_normal, fun _ => rfl⟩
  | cons e outer =>
    rw [he, List.map_cons] at hn
    exact ⟨fun h => (List.cons_ne_nil _ _ h).elim, fun h => absurd h hn.ne_normal⟩

theorem enclosing_ne_nil (h : s.Coherent) (hctx : s.context ≠ .normal) : s.enclosing ≠ [] :=
  fun he => hctx (h.enclosing_eq_nil_iff.1 he)

theorem nested_leave (h : s.Coherent) (hctx : s.context ≠ .normal) :
    s.context.SitsOn s.leave.context ∧ Context.Nested s.leave.contexts := by
  have hn := h.nested
  rw [contexts_leave (h.enclosing_ne_nil hctx), contexts] at hn
  exact ⟨hn.sitsOn, hn.tail⟩

/-- A substitution has its depth on record. -/
theorem exprDepths_ne_nil (h : s.Coherent) (hctx : s.context = .templateExpr) :
    s.exprDepths ≠ [] := by
  intro he
  have hl := h.length_exprDepths
  rw [he, contexts, hctx, List.count_cons_self] at hl
  simp at hl

theorem ne_normal_of_inCode (hs : s.inCode = false) : s.context ≠ .normal := by
  intro h
  rw [inCode, h] at hs
  cases hs

theorem enter (h : s.Coherent) {context : Context} {position : Nat} (hs : s.inCode = true)
    (hc : context.inCode = false) : (s.enter context position).Coherent where
  depthOf_eq := h.depthOf_eq
  nested := .inside (Context.sitsOn_of_inCode hc hs) h.nested
  length_exprDepths := by
    have hne : context ≠ .templateExpr := by
      rintro rfl
      cases hc
    rw [contexts_enter, List.count_cons_of_ne hne]
    exact h.length_exprDepths
  pairwise_exprDepths := h.pairwise_exprDepths
  head_exprDepths_le := h.head_exprDepths_le

theorem substitute (h : s.Coherent) {position : Nat} (hctx : s.context = .template) :
    ({ s with exprDepths := s.braces :: s.exprDepths }.enter .templateExpr position).Coherent where
  depthOf_eq := h.depthOf_eq
  nested := .inside hctx h.nested
  length_exprDepths := by
    rw [contexts_enter, List.count_cons_self]
    exact congrArg (· + 1) h.length_exprDepths
  pairwise_exprDepths := by
    refine .cons ?_ h.pairwise_exprDepths
    -- the depths on record are at most the innermost one, which is at most the counter
    intro d hd
    have hp := h.pairwise_exprDepths
    have hh := h.head_exprDepths_le
    cases he : s.exprDepths with
    | nil => rw [he] at hd; cases hd
    | cons e es =>
      rw [he] at hd hp hh
      have hle := hh e rfl
      rcases List.mem_cons.1 hd with rfl | hd
      · exact hle
      · exact Nat.le_trans (List.rel_of_pairwise_cons hp hd) hle
  head_exprDepths_le d hd := by
    cases hd
    exact Nat.le_refl _

theorem leave (h : s.Coherent) (hs : s.inCode = false) : s.leave.Coherent := by
  have hctx := ne_normal_of_inCode hs
  have hne := h.enclosing_ne_nil hctx
  have hl := h.length_exprDepths
  have hexpr : s.context ≠ .templateExpr := by
    intro h
    rw [inCode, h] at hs
    cases hs
  rw [contexts_leave hne, List.count_cons_of_ne hexpr] at hl
  obtain ⟨e, outer, he⟩ := List.exists_cons_of_ne_nil hne
  have hn := (h.nested_leave hctx).2
  rw [State.leave, he] at hl hn ⊢
  exact ⟨h.depthOf_eq, hn, hl, h.pairwise_exprDepths, h.head_exprDepths_le⟩

theorem resume (h : s.Coherent) (hctx : s.context = .templateExpr)
    (hhead : s.exprDepths.head? = some s.braces) :
    ({ s with exprDepths := s.exprDepths.tail }.leave).Coherent := by
  have hne : s.enclosing ≠ [] := h.enclosing_ne_nil (by rw [hctx]; decide)
  have hl := h.length_exprDepths
  have hp := h.pairwise_exprDepths
  have hn := (h.nested_leave (by rw [hctx]; decide)).2
  rw [contexts_leave hne, hctx, List.count_cons_self] at hl
  obtain ⟨e, outer, he⟩ := List.exists_cons_of_ne_nil hne
  obtain ⟨ds, hds⟩ : ∃ ds, s.exprDepths = s.braces :: ds := List.head?_eq_some_iff.1 hhead
  rw [hds] at hp hl
  simp only [State.leave, he, hds, List.tail_cons] at hl hn ⊢
  refine ⟨h.depthOf_eq, hn, Nat.succ.inj hl, hp.of_cons, ?_⟩
  intro d hd
  exact List.rel_of_pairwise_cons hp (List.mem_of_head? hd)

theorem openBracket (h : s.Coherent) (b : Bracket) (position : Nat) :
    (s.openBracket b position).Coherent where
  depthOf_eq b' := by
    rw [depthOf_openBracket, opened_openBracket, List.countP_cons, h.depthOf_eq b']
    simp
  nested := by rw [contexts_openBracket]; exact h.nested
  length_exprDepths := by
    rw [exprDepths_openBracket, contexts_openBracket]
    exact h.length_exprDepths
  pairwise_exprDepths := by rw [exprDepths_openBracket]; exact h.pairwise_exprDepths
  head_exprDepths_le d hd := by
    rw [exprDepths_openBracket] at hd
    refine Nat.le_trans (h.head_exprDepths_le d hd) ?_
    have := depthOf_openBracket s b .brace position
    simp only [depthOf] at this
    omega

/-- A bracket that is counted as open is on the list of the open brackets. -/
theorem mem_opened (h : s.Coherent) {b : Bracket} (hb : s.depthOf b ≠ 0) :
    ∃ e ∈ s.opened, (e.1 == b) = true := by
  rw [h.depthOf_eq b] at hb
  exact List.countP_pos_iff.1 (Nat.pos_of_ne_zero hb)

/-- Outside every substitution no depth is on record. -/
theorem exprDepths_eq_nil (h : s.Coherent) (hctx : s.context = .normal) : s.exprDepths = [] := by
  have hl := h.length_exprDepths
  rw [contexts, h.enclosing_eq_nil_iff.2 hctx, hctx] at hl
  exact List.length_eq_zero_iff.1 hl

/-- Where a closing curly bracket does not end a substitution, all the curly brackets around the
innermost substitution and one more are open. -/
theorem head_exprDepths_lt (h : s.Coherent) (hs : s.inCode = true)
    (hb : s.context = .templateExpr → s.exprDepths.head? ≠ some s.braces) {d : Nat}
    (hd : s.exprDepths.head? = some d) : d < s.braces := by
  refine Nat.lt_of_le_of_ne (h.head_exprDepths_le d hd) ?_
  rintro rfl
  cases hctx : s.context with
  | normal =>
    rw [h.exprDepths_eq_nil hctx] at hd
    cases hd
  | templateExpr => exact hb hctx hd
  | _ =>
    rw [inCode, hctx] at hs
    cases hs

theorem closeBracket (h : s.Coherent) {b : Bracket} (hs : s.inCode = true)
    (hb : b = .brace → s.context = .templateExpr → s.exprDepths.head? ≠ some s.braces) :
    (s.closeBracket b).Coherent := by
  by_cases hd : s.depthOf b = 0
  · rw [closeBracket_of_depthOf hd]
    exact ⟨h.depthOf_eq, h.nested, h.length_exprDepths, h.pairwise_exprDepths,
      h.head_exprDepths_le⟩
  refine ⟨?_, ?_, ?_, ?_, ?_⟩
  · intro b'
    rw [depthOf_closeBracket hd, opened_closeBracket hd, h.depthOf_eq b']
    obtain ⟨e, he, heb⟩ := h.mem_opened hd
    obtain ⟨a, l₁, l₂, -, hab, hsplit, herase⟩ :=
      List.exists_of_eraseP (p := fun e => e.1 == b) he heb
    rw [herase, hsplit, List.countP_append, List.countP_append, List.countP_cons]
    have : (a.1 == b') = true ↔ b = b' := by
      rw [beq_iff_eq.1 hab, beq_iff_eq]
    by_cases hbb : b = b'
    · rw [if_pos hbb, if_pos (this.2 hbb)]
      omega
    · rw [if_neg hbb, if_neg (fun h => hbb (this.1 h))]
      omega
  · rw [contexts_closeBracket]; exact h.nested
  · rw [exprDepths_closeBracket, contexts_closeBracket]
    exact h.length_exprDepths
  · rw [exprDepths_closeBracket]; exact h.pairwise_exprDepths
  · intro d hhead
    rw [exprDepths_closeBracket] at hhead
    have hle := h.head_exprDepths_le d hhead
    have hbr := depthOf_closeBracket hd .brace
    simp only [depthOf] at hbr
    by_cases hbb : b = .brace
    · have hlt := h.head_exprDepths_lt hs (hb hbb) hhead
      rw [if_pos hbb] at hbr
      omega
    · rw [if_neg hbb] at hbr
      omega

/-- Every move keeps a state coherent. -/
theorem move (h : s.Coherent) {s' : State} (hm : s.Move s') : s'.Coherent := by
  cases hm with
  | stay => exact h
  | enter hs hc => exact h.enter hs hc
  | substitute hctx => exact h.substitute hctx
  | leave hs => exact h.leave hs
  | resume hctx hhead => exact h.resume hctx hhead
  | openBracket _ => exact h.openBracket _ _
  | closeBracket hs hb => exact h.closeBracket hs hb

theorem step (h : s.Coherent) {s' : State} {past : Text} {c : Char} {rest : Text} {position k : Nat}
    (hstep : s.step past c rest position = .ok (k, s')) : s'.Coherent :=
  h.move (move_of_step hstep)

/-- What is around a comment or a literal is code. -/
theorem inCode_leave (h : s.Coherent) (hs : s.inCode = false) : s.leave.inCode = true :=
  Context.inCode_of_sitsOn hs (h.nested_leave (ne_normal_of_inCode hs)).1

theorem finish (h : s.Coherent) : s.finish.1.Coherent := by
  simp only [State.finish]
  split
  · rename_i hctx
    exact h.leave (by rw [inCode, hctx]; rfl)
  · exact h

/-- At the end of a text no line comment is left. -/
theorem context_finish_ne (h : s.Coherent) : s.finish.1.context ≠ .lineComment := by
  simp only [State.finish]
  split
  · rename_i hctx
    intro hl
    have hc := h.inCode_leave (by rw [inCode, hctx]; rfl)
    rw [inCode, hl] at hc
    cases hc
  · assumption

/-- A construct that is still open at the end of a text has a reason of its own. -/
theorem exists_fault_finish (h : s.Coherent) (hopen : s.finish.1.context ≠ .normal) :
    ∃ f, s.finish.2 = some f ∧ ∀ b, f.reason ≠ .unclosed b := by
  have hline := h.context_finish_ne
  simp only [State.finish] at hopen hline ⊢
  generalize (if s.context = .lineComment then s.leave else s) = t at hopen hline ⊢
  cases hc : t.context with
  | normal => exact absurd hc hopen
  | lineComment => exact absurd hc hline
  | blockComment => exact ⟨_, rfl, fun b hb => nomatch hb⟩
  | singleQuote => exact ⟨_, rfl, fun b hb => nomatch hb⟩
  | doubleQuote => exact ⟨_, rfl, fun b hb => nomatch hb⟩
  | template => exact ⟨_, rfl, fun b hb => nomatch hb⟩
  | templateExpr => exact ⟨_, rfl, fun b hb => nomatch hb⟩

end Coherent

end State

end ModuleSurface.Lexing
