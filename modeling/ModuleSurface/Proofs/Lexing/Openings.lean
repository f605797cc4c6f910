import ModuleSurface.Proofs.Lexing.Action

/-!
# Where constructs and brackets were opened

A pass remembers where each construct that it is in began, and where each open bracket stands.  This
file follows both lists back through the steps of the pass.

* `trace_pass` — the moments of a pass are a chain of actions, each of which reads its delimiter;
* `Trace.exists_opening` — what is on a stack at the end was put there by one of the steps, and no
  later step took it off;
* `exists_enters` and `exists_opens` — the step that entered a construct, or opened a bracket, which
  is open at the end of a pass.
-/

namespace ModuleSurface.Lexing

/-! ## What the steps read -/

/-- The characters that a construct begins with. -/
def Context.delimiter : Context → Text
  | normal => []
  | lineComment => "//".toList
  | blockComment => "/*".toList
  | singleQuote => ['\'']
  | doubleQuote => ['"']
  | template => ['\x60']
  | templateExpr => ['$', '{']

/-- The characters with which something begins that is open behind the action. -/
def Action.delimiter? : Action → Option Text
  | enter context => some context.delimiter
  | substitute => some Context.templateExpr.delimiter
  | openBracket b => some [b.opener]
  | stay | leave | resume | closeBracket _ => none

theorem Context.delimiter_ofQuote? {c : Char} {literal : Context}
    (h : Context.ofQuote? c = some literal) : literal.delimiter = [c] := by
  unfold Context.ofQuote? at h
  split at h
  · rename_i hc
    cases h
    rw [hc]
    rfl
  split at h
  · rename_i hc
    cases h
    rw [hc]
    rfl
  split at h
  · rename_i hc
    cases h
    rw [hc]
    rfl
  · cases h

theorem Bracket.opener_of_ofOpener? {c : Char} {b : Bracket} (h : Bracket.ofOpener? c = some b) :
    b.opener = c := by
  unfold Bracket.ofOpener? at h
  split at h
  · rename_i hc
    cases h
    exact hc.symm
  split at h
  · rename_i hc
    cases h
    exact hc.symm
  split at h
  · rename_i hc
    cases h
    exact hc.symm
  · cases h

namespace State

variable {s s' : State} {past : Text} {c : Char} {rest : Text} {position k : Nat}

/-- The step leads from `s` to `s'` by an action that begins with what was read. -/
def Acts (s s' : State) (position : Nat) (read : Text) : Prop :=
  ∃ a : Action, a.Allowed s ∧ s' = a.apply position s ∧ ∀ d ∈ a.delimiter?, read = d

theorem acts_stay (s : State) (position : Nat) (read : Text) : s.Acts s position read :=
  ⟨.stay, trivial, rfl, by simp [Action.delimiter?]⟩

theorem acts_leave (hs : s.inCode = false) (position : Nat) (read : Text) :
    s.Acts s.leave position read :=
  ⟨.leave, hs, rfl, by simp [Action.delimiter?]⟩

theorem acts_stepCode (hs : s.inCode = true) (past : Text) (c : Char) (rest : Text)
    (position : Nat) :
    s.Acts (s.stepCode past c rest position).2 position
      ((c :: rest).take (s.stepCode past c rest position).1) := by
  have slashes : ∀ d : Char, (c == '/' && rest.head? == some d) = true →
      (c :: rest).take 2 = ['/', d] := by
    intro d h
    simp only [Bool.and_eq_true, beq_iff_eq] at h
    obtain ⟨rfl, hd⟩ := h
    obtain ⟨r, rfl⟩ := List.head?_eq_some_iff.1 hd
    rfl
  unfold stepCode
  split
  · rename_i hline
    exact ⟨.enter .lineComment, ⟨hs, rfl⟩, rfl, by simp [Action.delimiter?, Context.delimiter,
      slashes _ hline]⟩
  split
  · rename_i hblock
    exact ⟨.enter .blockComment, ⟨hs, rfl⟩, rfl, by simp [Action.delimiter?, Context.delimiter,
      slashes _ hblock]⟩
  split
  · rename_i literal hquote
    exact ⟨.enter literal, ⟨hs, inCode_ofQuote? hquote⟩, rfl, by simp [Action.delimiter?,
      Context.delimiter_ofQuote? hquote]⟩
  split
  · exact s.acts_stay _ _
  split
  · rename_i b hopener
    exact ⟨.openBracket b, hs, rfl, by simp [Action.delimiter?,
      Bracket.opener_of_ofOpener? hopener]⟩
  split
  · rename_i hexpr
    simp only [closesExpr, Bool.and_eq_true, beq_iff_eq] at hexpr
    exact ⟨.resume, ⟨hexpr.1.2, hexpr.2⟩, rfl, by simp [Action.delimiter?]⟩
  split
  · rename_i hexpr _ b hcloser
    refine ⟨.closeBracket b, ⟨hs, ?_⟩, rfl, by simp [Action.delimiter?]⟩
    rintro rfl hctx hhead
    exact hexpr (by simp [closesExpr, ofCloser?_eq_brace hcloser, hctx, hhead])
  · exact s.acts_stay _ _

theorem acts_stepTemplate (hs : s.context = .template) (c : Char) (rest : Text) (position : Nat) :
    s.Acts (s.stepTemplate c rest position).2 position
      ((c :: rest).take (s.stepTemplate c rest position).1) := by
  unfold stepTemplate
  split
  · exact s.acts_stay _ _
  split
  · exact acts_leave (by rw [inCode, hs]; rfl) _ _
  split
  · rename_i hexpr
    simp only [Bool.and_eq_true, beq_iff_eq] at hexpr
    obtain ⟨rfl, hd⟩ := hexpr
    obtain ⟨r, rfl⟩ := List.head?_eq_some_iff.1 hd
    exact ⟨.substitute, hs, rfl, by simp [Action.delimiter?, Context.delimiter]⟩
  · exact s.acts_stay _ _

theorem acts_stepString (hs : s.inCode = false) {quote c : Char}
    (h : s.stepString quote c = .ok (k, s')) (position : Nat) (read : Text) :
    s.Acts s' position read := by
  unfold stepString at h
  split at h
  · cases h; exact s.acts_stay _ _
  split at h
  · cases h; exact acts_leave hs _ _
  split at h
  · cases h
  · cases h; exact s.acts_stay _ _

/-- Every step that does not fail is an action, and begins with the delimiter of what it opens. -/
theorem acts_of_step (h : s.step past c rest position = .ok (k, s')) :
    s.Acts s' position ((c :: rest).take k) := by
  unfold step at h
  split at h
  case h_1 hctx =>
    have hacts := acts_stepCode (s := s) (by rw [inCode, hctx]; rfl) past c rest position
    rwa [Except.ok.inj h] at hacts
  case h_2 hctx =>
    have hacts := acts_stepCode (s := s) (by rw [inCode, hctx]; rfl) past c rest position
    rwa [Except.ok.inj h] at hacts
  case h_3 hctx =>
    have hs : s.inCode = false := by rw [inCode, hctx]; rfl
    simp only [stepLineComment] at h
    split at h
    · cases h; exact acts_leave hs _ _
    · cases h; exact s.acts_stay _ _
  case h_4 hctx =>
    have hs : s.inCode = false := by rw [inCode, hctx]; rfl
    simp only [stepBlockComment] at h
    split at h
    · cases h; exact acts_leave hs _ _
    · cases h; exact s.acts_stay _ _
  case h_5 hctx => exact acts_stepString (by rw [inCode, hctx]; rfl) h _ _
  case h_6 hctx => exact acts_stepString (by rw [inCode, hctx]; rfl) h _ _
  case h_7 hctx =>
    have hacts := acts_stepTemplate hctx c rest position
    rwa [Except.ok.inj h] at hacts

end State

/-! ## Traces -/

/-- The moment records a step of a pass over `text`. -/
structure Moment.Recorded (text : Text) (m : Moment) : Prop where
  /-- The state in front of the step is coherent. -/
  coherent : m.before.Coherent
  /-- The step is an action. -/
  acts : m.before.Acts m.after m.index m.read
  /-- What was read stands in the text where the step began. -/
  read_prefix : m.read <+: text.drop m.index
  /-- The step ends behind what it read. -/
  le_stop : m.index + m.read.length ≤ m.stop

theorem Moment.Recorded.coherent_after {text : Text} {m : Moment} (h : m.Recorded text) :
    m.after.Coherent := by
  obtain ⟨a, hallowed, hafter, -⟩ := h.acts
  rw [hafter]
  exact h.coherent.move (hallowed.move m.index)

/-- Moments that lead from the state `s`, at the offset `i`, to the state `t`. -/
inductive Trace (text : Text) : State → Nat → List Moment → State → Prop
  | nil (s : State) (i : Nat) : Trace text s i [] s
  | cons {m : Moment} {ms : List Moment} {t : State} :
      m.Recorded text → Trace text m.after m.stop ms t → Trace text m.before m.index (m :: ms) t

theorem trace_passFrom {text : Text} (s : State) (past rest : Text) (position : Nat)
    (hs : s.Coherent) (hrest : rest = text.drop position) :
    Trace text s position (passFrom s past rest position).moments
      (passFrom s past rest position).state := by
  fun_induction passFrom s past rest position with
  | case1 s past position => exact .nil s position
  | case2 s past position => exact .nil s position
  | case3 s past position c r k s' hstep p m ih =>
    have hm : m.Recorded text :=
      { coherent := hs
        acts := State.acts_of_step hstep
        read_prefix := by
          rw [← hrest]
          exact List.take_prefix k (c :: r)
        le_stop := Nat.add_le_add_left (List.length_take_le k (c :: r)) position }
    refine .cons hm (ih (hs.step hstep) ?_)
    rw [hrest, List.drop_drop]

/-- The moments of a pass lead from a fresh state to its last one. -/
theorem trace_pass (text : Text) : Trace text {} 0 (pass text).moments (pass text).state :=
  trace_passFrom {} [] text 0 .fresh rfl

namespace Trace

variable {text : Text} {s t : State} {i : Nat} {ms : List Moment}

/-- A trace taken apart at one of its moments. -/
theorem split {front behind : List Moment} {m : Moment}
    (h : Trace text s i (front ++ m :: behind) t) :
    Trace text s i front m.before ∧ m.Recorded text ∧ Trace text m.after m.stop behind t := by
  induction front generalizing s i with
  | nil =>
    cases h with
    | cons hm hrest => exact ⟨.nil m.before m.index, hm, hrest⟩
  | cons n front ih =>
    cases h with
    | cons hn hrest =>
      obtain ⟨hfront, hm, hbehind⟩ := ih hrest
      exact ⟨.cons hn hfront, hm, hbehind⟩

theorem recorded (h : Trace text s i ms t) : ∀ n ∈ ms, n.Recorded text := by
  intro n hn
  obtain ⟨front, behind, rfl⟩ := List.append_of_mem hn
  exact h.split.2.1

/-- What holds in front of a trace and behind each of its moments holds at its end. -/
theorem last {P : State → Prop} (h : Trace text s i ms t) (hs : P s)
    (hms : ∀ n ∈ ms, P n.after) : P t := by
  induction h with
  | nil => exact hs
  | @cons m ms t _ _ ih =>
    exact ih (hms m List.mem_cons_self) fun n hn => hms n (List.mem_cons_of_mem _ hn)

theorem le_index (h : Trace text s i ms t) : ∀ n ∈ ms, i ≤ n.index := by
  induction h with
  | nil => simp
  | @cons m ms t hm _ ih =>
    intro n hn
    rcases List.mem_cons.1 hn with rfl | hn
    · exact Nat.le_refl _
    · have := ih n hn
      have := hm.le_stop
      omega

/-! ## Stacks along a trace -/

section Stacks

variable {α : Type} {view : State → List α}

/-- Every step of a pass over `text` leaves the list as it is, takes one entry from its front, or
puts one there. -/
def Stacked (text : Text) (view : State → List α) : Prop :=
  ∀ m : Moment, m.Recorded text → view m.after = view m.before ∨
    view m.after = (view m.before).tail ∨ ∃ x, view m.after = x :: view m.before

/-- **What is on a stack at the end** was there from the start and never left, or one of the steps
put it on what was below it and no later step took it off. -/
theorem exists_opening (hview : Stacked text view) (h : Trace text s i ms t) {x : α}
    {below : List α} (hx : x :: below <:+ view t) :
    (x :: below <:+ view s ∧ ∀ n ∈ ms, x :: below <:+ view n.after) ∨
      ∃ front m behind, ms = front ++ m :: behind ∧ view m.before = below ∧
        view m.after = x :: below ∧ ∀ n ∈ behind, x :: below <:+ view n.after := by
  induction h with
  | nil => exact .inl ⟨hx, by simp⟩
  | @cons m ms t hm _ ih =>
    rcases ih hx with ⟨hafter, hstays⟩ | ⟨front, n, behind, rfl, hn⟩
    · have hall : ∀ n ∈ m :: ms, x :: below <:+ view n.after := by
        intro n hn
        rcases List.mem_cons.1 hn with rfl | hn
        · exact hafter
        · exact hstays n hn
      rcases hview m hm with hsame | htail | ⟨y, hpush⟩
      · exact .inl ⟨hsame ▸ hafter, hall⟩
      · rw [htail] at hafter
        exact .inl ⟨hafter.trans (List.tail_suffix _), hall⟩
      · rw [hpush] at hafter
        rcases List.suffix_cons_iff.1 hafter with heq | hbefore
        · -- the entry is the one that this step puts on the stack
          refine .inr ⟨[], m, ms, rfl, ?_, hpush.trans heq.symm, hstays⟩
          exact (List.cons.inj heq).2.symm
        · exact .inl ⟨hbefore, hall⟩
    · exact .inr ⟨m :: front, n, behind, rfl, hn⟩

/-- What a stack never sinks below stays on it. -/
theorem suffix_of_length_le (hview : Stacked text view) (h : Trace text s i ms t) {l : List α}
    (hs : l <:+ view s) (hlength : ∀ n ∈ ms, l.length ≤ (view n.after).length) :
    l <:+ view t := by
  induction h with
  | nil => exact hs
  | @cons m ms t hm _ ih =>
    refine ih ?_ fun n hn => hlength n (List.mem_cons_of_mem _ hn)
    have hle := hlength m List.mem_cons_self
    rcases hview m hm with hsame | htail | ⟨y, hpush⟩
    · rwa [hsame]
    · rw [htail] at hle ⊢
      cases hbefore : view m.before with
      | nil => rwa [hbefore] at hs
      | cons y others =>
        rw [hbefore] at hs hle
        rcases List.suffix_cons_iff.1 hs with rfl | hs
        · exact absurd hle (Nat.not_succ_le_self others.length)
        · exact hs
    · rw [hpush]
      exact hs.trans (List.suffix_cons y _)

end Stacks

end Trace

/-! ## Constructs -/

namespace State

/-- The constructs that the pass is in with their offsets, innermost first. -/
def stack (s : State) : List (Context × Nat) :=
  (s.context, s.contextStart) :: s.enclosing

theorem stack_leave {s : State} (h : s.enclosing ≠ []) : s.leave.stack = s.stack.tail := by
  obtain ⟨e, outer, he⟩ := List.exists_cons_of_ne_nil h
  simp [stack, leave, he]

@[simp] theorem stack_openBracket (s : State) (b : Bracket) (position : Nat) :
    (s.openBracket b position).stack = s.stack := by
  cases b <;> rfl

@[simp] theorem stack_closeBracket (s : State) (b : Bracket) :
    (s.closeBracket b).stack = s.stack := by
  unfold closeBracket
  split
  · rfl
  · cases b <;> rfl

end State

namespace Moment

variable {text : Text} {m : Moment}

/-- The step reads the delimiter of a construct and goes into it. -/
def Enters (m : Moment) (context : Context) : Prop :=
  m.read = context.delimiter ∧ m.after.stack = (context, m.index) :: m.before.stack

/-- None of the steps `behind` leaves the construct that the step went into. -/
def StaysOpen (m : Moment) (behind : List Moment) : Prop :=
  ∀ n ∈ behind, m.after.stack <:+ n.after.stack

/-- A step changes the constructs by at most one, and a new one begins with its delimiter. -/
theorem Recorded.stack_after (h : m.Recorded text) :
    m.after.stack = m.before.stack ∨ m.after.stack = m.before.stack.tail ∨
      ∃ context, m.Enters context := by
  obtain ⟨a, hallowed, hafter, hread⟩ := h.acts
  simp only [Enters, hafter]
  cases a with
  | stay => exact .inl rfl
  | enter context => exact .inr (.inr ⟨context, hread _ rfl, rfl⟩)
  | substitute => exact .inr (.inr ⟨.templateExpr, hread _ rfl, rfl⟩)
  | leave =>
    have hne := h.coherent.enclosing_ne_nil (State.Coherent.ne_normal_of_inCode hallowed)
    exact .inr (.inl (State.stack_leave hne))
  | resume =>
    have hne := h.coherent.enclosing_ne_nil (by rw [hallowed.1]; decide)
    exact .inr (.inl (State.stack_leave (s := { m.before with
      exprDepths := m.before.exprDepths.tail }) hne))
  | openBracket b => exact .inl (State.stack_openBracket _ b _)
  | closeBracket b => exact .inl (State.stack_closeBracket _ b)

theorem stacked_stack (text : Text) : Trace.Stacked text State.stack := by
  intro m hm
  rcases hm.stack_after with hsame | htail | ⟨context, -, hpush⟩
  · exact .inl hsame
  · exact .inr (.inl htail)
  · exact .inr (.inr ⟨_, hpush⟩)

end Moment

/-- **Where an open construct began**: a step of the pass read its delimiter at the offset that is
on record, and no later step left the construct. -/
theorem exists_enters {text : Text} {context : Context} {start : Nat}
    {below : List (Context × Nat)} (hcontext : context ≠ .normal)
    (h : (context, start) :: below <:+ (pass text).state.stack) :
    ∃ front m behind, (pass text).moments = front ++ m :: behind ∧ m.index = start ∧
      m.Enters context ∧ m.after.stack = (context, start) :: below ∧ m.StaysOpen behind := by
  rcases (trace_pass text).exists_opening (Moment.stacked_stack text) h with
    ⟨hfresh, -⟩ | ⟨front, m, behind, hsplit, hbefore, hafter, hstays⟩
  · have heq : (context, start) :: below = [(.normal, 0)] :=
      hfresh.eq_of_length_le (by simp [State.stack])
    cases heq
    exact absurd rfl hcontext
  · have htrace := trace_pass text
    rw [hsplit] at htrace
    have henters : m.index = start ∧ m.Enters context := by
      rcases htrace.split.2.1.stack_after with hsame | htail | ⟨entered, hread, hpush⟩
      · rw [hafter, hbefore] at hsame
        exact absurd (congrArg List.length hsame) (by simp)
      · rw [hafter, hbefore] at htail
        exact absurd (congrArg List.length htail) (by simp; omega)
      · have heq := hafter.symm.trans hpush
        cases (List.cons.inj heq).1
        exact ⟨rfl, hread, hpush⟩
    refine ⟨front, m, behind, hsplit, henters.1, henters.2, hafter, ?_⟩
    intro n hn
    rw [hafter]
    exact hstays n hn

/-! ## Brackets -/

namespace State

/-- The open brackets of one kind with their offsets, the last opened first. -/
def openedOf (b : Bracket) (s : State) : List (Bracket × Nat) :=
  s.opened.filter (·.1 == b)

theorem Coherent.length_openedOf {s : State} (h : s.Coherent) (b : Bracket) :
    (openedOf b s).length = s.depthOf b := by
  rw [h.depthOf_eq b, List.countP_eq_length_filter]
  rfl

/-- Closing the last bracket of one kind leaves the brackets of the others as they are. -/
theorem filter_eraseP (opened : List (Bracket × Nat)) (b b' : Bracket) :
    (opened.eraseP (·.1 == b')).filter (·.1 == b) =
      if b = b' then (opened.filter (·.1 == b)).tail else opened.filter (·.1 == b) := by
  induction opened with
  | nil => simp
  | cons e others ih =>
    by_cases he : e.1 = b'
    · by_cases hb : b = b' <;> simp [he, hb, Ne.symm]
    · by_cases hb : b = b'
      · subst hb
        simpa [he] using ih
      · rw [if_neg hb] at ih ⊢
        rw [List.eraseP_cons_of_neg (by simpa using he), List.filter_cons, List.filter_cons, ih]

theorem opened_leave (s : State) : s.leave.opened = s.opened := by
  unfold leave
  split <;> rfl

end State

namespace Moment

variable {text : Text} {m : Moment}

/-- The step reads an opening bracket and counts it. -/
def Opens (m : Moment) (b : Bracket) : Prop :=
  m.read = [b.opener] ∧ m.after = m.before.openBracket b m.index

/-- None of the steps `behind` closes the bracket of kind `b` that the step opened: behind each of
them more brackets of that kind are open than in front of the step. -/
def NeverCloses (m : Moment) (b : Bracket) (behind : List Moment) : Prop :=
  ∀ n ∈ behind, m.before.depthOf b < n.after.depthOf b

/-- A step leaves the open brackets as they are, opens one, or closes the last one of its kind. -/
theorem Recorded.opened_after (h : m.Recorded text) :
    m.after.opened = m.before.opened ∨ (∃ b, m.Opens b) ∨
      ∃ b, m.after.opened = m.before.opened.eraseP (·.1 == b) := by
  obtain ⟨a, hallowed, hafter, hread⟩ := h.acts
  cases a with
  | stay => exact .inl (by rw [hafter]; rfl)
  | enter context => exact .inl (by rw [hafter]; rfl)
  | substitute => exact .inl (by rw [hafter]; rfl)
  | leave => exact .inl (by rw [hafter]; exact State.opened_leave _)
  | resume => exact .inl (by rw [hafter]; exact State.opened_leave _)
  | openBracket b => exact .inr (.inl ⟨b, hread _ rfl, hafter⟩)
  | closeBracket b =>
    rw [hafter]
    by_cases hd : m.before.depthOf b = 0
    · refine .inl ?_
      simp only [Action.apply, State.closeBracket_of_depthOf hd]
    · exact .inr (.inr ⟨b, State.opened_closeBracket hd⟩)

theorem stacked_openedOf (text : Text) (b : Bracket) :
    Trace.Stacked text (State.openedOf b) := by
  intro m hm
  simp only [State.openedOf]
  rcases hm.opened_after with hsame | ⟨b', -, hopens⟩ | ⟨b', hcloses⟩
  · exact .inl (by rw [hsame])
  · rw [hopens, State.opened_openBracket, List.filter_cons]
    split
    · exact .inr (.inr ⟨_, rfl⟩)
    · exact .inl rfl
  · rw [hcloses, State.filter_eraseP]
    split
    · exact .inr (.inl rfl)
    · exact .inl rfl

/-- A step behind which one more bracket of a kind is open opens it. -/
theorem Recorded.opens_of_openedOf (h : m.Recorded text) {b : Bracket} {start : Nat}
    (hafter : State.openedOf b m.after = (b, start) :: State.openedOf b m.before) :
    m.index = start ∧ m.Opens b := by
  have hgrown := congrArg List.length hafter
  simp only [State.openedOf, List.length_cons] at hafter hgrown
  rcases h.opened_after with hsame | ⟨b', hopens⟩ | ⟨b', hcloses⟩
  · rw [hsame] at hgrown
    omega
  · rw [hopens.2, State.opened_openBracket, List.filter_cons] at hafter hgrown
    split at hafter
    · cases (List.cons.inj hafter).1
      exact ⟨rfl, hopens⟩
    · rename_i hb
      rw [if_neg hb] at hgrown
      omega
  · rw [hcloses, State.filter_eraseP] at hgrown
    split at hgrown
    · rw [List.length_tail] at hgrown
      omega
    · omega

end Moment

/-- The brackets of the list were opened one after the other, all of them in front of `i`. -/
def Dated (opened : List (Bracket × Nat)) (i : Nat) : Prop :=
  opened.Pairwise (fun x y => y.2 < x.2) ∧ ∀ x ∈ opened, x.2 < i

theorem Dated.sublist {opened others : List (Bracket × Nat)} {i j : Nat} (h : Dated opened i)
    (hsub : others.Sublist opened) (hij : i ≤ j) : Dated others j :=
  ⟨h.1.sublist hsub, fun x hx => Nat.lt_of_lt_of_le (h.2 x (hsub.subset hx)) hij⟩

theorem Moment.Recorded.dated {text : Text} {m : Moment} (h : m.Recorded text)
    (hbefore : Dated m.before.opened m.index) : Dated m.after.opened m.stop := by
  have hstop := h.le_stop
  rcases h.opened_after with hsame | ⟨b, hread, hopens⟩ | ⟨b, hcloses⟩
  · rw [hsame]
    exact hbefore.sublist (List.Sublist.refl _) (by omega)
  · rw [hopens, State.opened_openBracket]
    rw [hread, List.length_singleton] at hstop
    refine ⟨List.pairwise_cons.2 ⟨hbefore.2, hbefore.1⟩, ?_⟩
    intro x hx
    rcases List.mem_cons.1 hx with rfl | hx
    · exact hstop
    · exact Nat.lt_trans (hbefore.2 x hx) hstop
  · rw [hcloses]
    exact hbefore.sublist (List.eraseP_sublist ..) (by omega)

theorem Trace.pairwise_opened {text : Text} {s t : State} {i : Nat} {ms : List Moment}
    (h : Trace text s i ms t) (hs : Dated s.opened i) :
    t.opened.Pairwise (fun x y => y.2 < x.2) := by
  induction h with
  | nil => exact hs.1
  | cons hm _ ih => exact ih (hm.dated hs)

/-- A bracket that no step of a trace closes is on the list of the open brackets at its end. -/
theorem Trace.mem_opened {text : Text} {t : State} {n : Moment} {later : List Moment} {b : Bracket}
    (hn : n.Recorded text) (h : Trace text n.after n.stop later t) (hopens : n.Opens b)
    (hnever : n.NeverCloses b later) : (b, n.index) ∈ t.opened := by
  have hpush : State.openedOf b n.after = (b, n.index) :: State.openedOf b n.before := by
    rw [State.openedOf, hopens.2, State.opened_openBracket, List.filter_cons, if_pos (by simp)]
    rfl
  have hsuffix : State.openedOf b n.after <:+ State.openedOf b t := by
    refine h.suffix_of_length_le (Moment.stacked_openedOf text b) (List.suffix_refl _) ?_
    intro k hk
    have hdepth := hnever k hk
    rw [hpush, List.length_cons, hn.coherent.length_openedOf,
      (h.recorded k hk).coherent_after.length_openedOf]
    exact hdepth
  rw [hpush] at hsuffix
  exact (List.mem_filter.1 (hsuffix.subset List.mem_cons_self)).1

/-- **Where the last open bracket was opened**: a step of the pass read it at the offset that is on
record, no later step closed it, and every bracket that was opened later was closed again. -/
theorem exists_opens {text : Text} {b : Bracket} {start : Nat} {others : List (Bracket × Nat)}
    (h : (pass text).state.opened = (b, start) :: others) :
    ∃ front m behind, (pass text).moments = front ++ m :: behind ∧ m.index = start ∧
      m.Opens b ∧ m.NeverCloses b behind ∧
      ∀ between n later b', behind = between ++ n :: later → n.Opens b' →
        ¬ n.NeverCloses b' later := by
  have htrace := trace_pass text
  have hpairwise := htrace.pairwise_opened ⟨.nil, by simp⟩
  have hview : (b, start) :: others.filter (·.1 == b) <:+ State.openedOf b (pass text).state := by
    refine ⟨[], ?_⟩
    rw [List.nil_append, State.openedOf, h, List.filter_cons, if_pos (by simp)]
  rcases htrace.exists_opening (Moment.stacked_openedOf text b) hview with
    ⟨hfresh, -⟩ | ⟨front, m, behind, hsplit, hbefore, hafter, hstays⟩
  · exact absurd (List.suffix_nil.1 hfresh) (List.cons_ne_nil _ _)
  rw [hsplit] at htrace
  obtain ⟨-, hm, hbehind⟩ := htrace.split
  obtain ⟨hindex, hopens⟩ := hm.opens_of_openedOf (hafter.trans (by rw [hbefore]))
  refine ⟨front, m, behind, hsplit, hindex, hopens, ?_, ?_⟩
  · intro n hn
    have hlength := (hstays n hn).length_le
    rw [(hbehind.recorded n hn).coherent_after.length_openedOf, List.length_cons, ← hbefore,
      hm.coherent.length_openedOf] at hlength
    exact hlength
  · intro between n later b' hlater hn hnever
    have hindices := hbehind.le_index n (by simp [hlater])
    rw [hlater] at hbehind
    obtain ⟨-, hrecorded, hend⟩ := hbehind.split
    have hmem := hend.mem_opened hrecorded hn hnever
    have hstop := hm.le_stop
    rw [hopens.1, List.length_singleton] at hstop
    -- the brackets on the list were opened from the last one to the first
    rw [h] at hmem hpairwise
    rcases List.mem_cons.1 hmem with heq | hmem
    · have := congrArg Prod.snd heq
      omega
    · have := List.rel_of_pairwise_cons hpairwise hmem
      omega

end ModuleSurface.Lexing
