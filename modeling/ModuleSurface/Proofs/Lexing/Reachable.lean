import ModuleSurface.Proofs.Lexing.Coherence

/-!
# The states that a pass can reach

A state is reachable if some sequence of steps, over any texts, and of validations at the end of a
text leads to it from a fresh one.  A failed step is no end: the state stays as it was and more text
may follow.

* `Reachable.feed` — feeding a text leads from a reachable state to a reachable one, whether the
  feed fails or not, and so do its single steps.
* `InLiteral` — the pass from the backtick that opens a template literal on, until it closes;
  `braces_eq_of_inLiteral` says that the count of curly brackets is then what it was.
* `reachable_invariants` — everything the parts of a reachable state say about each other.
-/

namespace ModuleSurface.Lexing

namespace State

/-- The states that steps and validations lead to from a fresh state. -/
inductive Reachable : State → Prop
  | fresh : Reachable {}
  | step {s s' : State} {past : Text} {c : Char} {rest : Text} {position k : Nat} :
      Reachable s → s.step past c rest position = .ok (k, s') → Reachable s'
  | finish {s : State} : Reachable s → Reachable s.finish.1

theorem Reachable.coherent {s : State} (h : Reachable s) : s.Coherent := by
  induction h with
  | fresh => exact .fresh
  | step _ hstep ih => exact ih.step hstep
  | finish _ ih => exact ih.finish

/-! ## Feeding a text -/

/-- A property that every step preserves holds along a whole pass and at its end. -/
theorem passFrom_preserves {P : State → Prop}
    (hP : ∀ {s s' : State} {past : Text} {c : Char} {rest : Text} {position k : Nat},
      P s → s.step past c rest position = .ok (k, s') → P s')
    (s : State) (past rest : Text) (position : Nat) (hs : P s) :
    P (passFrom s past rest position).state ∧
      ∀ m ∈ (passFrom s past rest position).moments, P m.before ∧ P m.after := by
  fun_induction passFrom s past rest position with
  | case1 => exact ⟨hs, by simp⟩
  | case2 => exact ⟨hs, by simp⟩
  | case3 s past position c r k s' h p m ih =>
    have hs' := hP hs h
    refine ⟨(ih hs').1, ?_⟩
    intro m' hm'
    rcases List.mem_cons.1 hm' with rfl | hm'
    · exact ⟨hs, hs'⟩
    · exact (ih hs').2 m' hm'

theorem Reachable.feed {s : State} (h : Reachable s) (text : Text) :
    Reachable (s.feed text).state ∧
      ∀ m ∈ (s.feed text).moments, Reachable m.before ∧ Reachable m.after :=
  passFrom_preserves .step s [] text 0 h

/-- A pass that fails ends in the state behind its last step, and the step that fails is one from
that state. -/
theorem passFrom_fault {s : State} {past rest : Text} {position : Nat} {f : Fault}
    (h : (passFrom s past rest position).fault = some f) :
    (passFrom s past rest position).state =
        (((passFrom s past rest position).moments.getLast?).map (·.after)).getD s ∧
      ∃ past' c rest' position', (passFrom s past rest position).unread = c :: rest' ∧
        (passFrom s past rest position).state.step past' c rest' position' = .error f := by
  fun_induction passFrom s past rest position with
  | case1 => cases h
  | case2 s past position c r f' hstep =>
    cases h
    exact ⟨rfl, past, c, r, position, rfl, hstep⟩
  | case3 s past position c r k s' hstep p m ih =>
    obtain ⟨hlast, hfail⟩ := ih h
    refine ⟨?_, hfail⟩
    rw [List.getLast?_cons, Option.map_some, Option.getD_some]
    refine hlast.trans ?_
    cases p.moments.getLast? <;> rfl

/-! ## Template literals -/

/-- The pass is in state `s` and has not left the template literal that a backtick opened in state
`s₀`. -/
inductive InLiteral (s₀ : State) : State → Prop
  | opened {s : State} {past rest : Text} {position k : Nat} :
      s₀.inCode = true → s₀.step past '\x60' rest position = .ok (k, s) → InLiteral s₀ s
  | step {s s' : State} {past : Text} {c : Char} {rest : Text} {position k : Nat} :
      InLiteral s₀ s → s.step past c rest position = .ok (k, s') →
        s₀.enclosing.length < s'.enclosing.length → InLiteral s₀ s'
  | finish {s : State} : InLiteral s₀ s → InLiteral s₀ s.finish.1

/-- What stays true of the state inside a template literal that was opened in state `s₀`: the
literal is still on the stack, and either its text is being read, with the curly brackets of its
start, or its outermost open substitution began with them. -/
def Inside (s₀ s : State) : Prop :=
  ∃ above ds, s.contexts = above ++ .template :: s₀.contexts ∧ s.exprDepths = ds ++ s₀.exprDepths ∧
    (above = [] → s.braces = s₀.braces) ∧ (above ≠ [] → ds.getLast? = some s₀.braces)

/-- The construct directly in the text of a template literal is a substitution. -/
theorem templateExpr_mem_above {above others : List Context} (hne : above ≠ [])
    (h : Context.Nested (above ++ .template :: others)) : .templateExpr ∈ above := by
  induction above with
  | nil => exact absurd rfl hne
  | cons c above ih =>
    cases above with
    | nil =>
      have hs := h.sitsOn
      cases c <;> first | exact List.mem_cons_self | cases hs
    | cons d above => exact List.mem_cons_of_mem _ (ih (by simp) h.tail)

theorem Inside.length_eq {s₀ s : State} {above : List Context} {ds : List Nat} (h₀ : s₀.Coherent)
    (hs : s.Coherent) (hc : s.contexts = above ++ .template :: s₀.contexts)
    (hd : s.exprDepths = ds ++ s₀.exprDepths) : ds.length = above.count .templateExpr := by
  have hl := hs.length_exprDepths
  have hl₀ := h₀.length_exprDepths
  rw [hc, hd, List.length_append, List.count_append, List.count_cons_of_ne (by decide)] at hl
  omega

/-- In code, some construct stands between the literal and the state. -/
theorem Inside.above_ne_nil {s₀ s : State} {above : List Context} (hin : s.inCode = true)
    (hc : s.contexts = above ++ .template :: s₀.contexts) : above ≠ [] := by
  rintro rfl
  rw [inCode, (List.cons.inj hc).1] at hin
  cases hin

theorem Inside.substitute {s₀ s : State} (h₀ : s₀.Coherent) (hs : s.Coherent) (hi : Inside s₀ s)
    {position : Nat} :
    Inside s₀ ({ s with exprDepths := s.braces :: s.exprDepths }.enter .templateExpr position) := by
  obtain ⟨above, ds, hc, hd, hnil, hcons⟩ := hi
  have hlen := Inside.length_eq h₀ hs hc hd
  refine ⟨.templateExpr :: above, s.braces :: ds, congrArg _ hc, congrArg _ hd,
    fun h => absurd h (by simp), ?_⟩
  intro _
  by_cases ha : above = []
  · rw [ha, List.count_nil] at hlen
    rw [List.length_eq_zero_iff.1 hlen, hnil ha]
    rfl
  · rw [List.getLast?_cons, hcons ha]
    rfl

theorem Inside.leave {s₀ s : State} (hs : s.Coherent) (hi : Inside s₀ s) (hout : s.inCode = false) :
    Inside s₀ s.leave ∨ (s.leave.contexts = s₀.contexts ∧ s.leave.braces = s₀.braces) := by
  obtain ⟨above, ds, hc, hd, hnil, hcons⟩ := hi
  have hctx := Coherent.ne_normal_of_inCode hout
  have hb : s.leave.braces = s.braces ∧ s.leave.exprDepths = s.exprDepths := by
    unfold State.leave
    split <;> exact ⟨rfl, rfl⟩
  rw [contexts_leave (hs.enclosing_ne_nil hctx)] at hc
  cases above with
  | nil => exact .inr ⟨(List.cons.inj hc).2, hb.1.trans (hnil rfl)⟩
  | cons a above =>
    have hc := (List.cons.inj hc).2
    refine .inl ⟨above, ds, hc, hb.2.trans hd, ?_, fun _ => hcons (by simp)⟩
    -- only a substitution sits on the text of a literal
    rintro rfl
    have hsit := (hs.nested_leave hctx).1
    rw [(List.cons.inj hc).1] at hsit
    exact absurd (Context.inCode_of_sitsOn hout hsit) (by decide)

theorem Inside.resume {s₀ s : State} (h₀ : s₀.Coherent) (hs : s.Coherent) (hi : Inside s₀ s)
    (hctx : s.context = .templateExpr) (hhead : s.exprDepths.head? = some s.braces) :
    Inside s₀ { s with exprDepths := s.exprDepths.tail }.leave := by
  obtain ⟨above, ds, hc, hd, hnil, hcons⟩ := hi
  have hne := hs.enclosing_ne_nil (by rw [hctx]; decide)
  have hlen := Inside.length_eq h₀ hs hc hd
  have hn := (hs.nested_leave (by rw [hctx]; decide)).2
  obtain ⟨a, above, rfl⟩ :=
    List.exists_cons_of_ne_nil (Inside.above_ne_nil (by rw [inCode, hctx]; rfl) hc)
  have hlast := hcons (by simp)
  have hds : ds ≠ [] := by
    rintro rfl
    cases hlast
  obtain ⟨d, ds, rfl⟩ := List.exists_cons_of_ne_nil hds
  rw [hd] at hhead
  have hdb : d = s.braces := Option.some.inj hhead
  rw [contexts_leave hne] at hc
  obtain ⟨rfl, hout : s.leave.contexts = above ++ .template :: s₀.contexts⟩ := List.cons.inj hc
  rw [hctx, List.count_cons_self] at hlen
  have hlen : ds.length = above.count .templateExpr := Nat.succ.inj hlen
  obtain ⟨e, outer, he⟩ := List.exists_cons_of_ne_nil hne
  have hb : ({ s with exprDepths := s.exprDepths.tail }.leave : State) =
      { s.leave with exprDepths := s.exprDepths.tail } := by
    simp [State.leave, he]
  rw [hb]
  refine ⟨above, ds, hout, by rw [hd]; rfl, ?_, ?_⟩
  · rintro rfl
    rw [List.count_nil] at hlen
    rw [List.length_eq_zero_iff.1 hlen] at hlast
    simp only [State.leave, he]
    exact hdb.symm.trans (Option.some.inj hlast)
  · intro hne
    rw [hout] at hn
    have hpos := List.count_pos_iff.2 (templateExpr_mem_above hne hn)
    obtain ⟨d', ds', rfl⟩ := List.exists_cons_of_length_pos (by omega : 0 < ds.length)
    rwa [List.getLast?_cons_cons] at hlast

/-- A move inside a template literal stays inside, or closes it with the curly brackets of its
start. -/
theorem Inside.move {s₀ s s' : State} (h₀ : s₀.Coherent) (hs : s.Coherent) (hi : Inside s₀ s)
    (hm : s.Move s') :
    Inside s₀ s' ∨ (s'.contexts = s₀.contexts ∧ s'.braces = s₀.braces) := by
  cases hm with
  | stay => exact .inl hi
  | @enter context _ hin _ =>
    obtain ⟨above, ds, hc, hd, -, hcons⟩ := hi
    exact .inl ⟨context :: above, ds, congrArg _ hc, hd, fun h => absurd h (by simp),
      fun _ => hcons (Inside.above_ne_nil hin hc)⟩
  | substitute _ => exact .inl (hi.substitute h₀ hs)
  | leave hout => exact hi.leave hs hout
  | resume hctx hhead => exact .inl (hi.resume h₀ hs hctx hhead)
  | openBracket hin =>
    obtain ⟨above, ds, hc, hd, -, hcons⟩ := hi
    refine .inl ⟨above, ds, ?_, ?_, fun h => absurd h (Inside.above_ne_nil hin hc), hcons⟩
    · rw [contexts_openBracket, hc]
    · rw [exprDepths_openBracket, hd]
  | closeBracket hin _ =>
    obtain ⟨above, ds, hc, hd, -, hcons⟩ := hi
    refine .inl ⟨above, ds, ?_, ?_, fun h => absurd h (Inside.above_ne_nil hin hc), hcons⟩
    · rw [contexts_closeBracket, hc]
    · rw [exprDepths_closeBracket, hd]

theorem length_contexts (s : State) : s.contexts.length = s.enclosing.length + 1 := by
  simp [contexts]

/-- Inside a template literal more constructs are on the stack than where it was opened. -/
theorem Inside.length_lt {s₀ s : State} (h : Inside s₀ s) :
    s₀.enclosing.length < s.enclosing.length := by
  obtain ⟨above, ds, hc, -⟩ := h
  have hl := congrArg List.length hc
  rw [List.length_append, List.length_cons, length_contexts, length_contexts] at hl
  omega

/-- A backtick in code opens a template literal. -/
theorem step_backtick {s : State} (hs : s.inCode = true) (past rest : Text) (position : Nat) :
    s.step past '\x60' rest position = .ok (1, s.enter .template position) := by
  rw [step_of_inCode hs]
  simp [stepCode, Context.ofQuote?]

theorem InLiteral.inside {s₀ s : State} (h₀ : s₀.Coherent) (h : InLiteral s₀ s) :
    s.Coherent ∧ Inside s₀ s := by
  induction h with
  | opened hin hstep =>
    refine ⟨h₀.step hstep, ?_⟩
    rw [step_backtick hin] at hstep
    cases hstep
    exact ⟨[], [], rfl, rfl, fun _ => rfl, fun h => absurd rfl h⟩
  | step _ hstep hlt ih =>
    refine ⟨ih.1.step hstep, ?_⟩
    rcases ih.2.move h₀ ih.1 (move_of_step hstep) with hi | ⟨hc, -⟩
    · exact hi
    · have hl := congrArg List.length hc
      rw [length_contexts, length_contexts] at hl
      omega
  | @finish s _ ih =>
    refine ⟨ih.1.finish, ?_⟩
    simp only [State.finish]
    split
    · rename_i hctx
      rcases ih.2.leave ih.1 (by rw [inCode, hctx]; rfl) with hi | ⟨hc, -⟩
      · exact hi
      · -- a line comment is no template literal
        obtain ⟨above, ds, hcs, -⟩ := ih.2
        rw [contexts_leave (ih.1.enclosing_ne_nil (by rw [hctx]; decide)), hctx, hc] at hcs
        cases above with
        | nil => cases (List.cons.inj hcs).1
        | cons a above =>
          have hl := congrArg List.length (List.cons.inj hcs).2
          rw [List.append_eq, List.length_append, List.length_cons] at hl
          omega
    · exact ih.2

/-- A step that closes a template literal finds the curly brackets as its opening backtick did. -/
theorem braces_eq_of_inLiteral {s₀ s s' : State} {past : Text} {c : Char} {rest : Text}
    {position k : Nat} (h₀ : s₀.Coherent) (h : InLiteral s₀ s)
    (hstep : s.step past c rest position = .ok (k, s'))
    (hclose : s'.enclosing.length ≤ s₀.enclosing.length) :
    s'.contexts = s₀.contexts ∧ s'.braces = s₀.braces := by
  obtain ⟨hs, hi⟩ := h.inside h₀
  rcases hi.move h₀ hs (move_of_step hstep) with hi | hclosed
  · have := hi.length_lt
    omega
  · exact hclosed

/-! ## All of it together -/

/-- **What holds in every reachable state.**  The counters count the open brackets; the constructs
nest down to the outermost code, in which alone nothing is around them; every substitution has its
depth on record, the records do not fall from outer to inner ones, and the last one is at most the
count of curly brackets.  So a step in a substitution finds its record, validation at the end of a
text finds a reason for whatever is still open, a feed that fails ends in the state in which the
failing step was tried, and a template literal closes with the curly brackets it was opened with. -/
theorem reachable_invariants {s : State} (h : Reachable s) :
    (s.braces = s.opened.countP (·.1 == .brace) ∧ s.squares = s.opened.countP (·.1 == .square) ∧
        s.rounds = s.opened.countP (·.1 == .round)) ∧
      ((s.enclosing = [] ↔ s.context = .normal) ∧ s.contexts.IsChain Context.SitsOn ∧
        s.contexts.getLast? = some .normal) ∧
      (s.exprDepths.length = s.contexts.count .templateExpr ∧
        s.exprDepths.reverse.Pairwise (· ≤ ·) ∧ ∀ d, s.exprDepths.head? = some d → d ≤ s.braces) ∧
      (s.context = .templateExpr → s.exprDepths ≠ []) ∧
      (s.finish.1.context ≠ .lineComment ∧ (s.finish.1.context ≠ .normal →
        ∃ f, s.finish.2 = some f ∧ ∀ b, f.reason ≠ .unclosed b)) ∧
      (∀ text, Reachable (s.feed text).state ∧ ∀ f, (s.feed text).fault = some f →
        (s.feed text).state = (((s.feed text).moments.getLast?).map (·.after)).getD s ∧
          ∃ past c rest position, (s.feed text).unread = c :: rest ∧
            (s.feed text).state.step past c rest position = .error f) ∧
      ∀ t t' past c rest position k, InLiteral s t → t.step past c rest position = .ok (k, t') →
        t'.enclosing.length ≤ s.enclosing.length → t'.braces = s.braces := by
  have hs := h.coherent
  refine ⟨⟨hs.depthOf_eq .brace, hs.depthOf_eq .square, hs.depthOf_eq .round⟩,
    ⟨hs.enclosing_eq_nil_iff, hs.nested.isChain, hs.nested.getLast?_eq⟩,
    ⟨hs.length_exprDepths, List.pairwise_reverse.2 hs.pairwise_exprDepths, hs.head_exprDepths_le⟩,
    hs.exprDepths_ne_nil, ⟨hs.context_finish_ne, hs.exists_fault_finish⟩, ?_, ?_⟩
  · intro text
    exact ⟨(h.feed text).1, fun f hf => passFrom_fault hf⟩
  · intro t t' past c rest position k ht hstep hclose
    exact (braces_eq_of_inLiteral hs ht hstep hclose).2

/-- A template literal with a substitution, behind a curly bracket: its closing backtick finds the
one bracket that was open in front of it. -/
theorem reachable_invariants_substitution :
    ∃ s t t' : State, Reachable s ∧ InLiteral s t ∧ t.step [] '\x60' [] 5 = .ok (1, t') ∧
      t'.enclosing.length ≤ s.enclosing.length ∧ s.braces = 1 ∧ t'.braces = s.braces := by
  let s : State := ({} : State).openBracket .brace 0
  let t : State := s.enter .template 1
  let u : State := { t with exprDepths := [1] }.enter .templateExpr 2
  have hs : Reachable s := .step .fresh (rfl : ({} : State).step [] '{' [] 0 = .ok (1, s))
  have opening : InLiteral s t := .opened rfl (rfl : s.step [] '\x60' [] 1 = .ok (1, t))
  have inner : InLiteral s u :=
    .step opening (rfl : t.step [] '$' ['{'] 2 = .ok (2, u)) (by decide)
  have back : InLiteral s t := .step inner (rfl : u.step [] '}' [] 4 = .ok (1, t)) (by decide)
  have closing : t.step [] '\x60' [] 5 = .ok (1, s) := rfl
  exact ⟨s, t, s, hs, back, closing, by decide, rfl,
    (reachable_invariants hs).2.2.2.2.2.2 t s [] '\x60' [] 5 1 back closing (by decide)⟩

end State

end ModuleSurface.Lexing
