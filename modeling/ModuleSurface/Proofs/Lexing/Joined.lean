import ModuleSurface.Proofs.Lexing.Comments
import ModuleSurface.Proofs.Lexing.Phrase
import ModuleSurface.Proofs.Statement.Concatenation
import ModuleSurface.Proofs.Text.Tokens

/-!
# Texts one below the other

A text that ends outside every literal and every comment (`EndsOutside`) leaves nothing behind but
open brackets, and brackets do not decide what is code.  So the code of texts on lines of their own
is the code of each of them: `codeOnly_newline`, and for any number of texts `identifiers_join`.
The one thing that looks back over the line break is a slash that a text begins with
(`beginsWithSlash`), as what stands in front of it says whether it divides.
-/

namespace ModuleSurface.Lexing

open Cursor

/-! ## States in the same constructs -/

namespace State

/-- The curly brackets that were opened since the start of each substitution, innermost first. -/
def innerDepths (s : State) : List Nat :=
  s.exprDepths.map (s.braces - ·)

/-- The innermost substitution begins with the most curly brackets around it. -/
theorem Coherent.exists_head {s : State} (h : s.Coherent) {d : Nat} (hd : d ∈ s.exprDepths) :
    ∃ e, s.exprDepths.head? = some e ∧ d ≤ e := by
  have hpair := h.pairwise_exprDepths
  cases hs : s.exprDepths with
  | nil =>
    rw [hs] at hd
    cases hd
  | cons e others =>
    rw [hs] at hd hpair
    refine ⟨e, rfl, ?_⟩
    rcases List.mem_cons.1 hd with rfl | hd
    · exact Nat.le_refl _
    · exact (List.pairwise_cons.1 hpair).1 d hd

/-- The constructs around a construct. -/
theorem contexts_leave_eq (s : State) :
    s.leave.contexts = if s.contexts.tail = [] then [.normal] else s.contexts.tail := by
  cases hs : s.enclosing with
  | nil => simp [leave, contexts, hs]
  | cons e outer => simp [leave, contexts, hs]

theorem innerDepths_leave (s : State) : s.leave.innerDepths = s.innerDepths := by
  unfold leave
  split <;> rfl

end State

/-- The states are in the same constructs, and as deep in each of them.  How many brackets are open
around all of them does not matter. -/
structure SameConstructs (s t : State) : Prop where
  /-- The first state is coherent. -/
  left : s.Coherent
  /-- The second one is, too. -/
  right : t.Coherent
  /-- The constructs. -/
  contexts : s.contexts = t.contexts
  /-- The curly brackets opened in each substitution. -/
  innerDepths : s.innerDepths = t.innerDepths

namespace SameConstructs

variable {s t : State}

/-- Outside everything there is nothing to tell states apart. -/
theorem of_normal (hs : s.Coherent) (ht : t.Coherent) (hsn : s.context = .normal)
    (htn : t.context = .normal) : SameConstructs s t where
  left := hs
  right := ht
  contexts := by
    rw [State.contexts, State.contexts, hsn, htn, hs.enclosing_eq_nil_iff.2 hsn,
      ht.enclosing_eq_nil_iff.2 htn]
  innerDepths := by
    rw [State.innerDepths, State.innerDepths, hs.exprDepths_eq_nil hsn, ht.exprDepths_eq_nil htn]
    rfl

theorem context (h : SameConstructs s t) : s.context = t.context :=
  (List.cons.inj h.contexts).1

/-- The innermost substitution is at its first level in both or in none. -/
theorem head_exprDepths_iff (h : SameConstructs s t) :
    s.exprDepths.head? = some s.braces ↔ t.exprDepths.head? = some t.braces := by
  have hzero : ∀ {s : State}, s.Coherent →
      (s.exprDepths.head? = some s.braces ↔ s.innerDepths.head? = some 0) := by
    intro s hs
    have hle := hs.head_exprDepths_le
    rw [State.innerDepths, List.head?_map]
    cases hd : s.exprDepths.head? with
    | none => simp
    | some d =>
      have hd' := hle d hd
      simp only [Option.some.injEq, Option.map_some]
      omega
  rw [hzero h.left, hzero h.right, h.innerDepths]

theorem allowed (h : SameConstructs s t) {a : Action} (ha : a.Allowed s) : a.Allowed t := by
  have hcode : s.inCode = t.inCode := congrArg Context.inCode h.context
  cases a with
  | stay => trivial
  | enter context => exact ⟨hcode ▸ ha.1, ha.2⟩
  | substitute => exact h.context.symm.trans ha
  | leave => exact hcode.symm.trans ha
  | resume => exact ⟨h.context.symm.trans ha.1, h.head_exprDepths_iff.1 ha.2⟩
  | openBracket b => exact hcode.symm.trans ha
  | closeBracket b =>
    refine ⟨hcode.symm.trans ha.1, ?_⟩
    intro hb hctx hhead
    exact ha.2 hb (h.context.trans hctx) (h.head_exprDepths_iff.2 hhead)

end SameConstructs

namespace Action

/-- The constructs behind an action depend on those in front of it. -/
theorem contexts_apply_congr {s t : State} (h : s.contexts = t.contexts) (a : Action)
    (position position' : Nat) :
    (a.apply position s).contexts = (a.apply position' t).contexts := by
  cases a with
  | stay => exact h
  | enter context => exact congrArg (context :: ·) h
  | substitute => exact congrArg (.templateExpr :: ·) h
  | leave =>
    simp only [apply, State.contexts_leave_eq, h]
  | resume =>
    have htail : State.contexts { s with exprDepths := s.exprDepths.tail } =
        State.contexts { t with exprDepths := t.exprDepths.tail } := h
    simp only [apply, State.contexts_leave_eq, htail]
  | openBracket b => simpa [apply] using h
  | closeBracket b => simpa [apply] using h

/-- What an action does to the depths in the substitutions, whatever is open around them. -/
def innerDepthsAfter (depths : List Nat) : Action → List Nat
  | substitute => 0 :: depths
  | resume => depths.tail
  | openBracket .brace => depths.map (· + 1)
  | closeBracket .brace => depths.map (· - 1)
  | _ => depths

theorem innerDepths_apply {s : State} (hs : s.Coherent) {a : Action} (ha : a.Allowed s)
    (position : Nat) :
    (a.apply position s).innerDepths = a.innerDepthsAfter s.innerDepths := by
  cases a with
  | stay | enter context => rfl
  | substitute =>
    show (s.braces - s.braces) :: s.innerDepths = 0 :: s.innerDepths
    rw [Nat.sub_self]
  | leave => exact s.innerDepths_leave
  | resume =>
    refine (State.innerDepths_leave _).trans ?_
    simp [State.innerDepths, innerDepthsAfter, List.map_tail]
  | openBracket b =>
    cases b with
    | square | round => rfl
    | brace =>
      simp only [apply, State.openBracket, State.innerDepths, innerDepthsAfter, List.map_map]
      refine List.map_congr_left fun d hd => ?_
      obtain ⟨e, he, hde⟩ := hs.exists_head hd
      have hle := hs.head_exprDepths_le e he
      simp only [Function.comp]
      omega
  | closeBracket b =>
    simp only [apply]
    by_cases hzero : s.depthOf b = 0
    · rw [State.closeBracket_of_depthOf hzero]
      cases b with
      | square | round => rfl
      | brace =>
        -- no curly bracket is open, so there is no substitution
        have hnil : s.exprDepths = [] := by
          refine List.eq_nil_iff_forall_not_mem.2 fun d hd => ?_
          obtain ⟨e, he, -⟩ := hs.exists_head hd
          have hlt := hs.head_exprDepths_lt ha.1 (ha.2 rfl) he
          have hbraces : s.braces = 0 := hzero
          omega
        simp [State.innerDepths, innerDepthsAfter, hnil]
    · have hexpr := State.exprDepths_closeBracket s b
      have hbraces := State.depthOf_closeBracket hzero .brace
      simp only [State.depthOf] at hbraces
      rw [State.innerDepths, hexpr, hbraces]
      cases b with
      | square | round => rfl
      | brace =>
        simp only [if_true, State.innerDepths, innerDepthsAfter, List.map_map]
        refine List.map_congr_left fun d _ => ?_
        simp only [Function.comp]
        omega

end Action

/-- No step breaks the likeness. -/
theorem SameConstructs.bisimulation : Bisimulation SameConstructs where
  context h := h.context
  closesExpr {s t} h c := by
    simp only [State.closesExpr, h.context]
    congr 1
    rw [Bool.eq_iff_iff, beq_iff_eq, beq_iff_eq]
    exact h.head_exprDepths_iff
  apply {s t} h a ha position position' := by
    have ha' := h.allowed ha
    refine ⟨h.left.move (ha.move position), h.right.move (ha'.move position'), ?_, ?_⟩
    · exact Action.contexts_apply_congr h.contexts a position position'
    · rw [Action.innerDepths_apply h.left ha, Action.innerDepths_apply h.right ha', h.innerDepths]

/-! ## Blanking from a place on -/

/-- Visits of the same characters, each as far behind its start, leave the same characters. -/
theorem blankedFrom_congr {vs ws : List Visit} {i j : Nat}
    (h : vs.map (fun v => (v.index + j, v.char)) = ws.map (fun w => (w.index + i, w.char)))
    (n : Nat) (t : Text) : blankedFrom (i + n) vs t = blankedFrom (j + n) ws t := by
  induction t generalizing vs ws n with
  | nil => rfl
  | cons c t ih =>
    cases vs with
    | nil =>
      obtain rfl : ws = [] := List.map_eq_nil_iff.1 h.symm
      simp only [blankedFrom]
      rw [Nat.add_assoc, Nat.add_assoc, ih h]
    | cons v vs =>
      obtain _ | ⟨w, ws⟩ := ws
      · cases h
      obtain ⟨hhead, htail⟩ := List.cons.inj h
      obtain ⟨hindex, hchar⟩ := Prod.mk.inj hhead
      have hhere : (v.index == i + n) = (w.index == j + n) := by
        rw [Bool.eq_iff_iff, beq_iff_eq, beq_iff_eq]
        omega
      simp only [blankedFrom, hhere, hchar]
      rw [Nat.add_assoc, Nat.add_assoc, ih h, ih htail]

/-- Blanking a text and what follows it, each with its own visits. -/
theorem blankedFrom_append {vs ws : List Visit} {position : Nat} {a : Text}
    (hsorted : vs.Pairwise (·.index < ·.index)) (hlo : ∀ v ∈ vs, position ≤ v.index)
    (hhi : ∀ v ∈ vs, v.index < position + a.length)
    (hws : ∀ w ∈ ws, position + a.length ≤ w.index) (b : Text) :
    blankedFrom position (vs ++ ws) (a ++ b) =
      blankedFrom position vs a ++ blankedFrom (position + a.length) ws b := by
  induction a generalizing position vs with
  | nil =>
    have hnil : vs = [] := by
      refine List.eq_nil_iff_forall_not_mem.2 fun v hv => ?_
      have h₁ := hlo v hv
      have h₂ := hhi v hv
      simp only [List.length_nil] at h₂
      omega
    subst hnil
    rfl
  | cons c a ih =>
    have hlength : position + (c :: a).length = position + 1 + a.length := by
      rw [List.length_cons]
      omega
    rw [hlength] at hhi hws ⊢
    cases vs with
    | nil =>
      have hothers := ih .nil (by simp) (by simp) hws
      cases ws with
      | nil =>
        simp only [List.nil_append, List.cons_append, blankedFrom] at hothers ⊢
        rw [hothers]
      | cons w ws =>
        have hne : (w.index == position) = false := by
          have := hws w List.mem_cons_self
          exact beq_false_of_ne (by omega)
        simp only [List.nil_append, List.cons_append, blankedFrom, hne] at hothers ⊢
        simp [hothers]
    | cons v vs =>
      obtain ⟨hfirst, hrest⟩ := List.pairwise_cons.1 hsorted
      simp only [List.cons_append, blankedFrom]
      by_cases hv : v.index = position
      · have hothers := ih hrest (fun u hu => by have := hfirst u hu; omega)
          (fun u hu => hhi u (List.mem_cons_of_mem _ hu)) hws
        simp [hv, hothers]
      · have hlt : ∀ u ∈ v :: vs, position + 1 ≤ u.index := by
          have hv' := hlo v List.mem_cons_self
          rintro u (_ | ⟨_, hu⟩)
          · omega
          · have := hfirst u hu
            omega
        have hothers := ih hsorted hlt hhi hws
        rw [List.cons_append] at hothers
        simp [hv, hothers]

namespace Cursor

/-- What is left of the text behind a place when all but code is blanked. -/
def blanked (p : Cursor) : Text :=
  blankedFrom p.position p.visits p.rest

/-- Related states in front of a text make the same of it. -/
theorem blanked_congr {R : State → State → Prop} (hR : Bisimulation R) {s t : State} (h : R s t)
    {past past' rest : Text} (hjudged : Judged past past' rest) (i j : Nat) :
    blanked ⟨s, past, rest, i⟩ = blanked ⟨t, past', rest, j⟩ :=
  blankedFrom_congr (hR.visits h hjudged i j) 0 rest

/-- A character that is visited stays. -/
theorem blanked_visit {s s' : State} {past rest : Text} {c : Char} {position : Nat}
    (hvisit : visit? ⟨s, past, c :: rest, position⟩ = some ⟨position, past, c, rest, s⟩)
    (hstep : s.step past c rest position = .ok (1, s')) :
    blanked ⟨s, past, c :: rest, position⟩ =
      c :: blanked ⟨s', c :: past, rest, position + 1⟩ := by
  simp only [blanked, visits, visitsFrom_cons hstep, hvisit, Option.toList_some,
    List.singleton_append, blankedFrom, beq_self_eq_true, if_true]
  rfl

/-- A plain character of code stays. -/
theorem blanked_plain {s : State} (hs : s.inCode = true) {c : Char} (hc : Plain c)
    (past rest : Text) (position : Nat) :
    blanked ⟨s, past, c :: rest, position⟩ = c :: blanked ⟨s, c :: past, rest, position + 1⟩ :=
  blanked_visit (visit?_of_plain hs hc past rest position)
    (State.step_of_plain hs hc past rest position)

/-- At a newline a line comment hands over to what is around it. -/
theorem blanked_lineComment {s : State} (hs : s.context = .lineComment) (past rest : Text)
    (position : Nat) :
    blanked ⟨s, past, '\n' :: rest, position⟩ =
      blanked ⟨s.leave, past, '\n' :: rest, position⟩ := by
  have hstep : s.step past '\n' rest position = .ok (0, s.leave) := by
    rw [State.step, hs]
    rfl
  have hnone : visit? ⟨s, past, '\n' :: rest, position⟩ = none := by
    simp [visit?, State.readsCode, State.inCode, hs, Context.inCode]
  simp only [blanked, visits, visitsFrom_cons hstep, hnone]
  rfl

end Cursor

/-! ## Lines -/

/-- The pass comes to the end of its text, and there it is outside every literal, block comment and
substitution.  A line comment may run to the end, and brackets may be open. -/
def Pass.EndsOutside (p : Pass) : Prop :=
  p.fault = none ∧ p.state.finish.1.context = .normal

/-- Read on its own, the text ends outside every literal, block comment and substitution. -/
def EndsOutside (t : Text) : Prop :=
  (pass t).EndsOutside

instance (t : Text) : Decidable (EndsOutside t) :=
  inferInstanceAs (Decidable (_ ∧ _))

theorem SameConstructs.context_finish {s t : State} (h : SameConstructs s t) :
    s.finish.1.context = t.finish.1.context := by
  have hleave : s.leave.contexts = t.leave.contexts := by
    rw [State.contexts_leave_eq, State.contexts_leave_eq, h.contexts]
  by_cases hline : s.context = .lineComment
  · rw [State.finish, State.finish, ← h.context, if_pos hline, if_pos hline]
    exact (List.cons.inj hleave).1
  · rw [State.finish, State.finish, ← h.context, if_neg hline, if_neg hline]
    exact h.context

/-- Passes from states in the same constructs end alike. -/
theorem SameConstructs.endsOutside_iff {s t : State} (h : SameConstructs s t)
    {past past' rest : Text} (hjudged : Judged past past' rest) (i j : Nat) :
    (passFrom s past rest i).EndsOutside ↔ (passFrom t past' rest j).EndsOutside := by
  obtain ⟨hfault, hstate⟩ := bisimulation.pass h hjudged i j
  unfold Pass.EndsOutside
  rw [hstate.context_finish, ← Option.map_eq_none_iff (f := Fault.reason), hfault,
    Option.map_eq_none_iff]

theorem Cursor.Run.endsOutside_iff {p q : Cursor} {ps : List Cursor} (h : Run p ps q) :
    p.pass.EndsOutside ↔ q.pass.EndsOutside := by
  obtain ⟨hfault, hstate⟩ := h.pass_eq
  rw [Pass.EndsOutside, Pass.EndsOutside, hfault, hstate]

/-- Does the text begin with a slash that begins no comment, gaps apart? -/
def beginsWithSlash (t : Text) : Bool :=
  match t.dropWhile RegexLiteral.isGap with
  | '/' :: r => r.head? != some '/' && r.head? != some '*'
  | _ => false

/-- Behind a gap a text that does not begin with a slash is read as on its own. -/
theorem judged_of_front {past t : Text} (hpast : past.head?.any Text.isIdentChar = false)
    (h : beginsWithSlash t = false) : Judged past [] t := by
  refine Judged.of_gap hpast rfl ?_
  intro r hr hline hblock
  simp only [beginsWithSlash, hr, Bool.and_eq_false_iff, bne_eq_false_iff_eq] at h
  rcases h with h | h
  · exact absurd h hline
  · exact absurd h hblock

theorem keepsUnit_newline {t : Text} (ht : t.getLast? ≠ some '\\') {p : Cursor}
    (hplaced : Placed t p) {c : Char} {u : Text} (hrest : p.rest = c :: u) (b : Text) :
    KeepsUnit p.past c u ('\n' :: b) := by
  rintro rfl
  refine ⟨fun _ => by simp, fun _ _ => ?_⟩
  have hu : u.getLast? ≠ some '\\' := by
    intro hlast
    apply ht
    rw [← hplaced.text_eq, hrest, List.getLast?_append, List.getLast?_cons, hlast]
    rfl
  rw [RegexLiteral.width?, RegexLiteral.width?,
    RegexLiteral.bodyWidth?_append (Statement.bars_newline hu b)]

/-- A text that ends outside is read alike with a newline behind it. -/
theorem codeOnly_append {t : Text} (ht : EndsOutside t) (hlast : t.getLast? ≠ some '\\')
    (b : Text) :
    codeOnly (t ++ '\n' :: b) =
      codeOnly t ++ Cursor.blanked ⟨(pass t).state, t.reverse, '\n' :: b, t.length⟩ := by
  have hend : (pass t).state.inCode = true ∨
      (pass t).state.context = .lineComment ∧ ('\n' :: b).head? = some '\n' := by
    by_cases hline : (pass t).state.context = .lineComment
    · exact .inr ⟨hline, rfl⟩
    · have hnormal := ht.2
      rw [State.finish, if_neg hline] at hnormal
      exact .inl (by rw [State.inCode, hnormal]; rfl)
  obtain ⟨ps, hrun, hvisits⟩ := exists_run_append ht.1 (by simp) hend
    fun p hplaced _ _ c u hrest => keepsUnit_newline hlast hplaced hrest b
  have hwhole : visits (t ++ '\n' :: b) = (visits t).map (Visit.extend ('\n' :: b)) ++
      Cursor.visits ⟨(pass t).state, t.reverse, '\n' :: b, t.length⟩ := by
    rw [← hvisits]
    exact hrun.visits_eq
  have hsorted : ((visits t).map (Visit.extend ('\n' :: b))).Pairwise (·.index < ·.index) :=
    List.pairwise_map.2 (pairwise_visitsFrom {} [] t 0).2
  have hbound : ∀ v ∈ visits t, v.index < t.length := fun v hv =>
    (List.getElem?_eq_some_iff.1 (getElem?_of_mem_visits hv)).1
  have hbehind := (pairwise_visitsFrom (pass t).state t.reverse ('\n' :: b) t.length).1
  have hsame : blankedFrom 0 ((visits t).map (Visit.extend ('\n' :: b))) t = codeOnly t :=
    blankedFrom_congr (i := 0) (j := 0) (by simp [Visit.extend, Function.comp_def]) 0 t
  rw [codeOnly, hwhole, blankedFrom_append hsorted (fun _ _ => Nat.zero_le _)
    (by simpa [Visit.extend] using hbound) (by rw [Nat.zero_add]; exact hbehind), hsame,
    Nat.zero_add]
  rfl

/-- **The code of two texts on lines of their own is the code of the one and of the other.** -/
theorem codeOnly_newline {a b : Text} (ha : EndsOutside a) (hlast : a.getLast? ≠ some '\\')
    (hb : beginsWithSlash b = false) :
    codeOnly (a ++ '\n' :: b) = codeOnly a ++ '\n' :: codeOnly b := by
  have hcoherent := coherent_pass a
  have hnormal : ∀ s : State, s.Coherent → s.context = .normal →
      Cursor.blanked ⟨s, a.reverse, '\n' :: b, a.length⟩ = '\n' :: codeOnly b := by
    intro s hs hctx
    have hcode : s.inCode = true := by rw [State.inCode, hctx]; rfl
    rw [blanked_plain hcode (by decide)]
    have hsame := SameConstructs.of_normal hs .fresh hctx rfl
    have hjudged : Judged ('\n' :: a.reverse) [] b :=
      judged_of_front (show Text.isIdentChar '\n' = false by decide) hb
    rw [blanked_congr SameConstructs.bisimulation hsame hjudged _ 0]
    rfl
  rw [codeOnly_append ha hlast]
  congr 1
  have hfinish := ha.2
  by_cases hline : (pass a).state.context = .lineComment
  · rw [State.finish, if_pos hline] at hfinish
    rw [blanked_lineComment hline]
    exact hnormal _ (hcoherent.leave (by rw [State.inCode, hline]; rfl)) hfinish
  · rw [State.finish, if_neg hline] at hfinish
    exact hnormal _ hcoherent hfinish

/-! ## Blanks and comments -/

/-- A blank in front of a text is as good as nothing. -/
theorem judged_blank (t : Text) : Judged [' '] [] t :=
  .of_gap (by decide) rfl fun _ _ _ _ => by decide

theorem codeOnly_cons_blank (t : Text) : codeOnly (' ' :: t) = ' ' :: codeOnly t := by
  refine (blanked_plain rfl (by decide : Plain ' ') [] t 0).trans (congrArg _ ?_)
  exact blanked_congr SameShape.bisimulation (.refl {}) (judged_blank t) 1 0

theorem EndsOutside.cons_blank {t : Text} (h : EndsOutside t) : EndsOutside (' ' :: t) := by
  have hstep : State.step {} [] ' ' t 0 = .ok (1, {}) :=
    State.step_of_plain rfl (by decide : Plain ' ') [] t 0
  have hsame : SameConstructs {} {} := .of_normal .fresh .fresh rfl rfl
  have hbehind := (hsame.endsOutside_iff (judged_blank t) 1 0).2 h
  exact (Run.single (.step hstep)).endsOutside_iff.2 hbehind

namespace Comment

variable {body : Text} (closed : Text.containsText body "*/".toList = false)

theorem endsOutside_block : EndsOutside (block body closed).text := by
  obtain ⟨ps, hrun⟩ := (block body closed).exists_run (s := {}) rfl [] [] 0
  rw [List.append_nil] at hrun
  refine hrun.endsOutside_iff.2 ?_
  rw [Cursor.pass, passFrom]
  exact ⟨rfl, rfl⟩

/-- Nothing in a block comment is code. -/
theorem visits_block : visits (block body closed).text = [] := by
  have hfind := find?_closing closed []
  rw [List.append_nil] at hfind
  have htext : (block body closed).text = '/' :: '*' :: (body ++ "*/".toList) := by
    simp [text]
  obtain ⟨c, t, ht⟩ : ∃ c t, body ++ "*/".toList = c :: t := by
    cases body with
    | nil => exact ⟨_, _, rfl⟩
    | cons c t => exact ⟨c, _, rfl⟩
  have hsecond : (State.enter {} .blockComment 0).step ['*', '/'] c t 2 =
      .ok (body.length + 2, {}) := by
    rw [ht] at hfind
    simp only [State.step, State.enter, State.stepBlockComment, hfind]
    rfl
  have hdrop : (c :: t).drop (body.length + 2) = [] := by
    rw [← ht]
    simp
  rw [visits, htext, visitsFrom_cons (step_blockComment rfl [] _ 0), ht]
  have hrest : visitsFrom (State.enter {} .blockComment 0) ['*', '/'] (c :: t) 2 = [] := by
    rw [visitsFrom_cons hsecond, hdrop, visitsFrom]
    rfl
  exact hrest

/-- A block comment mentions nothing. -/
theorem identifiers_block : identifiers (block body closed).text = [] := by
  rw [identifiers, codeOnly, visits_block]
  refine Text.identifierTokens_eq_nil ?_
  have hblank : ∀ (t : Text) (position : Nat), ∀ c ∈ blankedFrom position [] t,
      c = '\n' ∨ c = ' ' := by
    intro t
    induction t with
    | nil => simp [blankedFrom]
    | cons d t ih =>
      intro position c hc
      rcases List.mem_cons.1 hc with rfl | hc
      · by_cases hd : d = '\n' <;> simp [hd]
      · exact ih _ c hc
  intro c hc
  rcases hblank _ _ c hc with rfl | rfl <;> decide

end Comment

/-! ## Joining -/

/-- A text that can stand on lines of its own among other texts. -/
structure Standalone (t : Text) : Prop where
  /-- It ends outside everything, so that what follows is read as on its own. -/
  ends : EndsOutside t
  /-- It does not end with a backslash, which would hide the line break from a slash. -/
  last : t.getLast? ≠ some '\\'
  /-- It begins with no slash, which would be judged by the text in front. -/
  front : beginsWithSlash t = false

namespace Standalone

theorem block {body : Text} (closed : Text.containsText body "*/".toList = false) :
    Standalone (Comment.block body closed).text where
  ends := Comment.endsOutside_block closed
  last := by
    have hconcat : (Comment.block body closed).text = ("/*".toList ++ body ++ ['*']) ++ ['/'] := by
      simp [Comment.text]
    rw [hconcat, List.getLast?_concat]
    decide
  front := rfl

theorem cons_blank {t : Text} (h : Standalone t) : Standalone (' ' :: t) where
  ends := h.ends.cons_blank
  last := by
    have hlast := h.last
    rw [List.getLast?_cons]
    cases ht : t.getLast? with
    | none => simp
    | some c =>
      rw [ht] at hlast
      simpa using hlast
  front := h.front

end Standalone

theorem identifiers_cons_blank (t : Text) : identifiers (' ' :: t) = identifiers t := by
  rw [identifiers, codeOnly_cons_blank, Text.identifierTokens, if_neg (by decide), identifiers]

theorem beginsWithSlash_newline {a b : Text} (ha : beginsWithSlash a = false)
    (hb : beginsWithSlash b = false) : beginsWithSlash (a ++ '\n' :: b) = false := by
  unfold beginsWithSlash at ha hb ⊢
  rw [List.dropWhile_append]
  cases hd : a.dropWhile RegexLiteral.isGap with
  | nil => exact hb
  | cons c r =>
    rw [hd] at ha
    by_cases hc : c = '/'
    · subst hc
      cases r with
      | nil => cases ha
      | cons d r => exact ha
    · simp only [List.isEmpty_cons, Bool.false_eq_true, if_false, List.cons_append]
      split
      · rename_i heq
        exact absurd (List.cons.inj heq).1 hc
      · rfl

theorem beginsWithSlash_join {ts : List Text} (h : ∀ t ∈ ts, beginsWithSlash t = false) :
    beginsWithSlash (Text.join "\n".toList ts) = false := by
  induction ts with
  | nil => rfl
  | cons t ts ih =>
    have ht := h t List.mem_cons_self
    have hothers := ih fun u hu => h u (List.mem_cons_of_mem _ hu)
    cases ts with
    | nil => rwa [Text.join, List.intercalate_singleton]
    | cons u ts =>
      rw [Text.join, List.intercalate_cons_cons, List.append_assoc]
      exact beginsWithSlash_newline ht hothers

theorem identifiers_nil : identifiers [] = [] := by
  rw [identifiers, codeOnly, blankedFrom, Text.identifierTokens]

/-- **Texts on lines of their own mention what each of them mentions.** -/
theorem identifiers_join {ts : List Text} (h : ∀ t ∈ ts, Standalone t) :
    identifiers (Text.join "\n".toList ts) = ts.flatMap identifiers := by
  induction ts with
  | nil => exact identifiers_nil
  | cons t ts ih =>
    have ht := h t List.mem_cons_self
    have hothers : ∀ u ∈ ts, Standalone u := fun u hu => h u (List.mem_cons_of_mem _ hu)
    rw [List.flatMap_cons, ← ih hothers]
    have hfront := beginsWithSlash_join fun u hu => (hothers u hu).front
    cases ts with
    | nil => simp [Text.join, identifiers_nil]
    | cons u ts =>
      have hcode := codeOnly_newline ht.ends ht.last hfront
      rw [Text.join, List.intercalate_cons_cons, List.append_assoc]
      rw [identifiers, identifiers, identifiers, ← Text.identifierTokens_newline, ← hcode]
      rfl

end ModuleSurface.Lexing
