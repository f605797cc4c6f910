import Mathlib.Data.List.Forall2
import ModuleSurface.Proofs.Lexing.Relaid
import ModuleSurface.Proofs.Lexing.Typed
import ModuleSurface.Proofs.Text.Collapse

/-!
# Code whose white space is collapsed

Collapsing the white space of a text changes white space everywhere, in strings and in the text of
templates too.  What a step reads stays one unit all the same: a run over a text without comments is
matched step by step by one over the collapsed text, where a step over white space becomes one over
a space or none (`Next.exists_collapsed`, `Run.exists_collapsed`).  Only a slash may change its
meaning, as a literal ends with its line and other white space hides the sign in front of it;
`SlashesDivide` says that it does not.

Both runs visit the same visible characters, so the first assignment in the collapsed text is the
one in the text as written (`findAssignment?_collapse`).
-/

namespace ModuleSurface.Lexing

open Cursor

/-! ## Regular expression literals -/

namespace RegexLiteral

theorem beginsAfter_cons_gap {c : Char} (hc : isGap c = true) (past : Text) :
    beginsAfter (c :: past) = beginsAfter past := by
  rw [beginsAfter, List.dropWhile_cons_of_pos hc, ← beginsAfter]

theorem beginsAfter_cons {c : Char} (hc : isGap c = false) (past : Text) :
    beginsAfter (c :: past) = (signs.contains c ||
      keywords.contains ((c :: past).takeWhile Text.isIdentChar).reverse) := by
  rw [beginsAfter, List.dropWhile_cons_of_neg (by simp [hc])]

/-- White space that is no gap stands between a sign and the slash, so the slash divides. -/
theorem beginsAfter_cons_blank {c : Char} (hblank : Text.isBlank c = true)
    (hgap : isGap c = false) (past : Text) : beginsAfter (c :: past) = false := by
  have hident : ¬ Text.isIdentChar c = true := by simp [Text.isIdentChar_of_isBlank hblank]
  have hsigns : ∀ d ∈ signs, Text.isBlank d = false := by decide
  have hsign : signs.contains c = false := by
    rw [Bool.eq_false_iff, Ne, List.contains_iff_mem]
    intro hmem
    rw [hsigns c hmem] at hblank
    cases hblank
  rw [beginsAfter_cons hgap, hsign, List.takeWhile_cons_of_neg hident]
  decide

/-- A slash that begins a literal still does without the white space in front of it. -/
theorem beginsAfter_dropWhile {past : Text} (h : beginsAfter past = true) :
    beginsAfter (past.dropWhile Text.isBlank) = true := by
  induction past with
  | nil => rfl
  | cons c past ih =>
    by_cases hblank : Text.isBlank c = true
    · rw [List.dropWhile_cons_of_pos hblank]
      refine ih ?_
      cases hgap : isGap c with
      | true => rwa [beginsAfter_cons_gap hgap] at h
      | false =>
        rw [beginsAfter_cons_blank hblank hgap] at h
        cases h
    · rwa [List.dropWhile_cons_of_neg hblank]

/-- Whether a slash begins a literal is said by what stands in front of the white space in front of
it. -/
theorem beginsAfter_runs (t : Text) :
    beginsAfter (Text.runs true t).reverse = beginsAfter (t.reverse.dropWhile Text.isBlank) := by
  induction t using List.reverseRecOn with
  | nil => rfl
  | append_singleton t d ih =>
    have hconcat : (t ++ [d]).reverse = d :: t.reverse := by simp
    rw [Text.runs_append, Text.runs, hconcat]
    cases hd : Text.isBlank d with
    | true =>
      rw [List.dropWhile_cons_of_pos hd, if_pos rfl, ← ih]
      cases Text.gapAfter true t with
      | true => simp [Text.runs]
      | false => simp [Text.runs, beginsAfter_cons_gap (by decide : isGap ' ' = true)]
    | false =>
      have hgap : isGap d = false := by
        rw [Bool.eq_false_iff]
        intro hgap
        rw [isBlank_of_isGap hgap] at hd
        cases hd
      have hwhole := Text.takeWhile_runs (t ++ [d])
      rw [Text.runs_append, Text.runs, hconcat] at hwhole
      simp only [hd, Bool.false_eq_true, if_false, Text.runs, List.reverse_append,
        List.reverse_singleton, List.singleton_append] at hwhole ⊢
      rw [List.dropWhile_cons_of_neg (by simp [hd]), beginsAfter_cons hgap, beginsAfter_cons hgap,
        hwhole]

theorem bodyWidth?_space (inClass : Bool) (t : Text) :
    bodyWidth? inClass (' ' :: t) = (bodyWidth? inClass t).map (· + 1) := by
  cases t <;> cases inClass <;> simp [bodyWidth?]

/-- White space other than a line end is a character like others in the body of a literal. -/
theorem bodyWidth?_blank {c : Char} (hc : Text.isBlank c = true) {inClass : Bool} {t : Text}
    {w : Nat} (h : bodyWidth? inClass (c :: t) = some w) :
    ∃ v, bodyWidth? inClass t = some v ∧ w = v + 1 := by
  have hne : ∀ d : Char, Text.isBlank d = false → c ≠ d := by
    rintro d hd rfl
    rw [hc] at hd
    cases hd
  have hslash := hne '/' (by decide)
  have hescape := hne '\\' (by decide)
  have hopen := hne '[' (by decide)
  have hclose := hne ']' (by decide)
  cases t with
  | nil => simp [bodyWidth?, hslash] at h
  | cons d t =>
    rw [bodyWidth?] at h
    simp only [beq_iff_eq, hslash, hescape, hopen, if_false] at h
    split at h
    · cases h
    · have hclosed : (c != ']') = true := by simpa using hclose
      have hbody : (bodyWidth? inClass (d :: t)).map (· + 1) = some w := by
        cases inClass <;> simpa [hclosed] using h
      obtain ⟨v, hv, rfl⟩ := Option.map_eq_some_iff.1 hbody
      exact ⟨v, hv, rfl⟩

/-- **A literal stays one when its white space is collapsed.** -/
theorem bodyWidth?_squeeze {inClass : Bool} {t : Text} {w : Nat}
    (h : bodyWidth? inClass t = some w) (inGap : Bool) :
    bodyWidth? inClass (Text.squeeze inGap t) = some (Text.runs inGap (t.take w)).length := by
  induction inClass, t using body_induction generalizing w inGap with
  | nil => cases h
  | cons inClass c t ih ih' =>
    cases hc : Text.isBlank c with
    | true =>
      obtain ⟨v, hv, rfl⟩ := bodyWidth?_blank hc h
      have hback := ih inClass hv true
      have hne : (Text.squeeze true t).isEmpty = false := by
        rw [List.isEmpty_eq_false_iff]
        intro hnil
        rw [hnil] at hback
        cases hback
      rw [Text.squeeze, List.take_succ_cons, Text.runs, hc, hne]
      cases inGap with
      | true => exact hback
      | false =>
        simp [bodyWidth?_space, hback]
    | false =>
      rw [Text.squeeze, if_neg (by simp [hc])]
      obtain ⟨heq, rfl⟩ | heq | ⟨b, heq⟩ | heq := bodyWidth?_cons inClass c <;> rw [heq] at h ⊢
      · obtain ⟨v, hv, rfl⟩ := Option.map_eq_some_iff.1 h
        cases t with
        | nil => cases hv
        | cons d t =>
          rw [List.drop_one, List.tail_cons] at hv
          have hback := ih' inClass hv (Text.isBlank d)
          rw [List.drop_one, List.tail_cons] at hback
          have hne : (Text.squeeze (Text.isBlank d) t).isEmpty = false := by
            rw [List.isEmpty_eq_false_iff]
            intro hnil
            rw [hnil] at hback
            cases hback
          rw [List.take_succ_cons, List.take_succ_cons, Text.runs, if_neg (by simp [hc]), Text.runs,
            Text.squeeze]
          cases hd : Text.isBlank d <;> rw [hd] at hback hne <;> simp [hback, hne]
      · cases h
      · obtain ⟨v, hv, rfl⟩ := Option.map_eq_some_iff.1 h
        rw [ih b hv false, List.take_succ_cons, Text.runs, if_neg (by simp [hc])]
        rfl
      · cases h
        have hflags : t.take (t.takeWhile Text.isIdentChar).length = t.takeWhile Text.isIdentChar :=
          (List.prefix_iff_eq_take.1 (List.takeWhile_prefix Text.isIdentChar)).symm
        have hruns : Text.runs false (t.takeWhile Text.isIdentChar) =
            t.takeWhile Text.isIdentChar :=
          Text.runs_eq_self fun d hd => Text.isBlank_of_isIdentChar (List.mem_takeWhile_imp hd)
        rw [Text.takeWhile_squeeze, Nat.add_comm, List.take_succ_cons, hflags, Text.runs,
          if_neg (by simp [hc]), hruns, List.length_cons]

/-- A literal in code, once white space is collapsed. -/
theorem width?_squeeze {past : Text} {c : Char} {rest : Text} {k : Nat}
    (h : width? past c rest = some k) :
    width? (Text.runs true past.reverse).reverse c (Text.squeeze false rest) =
      some (Text.runs false ((c :: rest).take k)).length := by
  rw [width?] at h
  split at h
  · rename_i hc
    rw [Bool.and_eq_true, beq_iff_eq] at hc
    obtain ⟨rfl, hbegins⟩ := hc
    obtain ⟨w, hw, rfl⟩ := Option.map_eq_some_iff.1 h
    have hbegins' : beginsAfter (Text.runs true past.reverse).reverse = true := by
      rw [beginsAfter_runs, List.reverse_reverse]
      exact beginsAfter_dropWhile hbegins
    have hruns : Text.runs false (('/' :: rest).take (w + 1)) =
        '/' :: Text.runs false (rest.take w) := rfl
    rw [width?, hbegins', bodyWidth?_squeeze hw, hruns]
    rfl
  · cases h

/-- The slash, with `past` in front of it in reverse and `rest` behind, does not begin a literal
once the white space around it is collapsed. -/
def Divides (past rest : Text) : Prop :=
  beginsAfter (past.dropWhile Text.isBlank) = true →
    bodyWidth? false (Text.collapse rest) = none

instance (past rest : Text) : Decidable (Divides past rest) :=
  inferInstanceAs (Decidable (_ → _))

theorem bodyWidth?_collapse (rest : Text) :
    bodyWidth? false (Text.collapse rest) = none ↔
      bodyWidth? false (Text.squeeze false rest) = none := by
  rw [Text.collapse_eq_squeeze]
  cases rest with
  | nil => rfl
  | cons c rest =>
    rw [Text.squeeze, Text.squeeze, Bool.true_or, if_pos rfl, Bool.false_or]
    split
    · split
      · rfl
      · rw [bodyWidth?_space, Option.map_eq_none_iff]
    · rfl

theorem bodyWidth?_eq_none_of_squeeze {t : Text}
    (h : bodyWidth? false (Text.squeeze false t) = none) : bodyWidth? false t = none := by
  rw [Option.eq_none_iff_forall_ne_some]
  intro w hw
  rw [bodyWidth?_squeeze hw false] at h
  cases h

/-- It did not begin one before either. -/
theorem Divides.bodyWidth? {past rest : Text} (h : Divides past rest)
    (hbegins : beginsAfter past = true) : bodyWidth? false rest = none :=
  bodyWidth?_eq_none_of_squeeze ((bodyWidth?_collapse rest).1 (h (beginsAfter_dropWhile hbegins)))

theorem Divides.width? {past rest : Text} {c : Char} (h : c = '/' → Divides past rest) :
    width? (Text.runs true past.reverse).reverse c rest = none ∧
      width? (Text.runs true past.reverse).reverse c (Text.squeeze false rest) = none := by
  by_cases hc : (c == '/' && beginsAfter (Text.runs true past.reverse).reverse) = true
  · rw [RegexLiteral.width?, RegexLiteral.width?, if_pos hc, if_pos hc]
    rw [Bool.and_eq_true, beq_iff_eq, beginsAfter_runs, List.reverse_reverse] at hc
    have hnone := (bodyWidth?_collapse rest).1 (h hc.1 hc.2)
    rw [hnone, bodyWidth?_eq_none_of_squeeze hnone]
    exact ⟨rfl, rfl⟩
  · rw [RegexLiteral.width?, RegexLiteral.width?, if_neg hc, if_neg hc]
    exact ⟨rfl, rfl⟩

end RegexLiteral

/-! ## Steps -/

/-- The texts begin with the same character, up to white space. -/
def SameHead (t u : Text) : Prop :=
  ∀ c, Text.isBlank c = false → (t.head? = some c ↔ u.head? = some c)

theorem SameHead.beq {t u : Text} (h : SameHead t u) {c : Char} (hc : Text.isBlank c = false) :
    (t.head? == some c) = (u.head? == some c) := by
  rw [Bool.eq_iff_iff, beq_iff_eq, beq_iff_eq]
  exact h c hc

theorem SameHead.any {t u : Text} (h : SameHead t u) {p : Char → Bool}
    (hp : ∀ c, p c = true → Text.isBlank c = false) : t.head?.any p = u.head?.any p := by
  rw [Bool.eq_iff_iff, Option.any_eq_true, Option.any_eq_true]
  refine exists_congr fun c => ?_
  rw [and_congr_left_iff]
  exact fun hc => h c (hp c hc)

theorem sameHead_squeeze (t : Text) : SameHead t (Text.squeeze false t) :=
  fun _ hc => (Text.head?_squeeze hc t).symm

theorem sameHead_runs (t : Text) : SameHead t.reverse (Text.runs true t).reverse := by
  intro c hc
  rw [List.head?_reverse, List.head?_reverse, Text.getLast?_runs hc]

namespace State

variable {s t s' : State} {past past' : Text} {c : Char} {r rest rest' : Text}
  {position position' k : Nat}

theorem readsCode_congr (h : SameHead rest rest') : s.readsCode c rest = s.readsCode c rest' := by
  rw [readsCode, readsCode, h.beq (by decide), h.beq (by decide)]

/-- Outside comments and regular expression literals a step sees no more than one character behind
the first. -/
theorem step_congr_rest (hcomment : s.context.isComment = false) (h : SameHead rest rest')
    (hw : s.readsCode c rest = true →
      RegexLiteral.width? past c rest = RegexLiteral.width? past c rest') :
    s.step past c rest position = s.step past c rest' position := by
  have hcode : s.inCode = true → s.step past c rest position = s.step past c rest' position := by
    intro hs
    rw [step_of_inCode hs, step_of_inCode hs, stepCode, stepCode,
      h.beq (by decide : Text.isBlank '/' = false), h.beq (by decide : Text.isBlank '*' = false)]
    by_cases hline : (c == '/' && rest'.head? == some '/') = true
    · rw [if_pos hline, if_pos hline]
    by_cases hblock : (c == '/' && rest'.head? == some '*') = true
    · rw [if_neg hline, if_neg hline, if_pos hblock, if_pos hblock]
    have hwidth : RegexLiteral.width? past c rest = RegexLiteral.width? past c rest' := by
      by_cases hc : c = '/'
      · subst hc
        refine hw (readsCode_iff.2 ⟨hs, fun _ => ⟨?_, ?_⟩, rfl, rfl⟩)
        · rw [Ne, h '/' (by decide)]
          simpa using hline
        · rw [Ne, h '*' (by decide)]
          simpa using hblock
      · simp [RegexLiteral.width?, hc]
    rw [hwidth]
  cases hcontext : s.context with
  | lineComment | blockComment =>
    rw [hcontext] at hcomment
    cases hcomment
  | normal | templateExpr => exact hcode (by rw [inCode, hcontext]; rfl)
  | singleQuote | doubleQuote => simp only [step, hcontext]
  | template =>
    simp only [step, hcontext, stepTemplate, h.beq (by decide : Text.isBlank '{' = false)]

/-- Such a step reads one character or two. -/
theorem le_two_of_step (hcomment : s.context.isComment = false)
    (hw : s.readsCode c rest = true → RegexLiteral.width? past c rest = none)
    (h : s.step past c rest position = .ok (k, s')) : k = 1 ∨ k = 2 := by
  have hstring : ∀ quote, s.stepString quote c = .ok (k, s') → k = 1 ∨ k = 2 := by
    intro quote h
    unfold stepString at h
    split at h
    · cases h; exact .inr rfl
    split at h
    · cases h; exact .inl rfl
    split at h
    · cases h
    · cases h; exact .inl rfl
  have hcode : s.inCode = true → k = 1 ∨ k = 2 := by
    intro hs
    rw [step_of_inCode hs, stepCode, Except.ok.injEq] at h
    split at h
    · cases h; exact .inr rfl
    rename_i hline
    split at h
    · cases h; exact .inr rfl
    rename_i hblock
    split at h
    · cases h; exact .inl rfl
    split at h
    · -- a slash that begins a literal is code
      rename_i w hwidth
      have hc : c = '/' := by
        by_contra hc
        simp [RegexLiteral.width?, hc] at hwidth
      subst hc
      have hreads : s.readsCode '/' rest = true :=
        readsCode_iff.2 ⟨hs, fun _ => ⟨by simpa using hline, by simpa using hblock⟩, rfl, rfl⟩
      rw [hw hreads] at hwidth
      cases hwidth
    split at h
    · cases h; exact .inl rfl
    split at h
    · cases h; exact .inl rfl
    split at h <;> cases h <;> exact .inl rfl
  cases hcontext : s.context with
  | lineComment | blockComment =>
    rw [hcontext] at hcomment
    cases hcomment
  | normal | templateExpr => exact hcode (by rw [inCode, hcontext]; rfl)
  | singleQuote | doubleQuote =>
    simp only [step, hcontext] at h
    exact hstring _ h
  | template =>
    simp only [step, hcontext, stepTemplate, Except.ok.injEq] at h
    split at h
    · cases h; exact .inr rfl
    split at h
    · cases h; exact .inl rfl
    split at h
    · cases h; exact .inr rfl
    · cases h; exact .inl rfl

/-- White space changes nothing. -/
theorem step_blank (hcomment : s.context.isComment = false) (hc : Text.isBlank c = true)
    (h : s.step past c rest position = .ok (k, s')) : k = 1 ∧ s' = s := by
  have hne : ∀ d : Char, Text.isBlank d = false → c ≠ d := by
    rintro d hd rfl
    rw [hc] at hd
    cases hd
  have hcode : s.inCode = true → k = 1 ∧ s' = s := by
    intro hs
    rw [step_of_plain hs (plain_of_isBlank hc)] at h
    cases h
    exact ⟨rfl, rfl⟩
  have hstring : ∀ quote, Text.isBlank quote = false → s.stepString quote c = .ok (k, s') →
      k = 1 ∧ s' = s := by
    intro quote hquote h
    simp only [stepString, beq_iff_eq, hne '\\' (by decide), hne quote hquote, if_false] at h
    split at h
    · cases h
    · cases h
      exact ⟨rfl, rfl⟩
  cases hcontext : s.context with
  | lineComment | blockComment =>
    rw [hcontext] at hcomment
    cases hcomment
  | normal | templateExpr => exact hcode (by rw [inCode, hcontext]; rfl)
  | singleQuote | doubleQuote =>
    simp only [step, hcontext] at h
    exact hstring _ (by decide) h
  | template =>
    simp only [step, hcontext, stepTemplate, beq_iff_eq, hne '\\' (by decide),
      hne '\x60' (by decide), hne '$' (by decide), Bool.and_eq_true, false_and, if_false] at h
    cases h
    exact ⟨rfl, rfl⟩

theorem step_space (hcomment : s.context.isComment = false) (past rest : Text) (position : Nat) :
    s.step past ' ' rest position = .ok (1, s) := by
  have hcode : s.inCode = true → s.step past ' ' rest position = .ok (1, s) :=
    fun hs => step_of_plain hs (by decide) past rest position
  cases hcontext : s.context with
  | lineComment | blockComment =>
    rw [hcontext] at hcomment
    cases hcomment
  | normal | templateExpr => exact hcode (by rw [inCode, hcontext]; rfl)
  | singleQuote | doubleQuote => simp [step, hcontext, stepString]
  | template => simp [step, hcontext, stepTemplate]

end State

/-! ## Visits -/

/-- The visits are made at the same character with as many brackets open, next to the same
characters up to white space. -/
structure Visit.Alike (v w : Visit) : Prop where
  /-- The character. -/
  char : v.char = w.char
  /-- The brackets that are open. -/
  depth : v.state.depth = w.state.depth
  /-- What is in front of it. -/
  past : SameHead v.past w.past
  /-- What is behind it. -/
  rest : SameHead v.rest w.rest

theorem Visit.forall₂_visible {vs ws : List Visit} (h : List.Forall₂ Visit.Alike vs ws) :
    List.Forall₂ Visit.Alike (Spacing.visible vs) (Spacing.visible ws) := by
  refine List.rel_filter (fun v w hvw => ?_) h
  show (!Text.isBlank v.char) = true ↔ (!Text.isBlank w.char) = true
  rw [hvw.char]

namespace Cursor

/-- The place in the text whose white space is collapsed, in the state `t`. -/
def collapsed (p : Cursor) (t : State) : Cursor :=
  ⟨t, (Text.runs true p.past.reverse).reverse,
    Text.squeeze (Text.gapAfter true p.past.reverse) p.rest,
    (Text.runs true p.past.reverse).length⟩

section

variable {s s' t : State} {past : Text} {c : Char} {r : Text} {position k : Nat}

theorem collapsed_advance {d : Char} (hd : Text.isBlank d = false)
    (hmore : d ∈ (c :: r).drop k) (s' t : State) :
    Text.squeeze (Text.gapAfter true past.reverse) (c :: r) =
        Text.runs (Text.gapAfter true past.reverse) ((c :: r).take k) ++
          ((advance ⟨s, past, c :: r, position⟩ k s').collapsed t).rest ∧
      ((advance ⟨s, past, c :: r, position⟩ k s').collapsed t).past =
        (Text.runs (Text.gapAfter true past.reverse) ((c :: r).take k)).reverse ++
          (Text.runs true past.reverse).reverse ∧
      ((advance ⟨s, past, c :: r, position⟩ k s').collapsed t).position =
        (Text.runs true past.reverse).length +
          (Text.runs (Text.gapAfter true past.reverse) ((c :: r).take k)).length := by
  have hsplit := Text.squeeze_append_of_mem hd hmore (Text.gapAfter true past.reverse)
    ((c :: r).take k)
  rw [List.take_append_drop] at hsplit
  simp [advance, advancePast, collapsed, hsplit, Text.runs_append, Text.gapAfter_append]

/-- A step in the collapsed text over what is left of the unit of a step. -/
theorem next_collapsed {d : Char} (hd : Text.isBlank d = false) (hmore : d ∈ (c :: r).drop k)
    {c' : Char} {r' : Text} (s' : State) {t' : State}
    (hrest : Text.squeeze (Text.gapAfter true past.reverse) (c :: r) = c' :: r')
    (hstep : t.step (Text.runs true past.reverse).reverse c' r'
      (Text.runs true past.reverse).length =
        .ok ((Text.runs (Text.gapAfter true past.reverse) ((c :: r).take k)).length, t')) :
    Next (collapsed ⟨s, past, c :: r, position⟩ t)
      ((advance ⟨s, past, c :: r, position⟩ k s').collapsed t') := by
  obtain ⟨hunit, hpast, hposition⟩ :=
    @collapsed_advance s past c r position k d hd hmore s' t'
  have hnext := Next.of_unit hstep (hrest ▸ hunit)
  rw [← hpast, ← hposition] at hnext
  rw [collapsed, hrest]
  exact hnext

/-- What is read in front of a character that is no white space. -/
theorem length_runs_take (hc : Text.isBlank c = false) (hk : k = 1 ∨ k = 2) (inGap : Bool)
    (hne : (c :: r).drop k ≠ []) : (Text.runs inGap ((c :: r).take k)).length = k := by
  obtain rfl | rfl := hk
  · simp [Text.runs, hc]
  · cases r with
    | nil => exact absurd rfl hne
    | cons d r => cases hd : Text.isBlank d <;> simp [Text.runs, hc, hd]

/-- **A step over white space is one over a space, or none.** -/
theorem exists_collapsed_blank (hst : SameShape s t) (hcomment : s.context.isComment = false)
    (hstep : s.step past c r position = .ok (k, s')) (hc : Text.isBlank c = true) {d : Char}
    (hd : Text.isBlank d = false) (hmore : d ∈ (c :: r).drop k) :
    ∃ qs, Run (collapsed ⟨s, past, c :: r, position⟩ t) qs
        ((advance ⟨s, past, c :: r, position⟩ k s').collapsed t) ∧ SameShape s' t ∧
      Spacing.visible (qs.filterMap visit?) = [] := by
  obtain ⟨rfl, rfl⟩ := State.step_blank hcomment hc hstep
  have hcomment' : t.context.isComment = false := hst.context ▸ hcomment
  have hvisible : ∀ {v : Visit} (vs : List Visit), Text.isBlank v.char = true →
      Spacing.visible (v :: vs) = Spacing.visible vs := by
    intro v vs hv
    simp [Spacing.visible, hv]
  cases hgap : Text.gapAfter true past.reverse with
  | true =>
    have hplace : (advance ⟨s', past, c :: r, position⟩ 1 s').collapsed t =
        collapsed ⟨s', past, c :: r, position⟩ t := by
      have hafter : Text.gapAfter true [c] = true := hc
      simp [collapsed, advance, advancePast, Text.runs_append, Text.gapAfter_append, hgap, hafter,
        Text.runs, Text.squeeze, hc]
    rw [hplace]
    exact ⟨[], .refl _, hst, rfl⟩
  | false =>
    have hne : (Text.squeeze true r).isEmpty = false := by
      simpa using Text.squeeze_ne_nil hd hmore true
    have hrest : Text.squeeze (Text.gapAfter true past.reverse) (c :: r) =
        ' ' :: Text.squeeze true r := by
      rw [hgap, Text.squeeze, if_pos hc, hne]
      rfl
    have hone : (Text.runs (Text.gapAfter true past.reverse) ((c :: r).take 1)).length = 1 := by
      rw [hgap]
      simp [Text.runs, hc]
    have hnext : Next (collapsed ⟨s', past, c :: r, position⟩ t) _ :=
      next_collapsed hd hmore s' hrest (by rw [hone]; exact State.step_space hcomment' _ _ _)
    refine ⟨_, .single hnext, hst, ?_⟩
    rw [List.filterMap_cons]
    cases hvisit : (collapsed ⟨s', past, c :: r, position⟩ t).visit? with
    | none => rfl
    | some v =>
      obtain ⟨hplace, -⟩ := visit?_eq_some hvisit
      have hchar : v.char :: v.rest = ' ' :: Text.squeeze true r := by
        rw [← hrest]
        exact (congrArg Cursor.rest hplace).symm
      rw [List.filterMap_nil, hvisible [] (by rw [(List.cons.inj hchar).1]; decide)]
      rfl

/-- White space is collapsed behind a character that is none, and the character stays. -/
theorem collapsed_visible (hc : Text.isBlank c = false) (t : State) :
    Text.squeeze (Text.gapAfter true past.reverse) (c :: r) = c :: Text.squeeze false r ∧
      collapsed ⟨s, past, c :: r, position⟩ t =
        ⟨t, (Text.runs true past.reverse).reverse, c :: Text.squeeze false r,
          (Text.runs true past.reverse).length⟩ := by
  have hrest : Text.squeeze (Text.gapAfter true past.reverse) (c :: r) =
      c :: Text.squeeze false r := by
    rw [Text.squeeze, if_neg (by simp [hc])]
  exact ⟨hrest, by rw [collapsed, hrest]⟩

theorem readsCode_squeeze (hst : SameShape s t) (c : Char) (r : Text) :
    t.readsCode c (Text.squeeze false r) = s.readsCode c r := by
  rw [← State.readsCode_congr (sameHead_squeeze r), State.readsCode, State.readsCode,
    State.inCode, State.inCode, hst.context, SameShape.bisimulation.closesExpr hst]

/-- A step over a regular expression literal is one over that literal. -/
theorem exists_collapsed_literal {w : Nat} (hst : SameShape s t)
    (hstep : s.step past c r position = .ok (k, s')) (hc : Text.isBlank c = false) {d : Char}
    (hd : Text.isBlank d = false) (hmore : d ∈ (c :: r).drop k) (hcode : s.readsCode c r = true)
    (hw : RegexLiteral.width? past c r = some w) :
    ∃ t', Next (collapsed ⟨s, past, c :: r, position⟩ t)
        ((advance ⟨s, past, c :: r, position⟩ k s').collapsed t') ∧ SameShape s' t' ∧
      visit? ⟨s, past, c :: r, position⟩ = none ∧
        (collapsed ⟨s, past, c :: r, position⟩ t).visit? = none := by
  obtain ⟨hrest, hcollapsed⟩ := @collapsed_visible s past c r position hc t
  have hw' := RegexLiteral.width?_squeeze hw
  have hruns : Text.runs (Text.gapAfter true past.reverse) ((c :: r).take k) =
      Text.runs false ((c :: r).take k) := by
    cases k with
    | zero => rfl
    | succ k => simp [Text.runs, hc]
  rw [step_of_readsCode hcode, hw] at hstep
  cases hstep
  have hstep' := step_of_readsCode ((readsCode_squeeze hst c r).trans hcode)
    (Text.runs true past.reverse).reverse (Text.runs true past.reverse).length
  rw [hw'] at hstep'
  refine ⟨t, next_collapsed hd hmore _ hrest (by rw [hruns]; exact hstep'), hst, ?_, ?_⟩
  · simp [visit?, hw]
  · rw [hcollapsed]
    simp [visit?, hw']

/-- **A step elsewhere is the same step.** -/
theorem exists_collapsed_visible (hst : SameShape s t) (hcomment : s.context.isComment = false)
    (hstep : s.step past c r position = .ok (k, s')) (hc : Text.isBlank c = false) {d : Char}
    (hd : Text.isBlank d = false) (hmore : d ∈ (c :: r).drop k)
    (hslash : ∀ v, visit? ⟨s, past, c :: r, position⟩ = some v → v.char = '/' →
      RegexLiteral.Divides v.past v.rest) :
    ∃ t', Next (collapsed ⟨s, past, c :: r, position⟩ t)
        ((advance ⟨s, past, c :: r, position⟩ k s').collapsed t') ∧ SameShape s' t' ∧
      List.Forall₂ Visit.Alike (visit? ⟨s, past, c :: r, position⟩).toList
        (collapsed ⟨s, past, c :: r, position⟩ t).visit?.toList := by
  by_cases hliteral : s.readsCode c r = true ∧ ∃ w, RegexLiteral.width? past c r = some w
  · obtain ⟨hcode, w, hw⟩ := hliteral
    obtain ⟨t', hnext, hst', hnone, hnone'⟩ :=
      exists_collapsed_literal hst hstep hc hd hmore hcode hw
    exact ⟨t', hnext, hst', by rw [hnone, hnone']; exact .nil⟩
  · have hnone : s.readsCode c r = true → RegexLiteral.width? past c r = none := by
      intro hcode
      rw [Option.eq_none_iff_forall_ne_some]
      intro w hw
      exact hliteral ⟨hcode, w, hw⟩
    -- no slash begins a literal here, and none does in the collapsed text
    have hdivides : s.readsCode c r = true → c = '/' → RegexLiteral.Divides past r :=
      fun hcode => hslash _ (visit?_of_readsCode hcode (hnone hcode) position)
    have hnone' : s.readsCode c r = true → _ ∧ _ := fun hcode =>
      RegexLiteral.Divides.width? (hdivides hcode)
    obtain ⟨hrest, hcollapsed⟩ := @collapsed_visible s past c r position hc t
    have hreads := readsCode_squeeze hst c r
    have hcongr := State.step_congr hst.context (SameShape.bisimulation.closesExpr hst c)
      (fun hcode => (hnone hcode).trans (hnone' hcode).1.symm) position
      (Text.runs true past.reverse).length
    obtain ⟨herror, -⟩ | ⟨k', a, hallowed, hown, hother⟩ := hcongr
    · rw [hstep] at herror
      cases herror
    · rw [hstep, Except.ok.injEq, Prod.mk.injEq] at hown
      obtain ⟨rfl, rfl⟩ := hown
      have hlength := length_runs_take hc (State.le_two_of_step hcomment hnone hstep)
        (Text.gapAfter true past.reverse) (List.ne_nil_of_mem hmore)
      have hsame : t.readsCode c r = s.readsCode c r := by
        rw [State.readsCode_congr (sameHead_squeeze r), hreads]
      rw [State.step_congr_rest (hst.context ▸ hcomment) (sameHead_squeeze r) fun hcode =>
        (hnone' (hsame ▸ hcode)).1.trans (hnone' (hsame ▸ hcode)).2.symm] at hother
      refine ⟨_, next_collapsed hd hmore _ hrest (by rw [hlength]; exact hother),
        SameShape.bisimulation.apply hst hallowed _ _, ?_⟩
      rw [hcollapsed, visit?, visit?]
      simp only [hreads]
      by_cases hcode : s.readsCode c r = true
      · simp only [hcode, hnone hcode, (hnone' hcode).2]
        refine .cons ⟨rfl, ?_, ?_, sameHead_squeeze r⟩ .nil
        · rw [State.depth, State.depth, hst.braces, hst.squares, hst.rounds]
        · have hpast := sameHead_runs past.reverse
          rwa [List.reverse_reverse] at hpast
      · simp [hcode]

end

/-- **Step by step.** -/
theorem Next.exists_collapsed {p q : Cursor} (h : Next p q) {t : State}
    (hst : SameShape p.state t) (hcomment : p.state.context.isComment = false) {d : Char}
    (hd : Text.isBlank d = false) (hmore : d ∈ q.rest)
    (hslash : ∀ v, p.visit? = some v → v.char = '/' → RegexLiteral.Divides v.past v.rest) :
    ∃ qs t', Run (p.collapsed t) qs (q.collapsed t') ∧ SameShape q.state t' ∧
      List.Forall₂ Visit.Alike (Spacing.visible p.visit?.toList)
        (Spacing.visible (qs.filterMap visit?)) := by
  cases h with
  | @step s s' past c r position k hstep =>
    have hchar : ∀ {v : Visit} {p : Cursor}, p.rest.head? = some c → p.visit? = some v →
        v.char = c := by
      intro v p hp hv
      obtain ⟨hplace, -⟩ := visit?_eq_some hv
      rw [hplace] at hp
      exact Option.some.inj hp
    cases hc : Text.isBlank c with
    | true =>
      obtain ⟨qs, hrun, hst', hvisible⟩ := exists_collapsed_blank hst hcomment hstep hc hd hmore
      refine ⟨qs, t, hrun, hst', ?_⟩
      rw [hvisible, Spacing.visible_eq_nil]
      · exact .nil
      · intro v hv
        rw [hchar rfl (Option.mem_toList.1 hv)]
        exact hc
    | false =>
      obtain ⟨t', hnext, hst', hvisits⟩ :=
        exists_collapsed_visible hst hcomment hstep hc hd hmore hslash
      refine ⟨_, t', .single hnext, hst', ?_⟩
      have hsingle : ∀ p : Cursor, [p].filterMap visit? = p.visit?.toList := by
        intro p
        rw [List.filterMap_cons]
        cases p.visit? <;> rfl
      rw [hsingle]
      exact Visit.forall₂_visible hvisits

/-- **A run over code is a run over it once its white space is collapsed**, through visits at the
same characters. -/
theorem Run.exists_collapsed {p q : Cursor} {ps : List Cursor} (h : Run p ps q) {t : State}
    (hst : SameShape p.state t) (hcomments : ∀ r ∈ ps, r.state.context.isComment = false) {d : Char}
    (hd : Text.isBlank d = false) (hmore : d ∈ q.rest)
    (hslash : ∀ v ∈ ps.filterMap visit?, v.char = '/' → RegexLiteral.Divides v.past v.rest) :
    ∃ qs t', Run (p.collapsed t) qs (q.collapsed t') ∧ SameShape q.state t' ∧
      List.Forall₂ Visit.Alike (Spacing.visible (ps.filterMap visit?))
        (Spacing.visible (qs.filterMap visit?)) := by
  induction h generalizing t with
  | refl p => exact ⟨[], t, .refl _, hst, .nil⟩
  | @cons p p' q ps hnext hrun ih =>
    obtain ⟨hcomment, hcomments⟩ := List.forall_mem_cons.1 hcomments
    have hmore' : d ∈ p'.rest := hrun.suffix.subset hmore
    have hsplit : (p :: ps).filterMap visit? = p.visit?.toList ++ ps.filterMap visit? := by
      rw [List.filterMap_cons]
      cases p.visit? <;> rfl
    rw [hsplit] at hslash ⊢
    obtain ⟨qs, t', hqs, hst', hvisits⟩ := hnext.exists_collapsed hst hcomment hd hmore'
      fun v hv => hslash v (List.mem_append_left _ (by rw [hv]; simp))
    obtain ⟨rs, t'', hrs, hst'', hvisits'⟩ := ih hst' hcomments hmore
      fun v hv => hslash v (List.mem_append_right _ hv)
    refine ⟨qs ++ rs, t'', hqs.append hrs, hst'', ?_⟩
    rw [List.filterMap_append, Spacing.visible_append, Spacing.visible_append]
    exact List.rel_append hvisits hvisits'

end Cursor

/-! ## What is outside brackets -/

namespace Visit.Alike

variable {v w : Visit}

theorem angleAfter_eq (h : v.Alike w) (angle : Nat) : v.angleAfter angle = w.angleAfter angle := by
  rw [Visit.angleAfter, Visit.angleAfter, Visit.opensAngle, Visit.opensAngle, Visit.closesAngle,
    Visit.closesAngle, bne, bne, h.char, h.past.beq (by decide)]

theorem assigns_eq (h : v.Alike w) : v.assigns = w.assigns := by
  have hsign : ∀ {p : Char → Bool}, (∀ c, p c = true → c ∈ ['=', '>', '!', '<']) →
      ∀ c, p c = true → Text.isBlank c = false := by
    intro p hp c hc
    have hall : ∀ c ∈ ['=', '>', '!', '<'], Text.isBlank c = false := by decide
    exact hall c (hp c hc)
  rw [Visit.assigns, Visit.assigns, h.char, h.rest.any (hsign _), h.past.any (hsign _)]
  · intro c hc
    simp only [Bool.or_eq_true, beq_iff_eq] at hc
    rcases hc with ((rfl | rfl) | rfl) | rfl <;> decide
  · intro c hc
    simp only [Bool.or_eq_true, beq_iff_eq] at hc
    rcases hc with rfl | rfl <;> decide

end Visit.Alike

/-- White space neither opens nor closes angle brackets. -/
theorem anglesAfter_visible (angle : Nat) (vs : List Visit) :
    anglesAfter angle (Spacing.visible vs) = anglesAfter angle vs := by
  induction vs generalizing angle with
  | nil => rfl
  | cons v vs ih =>
    cases hv : Text.isBlank v.char with
    | true =>
      have hskip : Spacing.visible (v :: vs) = Spacing.visible vs := by
        simp [Spacing.visible, hv]
      rw [hskip, ih, anglesAfter, anglesAfter, List.foldl_cons, Visit.angleAfter_of_isBlank hv]
    | false =>
      have hkeep : Spacing.visible (v :: vs) = v :: Spacing.visible vs := by
        simp [Spacing.visible, hv]
      rw [hkeep, anglesAfter, anglesAfter, List.foldl_cons, List.foldl_cons]
      exact ih _

theorem anglesAfter_eq_of_alike {vs ws : List Visit} (h : List.Forall₂ Visit.Alike vs ws)
    (angle : Nat) : anglesAfter angle vs = anglesAfter angle ws := by
  induction h generalizing angle with
  | nil => rfl
  | cons hv _ ih =>
    rw [anglesAfter, anglesAfter, List.foldl_cons, List.foldl_cons, hv.angleAfter_eq]
    exact ih _

theorem forall₂_outermostFrom_alike {vs ws : List Visit} (h : List.Forall₂ Visit.Alike vs ws)
    (angle : Nat) :
    List.Forall₂ Visit.Alike (outermostFrom true angle vs) (outermostFrom true angle ws) :=
  forall₂_outermostFrom_of (fun hv => hv.angleAfter_eq) (fun hv => hv.depth) h true angle

/-- White space assigns nothing. -/
theorem any_assigns_visible (vs : List Visit) :
    (Spacing.visible vs).any (·.assigns) = vs.any (·.assigns) := by
  have hsame : ∀ v : Visit, (!Text.isBlank v.char && v.assigns) = v.assigns := by
    intro v
    cases hv : v.assigns with
    | false => rw [Bool.and_false]
    | true =>
      simp only [Visit.assigns, Bool.and_eq_true, beq_iff_eq] at hv
      rw [hv.1.1]
      decide
  simp only [Spacing.visible, List.any_filter, hsame]

theorem any_assigns_of_alike {vs ws : List Visit} (h : List.Forall₂ Visit.Alike vs ws) :
    vs.any (·.assigns) = ws.any (·.assigns) := by
  induction h with
  | nil => rfl
  | cons hv _ ih => rw [List.any_cons, List.any_cons, hv.assigns_eq, ih]

/-! ## Closed texts -/

/-- No slash in the code of the text begins a regular expression literal once the white space in it
and in `more` behind it is collapsed. -/
def SlashesDivide (t more : Text) : Prop :=
  ∀ v ∈ visits t, v.char = '/' → RegexLiteral.Divides v.past (v.rest ++ more)

instance (t more : Text) : Decidable (SlashesDivide t more) :=
  inferInstanceAs (Decidable (∀ v ∈ visits t, v.char = '/' →
    RegexLiteral.Divides v.past (v.rest ++ more)))

namespace SlashesDivide

variable {t more outer : Text}

/-- Nor does one before. -/
theorem leavesSlashes (h : SlashesDivide t more) : LeavesSlashes t more :=
  fun v hv hchar hbegins => (h v hv hchar).bodyWidth? hbegins

/-- A text in front that ends with no name changes nothing. -/
theorem lift (h : SlashesDivide t more) (houter : outer.head?.any Text.isIdentChar = false)
    {base : State} {offset : Nat} {w : Visit}
    (hw : w ∈ (visits t).map (Visit.lift base offset outer more)) (hchar : w.char = '/') :
    RegexLiteral.Divides w.past w.rest := by
  obtain ⟨v, hv, rfl⟩ := List.mem_map.1 hw
  intro hbegins
  refine h v hv hchar ?_
  simp only [Visit.lift] at hbegins
  cases hpast : v.past.dropWhile Text.isBlank with
  | nil => rfl
  | cons c past =>
    have hc : ¬ Text.isBlank c = true := by
      have hhead := List.head?_dropWhile_not Text.isBlank v.past
      rw [hpast] at hhead
      simpa using hhead
    have hgap : ¬ RegexLiteral.isGap c = true := fun hgap => hc (RegexLiteral.isBlank_of_isGap hgap)
    rw [List.dropWhile_append, hpast, List.isEmpty_cons, if_neg (by simp),
      RegexLiteral.beginsAfter_append (by simp [hgap]) houter] at hbegins
    exact hbegins

end SlashesDivide

/-! ## Pieces in which nothing assigns -/

/-- Among the visits angle brackets close, nothing outside every bracket assigns, and a slash
divides once the white space is collapsed. -/
structure Unassigned (vs : List Visit) : Prop where
  /-- As many angle brackets close as open. -/
  angles : anglesAfter 0 vs = 0
  /-- No equals sign assigns. -/
  assigns : ∀ v ∈ outermostFrom true 0 vs, v.assigns = false
  /-- No slash begins a literal. -/
  slashes : ∀ v ∈ vs, v.char = '/' → RegexLiteral.Divides v.past v.rest

theorem Unassigned.append {vs ws : List Visit} (hv : Unassigned vs) (hw : Unassigned ws) :
    Unassigned (vs ++ ws) where
  angles := by rw [anglesAfter_append, hv.angles, hw.angles]
  assigns v h := by
    rw [outermostFrom_append, hv.angles, List.mem_append] at h
    exact h.elim (hv.assigns v) (hw.assigns v)
  slashes v h := (List.mem_append.1 h).elim (hv.slashes v) (hw.slashes v)

/-- Between `outer`, in reverse, and `more` the text leads from `base` back to that state, through
no comment, and nothing in it assigns. -/
def UnassignedAt (base : State) (outer t more : Text) (offset : Nat) : Prop :=
  ∃ ps, Run ⟨base, outer, t ++ more, offset⟩ ps
      ⟨base, t.reverse ++ outer, more, offset + t.length⟩ ∧
    (∀ p ∈ ps, p.state.context.isComment = false) ∧ Unassigned (ps.filterMap visit?)

namespace UnassignedAt

variable {base : State} {outer t u more : Text} {offset : Nat}

theorem append (ht : UnassignedAt base outer t (u ++ more) offset)
    (hu : UnassignedAt base (t.reverse ++ outer) u more (offset + t.length)) :
    UnassignedAt base outer (t ++ u) more offset := by
  obtain ⟨ps, hps, hpsc, hpsv⟩ := ht
  obtain ⟨qs, hqs, hqsc, hqsv⟩ := hu
  refine ⟨ps ++ qs, ?_, ?_, ?_⟩
  · have hrun := hps.append hqs
    rw [List.append_assoc, List.reverse_append, List.append_assoc, List.length_append,
      ← Nat.add_assoc]
    exact hrun
  · intro p hp
    exact (List.mem_append.1 hp).elim (hpsc p) (hqsc p)
  · rw [List.filterMap_append]
    exact hpsv.append hqsv

/-- Plain characters other than equals signs and angle brackets. -/
theorem plain (hbase : base.inCode = true) (ht : ∀ c ∈ t, Plain c ∧ c ∉ ['=', '<', '>'])
    (outer more : Text) (offset : Nat) : UnassignedAt base outer t more offset := by
  induction t generalizing outer offset with
  | nil => exact ⟨[], .refl _, by simp, rfl, by simp [outermostFrom], by simp⟩
  | cons c t ih =>
    obtain ⟨⟨hc, hsign⟩, ht⟩ := List.forall_mem_cons.1 ht
    simp only [List.mem_cons, List.not_mem_nil, or_false, not_or] at hsign
    have hslash : c ≠ '/' := by
      rintro rfl
      exact absurd hc (by decide)
    have hsingle : UnassignedAt base outer [c] (t ++ more) offset := by
      refine ⟨_, .single (.of_unit (State.step_of_plain hbase hc outer _ offset) rfl), ?_, ?_⟩
      · intro p hp
        rw [List.mem_singleton.1 hp]
        exact State.isComment_of_inCode hbase
      · rw [List.filterMap_cons, List.singleton_append, visit?_of_plain hbase hc]
        refine ⟨?_, fun v hv => ?_, fun v hv hchar => ?_⟩
        · simp [anglesAfter, Visit.angleAfter, Visit.opensAngle, Visit.closesAngle, hsign]
        · rw [List.mem_singleton.1 (mem_of_mem_outermostFrom hv).1]
          simp [Visit.assigns, hsign]
        · rw [List.mem_singleton.1 hv] at hchar
          exact absurd hchar hslash
    exact hsingle.append (ih ht _ _)

end UnassignedAt

/-- A closed text without comments in which every outermost equals sign is that of an arrow. -/
theorem Closed.unassignedAt {outer t more : Text} (ht : Closed t) (hcomments : stripComments t = t)
    (hangles : anglesAfter 0 (visits t) = 0)
    (harrows : ∀ v ∈ outermost t true, v.char = '=' → v.rest.head? = some '>')
    (houter : RegexLiteral.Opens outer) (hequals : outer.head? ≠ some '=') (hmore : Parts more)
    (hslash : SlashesDivide t more) (offset : Nat) : UnassignedAt {} outer t more offset := by
  obtain ⟨ps, qs, hown, hrun, rfl, hvisits⟩ :=
    ht.exists_moved_run .fresh rfl houter hmore hslash.leavesSlashes offset
  have huncommented : ∀ p ∈ ps, p.state.context.isComment = false := by
    refine hown.uncommented .fresh rfl ?_
    rw [← stripComments_eq_code, hcomments]
  refine ⟨_, hrun, ?_, ?_⟩
  · intro p hp
    obtain ⟨r, hr, rfl⟩ := List.mem_map.1 hp
    exact State.isComment_within rfl (hown.coherent_of_mem .fresh r hr) offset (huncommented r hr)
  · rw [hvisits]
    refine ⟨?_, fun v hv => ?_, fun v hv => hslash.lift houter.1 hv⟩
    · rw [anglesAfter_lift hequals, hangles]
    · rw [outermostFrom_lift rfl hequals] at hv
      obtain ⟨w, hw, rfl⟩ := List.mem_map.1 hv
      by_cases hchar : w.char = '='
      · obtain ⟨rest, hrest⟩ := List.head?_eq_some_iff.1 (harrows w hw hchar)
        simp [Visit.assigns, Visit.lift, hrest]
      · simp [Visit.assigns, Visit.lift, hchar]

/-! ## The first assignment -/

/-- Nothing assigns among visits that are alike but for the white space. -/
theorem Unassigned.of_alike {vs ws : List Visit} (hvs : Unassigned vs)
    (h : List.Forall₂ Visit.Alike (Spacing.visible vs) (Spacing.visible ws)) :
    anglesAfter 0 ws = 0 ∧ (outermostFrom true 0 ws).find? (·.assigns) = none := by
  have hany : (outermostFrom true 0 ws).any (·.assigns) = false := by
    rw [← any_assigns_visible, Spacing.visible_outermostFrom,
      ← any_assigns_of_alike (forall₂_outermostFrom_alike h 0), ← Spacing.visible_outermostFrom,
      any_assigns_visible, List.any_eq_false]
    exact fun v hv => by simp [hvs.assigns v hv]
  refine ⟨?_, List.find?_eq_none.2 (List.any_eq_false.1 hany)⟩
  rw [← anglesAfter_visible, ← anglesAfter_eq_of_alike h, anglesAfter_visible, hvs.angles]

/-- An equals sign that is no part of another sign assigns. -/
theorem Visit.assigns_of_ends {front back : Text}
    (hfront : ∀ c ∈ front.getLast?, c ∉ ['=', '!', '<', '>'])
    (hback : ∀ c ∈ back.head?, c ∉ ['=', '>']) (index : Nat) (s : State) :
    Visit.assigns ⟨index, front.reverse, '=', back, s⟩ = true := by
  have hlast : front.getLast?.any (fun c => c == '=' || c == '!' || c == '<' || c == '>') =
      false := by
    simpa [Option.any_eq_false, and_assoc] using hfront
  have hhead : back.head?.any (fun c => c == '=' || c == '>') = false := by
    simpa [Option.any_eq_false] using hback
  simp [Visit.assigns, List.head?_reverse, hlast, hhead]

/-- Behind visits among which nothing assigns, the first equals sign that does is found. -/
theorem findAssignment?_of_visits {t : Text} {vs ws : List Visit} {v : Visit}
    (hvisits : visits t = vs ++ v :: ws) (hangles : anglesAfter 0 vs = 0)
    (hnone : (outermostFrom true 0 vs).find? (·.assigns) = none) (hassigns : v.assigns = true)
    (hdepth : v.state.depth = 0) : findAssignment? t = some v.index := by
  have hsign : v.char = '=' := by
    simp only [Visit.assigns, Bool.and_eq_true, beq_iff_eq] at hassigns
    exact hassigns.1.1
  rw [findAssignment?, outermost, hvisits, outermostFrom_append, hangles, List.find?_append, hnone,
    Option.none_or]
  simp [outermostFrom, Visit.angleAfter, Visit.opensAngle, Visit.closesAngle, hsign, hdepth,
    hassigns]

/-- **The first assignment is found at the same place.**  Behind a text in which nothing assigns, an
equals sign that does is found when the white space is collapsed. -/
theorem findAssignment?_collapse {front back : Text}
    (hunassigned : UnassignedAt {} [] front ('=' :: back) 0)
    (hfront : ∀ c ∈ front.getLast?, c ∉ ['=', '!', '<', '>'])
    (hback : ∀ c ∈ back.head?, c ∉ ['=', '>']) :
    Text.collapse (front ++ '=' :: back) = Text.runs true front ++ '=' :: Text.squeeze false back ∧
      findAssignment? (Text.runs true front ++ '=' :: Text.squeeze false back) =
        some (Text.runs true front).length := by
  have hequals : Text.isBlank '=' = false := by decide
  refine ⟨by rw [Text.collapse_eq_squeeze, Text.squeeze_append hequals], ?_⟩
  obtain ⟨ps, hrun, hcomments, hsettled⟩ := hunassigned
  obtain ⟨qs, t, hqs, hshape, hvisits⟩ := hrun.exists_collapsed (.refl {}) hcomments hequals
    List.mem_cons_self hsettled.slashes
  obtain ⟨hangles, hnone⟩ := hsettled.of_alike hvisits
  have hdepth : t.depth = 0 := by
    rw [State.depth, ← hshape.braces, ← hshape.squares, ← hshape.rounds]
    rfl
  have hcode : t.inCode = true := by
    rw [State.inCode, ← hshape.context]
    rfl
  -- the equals sign in the text as written is like the one in the collapsed text
  have halike : Visit.Alike ⟨front.length, front.reverse, '=', back, {}⟩
      ⟨(Text.runs true front).length, (Text.runs true front).reverse, '=',
        Text.squeeze false back, t⟩ :=
    ⟨rfl, hdepth.symm, sameHead_runs front, sameHead_squeeze back⟩
  have hassigns := halike.assigns_eq ▸ Visit.assigns_of_ends hfront hback front.length {}
  have hplain : Plain '=' := by decide
  have hall := hqs.visits_eq
  have hstep := visitsFrom_cons (State.step_of_plain hcode hplain (Text.runs true front).reverse
    (Text.squeeze false back) (Text.runs true front).length)
  have hstart : Text.squeeze true (front ++ '=' :: back) =
      Text.runs true front ++ '=' :: Text.squeeze false back := Text.squeeze_append hequals true _ _
  have hsqueeze : ∀ inGap, Text.squeeze inGap ('=' :: back) = '=' :: Text.squeeze false back :=
    fun inGap => Text.squeeze_append hequals inGap [] back
  rw [visit?_of_plain hcode hplain, Option.toList_some] at hstep
  simp only [Cursor.visits, collapsed, List.reverse_nil, List.append_nil, List.reverse_reverse,
    hsqueeze, hstep] at hall
  have hvisitsOf : Lexing.visits (Text.runs true front ++ '=' :: Text.squeeze false back) =
      qs.filterMap visit? ++ _ := hstart ▸ hall
  exact findAssignment?_of_visits hvisitsOf hangles hnone hassigns hdepth

end ModuleSurface.Lexing
