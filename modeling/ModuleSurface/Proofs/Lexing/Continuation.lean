import ModuleSurface.Proofs.Lexing.Action

/-!
# A text with more text behind it

A pass over a text goes through the same steps when more text follows, if the text ends in code, or
in a line comment that a newline follows, and if what follows gives no slash of the text another
meaning (`KeepsUnit`).  The brackets that the text leaves open do not matter here:
`exists_run_append`.
-/

namespace ModuleSurface.Lexing

open Cursor

/-! ## Slashes -/

/-- With `more` behind it a slash of code begins no comment that it did not begin before, and the
same regular expression literal or none. -/
def KeepsUnit (past : Text) (c : Char) (rest more : Text) : Prop :=
  c = '/' → (rest = [] → more.head? ≠ some '/' ∧ more.head? ≠ some '*') ∧
    (rest.head? ≠ some '/' → rest.head? ≠ some '*' →
      RegexLiteral.width? past '/' (rest ++ more) = RegexLiteral.width? past '/' rest)

/-- A literal that is closed in a text stays closed there, if what follows adds no flags. -/
theorem RegexLiteral.bodyWidth?_append_of_some {inClass : Bool} {t : Text} {w : Nat}
    (h : bodyWidth? inClass t = some w) {more : Text}
    (hflags : more.head?.any Text.isIdentChar = false) :
    bodyWidth? inClass (t ++ more) = some w := by
  induction inClass, t using body_induction generalizing w with
  | nil => cases h
  | cons inClass c t ih ih' =>
    obtain ⟨heq, -⟩ | heq | ⟨b, heq⟩ | heq := bodyWidth?_cons inClass c <;>
      rw [heq] at h <;> rw [List.cons_append, heq]
    · obtain ⟨v, hv, rfl⟩ := Option.map_eq_some_iff.1 h
      cases t with
      | nil => cases hv
      | cons d t =>
        have hrest : bodyWidth? inClass (t ++ more) = some v := ih' inClass hv
        rw [List.cons_append, List.drop_one, List.tail_cons, hrest]
        rfl
    · cases h
    · obtain ⟨v, hv, rfl⟩ := Option.map_eq_some_iff.1 h
      rw [ih b hv]
      rfl
    · rw [← h, List.takeWhile_append]
      have hnone : more.takeWhile Text.isIdentChar = [] := by
        cases more with
        | nil => rfl
        | cons d more => exact List.takeWhile_cons_of_neg (by simpa using hflags)
      split
      · rename_i hall
        rw [hnone, List.append_nil, hall]
      · rfl

namespace State

variable {s s' : State} {past : Text} {c : Char} {rest more : Text} {position k : Nat}

/-- The delimiter of a comment is one before and after. -/
theorem delimiter_extend (h : KeepsUnit past c rest more) {d : Char} (hd : d = '/' ∨ d = '*') :
    (c == '/' && (rest ++ more).head? == some d) = (c == '/' && rest.head? == some d) := by
  by_cases hc : c = '/'
  · cases rest with
    | cons e rest => rfl
    | nil =>
      have hne := (h hc).1 rfl
      rcases hd with rfl | rfl
      · simpa using fun _ => hne.1
      · simpa using fun _ => hne.2
  · have hslash : (c == '/') = false := beq_false_of_ne hc
    rw [hslash]
    rfl

theorem readsCode_extend (h : KeepsUnit past c rest more) :
    s.readsCode c (rest ++ more) = s.readsCode c rest := by
  unfold readsCode
  rw [Bool.and_or_distrib_left, delimiter_extend h (.inl rfl), delimiter_extend h (.inr rfl),
    ← Bool.and_or_distrib_left]

theorem width?_extend (h : KeepsUnit past c rest more) (hs : s.readsCode c rest = true) :
    RegexLiteral.width? past c (rest ++ more) = RegexLiteral.width? past c rest := by
  by_cases hc : c = '/'
  · subst hc
    obtain ⟨-, hslash, -⟩ := readsCode_iff.1 hs
    exact (h rfl).2 (hslash rfl).1 (hslash rfl).2
  · simp [RegexLiteral.width?, hc]

theorem stepCode_extend (hs : s.inCode = true) (h : KeepsUnit past c rest more) :
    s.stepCode past c (rest ++ more) position = s.stepCode past c rest position := by
  by_cases hreads : s.readsCode c rest = true
  · unfold stepCode
    rw [delimiter_extend h (.inl rfl), delimiter_extend h (.inr rfl), width?_extend h hreads]
  · -- a delimiter is read without a look at what follows it
    have hc : c ≠ '/' ∨ rest.head? = some '/' ∨ rest.head? = some '*' := by
      by_contra hnone
      simp only [not_or, not_not] at hnone
      obtain ⟨rfl, hline, hblock⟩ := hnone
      exact hreads (readsCode_iff.2 ⟨hs, fun _ => ⟨hline, hblock⟩, rfl, rfl⟩)
    unfold stepCode
    rw [delimiter_extend h (.inl rfl), delimiter_extend h (.inr rfl)]
    by_cases hslash : c = '/'
    · subst hslash
      rcases hc with hne | hline | hblock
      · exact absurd rfl hne
      · simp [hline]
      · simp [hblock]
    · simp [RegexLiteral.width?, hslash]

/-- A line comment that reaches the end of a text reaches the newline behind it. -/
theorem stepLineComment_newline (hrest : '\n' ∉ rest) (hc : c ≠ '\n')
    (hmore : more.head? = some '\n') :
    s.stepLineComment c (rest ++ more) = s.stepLineComment c rest := by
  have hall : ∀ a ∈ rest, (a != '\n') = true := by
    intro a ha
    simpa using fun h => hrest (by rwa [← h])
  have hnone : more.takeWhile (· != '\n') = [] := by
    cases more with
    | nil => cases hmore
    | cons d more =>
      cases hmore
      rfl
  simp [stepLineComment, hc, List.takeWhile_append_of_pos hall, hnone,
    List.takeWhile_eq_self_iff.2 hall]

/-- **A step over a text stays the same with more text behind it**, if the text ends in code, or in
a line comment that a newline follows. -/
theorem step_extend (hs : s.Coherent) (h : s.step past c rest position = .ok (k, s'))
    (hend : (c :: rest).drop k = [] →
      s'.inCode = true ∨ s'.context = .lineComment ∧ more.head? = some '\n')
    (hslash : s.inCode = true → KeepsUnit past c rest more) :
    s.step past c (rest ++ more) position = .ok (k, s') ∧ k ≤ rest.length + 1 := by
  by_cases hcode : s.inCode = true
  · rw [step_of_inCode hcode] at h ⊢
    rw [stepCode_extend hcode (hslash hcode)]
    exact ⟨h, stepCode_le (Except.ok.inj h)⟩
  have hnocode : s.inCode = true → KeepsSlash c rest more := fun hcode' => absurd hcode' hcode
  by_cases hinside : (c :: rest).drop k = [] → s'.inCode = true
  · exact step_append h hinside hnocode
  -- the text ends in a line comment, which a newline follows
  simp only [Classical.not_imp] at hinside
  obtain ⟨hctx, hmore⟩ := (hend hinside.1).resolve_left hinside.2
  rw [Bool.not_eq_true] at hcode
  have hline : s.context = .lineComment := by
    cases move_of_step h with
    | stay => exact hctx
    | substitute _ => cases hctx
    | leave _ => exact absurd (hs.inCode_leave hcode) hinside.2
    | enter hs' | openBracket hs' | closeBracket hs' =>
      rw [hcode] at hs'
      cases hs'
    | resume hs' =>
      rw [inCode, hs'] at hcode
      cases hcode
  have hstep : ∀ t, s.step past c t position = .ok (s.stepLineComment c t) := by
    intro t
    rw [step, hline]
  rw [hstep] at h ⊢
  have hc : c ≠ '\n' := by
    rintro rfl
    cases h
    cases hinside.1
  have hk : 1 + (rest.takeWhile (· != '\n')).length = k := by
    simp only [stepLineComment, beq_iff_eq, hc, if_false] at h
    cases h
    rfl
  have hlength : (rest.takeWhile (· != '\n')).length = rest.length := by
    have hle := List.drop_eq_nil_iff.1 hinside.1
    have hge := (List.takeWhile_prefix (· != '\n') (l := rest)).length_le
    rw [List.length_cons] at hle
    omega
  have hrest : '\n' ∉ rest := by
    intro hmem
    rw [← (List.takeWhile_prefix _).eq_of_length hlength] at hmem
    simpa using List.mem_takeWhile_imp hmem
  rw [stepLineComment_newline hrest hc hmore]
  exact ⟨h, by omega⟩

end State

/-! ## Runs -/

/-- The place with more text behind it. -/
def Cursor.extend (more : Text) (p : Cursor) : Cursor :=
  { p with rest := p.rest ++ more }

/-- The visit with more text behind it. -/
def Visit.extend (more : Text) (v : Visit) : Visit :=
  { v with rest := v.rest ++ more }

namespace Cursor

variable {more : Text}

theorem visit?_extend {s : State} {past : Text} {c : Char} {rest : Text} {position : Nat}
    (h : s.inCode = true → KeepsUnit past c rest more) :
    (extend more ⟨s, past, c :: rest, position⟩).visit? =
      (visit? ⟨s, past, c :: rest, position⟩).map (Visit.extend more) := by
  by_cases hs : s.inCode = true
  · simp only [extend, visit?, List.cons_append, State.readsCode_extend (h hs)]
    by_cases hreads : s.readsCode c rest = true
    · rw [State.width?_extend (h hs) hreads]
      split <;> rfl
    · simp [hreads]
  · have hnone : ∀ t, s.readsCode c t = false := by
      intro t
      simp [State.readsCode, hs]
    simp [extend, visit?, hnone]

/-- The places of a run are in the text. -/
theorem Placed.of_mem {text : Text} {p q : Cursor} {ps : List Cursor} (h : Placed text p)
    (hrun : Run p ps q) : ∀ r ∈ ps, Placed text r := by
  induction hrun with
  | refl => simp
  | cons hnext _ ih =>
    rintro r (_ | ⟨_, hr⟩)
    · exact h
    · exact ih (h.next hnext) r hr

/-- A run over a whole text is a run over it with more text behind. -/
theorem Run.extend {p q : Cursor} {ps : List Cursor} (h : Run p ps q) (hp : p.state.Coherent)
    (hrest : q.rest = [])
    (hend : q.state.inCode = true ∨ q.state.context = .lineComment ∧ more.head? = some '\n')
    (hslash : ∀ r ∈ ps, r.state.inCode = true → ∀ c t, r.rest = c :: t →
      KeepsUnit r.past c t more) :
    Run (p.extend more) (ps.map (Cursor.extend more)) (q.extend more) ∧
      ∀ r ∈ ps, (r.extend more).visit? = r.visit?.map (Visit.extend more) := by
  induction h with
  | refl p => exact ⟨.refl _, by simp⟩
  | @cons p p' q ps hnext hrun ih =>
    obtain ⟨hothers, hvisits⟩ := ih (by cases hnext with | step hstep => exact hp.step hstep)
      hrest hend fun r hr => hslash r (List.mem_cons_of_mem _ hr)
    cases hnext with
    | @step s s' past c rest position k hstep =>
      have hkeeps : s.inCode = true → KeepsUnit past c rest more :=
        fun hs => hslash _ List.mem_cons_self hs c rest rfl
      have hlast : (c :: rest).drop k = [] →
          s'.inCode = true ∨ s'.context = .lineComment ∧ more.head? = some '\n' := by
        intro hnil
        have hstate : q.state = s' := congrArg Cursor.state (hrun.eq_of_rest hnil)
        rwa [hstate] at hend
      obtain ⟨hlong, hk⟩ := State.step_extend hp hstep hlast hkeeps
      have htake : (c :: rest ++ more).take k = (c :: rest).take k :=
        List.take_append_of_le_length hk
      have hdrop : (c :: rest ++ more).drop k = (c :: rest).drop k ++ more :=
        List.drop_append_of_le_length hk
      have hadvance : advance (Cursor.extend more ⟨s, past, c :: rest, position⟩) k s' =
          Cursor.extend more (advance ⟨s, past, c :: rest, position⟩ k s') := by
        simp only [advance, Cursor.extend, advancePast, htake, hdrop]
      refine ⟨.cons ?_ hothers, ?_⟩
      · rw [← hadvance]
        exact Next.step hlong
      · rintro r (_ | ⟨_, hr⟩)
        · exact visit?_extend hkeeps
        · exact hvisits r hr

end Cursor

/-- **A text that ends in code is read alike with more text behind it**, and so is one that ends in
a line comment which a newline follows. -/
theorem exists_run_append {t more : Text} (hfault : (pass t).fault = none) (hmore : more ≠ [])
    (hend : (pass t).state.inCode = true ∨
      (pass t).state.context = .lineComment ∧ more.head? = some '\n')
    (hslash : ∀ r : Cursor, Placed t r → (∀ v, r.visit? = some v → v ∈ visits t) →
      r.state.inCode = true → ∀ c u, r.rest = c :: u → KeepsUnit r.past c u more) :
    ∃ ps, Run ⟨{}, [], t ++ more, 0⟩ ps ⟨(pass t).state, t.reverse, more, t.length⟩ ∧
      ps.filterMap visit? = (visits t).map (Visit.extend more) := by
  obtain ⟨ps, q, hrun, hrest, hstate⟩ := run_of_pass ⟨{}, [], t, 0⟩ hfault
  have hvisits : visits t = ps.filterMap visit? := by
    have h := hrun.visits_eq
    rw [Cursor.visits, Cursor.visits, hrest, visitsFrom, List.append_nil] at h
    exact h
  have hkeeps : ∀ r ∈ ps, r.state.inCode = true → ∀ c u, r.rest = c :: u →
      KeepsUnit r.past c u more := by
    intro r hr
    refine hslash r ((Placed.start t).of_mem hrun r hr) ?_
    intro v hv
    rw [hvisits]
    exact List.mem_filterMap.2 ⟨r, hr, hv⟩
  have hq : q.state.inCode = true ∨
      q.state.context = .lineComment ∧ more.head? = some '\n' := by
    rw [hstate]
    exact hend
  obtain ⟨hlong, hsame⟩ := hrun.extend .fresh hrest hq hkeeps
  have hpast := ((Placed.start t).run hrun).text_eq
  have hposition := ((Placed.start (t ++ more)).run hlong).position_eq (by simp [extend, hmore])
  obtain ⟨s, past, rest, position⟩ := q
  simp only at hrest hpast hstate
  subst hrest hstate
  obtain rfl : past = t.reverse := by
    rw [← hpast, List.append_nil, List.reverse_reverse]
  have hlength : position = t.length := hposition.trans List.length_reverse
  subst hlength
  refine ⟨ps.map (Cursor.extend more), hlong, ?_⟩
  rw [List.filterMap_map, hvisits, List.map_filterMap]
  exact List.filterMap_congr hsame

end ModuleSurface.Lexing
