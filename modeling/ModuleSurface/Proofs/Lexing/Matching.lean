import ModuleSurface.Proofs.Lexing.Regions

/-!
# The bracket that closes another one

A search for the bracket that closes another one counts the open brackets of one kind at the
characters that a walk visits.  A pass keeps a list of the open brackets of all kinds, and a closer
takes the last one of its kind off that list.  This file shows that both name the same character.

* `openedOf_after` — what a step of the pass does to the open brackets of one kind;
* `Trace.find?_closes` — behind an opening bracket, the first step that closes one of its kind at
  the depth of the bracket is the one that takes the bracket off the list;
* `matching_iff_removes` — so the search answers where the pass takes the bracket off, and nothing
  if the bracket is open where the pass ends.
-/

namespace ModuleSurface.Lexing

open Cursor

/-! ## The open brackets of one kind -/

theorem Bracket.opener_ne_closer (b b' : Bracket) : b.opener ≠ b'.closer := by
  cases b <;> cases b' <;> decide

theorem Bracket.opener_injective : Function.Injective opener := by
  intro b b' h
  cases b <;> cases b' <;> first | rfl | exact absurd h (by decide)

theorem Bracket.closer_injective : Function.Injective closer := by
  intro b b' h
  cases b <;> cases b' <;> first | rfl | exact absurd h (by decide)

namespace State

variable {s s' : State} {past : Text} {c : Char} {rest : Text} {position k : Nat}

/-- Only code opens or closes a bracket. -/
theorem opened_of_readsCode (hs : s.Coherent) (hreads : s.readsCode c rest = false)
    (h : s.step past c rest position = .ok (k, s')) : s'.opened = s.opened := by
  have hcode : ¬ (s.inCode = true ∧ s'.inCode = true) := by
    rw [← readsCode_iff_of_step hs h, hreads]
    exact Bool.false_ne_true
  obtain ⟨a, hallowed, rfl, -⟩ := acts_of_step h
  cases a with
  | stay | enter _ | substitute => rfl
  | leave => exact opened_leave s
  | resume => exact opened_leave { s with exprDepths := s.exprDepths.tail }
  | openBracket b =>
    refine absurd ⟨hallowed, ?_⟩ hcode
    rw [Action.apply, inCode, context_openBracket]
    exact hallowed
  | closeBracket b =>
    refine absurd ⟨hallowed.1, ?_⟩ hcode
    rw [Action.apply, inCode, context_closeBracket]
    exact hallowed.1

theorem mem_openedOf {i : Nat} {b : Bracket} : (b, i) ∈ openedOf b s ↔ (b, i) ∈ s.opened := by
  simp [openedOf]

theorem openedOf_openBracket (s : State) (b b' : Bracket) (position : Nat) :
    openedOf b (s.openBracket b' position) =
      if b' = b then (b', position) :: openedOf b s else openedOf b s := by
  simp [openedOf, List.filter_cons]

theorem openedOf_closeBracket (hs : s.Coherent) (b b' : Bracket) :
    openedOf b (s.closeBracket b') = if b' = b then (openedOf b s).tail else openedOf b s := by
  by_cases hd : s.depthOf b' = 0
  · -- none of its kind is open, and the closer is ignored
    rw [closeBracket_of_depthOf hd]
    split
    · rename_i hb
      subst hb
      have hnil : openedOf b' s = [] := by
        rw [← List.length_eq_zero_iff, hs.length_openedOf, hd]
      rw [hnil]
      exact hnil
    · rfl
  · rw [openedOf, opened_closeBracket hd, filter_eraseP]
    simp only [eq_comm (a := b), openedOf]

/-- **What code does to the open brackets of one kind**: an opener puts one more on the list, a
closer takes the last one off, and nothing else changes it. -/
theorem openedOf_of_readsCode (hs : s.Coherent) (hreads : s.readsCode c rest = true)
    (hwidth : RegexLiteral.width? past c rest = none)
    (h : s.step past c rest position = .ok (k, s')) (b : Bracket) :
    openedOf b s' =
      if c = b.opener then (b, position) :: openedOf b s
      else if c = b.closer then (openedOf b s).tail else openedOf b s := by
  rw [step_of_readsCode hreads, hwidth, Except.ok.injEq] at h
  cases hopener : Bracket.ofOpener? c with
  | some b' =>
    obtain rfl := Bracket.opener_of_ofOpener? hopener
    rw [hopener] at h
    cases h
    simp only [openedOf_openBracket, Bracket.opener_injective.eq_iff, Bracket.opener_ne_closer,
      if_false]
    split
    · rename_i hb
      rw [hb]
    · rfl
  | none =>
    have hne : c ≠ b.opener := by
      rintro rfl
      rw [Bracket.ofOpener?_opener] at hopener
      cases hopener
    rw [hopener] at h
    rw [if_neg hne]
    cases hcloser : Bracket.ofCloser? c with
    | some b' =>
      obtain rfl := eq_closer_of_ofCloser? hcloser
      rw [hcloser] at h
      cases h
      simp only [openedOf_closeBracket hs, Bracket.closer_injective.eq_iff]
    | none =>
      have hne' : c ≠ b.closer := by
        rintro rfl
        rw [Bracket.ofCloser?_closer] at hcloser
        cases hcloser
      rw [hcloser] at h
      cases h
      rw [if_neg hne']

end State

/-! ## Along a pass -/

section Moments

variable {text : Text} {b : Bracket}

/-- Does the step read a closer in code, while `n` brackets of its kind are open? -/
def Moment.closes (text : Text) (b : Bracket) (n : Nat) (m : Moment) : Bool :=
  decide (m.region text = .code) &&
    ((m.visit text).char == b.closer && (m.visit text).state.depthOf b == n)

theorem Moment.closes_iff {n : Nat} {m : Moment} :
    m.closes text b n = true ↔
      (m.region text = .code ∧ (m.visit text).char = b.closer) ∧ m.before.depthOf b = n := by
  simp only [closes, Bool.and_eq_true, decide_eq_true_eq, beq_iff_eq, and_assoc]
  rfl

/-- The step takes the bracket off the list of the open brackets. -/
def Moment.Removes (m : Moment) (e : Bracket × Nat) : Prop :=
  e ∈ m.before.opened ∧ e ∉ m.after.opened

instance (m : Moment) (e : Bracket × Nat) : Decidable (m.Removes e) :=
  inferInstanceAs (Decidable (_ ∧ _))

theorem openedOf_after {m : Moment} (hm : m ∈ (pass text).moments) (b : Bracket) :
    State.openedOf b m.after =
      if m.region text = .code ∧ (m.visit text).char = b.opener then
        (b, m.index) :: State.openedOf b m.before
      else if m.region text = .code ∧ (m.visit text).char = b.closer then
        (State.openedOf b m.before).tail
      else State.openedOf b m.before := by
  obtain ⟨past, c, r, k, hs, hplaced, hstep, -, hread⟩ :=
    exists_step_of_mem_moments .fresh (.start text) hm
  have hreads := State.readsCode_iff_of_step hs hstep
  by_cases hcode : m.region text = .code
  · obtain ⟨hbefore, hafter, hnone⟩ := (Moment.region_eq_code_iff text m).1 hcode
    rw [hplaced.widthAt?_eq.2.2] at hnone
    have hyes := hreads.2 ⟨hbefore, hafter⟩
    have hchar : (m.visit text).char = c := by
      obtain rfl := State.eq_one_of_readsCode hyes hnone hstep
      simp [Moment.visit, hread]
    rw [State.openedOf_of_readsCode hs hyes hnone hstep, hchar]
    simp only [hcode, true_and]
  · simp only [hcode, false_and, if_false]
    rw [State.openedOf, State.openedOf]
    by_cases hyes : m.before.readsCode c r = true
    · -- a regular expression literal
      have hsome : RegexLiteral.width? past c r ≠ none := by
        intro hnone
        rw [← hplaced.widthAt?_eq.2.2] at hnone
        obtain ⟨hbefore, hafter⟩ := hreads.1 hyes
        exact hcode ((Moment.region_eq_code_iff text m).2 ⟨hbefore, hafter, hnone⟩)
      obtain ⟨w, hw⟩ := Option.ne_none_iff_exists'.1 hsome
      rw [step_of_readsCode hyes, hw, Except.ok.injEq] at hstep
      rw [← show _ = m.after from congrArg Prod.snd hstep]
    · rw [State.opened_of_readsCode hs (Bool.eq_false_iff.2 hyes) hstep]

end Moments

namespace Trace

variable {text : Text} {s t : State} {k : Nat} {ms : List Moment} {b : Bracket}

theorem dated (h : Trace text s k ms t) (hs : Dated s.opened k) :
    ∀ m ∈ ms, Dated m.before.opened m.index := by
  induction h with
  | nil => simp
  | @cons m ms t hm _ ih =>
    intro n hn
    rcases List.mem_cons.1 hn with rfl | hn
    · exact hs
    · exact ih (hm.dated hs) n hn

/-- What is off the list of the open brackets never comes back to it. -/
theorem not_mem_opened (h : Trace text s k ms t) {e : Bracket × Nat} (hs : e ∉ s.opened)
    (hk : e.2 < k) : (∀ m ∈ ms, e ∉ m.before.opened) ∧ e ∉ t.opened := by
  induction h with
  | nil => exact ⟨by simp, hs⟩
  | @cons m ms t hm _ ih =>
    have hafter : e ∉ m.after.opened := by
      rcases hm.opened_after with hsame | ⟨b, -, hopens⟩ | ⟨b, hcloses⟩
      · rwa [hsame]
      · rw [hopens, State.opened_openBracket, List.mem_cons, not_or]
        refine ⟨?_, hs⟩
        rintro rfl
        exact Nat.lt_irrefl _ hk
      · rw [hcloses]
        exact fun h => hs (List.mem_of_mem_eraseP h)
    have hstop := hm.le_stop
    obtain ⟨hlater, hend⟩ := ih hafter (by omega)
    refine ⟨fun n hn => ?_, hend⟩
    rcases List.mem_cons.1 hn with rfl | hn
    · exact hs
    · exact hlater n hn

/-- A step that closes no bracket of the kind at the depth of the entry leaves the entry, and what
is below it, on the list. -/
theorem suffix_openedOf_after {m : Moment} (hm : m ∈ (pass text).moments)
    (hcoherent : m.before.Coherent) {e : Bracket × Nat} {below : List (Bracket × Nat)}
    (htop : e :: below <:+ State.openedOf b m.before)
    (hcloses : m.closes text b (below.length + 1) = false) :
    e :: below <:+ State.openedOf b m.after := by
  rw [openedOf_after hm]
  split
  · exact htop.trans (List.suffix_cons _ _)
  split
  · rename_i hcloser
    -- the closer takes off an entry above the one in question
    have hlength : (State.openedOf b m.before).length ≠ below.length + 1 := by
      intro hlength
      rw [hcoherent.length_openedOf] at hlength
      rw [Moment.closes_iff.2 ⟨hcloser, hlength⟩] at hcloses
      cases hcloses
    cases hlist : State.openedOf b m.before with
    | nil =>
      rw [hlist] at htop
      exact absurd (List.suffix_nil.1 htop) (List.cons_ne_nil _ _)
    | cons x others =>
      rw [hlist] at htop hlength
      rcases List.suffix_cons_iff.1 htop with heq | hothers
      · exact absurd (congrArg List.length heq).symm hlength
      · exact hothers
  · exact htop

/-- A step that closes a bracket of the kind at the depth of the entry takes the entry off the
list. -/
theorem removes_of_closes {m : Moment} (hm : m ∈ (pass text).moments)
    (hcoherent : m.before.Coherent) (hdated : Dated m.before.opened m.index) {i : Nat}
    {below : List (Bracket × Nat)} (htop : (b, i) :: below <:+ State.openedOf b m.before)
    (hcloses : m.closes text b (below.length + 1) = true) : m.Removes (b, i) := by
  obtain ⟨⟨hcode, hchar⟩, hdepth⟩ := Moment.closes_iff.1 hcloses
  have hlist : (b, i) :: below = State.openedOf b m.before :=
    htop.eq_of_length (by rw [hcoherent.length_openedOf]; exact hdepth.symm)
  have hafter : State.openedOf b m.after = below := by
    have hne : ¬ (m.region text = .code ∧ (m.visit text).char = b.opener) := by
      rw [hchar]
      exact fun h => Bracket.opener_ne_closer b b h.2.symm
    rw [openedOf_after hm, if_neg hne, if_pos ⟨hcode, hchar⟩, ← hlist]
    rfl
  have hpair : ((b, i) :: below).Pairwise fun x y => y.2 < x.2 := by
    rw [hlist]
    exact hdated.1.sublist List.filter_sublist
  constructor
  · rw [← State.mem_openedOf, ← hlist]
    exact List.mem_cons_self
  · rw [← State.mem_openedOf, hafter]
    intro hmem
    exact Nat.lt_irrefl _ (List.rel_of_pairwise_cons hpair hmem)

/-- **The first step that closes a bracket of the kind at the depth of the entry** is the one that
takes the entry off the list, and without such a step the entry stays on it. -/
theorem find?_closes (h : Trace text s k ms t) (hms : ∀ m ∈ ms, m ∈ (pass text).moments)
    (hdated : Dated s.opened k) {i : Nat} {below : List (Bracket × Nat)}
    (htop : (b, i) :: below <:+ State.openedOf b s) :
    (∀ j, (ms.find? (·.closes text b (below.length + 1))).map (·.index) = some j ↔
        ∃ m ∈ ms, m.index = j ∧ m.Removes (b, i)) ∧
      (ms.find? (·.closes text b (below.length + 1)) = none ↔ (b, i) ∈ t.opened) := by
  induction h with
  | nil s k =>
    have hmem := State.mem_openedOf.1 (htop.subset List.mem_cons_self)
    exact ⟨by simp, by simp [hmem]⟩
  | @cons m ms t hm hrest ih =>
    have hmem := hms m List.mem_cons_self
    have hstop := hm.le_stop
    cases hcloses : m.closes text b (below.length + 1) with
    | true =>
      have hremoves := removes_of_closes hmem hm.coherent hdated htop hcloses
      have hi : i < m.index := hdated.2 _ hremoves.1
      obtain ⟨hlater, hend⟩ := hrest.not_mem_opened hremoves.2 (by simp only; omega)
      rw [List.find?_cons_of_pos hcloses]
      refine ⟨fun j => ⟨fun hj => ⟨m, List.mem_cons_self, Option.some.inj hj, hremoves⟩, ?_⟩,
        by simp [hend]⟩
      rintro ⟨n, hn, rfl, hn'⟩
      rcases List.mem_cons.1 hn with rfl | hn
      · rfl
      · exact absurd hn'.1 (hlater n hn)
    | false =>
      have htop' := suffix_openedOf_after hmem hm.coherent htop hcloses
      have hstays : ¬ m.Removes (b, i) := fun hremoves =>
        hremoves.2 (State.mem_openedOf.1 (htop'.subset List.mem_cons_self))
      rw [List.find?_cons_of_neg (by simp [hcloses])]
      have hnext := ih (fun n hn => hms n (List.mem_cons_of_mem _ hn)) (hm.dated hdated) htop'
      refine ⟨fun j => (hnext.1 j).trans ?_, hnext.2⟩
      simp only [List.mem_cons, or_and_right, exists_or, exists_eq_left, hstays, and_false,
        false_or]

end Trace

/-! ## Searching for the closing bracket -/

variable {text : Text} {b : Bracket}

/-- A search goes over the visits behind the bracket, and those are the steps behind it that read
code. -/
theorem matching_eq_find?_closes {front behind : List Moment} {m : Moment}
    (hsplit : (pass text).moments = front ++ m :: behind) (hcode : m.region text = .code)
    (hchar : (m.visit text).char = b.opener) :
    matching text m.index =
      .ok ((behind.find? (·.closes text b (m.before.depthOf b + 1))).map (·.index)) := by
  have hvisits : visits text =
      (front.filter fun n => n.region text = .code).map (Moment.visit text) ++
        m.visit text :: (behind.filter fun n => n.region text = .code).map (Moment.visit text) := by
    rw [visits_eq_moments, hsplit]
    simp [hcode]
  have hmem : m.visit text ∈ visits text := by
    rw [hvisits]
    exact List.mem_append_right _ List.mem_cons_self
  have hget : text[m.index]? = some b.opener := by
    rw [← hchar]
    exact getElem?_of_mem_visits hmem
  have hclosing : closingOf text b.opener m.index =
      .ok (closingBracket? b (visitsAt text (m.visit text).index)) := by
    cases b <;> rfl
  have hindex : ¬ (m.index : Int) < 0 := by omega
  simp only [matching, if_neg hindex, Int.toNat_natCast, hget, hclosing,
    visitsAt_of_visits hvisits, closingBracket?, List.find?_map, List.find?_filter, Option.map_map,
    Bool.decide_and, Bool.decide_eq_true]
  rfl

/-- A step takes only brackets off the list that were opened in front of it. -/
theorem lt_index_of_removes {m : Moment} (hm : m ∈ (pass text).moments) {e : Bracket × Nat}
    (h : m.Removes e) : e.2 < m.index :=
  ((trace_pass text).dated ⟨.nil, by simp⟩ m hm).2 e h.1

/-- **The bracket that a search finds is the one that the pass closes**: the search answers the
offset of the step that takes the opening bracket off the list of the open brackets, and nothing if
the bracket is on that list where the pass ends. -/
theorem matching_iff_removes {i : Nat} (h : ∃ v ∈ visits text, v.index = i ∧ v.char = b.opener) :
    (∀ j, matching text i = .ok (some j) ↔
        ∃ m ∈ (pass text).moments, m.index = j ∧ m.Removes (b, i)) ∧
      (matching text i = .ok none ↔ (b, i) ∈ (pass text).state.opened) := by
  obtain ⟨v, hv, rfl, hchar⟩ := h
  rw [visits_eq_moments] at hv
  obtain ⟨m, hfilter, rfl⟩ := List.mem_map.1 hv
  obtain ⟨hm, hdecide⟩ := List.mem_filter.1 hfilter
  have hcode : m.region text = .code := of_decide_eq_true hdecide
  obtain ⟨front, behind, hsplit⟩ := List.append_of_mem hm
  have htrace := trace_pass text
  have hpair := htrace.pairwise_stop_le
  have hdated := htrace.dated ⟨.nil, by simp⟩ m hm
  rw [hsplit] at htrace hpair
  obtain ⟨-, hrecorded, hbehind⟩ := htrace.split
  have hopened : State.openedOf b m.after = (b, m.index) :: State.openedOf b m.before := by
    rw [openedOf_after hm, if_pos ⟨hcode, hchar⟩]
  have htop : (b, m.index) :: State.openedOf b m.before <:+ State.openedOf b m.after :=
    ⟨[], hopened.symm⟩
  obtain ⟨hremoves, hnone⟩ := hbehind.find?_closes (fun n hn => by simp [hsplit, hn])
    (hrecorded.dated hdated) htop
  rw [hrecorded.coherent.length_openedOf] at hremoves hnone
  -- neither the step itself nor one in front of it can take the bracket off
  have hearly : ∀ n ∈ (pass text).moments, n.index ≤ m.index → ¬ n.Removes (b, m.index) :=
    fun n hn hle hn' => Nat.not_lt.2 hle (lt_index_of_removes hn hn')
  have hfront : ∀ n ∈ front, n.index ≤ m.index := by
    intro n hn
    have hle := (List.pairwise_append.1 hpair).2.2 n hn m List.mem_cons_self
    have hstop := ((trace_pass text).recorded n (by simp [hsplit, hn])).le_stop
    omega
  simp only [show (m.visit text).index = m.index from rfl,
    matching_eq_find?_closes hsplit hcode hchar, Except.ok.injEq, Option.map_eq_none_iff, hnone,
    hremoves, and_true]
  intro j
  constructor
  · rintro ⟨n, hn, hj, hn'⟩
    exact ⟨n, by simp [hsplit, hn], hj, hn'⟩
  · rintro ⟨n, hn, hj, hn'⟩
    have hsides := hn
    rw [hsplit, List.mem_append, List.mem_cons] at hsides
    rcases hsides with hside | rfl | hside
    · exact absurd hn' (hearly n hn (hfront n hside))
    · exact absurd hn' (hearly n hn (Nat.le_refl _))
    · exact ⟨n, hside, hj, hn'⟩

/-- Brackets of different kinds close each other in any order. -/
theorem matching_iff_removes_mixed :
    (matching "({)}[".toList 0 = .ok (some 2) ∧
      ∃ m ∈ (pass "({)}[".toList).moments, m.index = 2 ∧ m.Removes (.round, 0)) ∧
    matching "({)}[".toList 4 = .ok none ∧ (.square, 4) ∈ (pass "({)}[".toList).state.opened := by
  have hround : matching "({)}[".toList 0 = .ok (some 2) := by decide +kernel
  have hsquare : matching "({)}[".toList 4 = .ok none := by decide +kernel
  exact ⟨⟨hround, ((matching_iff_removes (by decide +kernel)).1 2).1 hround⟩, hsquare,
    (matching_iff_removes (by decide +kernel)).2.1 hsquare⟩

end ModuleSurface.Lexing
