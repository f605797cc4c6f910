import ModuleSurface.Proofs.Lexing.Closed
import ModuleSurface.Proofs.Lexing.Visits
import ModuleSurface.Proofs.Statement.Lockstep

/-!
# Code put together from closed pieces

`Reads` says that a piece of code leads back to the state in front of it, and which visits are made
in it.  Plain characters are such pieces, closed texts are, and so are bracketed ones; pieces one
after the other are a piece again.  From the pieces of a text follows where a bracket in it closes
(`matching?_bracket`, `matching?_angle`) and where its last block begins (`index_lastBlock`).
-/

namespace ModuleSurface.Lexing

open Cursor

theorem Cursor.visit?_of_plain {s : State} (hs : s.inCode = true) {c : Char} (hc : Plain c)
    (past rest : Text) (position : Nat) :
    visit? ⟨s, past, c :: rest, position⟩ = some ⟨position, past, c, rest, s⟩ := by
  simp only [Plain, specials, List.mem_cons, List.not_mem_nil, or_false, not_or] at hc
  refine visit?_of_readsCode (readsCode_iff.2 ⟨hs, fun h => absurd h hc.1, ?_, ?_⟩) ?_ position
  · simp [Context.ofQuote?, hc]
  · simp [State.closesExpr, hc]
  · simp [RegexLiteral.width?, hc]

/-! ## Reading a piece -/

/-- The piece `t`, with `outer` in front of it in reverse and `more` behind it, is read from `base`
back to that state, and `vs` are the visits made on the way. -/
def Reads (base : State) (outer t more : Text) (offset : Nat) (vs : List Visit) : Prop :=
  ∃ ps, Run ⟨base, outer, t ++ more, offset⟩ ps
      ⟨base, t.reverse ++ outer, more, offset + t.length⟩ ∧ ps.filterMap visit? = vs

namespace Reads

variable {base : State} {outer t u more : Text} {offset : Nat} {vs ws : List Visit}

theorem append (ht : Reads base outer t (u ++ more) offset vs)
    (hu : Reads base (t.reverse ++ outer) u more (offset + t.length) ws) :
    Reads base outer (t ++ u) more offset (vs ++ ws) := by
  obtain ⟨ps, hps, rfl⟩ := ht
  obtain ⟨qs, hqs, rfl⟩ := hu
  have hrun := hps.append hqs
  refine ⟨ps ++ qs, ?_, List.filterMap_append⟩
  rw [List.append_assoc, List.reverse_append, List.append_assoc, List.length_append,
    ← Nat.add_assoc]
  exact hrun

/-- What a walk makes of a piece and what follows it. -/
theorem visits_eq (h : Reads base outer t more offset vs) :
    visitsFrom base outer (t ++ more) offset =
      vs ++ visitsFrom base (t.reverse ++ outer) more (offset + t.length) := by
  obtain ⟨ps, hrun, rfl⟩ := h
  exact hrun.visits_eq

/-- A whole text that leads back to the state at its start is closed. -/
theorem closed (h : Reads {} [] t [] 0 vs) : Closed t ∧ visits t = vs := by
  have hvisits := h.visits_eq
  obtain ⟨ps, hrun, -⟩ := h
  rw [List.append_nil] at hrun hvisits
  rw [List.append_nil, visitsFrom, List.append_nil] at hvisits
  obtain ⟨hfault, hstate⟩ := hrun.pass_eq
  have hend : Cursor.pass ⟨{}, t.reverse ++ [], [], 0 + t.length⟩ = ⟨[], {}, none, []⟩ := by
    rw [Cursor.pass, passFrom]
  rw [hend] at hfault hstate
  have hstate : (Lexing.pass t).state = {} := hstate
  exact ⟨⟨hfault, by rw [hstate], by rw [hstate]; rfl, by rw [hstate]⟩, hvisits⟩

theorem of_closed (ht : Closed t) (hb : base.Coherent) (hbase : base.inCode = true)
    (hslash : KeepsSlashes outer [] t more) (offset : Nat) :
    Reads base outer t more offset ((Lexing.visits t).map (Visit.lift base offset outer more)) := by
  obtain ⟨ps, hself, hrun, hvisits⟩ := ht.run hb hbase hslash offset
  refine ⟨_, hrun, ?_⟩
  have hown : Lexing.visits t = ps.filterMap visit? := by
    have h := hself.visits_eq
    rw [Cursor.visits, Cursor.visits, visitsFrom, List.append_nil] at h
    exact h
  rw [List.filterMap_map, hown, List.map_filterMap]
  exact List.filterMap_congr hvisits

/-- A plain character is visited and changes nothing. -/
theorem plain (hbase : base.inCode = true) {c : Char} (hc : Plain c) (outer more : Text)
    (offset : Nat) : Reads base outer [c] more offset [⟨offset, outer, c, more, base⟩] := by
  refine ⟨_, .single (.of_unit (State.step_of_plain hbase hc outer more offset) rfl), ?_⟩
  rw [List.filterMap_cons, List.singleton_append, visit?_of_plain hbase hc]
  rfl

/-- Plain characters are visited one after the other. -/
theorem of_plain (hbase : base.inCode = true) (ht : ∀ c ∈ t, Plain c) (outer more : Text)
    (offset : Nat) :
    ∃ vs, Reads base outer t more offset vs ∧
      ∀ v ∈ vs, v.state = base ∧ ∃ a b, t = a ++ v.char :: b ∧ v.past = a.reverse ++ outer ∧
        v.rest = b ++ more := by
  induction t generalizing outer offset with
  | nil => exact ⟨[], ⟨[], .refl _, rfl⟩, by simp⟩
  | cons c t ih =>
    obtain ⟨hc, ht⟩ := List.forall_mem_cons.1 ht
    obtain ⟨vs, hreads, hvs⟩ := ih ht (c :: outer) (offset + 1)
    refine ⟨_, (plain hbase hc outer (t ++ more) offset).append hreads, ?_⟩
    intro v hv
    rcases List.mem_append.1 hv with hv | hv
    · rw [List.mem_singleton.1 hv]
      exact ⟨rfl, [], t, rfl, rfl, rfl⟩
    · obtain ⟨hstate, a, b, rfl, hpast, hrest⟩ := hvs v hv
      exact ⟨hstate, c :: a, b, rfl, by simp [hpast], hrest⟩

end Reads

/-! ## Brackets -/

theorem State.closeBracket_openBracket (s : State) (b : Bracket) (position : Nat) :
    (s.openBracket b position).closeBracket b = s := by
  cases b <;> simp [State.closeBracket, State.openBracket, State.depthOf]

theorem State.closesExpr_openBracket {s : State} (hs : s.Coherent) (b : Bracket) (position : Nat) :
    (s.openBracket b position).closesExpr b.closer = false := by
  cases b with
  | brace =>
    have hne : ¬ (s.exprDepths.head? == some (s.braces + 1)) = true := by
      intro h
      have hle := hs.head_exprDepths_le _ (beq_iff_eq.1 h)
      omega
    simpa [State.closesExpr, State.openBracket, Bracket.closer] using fun _ => hne
  | square => rfl
  | round => rfl

/-- A bracket in code is visited. -/
theorem visit?_bracket {s : State} (hs : s.inCode = true) {b : Bracket} {c : Char}
    (hc : c = b.opener ∨ c = b.closer) (hx : s.closesExpr c = false) (past rest : Text)
    (position : Nat) :
    visit? ⟨s, past, c :: rest, position⟩ = some ⟨position, past, c, rest, s⟩ := by
  have hslash : c ≠ '/' := by
    rintro rfl
    cases b <;> rcases hc with h | h <;> cases h
  have hquote : Context.ofQuote? c = none := by
    rcases hc with rfl | rfl <;> cases b <;> rfl
  refine visit?_of_readsCode (readsCode_iff.2 ⟨hs, fun h => absurd h hslash, hquote, hx⟩) ?_
    position
  simp [RegexLiteral.width?, hslash]

/-- A bracket around a piece leads back to the state in front of it. -/
theorem Cursor.Run.bracket {base : State} (hb : base.Coherent) (hbase : base.inCode = true)
    (b : Bracket) {t outer more : Text} {offset : Nat} {ps : List Cursor}
    (h : Run ⟨base.openBracket b offset, b.opener :: outer, t ++ b.closer :: more, offset + 1⟩ ps
      ⟨base.openBracket b offset, t.reverse ++ b.opener :: outer, b.closer :: more,
        offset + 1 + t.length⟩) :
    Run ⟨base, outer, b.opener :: t ++ [b.closer] ++ more, offset⟩
      (⟨base, outer, b.opener :: (t ++ b.closer :: more), offset⟩ :: (ps ++
        [⟨base.openBracket b offset, t.reverse ++ b.opener :: outer, b.closer :: more,
          offset + 1 + t.length⟩]))
      ⟨base, (b.opener :: t ++ [b.closer]).reverse ++ outer, more,
        offset + (b.opener :: t ++ [b.closer]).length⟩ := by
  have hcode : (base.openBracket b offset).inCode = true := by
    cases b <;> exact hbase
  have hx := State.closesExpr_openBracket hb b offset
  have hfirst := Next.step (State.step_opener hbase b outer (t ++ b.closer :: more) offset)
  have hlast := Next.step (State.step_closer hcode hx (t.reverse ++ b.opener :: outer) more
    (offset + 1 + t.length))
  rw [State.closeBracket_openBracket] at hlast
  have hrun := Run.cons hfirst (h.append (.single hlast))
  have hstart : b.opener :: t ++ [b.closer] ++ more = b.opener :: (t ++ b.closer :: more) := by
    simp
  have hend : (⟨base, (b.opener :: t ++ [b.closer]).reverse ++ outer, more,
      offset + (b.opener :: t ++ [b.closer]).length⟩ : Cursor) =
        advance ⟨base.openBracket b offset, t.reverse ++ b.opener :: outer, b.closer :: more,
          offset + 1 + t.length⟩ 1 base := by
    simp [advance, advancePast, Nat.add_comm, Nat.add_left_comm]
  rw [hstart, hend]
  exact hrun

/-- The visits of a bracket: the opener, those inside, and the closer. -/
theorem filterMap_visit?_bracket {base : State} (hb : base.Coherent) (hbase : base.inCode = true)
    (b : Bracket) (t outer more : Text) (offset : Nat) (ps : List Cursor) :
    (⟨base, outer, b.opener :: (t ++ b.closer :: more), offset⟩ :: (ps ++
        [(⟨base.openBracket b offset, t.reverse ++ b.opener :: outer, b.closer :: more,
          offset + 1 + t.length⟩ : Cursor)])).filterMap visit? =
      ⟨offset, outer, b.opener, t ++ b.closer :: more, base⟩ :: ps.filterMap visit? ++
        [⟨offset + 1 + t.length, t.reverse ++ b.opener :: outer, b.closer, more,
          base.openBracket b offset⟩] := by
  have hcode : (base.openBracket b offset).inCode = true := by
    cases b <;> exact hbase
  have hopener : base.closesExpr b.opener = false := by
    cases b <;> rfl
  rw [List.filterMap_cons, visit?_bracket hbase (.inl rfl) hopener, List.filterMap_append,
    List.filterMap_cons, visit?_bracket hcode (.inr rfl) (State.closesExpr_openBracket hb b offset)]
  rfl

namespace Reads

variable {base : State} {outer t more : Text} {offset : Nat} {vs : List Visit}

/-- A piece in brackets is a piece. -/
theorem enclosed (hb : base.Coherent) (hbase : base.inCode = true) (b : Bracket)
    (h : Reads (base.openBracket b offset) (b.opener :: outer) t (b.closer :: more) (offset + 1)
      vs) :
    Reads base outer (b.opener :: t ++ [b.closer]) more offset
      (⟨offset, outer, b.opener, t ++ b.closer :: more, base⟩ :: vs ++
        [⟨offset + 1 + t.length, t.reverse ++ b.opener :: outer, b.closer, more,
          base.openBracket b offset⟩]) := by
  obtain ⟨ps, hps, hvisits⟩ := h
  refine ⟨_, hps.bracket hb hbase b, ?_⟩
  rw [filterMap_visit?_bracket hb hbase, hvisits]

/-- A closed text in brackets is a piece. -/
theorem bracket (hb : base.Coherent) (hbase : base.inCode = true) (b : Bracket) (ht : Closed t)
    (hslash : KeepsSlashes (b.opener :: outer) [] t (b.closer :: more)) (offset : Nat) :
    Reads base outer (b.opener :: t ++ [b.closer]) more offset
      (⟨offset, outer, b.opener, t ++ b.closer :: more, base⟩ ::
        (visits t).map (Visit.lift (base.openBracket b offset) (offset + 1) (b.opener :: outer)
          (b.closer :: more)) ++
        [⟨offset + 1 + t.length, t.reverse ++ b.opener :: outer, b.closer, more,
          base.openBracket b offset⟩]) := by
  have hcode : (base.openBracket b offset).inCode = true := by
    cases b <;> exact hbase
  exact (Reads.of_closed ht (hb.openBracket b offset) hcode hslash (offset + 1)).enclosed hb hbase b

end Reads

/-! ## Phrases -/

/-- No semicolon and no newline stands in the code of the text outside every bracket and template
literal. -/
def Unbroken (t : Text) : Prop :=
  ∀ v ∈ visits t, v.state.atTopLevel = true → v.char ≠ ';' ∧ v.char ≠ '\n'

instance (t : Text) : Decidable (Unbroken t) :=
  inferInstanceAs (Decidable (∀ v ∈ visits t, v.state.atTopLevel = true →
    v.char ≠ ';' ∧ v.char ≠ '\n'))

/-- A closed text without a slash in which no statement can end. -/
structure Phrase (t : Text) : Prop where
  /-- The text is closed. -/
  closed : Closed t
  /-- It has no comment, no regular expression literal and no division. -/
  noSlash : '/' ∉ t
  /-- No statement ends in it. -/
  unbroken : Unbroken t

theorem Visit.depth_lift (base : State) (offset : Nat) (outer more : Text) (v : Visit) :
    (v.lift base offset outer more).state.depth = base.depth + v.state.depth :=
  State.depth_within base v.state offset

theorem State.atTopLevel_of_depth {s : State} (h : s.depth ≠ 0) : s.atTopLevel = false := by
  simp [State.atTopLevel, h]

theorem State.depth_openBracket (s : State) (b : Bracket) (position : Nat) :
    (s.openBracket b position).depth = s.depth + 1 := by
  cases b <;> simp only [State.openBracket, State.depth] <;> omega

/-- No statement ends in the visits of the text inside a larger one. -/
theorem Unbroken.lift {t : Text} (ht : Unbroken t) (offset : Nat) (outer more : Text) :
    ∀ v ∈ (visits t).map (Visit.lift {} offset outer more), v.state.atTopLevel = true →
      v.char ≠ ';' ∧ v.char ≠ '\n' := by
  intro v hv htop
  obtain ⟨w, hw, rfl⟩ := List.mem_map.1 hv
  have hsame : (Visit.lift {} offset outer more w).state.atTopLevel = w.state.atTopLevel :=
    State.atTopLevel_within rfl (coherent_of_mem_visits hw)
  rw [hsame] at htop
  exact ht w hw htop

namespace Phrase

variable {t u : Text}

theorem nil : Phrase [] where
  closed := by decide +kernel
  noSlash := List.not_mem_nil
  unbroken := by
    intro v hv
    rw [visits, visitsFrom] at hv
    cases hv

/-- A phrase is read alike behind other phrases. -/
theorem reads (ht : Phrase t) (outer more : Text) (offset : Nat) :
    Reads {} outer t more offset ((visits t).map (Visit.lift {} offset outer more)) :=
  Reads.of_closed ht.closed .fresh rfl (keepsSlashes_of_not_mem ht.noSlash) offset

theorem append (ht : Phrase t) (hu : Phrase u) : Phrase (t ++ u) := by
  obtain ⟨hclosed, hvisits⟩ :=
    ((ht.reads [] (u ++ []) 0).append (hu.reads _ [] (0 + t.length))).closed
  refine ⟨hclosed, ?_, ?_⟩
  · rw [List.mem_append]
    rintro (h | h)
    · exact ht.noSlash h
    · exact hu.noSlash h
  · intro v hv
    rw [hvisits] at hv
    rcases List.mem_append.1 hv with hv | hv
    · exact ht.unbroken.lift _ _ _ v hv
    · exact hu.unbroken.lift _ _ _ v hv

/-- Plain characters that end no statement are a phrase. -/
theorem of_plain (h : ∀ c ∈ t, Plain c ∧ c ≠ ';' ∧ c ≠ '\n') : Phrase t := by
  induction t with
  | nil => exact .nil
  | cons c t ih =>
    obtain ⟨hc, hbreak⟩ := h c List.mem_cons_self
    have hreads : Reads {} [] [c] [] 0 _ := Reads.plain rfl hc [] [] 0
    obtain ⟨hclosed, hvisits⟩ := hreads.closed
    have hsingle : Phrase [c] := by
      refine ⟨hclosed, ?_, ?_⟩
      · rw [List.mem_singleton]
        rintro rfl
        exact absurd hc (by decide)
      · intro v hv _
        rw [hvisits, List.mem_singleton] at hv
        rw [hv]
        exact hbreak
    exact hsingle.append (ih fun d hd => h d (List.mem_cons_of_mem _ hd))

/-- A closed text in brackets is a phrase, whatever ends in it. -/
theorem bracket (b : Bracket) (ht : Closed t) (hslash : '/' ∉ t) :
    Phrase (b.opener :: t ++ [b.closer]) := by
  have hreads : Reads {} [] (b.opener :: t ++ [b.closer]) [] 0 _ :=
    Reads.bracket .fresh rfl b ht (keepsSlashes_of_not_mem hslash) 0
  obtain ⟨hclosed, hvisits⟩ := hreads.closed
  have hends : (b.opener ≠ ';' ∧ b.opener ≠ '\n') ∧ b.closer ≠ ';' ∧ b.closer ≠ '\n' := by
    cases b <;> decide
  refine ⟨hclosed, ?_, ?_⟩
  · cases b <;> simpa [Bracket.opener, Bracket.closer] using hslash
  · intro v hv htop
    rw [hvisits, List.mem_append, List.mem_cons, List.mem_singleton, List.mem_map] at hv
    rcases hv with (rfl | ⟨w, -, rfl⟩) | rfl
    · exact hends.1
    · have hdepth :
          (w.lift (State.openBracket {} b 0) (0 + 1) [b.opener] [b.closer]).state.depth ≠ 0 := by
        rw [Visit.depth_lift, State.depth_openBracket]
        omega
      rw [State.atTopLevel_of_depth hdepth] at htop
      cases htop
    · exact hends.2

end Phrase

/-! ## Brackets at the end -/

/-- No literal ends in a closing bracket, nor behind it if none ends there anyway. -/
theorem bars_closer (b : Bracket) {more : Text}
    (hmore : ∀ inClass, RegexLiteral.bodyWidth? inClass more = none) (t : Text) :
    RegexLiteral.Bars t (b.closer :: more) where
  open_left inClass := by
    cases b <;> cases more <;> cases inClass <;>
      simp [Bracket.closer, RegexLiteral.bodyWidth?, hmore]
  hidden _ := hmore
  flags := by
    show Text.isIdentChar b.closer = false
    cases b <;> decide

/-- A phrase with a closed text in brackets behind it is closed, and its visits are those of the
phrase, the opening bracket, and visits inside the brackets. -/
theorem Phrase.visits_bracketed (b : Bracket) {t u : Text} (ht : Phrase t) (hu : Closed u) :
    Closed (t ++ (b.opener :: u ++ [b.closer])) ∧ ∃ front inside,
      visits (t ++ (b.opener :: u ++ [b.closer])) =
        front ++ ⟨t.length, t.reverse, b.opener, u ++ [b.closer], {}⟩ :: inside ∧
      (∀ v ∈ front, v.state.atTopLevel = true → v.char ≠ ';' ∧ v.char ≠ '\n') ∧
      (∀ v ∈ inside, v.state.depth ≠ 0) ∧ ∃ v ∈ inside, v.char = b.closer ∧ v.rest = [] := by
  have hslash : KeepsSlashes (b.opener :: (t.reverse ++ [])) [] u [b.closer] :=
    keepsSlashes_of_opens (opens_opener b _) (by cases b <;> simp [Bracket.closer])
      (bars_closer b (fun _ => rfl) u) []
  have hbracket : Reads {} (t.reverse ++ []) (b.opener :: u ++ [b.closer]) [] (0 + t.length) _ :=
    Reads.bracket .fresh rfl b hu hslash _
  obtain ⟨hclosed, hvisits⟩ := ((ht.reads [] _ 0).append hbracket).closed
  rw [Nat.zero_add, List.append_nil t.reverse] at hvisits
  refine ⟨hclosed, _, _, hvisits, ht.unbroken.lift _ _ _, ?_,
    ⟨_, List.mem_append_right _ (List.mem_singleton_self _), rfl, rfl⟩⟩
  intro v hv
  rcases List.mem_append.1 hv with hv | hv
  · obtain ⟨w, -, rfl⟩ := List.mem_map.1 hv
    rw [Visit.depth_lift, State.depth_openBracket]
    omega
  · rw [List.mem_singleton.1 hv]
    show (State.openBracket {} b _).depth ≠ 0
    rw [State.depth_openBracket]
    omega

theorem Phrase.closed_bracketed (b : Bracket) {t u : Text} (ht : Phrase t) (hu : Closed u) :
    Closed (t ++ (b.opener :: u ++ [b.closer])) :=
  (ht.visits_bracketed b hu).1

theorem Phrase.unbroken_bracketed (b : Bracket) {t u : Text} (ht : Phrase t) (hu : Closed u) :
    Unbroken (t ++ (b.opener :: u ++ [b.closer])) := by
  obtain ⟨-, front, inside, hvisits, hfront, hinside, -⟩ := ht.visits_bracketed b hu
  intro v hv htop
  rw [hvisits, List.mem_append, List.mem_cons] at hv
  rcases hv with hv | rfl | hv
  · exact hfront v hv htop
  · have hopener : b.opener ≠ ';' ∧ b.opener ≠ '\n' := by
      cases b <;> decide
    exact hopener
  · rw [State.atTopLevel_of_depth (hinside v hv)] at htop
    cases htop

theorem outermostFrom_false (angle : Nat) (vs : List Visit) :
    outermostFrom false angle vs = vs.filter (·.state.depth == 0) := by
  induction vs generalizing angle with
  | nil => rfl
  | cons v vs ih =>
    rw [outermostFrom, List.filter_cons]
    simp only [Bool.false_eq_true, if_false, beq_self_eq_true, Bool.and_true, ih]

/-- The last block of a phrase with a block behind it is that one. -/
theorem Phrase.index_lastBlock {t b : Text} (ht : Phrase t) (hb : Closed b) :
    (((outermost (t ++ ('{' :: b ++ ['}'])) false).filter (·.char == '{')).getLast?).map (·.index) =
      some t.length := by
  obtain ⟨-, front, inside, hvisits, -, hinside, -⟩ := ht.visits_bracketed .brace hb
  have hvisits : visits (t ++ ('{' :: b ++ ['}'])) = _ := hvisits
  have hnone : inside.filter (·.state.depth == 0) = [] := by
    refine List.filter_eq_nil_iff.2 fun v hv => ?_
    simpa using hinside v hv
  rw [outermost, outermostFrom_false, hvisits, List.filter_append, List.filter_cons_of_pos (by rfl),
    hnone, List.filter_append, List.filter_cons_of_pos (by rfl), List.filter_nil,
    List.getLast?_concat]
  rfl

/-! ## Matching brackets -/

/-- On the way through a closed text no closer is ignored, as it would be counted to the end. -/
theorem Closed.clamped_eq_zero {t : Text} (ht : Closed t) {q : Cursor} {ps : List Cursor}
    (h : Run ⟨{}, [], t, 0⟩ ps q) : q.state.clamped = 0 := by
  obtain ⟨hfault, hstate⟩ := h.pass_eq
  obtain ⟨qs, e, hqs, -, he⟩ := run_of_pass q (hfault.symm.trans ht.fault)
  have hmono : q.state.clamped ≤ e.state.clamped :=
    hqs.preserves (fun hm h => Nat.le_trans h hm.clamped_le) (Nat.le_refl _)
  have hnone : e.state.clamped = 0 := by
    rw [he, ← hstate]
    exact ht.clamped
  omega

theorem Closed.clamped_of_mem_visits {t : Text} (ht : Closed t) {v : Visit} (hv : v ∈ visits t) :
    v.state.clamped = 0 := by
  obtain ⟨ps, hrun, -⟩ := exists_run_of_mem_visits hv
  exact ht.clamped_eq_zero hrun

/-- In a closed text every closer closes a bracket of its kind. -/
theorem Closed.depthOf_ne_zero {t : Text} (ht : Closed t) {v : Visit} (hv : v ∈ visits t)
    {b : Bracket} (hc : v.char = b.closer) : v.state.depthOf b ≠ 0 := by
  obtain ⟨ps, hrun, hreads, -⟩ := exists_run_of_mem_visits hv
  obtain ⟨hcode, -, -, hx⟩ := readsCode_iff.1 hreads
  rw [hc] at hrun hx
  intro hd
  have hnext := Next.step (State.step_closer hcode hx v.past v.rest v.index)
  have hclamped : (v.state.closeBracket b).clamped = 0 :=
    ht.clamped_eq_zero (hrun.append (.single hnext))
  rw [State.closeBracket_of_depthOf hd] at hclamped
  cases hclamped

/-- A bracket closes at the first visit of its closer at its own depth. -/
theorem matching?_of_visits {text : Text} {b : Bracket} {front inside behind : List Visit}
    {v w : Visit} (h : visits text = front ++ (v :: inside ++ [w] ++ behind))
    (hv : v.char = b.opener) (hw : w.char = b.closer)
    (hdepth : w.state.depthOf b = v.state.depthOf b + 1)
    (hinside : ∀ u ∈ inside, u.char = b.closer → u.state.depthOf b ≠ v.state.depthOf b + 1) :
    matching? text v.index = some w.index := by
  have hvisits : visits text = front ++ v :: (inside ++ w :: behind) := by
    simp [h]
  have hmem : v ∈ visits text := by
    simp [hvisits]
  have hfind : inside.find? (fun u => u.char == b.closer &&
      u.state.depthOf b == v.state.depthOf b + 1) = none := by
    refine List.find?_eq_none.2 fun u hu => ?_
    simpa using hinside u hu
  rw [matching?_of_opener hmem hv, visitsAt_of_visits hvisits, closingBracket?, List.find?_append,
    hfind, Option.none_or, List.find?_cons_of_pos (by simp [hw, hdepth])]
  rfl

/-- What a walk makes of a phrase and a piece behind it. -/
theorem Phrase.visits_append {front t more : Text} {vs : List Visit} (hfront : Phrase front)
    (h : Reads {} front.reverse t more front.length vs) :
    visits (front ++ (t ++ more)) =
      (visits front).map (Visit.lift {} 0 [] (t ++ more)) ++
        (vs ++ visitsFrom {} (t.reverse ++ front.reverse) more (front.length + t.length)) := by
  have hvisits := (hfront.reads [] (t ++ more) 0).visits_eq
  rw [List.append_nil, Nat.zero_add, h.visits_eq] at hvisits
  exact hvisits

/-- Behind a phrase, a bracket around a piece that closes none of it closes behind that piece. -/
theorem Phrase.matching?_enclosed {front t more : Text} {vs : List Visit} (hfront : Phrase front)
    (b : Bracket)
    (h : Reads (State.openBracket {} b front.length) (b.opener :: front.reverse) t
      (b.closer :: more) (front.length + 1) vs)
    (hvs : ∀ u ∈ vs, u.char = b.closer → 1 < u.state.depthOf b) :
    matching? (front ++ (b.opener :: t ++ [b.closer] ++ more)) front.length =
      some (front.length + 1 + t.length) := by
  have hvisits := hfront.visits_append (Reads.enclosed .fresh rfl b h)
  have hfresh : State.depthOf {} b = 0 := by
    cases b <;> rfl
  refine matching?_of_visits hvisits rfl rfl ?_ ?_
  · rw [State.depthOf_openBracket, if_pos rfl]
  · intro u hu hchar
    rw [hfresh]
    exact Nat.ne_of_gt (hvs u hu hchar)

/-- Behind a phrase, a bracket around a closed text closes behind that text. -/
theorem Phrase.matching?_bracket {front t : Text} (hfront : Phrase front) (b : Bracket)
    (ht : Closed t) (hslash : '/' ∉ t) (more : Text) :
    matching? (front ++ (b.opener :: t ++ [b.closer] ++ more)) front.length =
      some (front.length + 1 + t.length) := by
  have hreads : Reads (State.openBracket {} b front.length) (b.opener :: front.reverse) t
      (b.closer :: more) (front.length + 1) _ :=
    Reads.of_closed ht (State.Coherent.fresh.openBracket b _) (by cases b <;> rfl)
      (keepsSlashes_of_not_mem hslash) _
  refine hfront.matching?_enclosed b hreads fun u hu hchar => ?_
  obtain ⟨v, hv, rfl⟩ := List.mem_map.1 hu
  have hne := ht.depthOf_ne_zero hv hchar
  show 1 < (State.within _ _ v.state).depthOf b
  rw [State.depthOf_within, State.depthOf_openBracket, if_pos rfl]
  omega

/-! ## Matching angle brackets -/

theorem Visit.closesAngle_lift {v : Visit} (hv : v.past = [] → v.char ≠ '>') (base : State)
    (offset : Nat) (outer more : Text) :
    (v.lift base offset outer more).closesAngle = v.closesAngle := by
  by_cases hpast : v.past = []
  · have hchar : (v.char == '>') = false := by
      simpa using hv hpast
    simp [Visit.closesAngle, Visit.lift, hchar]
  · obtain ⟨c, past, hcons⟩ := List.exists_cons_of_ne_nil hpast
    simp [Visit.closesAngle, Visit.lift, hcons]

/-- An angle bracket closes in a larger text where it closes in a piece. -/
theorem closingAngle?_lift {vs : List Visit} (hvs : ∀ v ∈ vs, v.past = [] → v.char ≠ '>')
    (depth : Int) (base : State) (offset : Nat) (outer more : Text) :
    closingAngle? depth (vs.map (Visit.lift base offset outer more)) =
      (closingAngle? depth vs).map (offset + ·) := by
  induction vs generalizing depth with
  | nil => rfl
  | cons v vs ih =>
    have hothers := ih fun w hw => hvs w (List.mem_cons_of_mem _ hw)
    have hopens : (v.lift base offset outer more).opensAngle = v.opensAngle := rfl
    simp only [List.map_cons, closingAngle?, hopens, hothers,
      Visit.closesAngle_lift (hvs v List.mem_cons_self)]
    split
    · rfl
    split
    · split <;> rfl
    · rfl

/-- What is visited behind it does not change where an angle bracket closes. -/
theorem closingAngle?_append {vs : List Visit} {depth : Int} {close : Nat}
    (h : closingAngle? depth vs = some close) (others : List Visit) :
    closingAngle? depth (vs ++ others) = some close := by
  induction vs generalizing depth with
  | nil => cases h
  | cons v vs ih =>
    simp only [List.cons_append, closingAngle?] at h ⊢
    split at h
    · rename_i hopens
      rw [if_pos hopens]
      exact ih h
    rename_i hopens
    rw [if_neg hopens]
    split at h
    · rename_i hcloses
      rw [if_pos hcloses]
      split at h
      · rename_i hdepth
        rw [if_pos hdepth]
        exact h
      · rename_i hdepth
        rw [if_neg hdepth]
        exact ih h
    · rename_i hcloses
      rw [if_neg hcloses]
      exact ih h

theorem visitsAt_zero (text : Text) : visitsAt text 0 = visits text :=
  List.filter_eq_self.2 fun _ _ => decide_eq_true (Nat.zero_le _)

/-- Behind a phrase, a list in angle brackets closes at its end. -/
theorem Phrase.matching?_angle {front t : Text} (hfront : Phrase front) (ht : Phrase t)
    (hangle : isBracketed t '<' = true) (more : Text) :
    matching? (front ++ (t ++ more)) front.length = some (front.length + (t.length - 1)) := by
  rw [isBracketed, Bool.and_eq_true, beq_iff_eq, beq_iff_eq] at hangle
  obtain ⟨hhead, hmatch⟩ := hangle
  obtain ⟨t', rfl⟩ : ∃ t', t = '<' :: t' := by
    cases t with
    | nil => cases hhead
    | cons c t' =>
      cases hhead
      exact ⟨t', rfl⟩
  have hfirst : Reads {} [] ['<'] t' 0 _ := Reads.plain rfl (by decide) [] t' 0
  have hvisits : visits ('<' :: t') = _ := hfirst.visits_eq
  have hwhole := hfront.visits_append (ht.reads front.reverse more front.length)
  have hat : visitsAt (front ++ ('<' :: t' ++ more)) front.length =
      (visits ('<' :: t')).map (Visit.lift {} front.length front.reverse more) ++
        visitsFrom {} (('<' :: t').reverse ++ front.reverse) more
          (front.length + ('<' :: t').length) := by
    rw [hvisits] at hwhole ⊢
    exact visitsAt_of_visits hwhole
  have hplace : (front ++ ('<' :: t' ++ more))[front.length]? = some '<' := by
    simp
  have hclose : closingAngle? 0 (visits ('<' :: t')) = some (('<' :: t').length - 1) := by
    have hzero : matching? ('<' :: t') 0 = closingAngle? 0 (visitsAt ('<' :: t') 0) :=
      matching?_of_closingOf rfl rfl
    rw [← visitsAt_zero, ← hzero]
    exact hmatch
  have hpast : ∀ v ∈ visits ('<' :: t'), v.past = [] → v.char ≠ '>' := by
    intro v hv hnil
    obtain ⟨htext, -⟩ := placed_of_mem_visits hv
    rw [hnil] at htext
    rw [(List.cons.inj htext).1]
    decide
  rw [matching?_of_closingOf hplace rfl, hat]
  refine closingAngle?_append ?_ _
  rw [closingAngle?_lift hpast, hclose]
  rfl

end ModuleSurface.Lexing
