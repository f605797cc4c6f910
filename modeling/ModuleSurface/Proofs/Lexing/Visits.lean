import ModuleSurface.Lexing.TopLevel
import ModuleSurface.Proofs.Lexing.Run

/-!
# Where a walk comes to

Every visit of a walk is made at a cursor that a run leads to, so what is known of runs is known of
visits: where they stand in the text (`Cursor.Placed`), that they come in order
(`pairwise_visitsFrom`), and what was visited before (`exists_run_of_visits`).
-/

namespace ModuleSurface.Text

/-- The piece between two others. -/
theorem slice_append (a b c : Text) {i j : Nat} (hi : i = a.length) (hj : j = i + b.length) :
    slice (a ++ (b ++ c)) i j = b := by
  subst hi hj
  rw [slice, ← List.append_assoc, List.take_left' (by simp), List.drop_left]

end ModuleSurface.Text

namespace ModuleSurface.Lexing

namespace Cursor

/-- The state, the place and the character of a visit. -/
theorem visit?_eq_some {p : Cursor} {v : Visit} (h : p.visit? = some v) :
    p = ⟨v.state, v.past, v.char :: v.rest, v.index⟩ ∧ v.state.readsCode v.char v.rest = true ∧
      RegexLiteral.width? v.past v.char v.rest = none := by
  obtain ⟨s, past, rest, position⟩ := p
  cases rest with
  | nil => cases h
  | cons c r =>
    simp only [visit?] at h
    split at h
    · rename_i hreads
      cases h
      rw [Bool.and_eq_true, Option.isNone_iff_eq_none] at hreads
      exact ⟨rfl, hreads⟩
    · cases h

/-- Code that is no regular expression literal is visited. -/
theorem visit?_of_readsCode {s : State} {past : Text} {c : Char} {rest : Text}
    (h : s.readsCode c rest = true) (hw : RegexLiteral.width? past c rest = none)
    (position : Nat) :
    visit? ⟨s, past, c :: rest, position⟩ = some ⟨position, past, c, rest, s⟩ := by
  simp [visit?, h, hw]

/-- Where a step fails nothing more is visited. -/
theorem visitsFrom_of_error {s : State} {past : Text} {c : Char} {rest : Text} {position : Nat}
    {f : Fault} (h : s.step past c rest position = .error f) :
    visitsFrom s past (c :: rest) position = [] := by
  have hreads : s.readsCode c rest = false := by
    have hcode : s.inCode = false := by
      rcases (State.step_eq_error h).1 with hctx | hctx <;> rw [State.inCode, hctx] <;> rfl
    rw [State.readsCode, hcode]
    rfl
  rw [visitsFrom]
  split
  · rename_i hw
    rw [hreads] at hw
    cases hw
  · simp only [hreads]
    split
    · rfl
    · rename_i hk
      rw [h] at hk
      cases hk

/-- The steps in front of a visit are a run to it. -/
theorem exists_run_of_visits {p : Cursor} {vs₁ vs₂ : List Visit} {v : Visit}
    (h : p.visits = vs₁ ++ v :: vs₂) :
    ∃ ps q, Run p ps q ∧ ps.filterMap visit? = vs₁ ∧ q.visit? = some v ∧ q.visits = v :: vs₂ := by
  obtain ⟨s, past, rest, position⟩ := p
  induction s, past, rest, position using passFrom.induct generalizing vs₁ with
  | case1 s past position => simp [Cursor.visits, visitsFrom] at h
  | case2 s past position c r f hstep =>
    rw [Cursor.visits, visitsFrom_of_error hstep] at h
    simp at h
  | case3 s past position c r k s' hstep ih =>
    have hnext := Next.step hstep
    have hcons := hnext.visits_eq
    rw [h] at hcons
    cases hv : visit? ⟨s, past, c :: r, position⟩ with
    | none =>
      rw [hv] at hcons
      obtain ⟨ps, q, hrun, hps, hq, hvs⟩ := ih hcons.symm
      exact ⟨_ :: ps, q, .cons hnext hrun, by rw [List.filterMap_cons, hv, hps], hq, hvs⟩
    | some w =>
      rw [hv] at hcons
      cases vs₁ with
      | nil =>
        obtain ⟨rfl, -⟩ := List.cons.inj hcons
        exact ⟨[], _, .refl _, rfl, hv, h⟩
      | cons w' vs₁ =>
        obtain ⟨rfl, hothers⟩ := List.cons.inj hcons
        obtain ⟨ps, q, hrun, hps, hq, hvs⟩ := ih hothers.symm
        exact ⟨_ :: ps, q, .cons hnext hrun, by rw [List.filterMap_cons, hv, hps], hq, hvs⟩

/-! ## Places -/

/-- The cursor stands in the text, and its offset says where. -/
structure Placed (text : Text) (p : Cursor) : Prop where
  /-- The text is what is before the place and what is behind it. -/
  text_eq : p.past.reverse ++ p.rest = text
  /-- The offset counts the characters before the place, unless nothing is behind it. -/
  position_eq : p.rest ≠ [] → p.position = p.past.length

theorem Placed.start (text : Text) : Placed text ⟨{}, [], text, 0⟩ :=
  ⟨rfl, fun _ => rfl⟩

theorem Placed.next {text : Text} {p q : Cursor} (h : Placed text p) (hnext : Next p q) :
    Placed text q := by
  cases hnext with
  | @step s s' past c r position k _ =>
    refine ⟨?_, fun hrest => ?_⟩
    · rw [← h.text_eq]
      simp [advance, advancePast]
    · have hlt : k < (c :: r).length := by
        by_contra hk
        exact hrest (List.drop_eq_nil_of_le (Nat.le_of_not_lt hk))
      have hpos : position = past.length := h.position_eq (by simp)
      simp only [advance, advancePast, List.length_append, List.length_reverse, List.length_take]
      omega

theorem Placed.run {text : Text} {p q : Cursor} {ps : List Cursor} (h : Placed text p)
    (hrun : Run p ps q) : Placed text q := by
  induction hrun with
  | refl => exact h
  | cons hnext _ ih => exact ih (h.next hnext)

theorem Run.suffix {p q : Cursor} {ps : List Cursor} (h : Run p ps q) : q.rest <:+ p.rest := by
  induction h with
  | refl => exact List.suffix_refl _
  | cons hnext _ ih =>
    refine ih.trans ?_
    cases hnext with
    | step _ => exact List.drop_suffix _ _

end Cursor

open Cursor

/-- Every visit is made at a cursor that a run from the start leads to. -/
theorem exists_run_of_mem_visits {text : Text} {v : Visit} (h : v ∈ visits text) :
    ∃ ps, Run ⟨{}, [], text, 0⟩ ps ⟨v.state, v.past, v.char :: v.rest, v.index⟩ ∧
      v.state.readsCode v.char v.rest = true ∧
      RegexLiteral.width? v.past v.char v.rest = none := by
  obtain ⟨vs₁, vs₂, hsplit⟩ := List.append_of_mem h
  obtain ⟨ps, q, hrun, -, hq, -⟩ := exists_run_of_visits (p := ⟨{}, [], text, 0⟩) hsplit
  obtain ⟨rfl, hreads⟩ := visit?_eq_some hq
  exact ⟨ps, hrun, hreads⟩

/-- A visit stands in the text where its offset says. -/
theorem placed_of_mem_visits {text : Text} {v : Visit} (h : v ∈ visits text) :
    v.past.reverse ++ v.char :: v.rest = text ∧ v.index = v.past.length := by
  obtain ⟨ps, hrun, -⟩ := exists_run_of_mem_visits h
  have hplaced := (Placed.start text).run hrun
  exact ⟨hplaced.text_eq, hplaced.position_eq (by simp)⟩

theorem coherent_of_mem_visits {text : Text} {v : Visit} (h : v ∈ visits text) :
    v.state.Coherent := by
  obtain ⟨ps, hrun, -⟩ := exists_run_of_mem_visits h
  exact hrun.coherent .fresh

/-- What is visited is passed. -/
theorem one_le_of_readsCode {s s' : State} {past : Text} {c : Char} {rest : Text}
    {position k : Nat} (h : s.readsCode c rest = true)
    (hstep : s.step past c rest position = .ok (k, s')) : 1 ≤ k := by
  rw [step_of_readsCode h] at hstep
  have hk := congrArg Prod.fst (Except.ok.inj hstep)
  rw [← show _ = k from hk]
  split
  · rename_i w hw
    exact RegexLiteral.one_le_of_width? hw
  · split
    · exact Nat.le_refl _
    · split <;> exact Nat.le_refl _

/-- What a run leads to is behind every character it visits. -/
theorem Cursor.Run.suffix_of_visit {p q : Cursor} {ps : List Cursor} (h : Run p ps q) {v : Visit}
    (hv : v ∈ ps.filterMap visit?) : q.rest <:+ v.rest := by
  induction h with
  | refl => cases hv
  | @cons p r q ps hnext hrun ih =>
    rw [List.filterMap_cons] at hv
    cases hvisit : p.visit? with
    | none =>
      rw [hvisit] at hv
      exact ih hv
    | some w =>
      rw [hvisit] at hv
      rcases List.mem_cons.1 hv with rfl | hv
      · cases hnext with
        | @step s s' past c rest position k hstep =>
          obtain ⟨hw, hreads, -⟩ := visit?_eq_some hvisit
          cases hw
          obtain ⟨k, rfl⟩ := Nat.exists_eq_add_of_le' (one_le_of_readsCode hreads hstep)
          exact hrun.suffix.trans (List.drop_suffix k _)
      · exact ih hv

/-- Visits come in the order of their offsets. -/
theorem pairwise_visitsFrom (s : State) (past rest : Text) (position : Nat) :
    (∀ v ∈ visitsFrom s past rest position, position ≤ v.index) ∧
      (visitsFrom s past rest position).Pairwise (·.index < ·.index) := by
  induction s, past, rest, position using passFrom.induct with
  | case1 s past position => simp [visitsFrom]
  | case2 s past position c r f hstep => simp [visitsFrom_of_error hstep]
  | case3 s past position c r k s' hstep ih =>
    rw [visitsFrom_cons hstep]
    cases hv : visit? ⟨s, past, c :: r, position⟩ with
    | none => exact ⟨fun v hv => Nat.le_trans (Nat.le_add_right _ _) (ih.1 v hv), ih.2⟩
    | some w =>
      obtain ⟨hw, hreads, -⟩ := visit?_eq_some hv
      cases hw
      have hk := one_le_of_readsCode hreads hstep
      refine ⟨?_, List.pairwise_cons.2 ⟨fun v hv => ?_, ih.2⟩⟩
      · rintro v (_ | ⟨_, hv⟩)
        · exact Nat.le_refl _
        · exact Nat.le_trans (Nat.le_add_right _ _) (ih.1 v hv)
      · exact Nat.lt_of_lt_of_le (Nat.lt_add_of_pos_right hk) (ih.1 v hv)

/-- The visits at or behind the offset of a visit begin with it. -/
theorem visitsAt_of_visits {text : Text} {vs₁ vs₂ : List Visit} {v : Visit}
    (h : visits text = vs₁ ++ v :: vs₂) : visitsAt text v.index = v :: vs₂ := by
  have hpair := (pairwise_visitsFrom {} [] text 0).2
  rw [← visits, h, List.pairwise_append, List.pairwise_cons] at hpair
  obtain ⟨-, ⟨hbehind, -⟩, hfront⟩ := hpair
  rw [visitsAt, h, List.filter_append, List.filter_cons_of_pos (by simp)]
  have h₁ : vs₁.filter (fun w => decide (v.index ≤ w.index)) = [] := by
    refine List.filter_eq_nil_iff.2 fun w hw => ?_
    have := hfront w hw v List.mem_cons_self
    simpa using this
  have h₂ : vs₂.filter (fun w => decide (v.index ≤ w.index)) = vs₂ := by
    refine List.filter_eq_self.2 fun w hw => ?_
    simpa using Nat.le_of_lt (hbehind w hw)
  rw [h₁, h₂, List.nil_append]

/-! ## Searches -/

/-- What is found outside every bracket is visited there. -/
theorem mem_of_mem_outermostFrom {angles : Bool} {angle : Nat} {vs : List Visit} {v : Visit}
    (h : v ∈ outermostFrom angles angle vs) : v ∈ vs ∧ v.state.depth = 0 := by
  induction vs generalizing angle with
  | nil => cases h
  | cons w vs ih =>
    rw [outermostFrom] at h
    generalize (if angles then w.angleAfter angle else 0) = angle' at h
    split at h
    · rename_i hw
      rcases List.mem_cons.1 h with rfl | h
      · exact ⟨List.mem_cons_self, beq_iff_eq.1 (Bool.and_eq_true_iff.1 hw).1⟩
      · exact ⟨List.mem_cons_of_mem _ (ih h).1, (ih h).2⟩
    · exact ⟨List.mem_cons_of_mem _ (ih h).1, (ih h).2⟩

theorem exists_visit_of_findOutermost? {text target : Text} {start i : Nat} {angles : Bool}
    (h : findOutermost? text target start angles = some i) :
    ∃ v ∈ visits text, v.state.depth = 0 ∧ v.begins target = true ∧ v.index = i := by
  obtain ⟨v, hv, rfl⟩ := Option.map_eq_some_iff.1 h
  have hbegins := List.find?_some hv
  obtain ⟨hmem, hdepth⟩ := mem_of_mem_outermostFrom (List.mem_of_find?_eq_some hv)
  exact ⟨v, hmem, hdepth, (Bool.and_eq_true_iff.1 hbegins).2, rfl⟩

theorem matching_natCast (text : Text) (i : Nat) :
    matching text i =
      match text[i]? with
      | none => .error .outside
      | some opener => closingOf text opener i := by
  have hi : ¬ (i : Int) < 0 := by omega
  cases hget : text[i]? <;> simp only [matching, if_neg hi, Int.toNat_natCast, hget]

/-- The bracket at an offset closes where the walk from there closes it. -/
theorem matching?_of_closingOf {text : Text} {i : Nat} {c : Char} {close : Option Nat}
    (h : text[i]? = some c) (hclose : closingOf text c i = .ok close) :
    matching? text i = close := by
  simp only [matching?, matching_natCast, h, hclose]

theorem getElem?_of_mem_visits {text : Text} {v : Visit} (h : v ∈ visits text) :
    text[v.index]? = some v.char := by
  obtain ⟨htext, hindex⟩ := placed_of_mem_visits h
  rw [← htext, hindex, ← List.length_reverse, List.getElem?_append_right (Nat.le_refl _),
    Nat.sub_self]
  rfl

theorem matching?_of_opener {text : Text} {v : Visit} {b : Bracket} (h : v ∈ visits text)
    (hv : v.char = b.opener) :
    matching? text v.index = closingBracket? b (visitsAt text v.index) := by
  refine matching?_of_closingOf (getElem?_of_mem_visits h) ?_
  rw [hv]
  cases b <;> rfl

end ModuleSurface.Lexing
