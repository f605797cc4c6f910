import ModuleSurface.Proofs.Declaration.Shape
import ModuleSurface.Proofs.Declaration.Spans
import ModuleSurface.Proofs.Outline.Composition

/-!
# Where the declarations of a module stand

The declarations of an outline stand one behind the other in the text, also when overloads were
grouped, and all but functions are what is written there: `Outline.ofSource_spans`.
-/

namespace ModuleSurface

open ModuleSurface.Lexing
open ModuleSurface.Statement

/-- A slice of a slice. -/
theorem Text.slice_slice (t : Text) {start stop j : Nat} (i : Nat) (h : start + j ≤ stop) :
    slice (slice t start stop) i j = slice t (start + i) (start + j) := by
  simp only [slice, List.take_drop, List.take_take, List.drop_drop, Nat.min_eq_left h]

namespace Declaration

/-! ## Grouping -/

/-- Overloads and the function behind them make one span. -/
theorem successive_withOverloads {run : List Declaration} {d : Declaration} {lo hi : Nat}
    (h : Successive lo hi ((run ++ [d]).map span)) :
    Successive lo hi [(withOverloads run d).span] := by
  cases run with
  | nil => exact h
  | cons first run =>
    rw [List.map_append] at h
    exact h.merge

theorem successive_ofRun {run : List Declaration} {lo hi : Nat}
    (h : Successive lo hi (run.map span)) : Successive lo hi ((ofRun run).map span) := by
  cases hlast : run.getLast? with
  | none =>
    rw [List.getLast?_eq_none_iff.1 hlast] at h ⊢
    exact h
  | some primary =>
    have hrun : run.dropLast ++ [primary] = run := List.dropLast_append_getLast? _ hlast
    rw [← hrun] at h
    rw [ofRun, hlast]
    exact successive_withOverloads h

/-- **Grouping overloads keeps the declarations in order**: only functions that stand one behind the
other are put together. -/
theorem successive_groupFrom {run ds : List Declaration} {lo hi : Nat}
    (h : Successive lo hi ((run ++ ds).map span)) :
    Successive lo hi ((groupFrom run ds).map span) := by
  induction ds generalizing run lo with
  | nil =>
    rw [List.append_nil] at h
    exact successive_ofRun h
  | cons d ds ih =>
    obtain ⟨closed, run', hrun, hgroup⟩ := groupFrom_cons run d ds
    -- what is closed stands in front of the run that goes on
    obtain ⟨mid, hclosed, hrest⟩ : ∃ mid, Successive lo mid (closed.map span) ∧
        Successive mid hi ((run' ++ d :: ds).map span) := by
      rcases hrun with ⟨rfl, rfl⟩ | ⟨rfl, rfl⟩
      · exact ⟨lo, .nil (Nat.le_refl _), h⟩
      · rw [List.map_append] at h
        obtain ⟨mid, hrun, hrest⟩ := h.exists_mid
        exact ⟨mid, successive_ofRun hrun, hrest⟩
    rw [List.append_cons] at hrest
    rcases hgroup with hgroup | hgroup <;> rw [hgroup, List.map_append]
    · rw [List.map_append] at hrest
      obtain ⟨stop, hfront, hds⟩ := hrest.exists_mid
      exact hclosed.append ((successive_withOverloads hfront).append (@ih [] _ hds))
    · exact hclosed.append (ih hrest)

theorem kind_withOverloads (overloads : List Declaration) (d : Declaration) :
    (withOverloads overloads d).kind = d.kind := by
  cases overloads <;> rfl

theorem kind_ofRun {run : List Declaration} (hrun : ∀ r ∈ run, r.kind = .function)
    {d : Declaration} (h : d ∈ ofRun run) : d.kind = .function := by
  obtain ⟨d', hd', hkind, -⟩ := (stands_ofRun h).exists_same
  exact hkind.trans (hrun d' hd')

/-- What is no function is left as it is. -/
theorem mem_of_mem_groupFrom {run ds : List Declaration} (hrun : ∀ r ∈ run, r.kind = .function)
    {d : Declaration} (h : d ∈ groupFrom run ds) (hd : d.kind ≠ .function) : d ∈ ds := by
  induction ds generalizing run with
  | nil => exact absurd (kind_ofRun hrun h) hd
  | cons e ds ih =>
    rw [groupFrom] at h
    split at h
    · rename_i signature hkind _
      have hopen : ∀ r ∈ if run.head?.all (·.name == e.name) then run else [],
          r.kind = .function := by
        intro r hr
        split at hr
        · exact hrun r hr
        · cases hr
      have hclosed : d ∉ if run.head?.all (·.name == e.name) then [] else ofRun run := by
        intro hmem
        split at hmem
        · cases hmem
        · exact hd (kind_ofRun hrun hmem)
      simp only at h
      split at h <;> rcases List.mem_append.1 h with h | h
      · exact absurd h hclosed
      · rcases List.mem_cons.1 h with rfl | h
        · rw [kind_withOverloads] at hd
          exact absurd hkind hd
        · exact List.mem_cons_of_mem _ (ih (by simp) h)
      · exact absurd h hclosed
      · refine List.mem_cons_of_mem _ (ih ?_ h)
        intro r hr
        rcases List.mem_append.1 hr with hr | hr
        · exact hopen r hr
        · rw [List.mem_singleton.1 hr]
          exact hkind
    · rcases List.mem_append.1 h with h | h
      · exact absurd (kind_ofRun hrun h) hd
      · rcases List.mem_cons.1 h with rfl | h
        · exact List.mem_cons_self
        · exact List.mem_cons_of_mem _ (ih (by simp) h)

end Declaration

namespace Outline

/-! ## Segments -/

/-- A segment declares nothing or what its statement declares. -/
theorem findings_singleton (text : Text) (skipping : Bool) (s : Segment) :
    (findings text skipping [s]).declarations = [] ∨
      (findings text skipping [s]).declarations =
        (Declaration.classify (Text.stripRight s.text) s.start s.doc).declarations := by
  have happend : ∀ f g : Finding, (f ++ g).declarations = f.declarations ++ g.declarations :=
    fun _ _ => rfl
  simp only [findings, happend]
  cases skipping with
  | true => exact .inl rfl
  | false =>
    by_cases hheader : isControlHeader (Text.stripRight s.text) = true
    · simp [hheader]
    · simp [hheader]

/-- The declarations of a segment stand in its span, in order, and all but functions are what is
written there. -/
theorem spans_singleton {text : Text} {s : Segment} (h : s.Stands text)
    (hlt : s.span.1 < s.span.2) (skipping : Bool) :
    Successive s.span.1 s.span.2 ((findings text skipping [s]).declarations.map Declaration.span) ∧
      ∀ d ∈ (findings text skipping [s]).declarations, d.kind ≠ .function →
        Text.slice text d.start d.stop = d.raw := by
  rcases findings_singleton text skipping s with hnone | hsome
  · rw [hnone]
    refine ⟨.nil (Nat.le_of_lt hlt), ?_⟩
    intro d hd
    cases hd
  · have hne : Text.stripRight s.text ≠ [] := by
      intro hnil
      rw [Segment.span, hnil] at hlt
      exact Nat.lt_irrefl _ hlt
    obtain ⟨horder, hpart⟩ := Declaration.spanned_classify hne s.start s.doc
    rw [hsome]
    refine ⟨horder, ?_⟩
    intro d hd hkind
    obtain ⟨a, b, hraw, hstart, hstop⟩ := hpart d hd hkind
    have hslice := h.slice_eq
    have hlength := congrArg List.length hraw
    simp only [List.length_append] at hlength
    calc Text.slice text d.start d.stop
        = Text.slice text (s.start + a.length) (s.start + (a.length + d.raw.length)) := by
          rw [hstop, hstart, Nat.add_assoc]
      _ = Text.slice (Text.slice text s.span.1 s.span.2) a.length (a.length + d.raw.length) := by
          refine (Text.slice_slice text _ ?_).symm
          simp only [Segment.span]
          omega
      _ = d.raw := by
          rw [hslice, hraw]
          exact Text.slice_append a d.raw b rfl rfl

/-- The declarations of segments that stand one behind the other do so too. -/
theorem spans_findings {text : Text} {ss : List Segment} {lo : Nat} (h : Places text lo ss)
    (skipping : Bool) :
    Successive lo text.length ((findings text skipping ss).declarations.map Declaration.span) ∧
      ∀ d ∈ (findings text skipping ss).declarations, d.kind ≠ .function →
        Text.slice text d.start d.stop = d.raw := by
  induction ss generalizing skipping lo with
  | nil =>
    refine ⟨.nil h.2.le, ?_⟩
    intro d hd
    cases hd
  | cons s ss ih =>
    obtain ⟨hstands, horder⟩ := h
    have happend : ∀ f g : Finding, (f ++ g).declarations = f.declarations ++ g.declarations :=
      fun _ _ => rfl
    rw [findings_cons, happend, List.map_append]
    cases horder with
    | cons hlo hlt hothers =>
      obtain ⟨hfirst, hwritten⟩ := spans_singleton (hstands s List.mem_cons_self) hlt skipping
      obtain ⟨hrest, hwritten'⟩ := ih ⟨fun t ht => hstands t (List.mem_cons_of_mem _ ht), hothers⟩
        (!skipping && isControlHeader (Text.stripRight s.text))
      refine ⟨(hfirst.append hrest).of_le hlo, ?_⟩
      intro d hd hkind
      rcases List.mem_append.1 hd with hd | hd
      · exact hwritten d hd hkind
      · exact hwritten' d hd hkind

/-- **Declarations stand one behind the other in the text.**  The spans of an outline's declarations
are not empty, lie in the text and come in order without overlap; every statement begins where the
plain pass over the text is outside everything; and every declaration but a function, also one of
several declarators of a statement, is what is written at its offsets. -/
theorem ofSource_spans {text : Text} {o : Outline} (h : ofSource text = .ok o) :
    (∀ d ∈ o.declarations, d.start < d.stop ∧ d.stop ≤ text.length) ∧
      o.declarations.Pairwise (fun d e => d.stop ≤ e.start) ∧
      (∀ s ∈ segmentsIn text, ∃ m ∈ (pass text).moments, m.index = s.start ∧
        m.before.context = .normal ∧ m.before.braces = 0 ∧ m.before.squares = 0 ∧
        m.before.rounds = 0) ∧
      ∀ d ∈ o.declarations, d.kind ≠ .function → Text.slice text d.start d.stop = d.raw := by
  obtain ⟨o', ho', hdeclarations, -⟩ := ofSource_of_ok (fault?_of_ofSource h)
  cases h.symm.trans ho'
  have hplaces : Places text 0 (segmentsIn text) := segments_places text
  obtain ⟨hungrouped, hwritten⟩ := spans_findings hplaces false
  have horder : Successive 0 text.length (o.declarations.map Declaration.span) := by
    rw [hdeclarations]
    exact @Declaration.successive_groupFrom [] _ _ _ hungrouped
  refine ⟨?_, List.pairwise_map.1 horder.pairwise, ?_, ?_⟩
  · intro d hd
    exact (horder.bounds (List.mem_map_of_mem hd)).2
  · intro s hs
    obtain ⟨m, hm, hindex, htop⟩ := (hplaces.1 s hs).begins.exists_moment
    simp only [State.atTopLevel, State.depth, Bool.and_eq_true, beq_iff_eq] at htop
    exact ⟨m, hm, hindex, htop.1, by omega, by omega, by omega⟩
  · intro d hd hkind
    rw [hdeclarations] at hd
    exact hwritten d (Declaration.mem_of_mem_groupFrom (by simp) hd hkind) hkind

/-- Two overloads with their function, and two variables of one statement. -/
theorem ofSource_spans_overloads :
    ∃ o, ofSource "function f(a: A): A\nfunction f(b) \x7b\x7d\nlet x = 1, y: Y".toList = .ok o ∧
      o.declarations.map (fun d => (d.start, d.stop)) = [(0, 36), (41, 46), (48, 52)] ∧
      o.declarations.Pairwise (fun d e => d.stop ≤ e.start) := by
  obtain ⟨o, ho, hdeclarations, -⟩ := ofSource_of_ok
    (by decide +kernel :
      fault? "function f(a: A): A\nfunction f(b) \x7b\x7d\nlet x = 1, y: Y".toList = none)
  refine ⟨o, ho, ?_, (ofSource_spans ho).2.1⟩
  rw [hdeclarations]
  decide +kernel

end Outline

end ModuleSurface
