import ModuleSurface.Proofs.Lexing.Openings
import ModuleSurface.Proofs.Statement.Single

/-!
# What the searches take for the top level

The searches outside brackets look at the number of open brackets alone.  A substitution of a
template literal is code that raises no count, so they also come to the code directly in it, which
the pass does not take for the top level.  `answers_atTopLevel_iff` says that this is the only
difference: every answer is at the top level just if the substitutions of the text have no code
outside brackets of their own (`BracketedSubstitutions`).
-/

namespace ModuleSurface.Lexing

open Cursor

/-! ## The step of a visit -/

namespace Trace

variable {text : Text} {s t : State} {i : Nat} {m : Moment} {ms : List Moment}

theorem eq_of_nil (h : Trace text s i [] t) : s = t := by
  cases h
  rfl

/-- A trace begins with the step from its first state. -/
theorem head_eq (h : Trace text s i (m :: ms) t) : m.before = s ∧ m.index = i := by
  cases h
  exact ⟨rfl, rfl⟩

end Trace

/-- What is read of code is read forward. -/
theorem index_lt_stop {s : State} {past rest : Text} {position : Nat} {m : Moment}
    (hm : m ∈ (passFrom s past rest position).moments) (hcode : m.before.inCode = true) :
    m.index < m.stop := by
  fun_induction passFrom s past rest position with
  | case1 => cases hm
  | case2 => cases hm
  | case3 s past position c r k s' hstep p n ih =>
    rcases List.mem_cons.1 hm with rfl | hm
    · have hcode : s.inCode = true := hcode
      rw [State.step_of_inCode hcode, Except.ok.injEq] at hstep
      exact Nat.lt_add_of_pos_right (State.one_le_of_stepCode hstep)
    · exact ih hm

/-- A visit is made at a step of the pass. -/
theorem exists_moment_of_mem_visits {text : Text} {v : Visit} (hv : v ∈ visits text) :
    ∃ m ∈ (Lexing.pass text).moments, m.index = v.index ∧ m.before = v.state := by
  obtain ⟨ps, hrun, hreads, -⟩ := exists_run_of_mem_visits hv
  obtain ⟨ms, hms, -⟩ := hrun.moments_eq
  have hstep := step_of_readsCode hreads v.past v.index
  have hmoments : (Lexing.pass text).moments = ms ++ _ := hms
  rw [Next.moments_eq hstep] at hmoments
  exact ⟨_, by rw [hmoments]; exact List.mem_append_right _ List.mem_cons_self, rfl, rfl⟩

/-- At an offset code is read once. -/
theorem before_unique {text : Text} {m n : Moment} (hm : m ∈ (Lexing.pass text).moments)
    (hn : n ∈ (Lexing.pass text).moments) (hmc : m.before.inCode = true)
    (hnc : n.before.inCode = true) (h : m.index = n.index) : m.before = n.before := by
  have forward : ∀ {m n : Moment} {front behind : List Moment},
      (Lexing.pass text).moments = front ++ m :: behind → m.before.inCode = true →
        n ∈ behind → m.index < n.index := by
    intro m n front behind hsplit hcode hn
    have htrace := trace_pass text
    rw [hsplit] at htrace
    have hmem : m ∈ (Lexing.pass text).moments := by
      rw [hsplit]
      exact List.mem_append_right _ List.mem_cons_self
    have hlt : m.index < m.stop := index_lt_stop hmem hcode
    exact Nat.lt_of_lt_of_le hlt (htrace.split.2.2.le_index n hn)
  obtain ⟨front, behind, hsplit⟩ := List.append_of_mem hm
  rw [hsplit] at hn
  rcases List.mem_append.1 hn with hn | hn
  · obtain ⟨front', behind', rfl⟩ := List.append_of_mem hn
    rw [List.append_assoc, List.cons_append] at hsplit
    have := forward hsplit hnc (List.mem_append_right _ List.mem_cons_self)
    omega
  · rcases List.mem_cons.1 hn with rfl | hn
    · rfl
    · have := forward hsplit hmc hn
      omega

/-! ## Answers -/

/-- In front of the offset the pass over the text is outside every literal, every comment and every
bracket. -/
def AtTopLevel (text : Text) (i : Nat) : Prop :=
  ∃ m ∈ (Lexing.pass text).moments, m.index = i ∧ m.before.context = .normal ∧
    ∀ b, m.before.depthOf b = 0

/-- The offsets at which a text is split. -/
def cuts (text : Text) (isSeparator : Char → Bool) (angles : Bool) : List Nat :=
  ((outermost text angles).filter fun v => isSeparator v.char).map (·.index)

theorem splitOutermost_eq (text : Text) (isSeparator : Char → Bool) (angles : Bool) :
    splitOutermost text isSeparator angles =
      ((cutAt 0 text (cuts text isSeparator angles)).map Text.strip).filter (!·.isEmpty) := rfl

/-- The searches outside brackets answer with the offset. -/
inductive Answer (text : Text) : Nat → Prop
  /-- A target begins there, the first one from a start on. -/
  | first {target : Text} {start i : Nat} {angles : Bool} :
      findOutermost? text target start angles = some i → Answer text i
  /-- A target begins there for the last time. -/
  | last {target : Text} {i : Nat} : findLastOutermost? text target = some i → Answer text i
  /-- An assignment stands there. -/
  | assignment {i : Nat} : findAssignment? text = some i → Answer text i
  /-- The text is split there. -/
  | cut {isSeparator : Char → Bool} {angles : Bool} {i : Nat} :
      i ∈ cuts text isSeparator angles → Answer text i

/-- No code of a substitution is outside brackets: what stands directly in one is in a bracket that
was opened in it or around the literal. -/
def BracketedSubstitutions (text : Text) : Prop :=
  ∀ v ∈ visits text, v.state.context = .templateExpr → v.state.depth ≠ 0

instance (text : Text) : Decidable (BracketedSubstitutions text) :=
  inferInstanceAs
    (Decidable (∀ v ∈ visits text, v.state.context = .templateExpr → v.state.depth ≠ 0))

theorem State.depth_eq_zero_iff {s : State} : s.depth = 0 ↔ ∀ b, s.depthOf b = 0 := by
  refine ⟨fun h b => ?_, fun h => ?_⟩
  · unfold depth at h
    cases b <;> simp only [depthOf] <;> omega
  · have hbraces := h .brace
    have hsquares := h .square
    have hrounds := h .round
    simp only [depthOf] at hbraces hsquares hrounds
    unfold depth
    omega

theorem mem_outermost_false {text : Text} {v : Visit} :
    v ∈ outermost text false ↔ v ∈ visits text ∧ v.state.depth = 0 := by
  rw [outermost, outermostFrom_false, List.mem_filter, beq_iff_eq]

section

variable {text : Text} {i : Nat}

/-- What answers is code, and no bracket is open there. -/
theorem Answer.exists_visit (h : Answer text i) :
    ∃ v ∈ visits text, v.index = i ∧ v.state.depth = 0 := by
  have outer : ∀ {angles : Bool} {v : Visit}, v ∈ outermost text angles → v.index = i →
      ∃ v ∈ visits text, v.index = i ∧ v.state.depth = 0 := by
    intro angles v hv hi
    obtain ⟨hmem, hdepth⟩ := mem_of_mem_outermostFrom hv
    exact ⟨v, hmem, hi, hdepth⟩
  cases h with
  | first h =>
    obtain ⟨v, hv, hdepth, -, hi⟩ := exists_visit_of_findOutermost? h
    exact ⟨v, hv, hi, hdepth⟩
  | last h =>
    obtain ⟨v, hv, hi⟩ := Option.map_eq_some_iff.1 h
    exact outer (List.mem_of_mem_filter (List.mem_of_getLast? hv)) hi
  | assignment h =>
    obtain ⟨v, hv, hi⟩ := Option.map_eq_some_iff.1 h
    exact outer (List.mem_of_find?_eq_some hv) hi
  | cut h =>
    obtain ⟨v, hv, hi⟩ := List.mem_map.1 h
    exact outer (List.mem_of_mem_filter hv) hi

/-- At all code outside brackets a text can be split. -/
theorem mem_cuts_of_mem_visits {v : Visit} (hv : v ∈ visits text) (hdepth : v.state.depth = 0) :
    v.index ∈ cuts text (· == v.char) false :=
  List.mem_map_of_mem
    (List.mem_filter.2 ⟨mem_outermost_false.2 ⟨hv, hdepth⟩, beq_self_eq_true v.char⟩)

theorem atTopLevel_iff {v : Visit} (hv : v ∈ visits text) :
    AtTopLevel text v.index ↔ v.state.context = .normal ∧ v.state.depth = 0 := by
  obtain ⟨n, hn, hindex, hbefore⟩ := exists_moment_of_mem_visits hv
  obtain ⟨-, -, hreads, -⟩ := exists_run_of_mem_visits hv
  rw [State.depth_eq_zero_iff]
  refine ⟨?_, fun h => ⟨n, hn, hindex, by rw [hbefore]; exact h.1, by rw [hbefore]; exact h.2⟩⟩
  rintro ⟨m, hm, hi, hnormal, hdepth⟩
  have hmc : m.before.inCode = true := by rw [State.inCode, hnormal]; rfl
  have hnc : n.before.inCode = true := by rw [hbefore]; exact (readsCode_iff.1 hreads).1
  have heq := before_unique hm hn hmc hnc (hi.trans hindex.symm)
  rw [hbefore] at heq
  rw [← heq]
  exact ⟨hnormal, hdepth⟩

/-- **The answers are at the top level just if no code of a substitution is outside brackets.** -/
theorem answers_atTopLevel_iff (text : Text) :
    (∀ i, Answer text i → AtTopLevel text i) ↔ BracketedSubstitutions text := by
  refine ⟨fun h v hv hctx hdepth => ?_, fun h i hi => ?_⟩
  · have htop := (atTopLevel_iff hv).1 (h _ (.cut (mem_cuts_of_mem_visits hv hdepth)))
    rw [hctx] at htop
    cases htop.1
  · obtain ⟨v, hv, rfl, hdepth⟩ := hi.exists_visit
    obtain ⟨-, -, hreads, -⟩ := exists_run_of_mem_visits hv
    refine (atTopLevel_iff hv).2 ⟨?_, hdepth⟩
    have hcode := (readsCode_iff.1 hreads).1
    have hexpr := fun hctx => h v hv hctx hdepth
    cases hctx : v.state.context
    case normal => rfl
    case templateExpr => exact absurd hctx hexpr
    all_goals
      rw [State.inCode, hctx] at hcode
      cases hcode

end

end ModuleSurface.Lexing
