import ModuleSurface.Proofs.Lexing.Openings
import ModuleSurface.Proofs.Lexing.Typed
import ModuleSurface.Proofs.Lexing.Words

/-!
# Splitting what was joined

Texts with commas between them are split into these texts, if each of them is complete on its own
(`Fragment`): it ends outside everything, and no comma of it is outside brackets.  Such a text may
close brackets that it has not opened, as nothing is open in front of it either, and it may have
comments.  A slash in it must not wait for the end of a regular expression literal, or the literal
would end in one of the texts behind it.

* `visitsFrom_within` — behind a text that ends outside everything a walk goes on as over a text of
  its own;
* `Fragment.cuts_comma` — so the outermost commas of two texts are those of the texts and the comma
  between them;
* `splitCommas_fragments` — any number of texts.
-/

namespace ModuleSurface.Lexing

open Cursor

/-! ## A walk over the rest of a text -/

/-- **Outside everything a walk begins anew**, if a slash means there what it means at the start of
a text. -/
theorem visitsFrom_within {base : State} (hb : base.Coherent) (htop : base.atTopLevel = true)
    {outer : Text} (houter : RegexLiteral.Opens outer) (offset : Nat) (s : State) (past rest : Text)
    (position : Nat) (hs : s.Coherent) :
    visitsFrom (base.within offset s) (past ++ outer) rest (offset + position) =
      (visitsFrom s past rest position).map (Visit.lift base offset outer []) := by
  have hbase : base.inCode = true := Statement.inCode_of_atTopLevel htop
  have hmoved : ∀ {s : State} {past r : Text} {c : Char} {position : Nat}, s.Coherent →
      (base.within offset s).step (past ++ outer) c r (offset + position) =
        ((s.step past c r position).map fun e => (e.1, base.within offset e.2)).mapError
          (Fault.moved offset) := fun hs =>
    State.step_within hb hbase hs (State.keepsWithin_of_atTopLevel htop _ _)
      fun _ _ => RegexLiteral.beginsAfter_append_of_opens houter
  induction s, past, rest, position using passFrom.induct with
  | case1 s past position => simp [visitsFrom]
  | case2 s past position c r f hf =>
    have hstep := @hmoved s past r c position hs
    rw [hf] at hstep
    rw [visitsFrom_of_error hstep, visitsFrom_of_error hf, List.map_nil]
  | case3 s past position c r k s' hstep ih =>
    have hthere := @hmoved s past r c position hs
    rw [hstep] at hthere
    have hvisit : (Cursor.lift base offset outer [] ⟨s, past, c :: r, position⟩).visit? =
        (visit? ⟨s, past, c :: r, position⟩).map (Visit.lift base offset outer []) :=
      visit?_lift hb hbase hs (State.keepsWithin_of_atTopLevel htop s c)
        (keepsSlashes_nil houter past (c :: r))
    have hpast : advancePast (past ++ outer) (c :: r) k = advancePast past (c :: r) k ++ outer := by
      simp [advancePast]
    simp only [Cursor.lift, List.append_nil] at hvisit
    rw [visitsFrom_cons hthere, visitsFrom_cons hstep, hvisit, hpast, Nat.add_assoc,
      ih (hs.step hstep), List.map_append]
    cases visit? ⟨s, past, c :: r, position⟩ <;> rfl

/-! ## Outermost commas -/

/-- The offsets of the commas outside brackets. -/
def outerCommas (vs : List Visit) : List Nat :=
  ((vs.filter (·.state.depth == 0)).filter (·.char == ',')).map (·.index)

theorem commasFrom_eq_outerCommas (text : Text) :
    commasFrom [] text 0 = outerCommas (visits text) := by
  rw [commasFrom, outermostFrom_false, outerCommas, visits]

theorem outerCommas_append (vs ws : List Visit) :
    outerCommas (vs ++ ws) = outerCommas vs ++ outerCommas ws := by
  simp [outerCommas]

theorem outerCommas_extend (more : Text) (vs : List Visit) :
    outerCommas (vs.map (Visit.extend more)) = outerCommas vs := by
  simp only [outerCommas, List.filter_map, List.map_map]
  rfl

theorem outerCommas_lift {base : State} (hbase : base.depth = 0) (offset : Nat)
    (outer more : Text) (vs : List Visit) :
    outerCommas (vs.map (Visit.lift base offset outer more)) =
      (outerCommas vs).map (offset + ·) := by
  have hdepth : (fun v : Visit => v.state.depth == 0) ∘ Visit.lift base offset outer more =
      fun v => v.state.depth == 0 := by
    funext v
    simp only [Function.comp_apply, Visit.depth_lift, hbase, Nat.zero_add]
  simp only [outerCommas, List.filter_map, hdepth, List.map_map]
  rfl

/-! ## Fragments -/

/-- A text that can stand between commas: it is complete on its own, there is nothing to strip, and
every comma in it is in a bracket, in a literal or in a comment. -/
structure Fragment (t : Text) : Prop where
  /-- No string runs into the end of its line. -/
  fault : (pass t).fault = none
  /-- Everything that begins in the text ends in it. -/
  context : (pass t).state.context = .normal
  /-- Every bracket is closed. -/
  depth : (pass t).state.depth = 0
  /-- There is nothing to strip. -/
  stripped : Text.strip t = t
  /-- It is no blank. -/
  nonempty : t ≠ []
  /-- Every slash that may begin a regular expression literal begins one that ends in the text. -/
  slashes : ∀ v ∈ visits t, v.char = '/' → RegexLiteral.beginsAfter v.past = false
  /-- No comma of its code is outside brackets. -/
  commas : ∀ v ∈ visits t, v.state.depth = 0 → v.char ≠ ','

instance (t : Text) : Decidable (Fragment t) :=
  decidable_of_iff
    ((pass t).fault = none ∧ (pass t).state.context = .normal ∧ (pass t).state.depth = 0 ∧
      Text.strip t = t ∧ t ≠ [] ∧
      (∀ v ∈ visits t, v.char = '/' → RegexLiteral.beginsAfter v.past = false) ∧
      ∀ v ∈ visits t, v.state.depth = 0 → v.char ≠ ',')
    ⟨fun ⟨h₁, h₂, h₃, h₄, h₅, h₆, h₇⟩ => ⟨h₁, h₂, h₃, h₄, h₅, h₆, h₇⟩,
      fun ⟨h₁, h₂, h₃, h₄, h₅, h₆, h₇⟩ => ⟨h₁, h₂, h₃, h₄, h₅, h₆, h₇⟩⟩

namespace Fragment

variable {t : Text}

theorem atTopLevel (h : Fragment t) : (Lexing.pass t).state.atTopLevel = true := by
  simp [State.atTopLevel, h.context, h.depth]

theorem leavesSlashes (h : Fragment t) (more : Text) : LeavesSlashes t more := by
  intro v hv hchar hbegins
  rw [h.slashes v hv hchar] at hbegins
  cases hbegins

/-- A fragment is read in front of a comma as on its own, and what follows the comma begins outside
everything. -/
theorem visits_comma (h : Fragment t) (more : Text) :
    visits (t ++ ',' :: ' ' :: more) =
      (visits t).map (Visit.extend (',' :: ' ' :: more)) ++
        ⟨t.length, t.reverse, ',', ' ' :: more, (Lexing.pass t).state⟩ ::
        ⟨t.length + 1, ',' :: t.reverse, ' ', more, (Lexing.pass t).state⟩ ::
        (visits more).map
          (Visit.lift (Lexing.pass t).state (t.length + 2) (' ' :: ',' :: t.reverse) []) := by
  have hcode := Statement.inCode_of_atTopLevel h.atTopLevel
  have hparts : Parts (',' :: ' ' :: more) := ⟨⟨by simp, by simp⟩, rfl⟩
  obtain ⟨ps, hrun, hvisits⟩ := exists_run_append h.fault (List.cons_ne_nil ',' (' ' :: more))
    (.inl hcode) fun r _ hvisits hr c u hu =>
      keepsUnit_of_leavesSlashes (h.leavesSlashes _) hparts hvisits hr hu
  have hopens : RegexLiteral.Opens (' ' :: ',' :: t.reverse) := ⟨rfl, rfl⟩
  have hbehind :=
    visitsFrom_within (coherent_pass t) h.atTopLevel hopens (t.length + 2) {} [] more 0 .fresh
  rw [State.within_neutral .fresh rfl rfl rfl, List.nil_append, Nat.add_zero] at hbehind
  have hwalk := hrun.visits_eq
  rw [hvisits, visits_plain hcode (by decide), visits_plain hcode (by decide)] at hwalk
  rw [← visits] at hbehind
  rw [← hbehind]
  exact hwalk

theorem outerCommas_eq_nil (h : Fragment t) : outerCommas (visits t) = [] := by
  rw [outerCommas, List.map_eq_nil_iff, List.filter_eq_nil_iff]
  intro v hv
  obtain ⟨hmem, hdepth⟩ := List.mem_filter.1 hv
  simpa using h.commas v hmem (beq_iff_eq.1 hdepth)

/-- The outermost commas of a fragment and of what stands behind it. -/
theorem outerCommas_comma (h : Fragment t) (more : Text) :
    outerCommas (visits (t ++ ',' :: ' ' :: more)) =
      t.length :: (outerCommas (visits more)).map (t.length + 2 + ·) := by
  have hbetween (vs : List Visit) : outerCommas
      (⟨t.length, t.reverse, ',', ' ' :: more, (Lexing.pass t).state⟩ ::
        ⟨t.length + 1, ',' :: t.reverse, ' ', more, (Lexing.pass t).state⟩ :: vs) =
      t.length :: outerCommas vs := by
    simp [outerCommas, h.depth]
  rw [h.visits_comma, outerCommas_append, outerCommas_extend, h.outerCommas_eq_nil,
    List.nil_append, hbetween, outerCommas_lift h.depth]

end Fragment

/-! ## Joining -/

theorem joints_add (offset n : Nat) (ts : List Text) :
    joints (offset + n) ts = (joints n ts).map (offset + ·) := by
  induction ts generalizing n with
  | nil => rfl
  | cons t ts ih =>
    cases ts with
    | nil => rfl
    | cons u us => simp only [joints, List.map_cons, ← ih, Nat.add_assoc]

/-- The outermost commas of fragments in a row are those between them. -/
theorem outerCommas_join {ts : List Text} (hts : ∀ t ∈ ts, Fragment t) :
    outerCommas (visits (Text.join ", ".toList ts)) = joints 0 ts := by
  induction ts with
  | nil => simp [Text.join, visits, visitsFrom, outerCommas, joints]
  | cons t ts ih =>
    have ht := hts t List.mem_cons_self
    cases ts with
    | nil => rw [Text.join, List.intercalate_singleton, joints, ht.outerCommas_eq_nil]
    | cons u us =>
      have hrow : Text.join ", ".toList (t :: u :: us) =
          t ++ ',' :: ' ' :: Text.join ", ".toList (u :: us) := by
        simp [Text.join, List.intercalate_cons_cons]
      rw [hrow, ht.outerCommas_comma, ih fun v hv => hts v (List.mem_cons_of_mem _ hv), joints,
        Nat.zero_add, ← joints_add, Nat.add_zero]

/-- **Splitting undoes joining**: texts that are complete on their own are what a row of them is
split into. -/
theorem splitCommas_fragments {ts : List Text} (hts : ∀ t ∈ ts, Fragment t) :
    splitCommas (Text.join ", ".toList ts) = ts := by
  have htrimmed : ∀ t ∈ ts, t.Trimmed := fun t ht =>
    .of_strip (hts t ht).stripped (hts t ht).nonempty
  rw [splitCommas_eq, commasFrom_eq_outerCommas, outerCommas_join hts]
  by_cases hne : ts = []
  · subst hne
    rfl
  · have hpieces := cutAt_joints (List.forall_mem_nil _) hne htrimmed 0
    rw [List.nil_append, List.length_nil, Nat.add_zero] at hpieces
    rw [hpieces, List.filter_eq_self]
    intro t ht
    simpa using (htrimmed t ht).ne_nil

/-- A closer that closes nothing, a literal with a comma in it, a comment and a division. -/
theorem splitCommas_fragments_mixed :
    (∀ t ∈ ["a)".toList, "/[,/]+/g.test(b, c)".toList, "'d, e'/* , */ / f".toList], Fragment t) ∧
    splitCommas "a), /[,/]+/g.test(b, c), 'd, e'/* , */ / f".toList =
      ["a)".toList, "/[,/]+/g.test(b, c)".toList, "'d, e'/* , */ / f".toList] := by
  have hts : ∀ t ∈ ["a)".toList, "/[,/]+/g.test(b, c)".toList, "'d, e'/* , */ / f".toList],
      Fragment t := by decide +kernel
  exact ⟨hts, splitCommas_fragments hts⟩

end ModuleSurface.Lexing
