import ModuleSurface.Proofs.Statement.Single

/-!
# Where the statements of a module stand

The statements of a module stand one behind the other, none of them empty, and each begins where a
pass over the whole text is outside everything: `segments_places`.  `Successive` is the order of
such spans, and `BeginsAt` the place where a statement can begin.
-/

namespace ModuleSurface

/-! ## Spans in order -/

/-- Spans one behind the other between `lo` and `hi`, none of them empty. -/
inductive Successive : Nat → Nat → List (Nat × Nat) → Prop
  | nil {lo hi : Nat} : lo ≤ hi → Successive lo hi []
  | cons {lo hi start stop : Nat} {spans : List (Nat × Nat)} : lo ≤ start → start < stop →
      Successive stop hi spans → Successive lo hi ((start, stop) :: spans)

namespace Successive

variable {lo mid hi : Nat} {spans others : List (Nat × Nat)}

theorem le (h : Successive lo hi spans) : lo ≤ hi := by
  induction h with
  | nil h => exact h
  | cons hlo hlt _ ih => omega

theorem of_le (h : Successive mid hi spans) (hlo : lo ≤ mid) : Successive lo hi spans := by
  cases h with
  | nil h => exact .nil (Nat.le_trans hlo h)
  | cons hstart hlt h => exact .cons (Nat.le_trans hlo hstart) hlt h

theorem append (h : Successive lo mid spans) (hothers : Successive mid hi others) :
    Successive lo hi (spans ++ others) := by
  induction h with
  | nil h => exact hothers.of_le h
  | cons hlo hlt _ ih => exact .cons hlo hlt (ih hothers)

theorem exists_mid (h : Successive lo hi (spans ++ others)) :
    ∃ mid, Successive lo mid spans ∧ Successive mid hi others := by
  induction spans generalizing lo with
  | nil => exact ⟨lo, .nil (Nat.le_refl _), h⟩
  | cons span spans ih =>
    cases h with
    | cons hlo hlt hbehind =>
      obtain ⟨mid, hspans, hothers⟩ := ih hbehind
      exact ⟨mid, .cons hlo hlt hspans, hothers⟩

theorem bounds (h : Successive lo hi spans) {span : Nat × Nat} (hspan : span ∈ spans) :
    lo ≤ span.1 ∧ span.1 < span.2 ∧ span.2 ≤ hi := by
  induction h with
  | nil => cases hspan
  | cons hlo hlt hothers ih =>
    rcases List.mem_cons.1 hspan with rfl | hspan
    · exact ⟨hlo, hlt, hothers.le⟩
    · obtain ⟨hstart, hbetween⟩ := ih hspan
      exact ⟨by omega, hbetween⟩

theorem pairwise (h : Successive lo hi spans) : spans.Pairwise (fun a b => a.2 ≤ b.1) := by
  induction h with
  | nil => exact .nil
  | cons _ _ hothers ih => exact .cons (fun span hspan => (hothers.bounds hspan).1) ih

/-- Spans one behind the other make one span. -/
theorem merge {first last : Nat × Nat} (h : Successive lo hi (first :: spans ++ [last])) :
    Successive lo hi [(first.1, last.2)] := by
  obtain ⟨mid, hfirst, hlast⟩ := h.exists_mid
  obtain ⟨hlo, hlt, hmid⟩ := hfirst.bounds List.mem_cons_self
  obtain ⟨hle, hlt', hhi⟩ := hlast.bounds (List.mem_singleton_self _)
  exact .cons hlo (by omega) (.nil hhi)

end Successive

end ModuleSurface

namespace ModuleSurface.Statement

open ModuleSurface.Lexing
open ModuleSurface.Lexing.Cursor

/-! ## Where a statement begins -/

/-- A pass over the text comes to the offset outside everything, in front of a character that is not
white space. -/
def BeginsAt (text : Text) (start : Nat) : Prop :=
  ∃ ps s past c rest, Run ⟨{}, [], text, 0⟩ ps ⟨s, past, c :: rest, start⟩ ∧
    s.atTopLevel = true ∧ Text.isBlank c = false

/-- The text at a place where a statement begins. -/
theorem BeginsAt.exists_text {text : Text} {start : Nat} (h : BeginsAt text start) :
    ∃ front c rest, text = front ++ c :: rest ∧ front.length = start ∧
      Text.isBlank c = false := by
  obtain ⟨ps, s, past, c, rest, hrun, -, hc⟩ := h
  have hplaced := (Placed.start text).run hrun
  refine ⟨past.reverse, c, rest, hplaced.text_eq.symm, ?_, hc⟩
  rw [List.length_reverse]
  exact (hplaced.position_eq (by simp)).symm

/-- The plain pass over the text takes a step there, outside everything. -/
theorem BeginsAt.exists_moment {text : Text} {start : Nat} (h : BeginsAt text start) :
    ∃ m ∈ (Lexing.pass text).moments, m.index = start ∧ m.before.atTopLevel = true := by
  obtain ⟨ps, s, past, c, rest, hrun, htop, -⟩ := h
  obtain ⟨ms, hms, -⟩ := hrun.moments_eq
  have hstep := State.step_of_inCode (inCode_of_atTopLevel htop) past c rest start
  rw [Next.moments_eq hstep] at hms
  have hpass : (Lexing.pass text).moments = _ := hms
  rw [hpass]
  exact ⟨_, List.mem_append_right _ List.mem_cons_self, rfl, htop⟩

/-- The span of a segment without the white space at its end. -/
def Segment.span (s : Segment) : Nat × Nat :=
  (s.start, s.start + (Text.stripRight s.text).length)

/-- The segment stands in the text where its offset says, and begins outside everything. -/
structure Segment.Stands (text : Text) (s : Segment) : Prop where
  /-- The segment begins outside everything. -/
  begins : BeginsAt text s.start
  /-- Its text is there. -/
  slice_eq : Text.slice text s.span.1 s.span.2 = Text.stripRight s.text

/-- A segment from a place where statements begin to a place behind it. -/
theorem stands_slice {text : Text} {start stop : Nat} (hbegins : BeginsAt text start)
    (hlt : start < stop) (hstop : stop ≤ text.length) (doc : Option Text)
    (ignored : List (Char × Nat)) :
    let s : Segment := ⟨start, Text.slice text start stop, doc, ignored⟩
    s.Stands text ∧ s.span.1 < s.span.2 ∧ s.span.2 ≤ stop := by
  obtain ⟨front, c, rest, rfl, rfl, hc⟩ := hbegins.exists_text
  have hslice : Text.slice (front ++ c :: rest) front.length stop =
      c :: rest.take (stop - (front.length + 1)) := by
    have hle : front.length ≤ stop := by omega
    have hsub : stop - front.length = (stop - (front.length + 1)) + 1 := by omega
    rw [Text.slice, List.take_append, List.take_of_length_le hle, List.drop_left, hsub,
      List.take_succ_cons]
  have hstrip : Text.stripRight (c :: rest.take (stop - (front.length + 1))) =
      c :: Text.stripRight (rest.take (stop - (front.length + 1))) :=
    Text.dropRightWhile_cons hc _
  obtain ⟨behind, hbehind⟩ : Text.stripRight (rest.take (stop - (front.length + 1))) <+: rest :=
    (Text.dropRightWhile_isPrefix _ _).trans (List.take_prefix _ _)
  have hlength : (Text.stripRight (rest.take (stop - (front.length + 1)))).length ≤
      stop - (front.length + 1) :=
    Nat.le_trans (Text.length_stripRight_le _) (List.length_take_le _ _)
  simp only [Segment.span, hslice, hstrip, List.length_cons]
  refine ⟨⟨hbegins, ?_⟩, by omega, by omega⟩
  simp only [Segment.span, hstrip]
  have hcut : front ++ c :: rest =
      front ++ ((c :: Text.stripRight (rest.take (stop - (front.length + 1)))) ++ behind) := by
    rw [List.cons_append, hbehind]
  exact (congrArg (Text.slice · _ _) hcut).trans (Text.slice_append _ _ _ rfl rfl)

/-! ## Along a segmentation -/

/-- The offset at which the segment that is being read began, or else the next one may begin. -/
def startOf (current : Option Reading) (position : Nat) : Nat :=
  (current.map (·.start)).getD position

theorem start_readingAt (current : Option Reading) (pending : Option Text) (s s' : State) (c : Char)
    (position : Nat) :
    (readingAt current pending s s' c position).start = startOf current position := by
  have hstart : (current.getD ⟨position, pending, []⟩).start = startOf current position := by
    cases current <;> rfl
  unfold readingAt
  split <;> exact hstart

/-- What is known at every place that a segmentation of the text comes to. -/
structure Reached (text : Text) (s : State) (current : Option Reading) (past rest : Text)
    (position : Nat) : Prop where
  /-- The place is in the text. -/
  text_eq : past.reverse ++ rest = text
  /-- The offset counts the characters before it, unless a segment has run into the end. -/
  position_eq : current = none ∨ rest ≠ [] → position = past.length
  /-- The pass over the text comes there, unless a comment has run into the end. -/
  run : rest ≠ [] → ∃ ps, Run ⟨{}, [], text, 0⟩ ps ⟨s, past, rest, position⟩
  /-- Between two segments the pass is outside everything. -/
  top : current = none → s.atTopLevel = true
  /-- The segment that is being read began where statements do. -/
  reading : ∀ r, current = some r → BeginsAt text r.start ∧ r.start < position

namespace Reached

variable {text : Text} {s : State} {current : Option Reading} {past rest : Text} {position : Nat}

theorem start (text : Text) : Reached text {} none [] text 0 where
  text_eq := rfl
  position_eq _ := rfl
  run _ := ⟨[], .refl _⟩
  top _ := rfl
  reading _ h := by cases h

/-- A run between two segments leads to a place between two segments. -/
theorem of_run (h : Reached text s none past rest position) {past' rest' : Text} {position' : Nat}
    {ps : List Cursor}
    (hrun : Run ⟨s, past, rest, position⟩ ps ⟨s, past', rest', position'⟩) (hrest : rest ≠ [])
    (hposition : position' = past'.length) : Reached text s none past' rest' position' where
  text_eq := hrun.past_append_rest.trans h.text_eq
  position_eq _ := hposition
  run _ := by
    obtain ⟨qs, hqs⟩ := h.run hrest
    exact ⟨_, hqs.append hrun⟩
  top := h.top
  reading _ h := by cases h

/-- White space or a separator between two segments. -/
theorem skip {c : Char} {r : Text} (h : Reached text s none past (c :: r) position)
    (hskip : Text.isBlank c = true ∨ c ∈ Layout.module.separators) :
    Reached text s none (c :: past) r (position + 1) := by
  have hplain : Plain c := by
    rcases hskip with hc | hc
    · exact plain_of_isBlank hc
    · rw [List.mem_singleton.1 hc]
      decide
  have hposition := h.position_eq (.inl rfl)
  have hstep := State.step_of_plain (inCode_of_atTopLevel (h.top rfl)) hplain past r position
  refine h.of_run (.single (.step hstep)) (by simp) ?_
  rw [hposition, List.length_cons]

/-- A comment line between two segments. -/
theorem line {c : Char} {r : Text} (h : Reached text s none past (c :: r) position)
    (hopen : Opens .module "//".toList c r) :
    Reached text s none ((c :: r.takeWhile (· != '\n')).reverse ++ past)
      ((c :: r).drop (c :: r.takeWhile (· != '\n')).length)
      (position + (c :: r.takeWhile (· != '\n')).length) := by
  obtain ⟨rfl, t, rfl⟩ := eq_of_delimiter '/' hopen.stands
  have hdrop : ('/' :: '/' :: t).drop ('/' :: '/' :: t.takeWhile (· != '\n')).length =
      t.dropWhile (· != '\n') := Text.drop_length_takeWhile _ t
  show Reached text s none (('/' :: '/' :: t.takeWhile (· != '\n')).reverse ++ past)
    (('/' :: '/' :: t).drop ('/' :: '/' :: t.takeWhile (· != '\n')).length)
    (position + ('/' :: '/' :: t.takeWhile (· != '\n')).length)
  rw [hdrop]
  have hposition : position = past.length := h.position_eq (.inl rfl)
  have hu : '\n' ∉ t.takeWhile (· != '\n') := by
    intro hmem
    simpa using List.mem_takeWhile_imp hmem
  have hsplit := List.takeWhile_append_dropWhile (p := (· != '\n')) (l := t)
  cases hd : t.dropWhile (· != '\n') with
  | nil =>
    rw [hd, List.append_nil] at hsplit
    refine ⟨?_, fun _ => ?_, fun hne => absurd rfl hne, h.top, fun _ h => by cases h⟩
    · rw [← h.text_eq, hsplit]
      simp
    · simp only [List.length_append, List.length_reverse]
      omega
  | cons c rest =>
    have hc : c = '\n' := by
      have hhead := List.head?_dropWhile_not (· != '\n') t
      rw [hd] at hhead
      simpa using hhead
    subst hc
    rw [hd] at hsplit
    obtain ⟨ps, hrun⟩ :=
      Run.line_newline (inCode_of_atTopLevel (h.top rfl)) past _ rest position hu
    rw [hsplit] at hrun
    have hpast : ('/' :: '/' :: t.takeWhile (· != '\n')).reverse ++ past =
        (t.takeWhile (· != '\n')).reverse ++ '/' :: '/' :: past := by
      simp
    have hoffset : position + ('/' :: '/' :: t.takeWhile (· != '\n')).length =
        position + 2 + (t.takeWhile (· != '\n')).length := by
      simp only [List.length_cons]
      omega
    rw [hpast, hoffset]
    refine h.of_run hrun (by simp) ?_
    simp only [List.length_append, List.length_reverse, List.length_cons]
    omega

/-- A block comment between two segments. -/
theorem block {c : Char} {r : Text} {n : Nat} (h : Reached text s none past (c :: r) position)
    (hopen : Opens .module "/*".toList c r) (hn : Text.find? (r.drop 1) "*/".toList = some n) :
    Reached text s none (((c :: r).take (n + 4)).reverse ++ past) ((c :: r).drop (n + 4))
      (position + (n + 4)) := by
  obtain ⟨rfl, t, rfl⟩ := eq_of_delimiter '*' hopen.stands
  obtain ⟨ps, hrun⟩ := Run.block (inCode_of_atTopLevel (h.top rfl)) past t position n hn
  have hposition : position = past.length := h.position_eq (.inl rfl)
  have hbound : n + 2 ≤ t.length := by
    have hle := (Text.findFrom_bounds hn).2
    simp at hle
    omega
  have hpast : (('/' :: '*' :: t).take (n + 4)).reverse ++ past =
      (t.take (n + 2)).reverse ++ '*' :: '/' :: past := by
    simp
  rw [hpast, show position + (n + 4) = position + 2 + (n + 2) by omega]
  refine h.of_run hrun (by simp) ?_
  simp only [List.length_append, List.length_reverse, List.length_cons, List.length_take]
  omega

/-- The segment that is being read, or begins here. -/
theorem begins {c : Char} {r : Text} (h : Reached text s current past (c :: r) position)
    (hbegins : Begins .module current c r) :
    BeginsAt text (startOf current position) ∧ startOf current position ≤ position ∧
      (c = '\n' → startOf current position < position) := by
  cases current with
  | none =>
    have hblank := (hbegins rfl).1
    obtain ⟨ps, hrun⟩ := h.run (by simp)
    refine ⟨⟨ps, s, past, c, r, hrun, h.top rfl, hblank⟩, Nat.le_refl _, ?_⟩
    rintro rfl
    exact absurd hblank (by decide)
  | some reading =>
    obtain ⟨hreading, hlt⟩ := h.reading reading rfl
    exact ⟨hreading, Nat.le_of_lt hlt, fun _ => hlt⟩

/-- A step that does not end the segment. -/
theorem go {c : Char} {r : Text} {k : Nat} {s' : State}
    (h : Reached text s current past (c :: r) position) (hbegins : Begins .module current c r)
    (hstep : s.step past c r position = .ok (k, s')) (pending : Option Text) :
    Reached text s' (some (readingAt current pending s s' c position))
      (advancePast past (c :: r) k) ((c :: r).drop k) (position + k) := by
  obtain ⟨ps, hrun⟩ := h.run (by simp)
  have hrun' := hrun.append (.single (.step hstep))
  have hplaced := (Placed.start text).run hrun'
  refine ⟨hplaced.text_eq, ?_, fun _ => ⟨_, hrun'⟩, (fun h => by cases h), ?_⟩
  · rintro (h | h)
    · cases h
    · exact hplaced.position_eq h
  · rintro _ ⟨⟩
    rw [start_readingAt]
    refine ⟨(h.begins hbegins).1, ?_⟩
    cases current with
    | none =>
      have hcode := State.step_of_inCode (inCode_of_atTopLevel (h.top rfl)) past c r position
      have hk := State.one_le_of_stepCode (Except.ok.inj (hcode.symm.trans hstep))
      exact Nat.lt_add_of_pos_right hk
    | some reading => exact Nat.lt_add_right k (h.reading reading rfl).2

/-- A step that ends the segment. -/
theorem stop {c : Char} {r : Text} {k stop : Nat} {s' : State} {pending : Option Text}
    (h : Reached text s current past (c :: r) position) (hbegins : Begins .module current c r)
    (hstep : s.step past c r position = .ok (k, s'))
    (hstop : stopAt .module text s s' (readingAt current pending s s' c position).start position k
      c = some stop) :
    Reached text s' none (advancePast past (c :: r) k) ((c :: r).drop k) (position + k) ∧
      startOf current position < stop ∧ stop ≤ position + k := by
  obtain ⟨htop, rfl, rfl, hchar⟩ := stopAt_module hstep hstop
  obtain ⟨ps, hrun⟩ := h.run (by simp)
  have hrun' := hrun.append (.single (.step hstep))
  have hposition := h.position_eq (.inr (by simp))
  refine ⟨⟨hrun'.past_append_rest, fun _ => ?_, fun _ => ⟨_, hrun'⟩, fun _ => htop,
    fun _ h => by cases h⟩, ?_⟩
  · rw [hposition]
    rfl
  · obtain ⟨-, hle, hnewline⟩ := h.begins hbegins
    rcases hchar with ⟨-, rfl⟩ | ⟨hc, rfl⟩
    · exact ⟨Nat.lt_succ_of_le hle, Nat.le_refl _⟩
    · exact ⟨hnewline hc, Nat.le_succ _⟩

/-- The segment that is being read, or begins here, is in the text. -/
theorem startOf_le {c : Char} {r : Text} (h : Reached text s current past (c :: r) position) :
    startOf current position ≤ text.length := by
  have hposition := h.position_eq (.inr (by simp))
  have hlength := congrArg List.length h.text_eq
  simp only [List.length_append, List.length_reverse, List.length_cons] at hlength
  cases current with
  | none =>
    show position ≤ text.length
    omega
  | some r =>
    have hlt := (h.reading r rfl).2
    show r.start ≤ text.length
    omega

end Reached

/-- What is known of the segments of a text from `lo` on. -/
def Places (text : Text) (lo : Nat) (ss : List Segment) : Prop :=
  (∀ s ∈ ss, s.Stands text) ∧ Successive lo text.length (ss.map Segment.span)

theorem Places.nil {text : Text} {lo : Nat} (h : lo ≤ text.length) : Places text lo [] :=
  ⟨by simp, .nil h⟩

theorem Places.of_le {text : Text} {lo mid : Nat} {ss : List Segment} (h : Places text mid ss)
    (hle : lo ≤ mid) : Places text lo ss :=
  ⟨h.1, h.2.of_le hle⟩

/-- A segment in front of others. -/
theorem Places.cons {text : Text} {start stop : Nat} {ss : List Segment} (h : Places text stop ss)
    (hbegins : BeginsAt text start) (hlt : start < stop) (doc : Option Text)
    (ignored : List (Char × Nat)) :
    Places text start (⟨start, Text.slice text start stop, doc, ignored⟩ :: ss) := by
  obtain ⟨hstands, hspan, hstop⟩ := stands_slice hbegins hlt h.2.le doc ignored
  refine ⟨?_, .cons (Nat.le_refl _) hspan (h.2.of_le hstop)⟩
  rintro s (_ | ⟨_, hs⟩)
  · exact hstands
  · exact h.1 s hs

/-- At the end of the text the segment that is being read goes up to there. -/
theorem Reached.places_close {text : Text} {s : State} {current : Option Reading} {past : Text}
    {position : Nat} (h : Reached text s current past [] position) :
    Places text (startOf current position)
      (Outline.segmentsOf (current.map fun r => r.close text text.length).toList) := by
  cases current with
  | none =>
    have hposition := h.position_eq (.inl rfl)
    have hlength := congrArg List.length h.text_eq
    simp only [List.length_append, List.length_reverse, List.length_nil] at hlength
    exact .nil (by show position ≤ text.length; omega)
  | some r =>
    have hbegins := (h.reading r rfl).1
    obtain ⟨front, c, rest, rfl, hstart, -⟩ := hbegins.exists_text
    exact Places.cons (.nil (Nat.le_refl _)) hbegins (by simp [← hstart]) _ _

theorem segmentsOf_header (leading : Bool) (line : Text) (ps : List Piece) :
    Outline.segmentsOf ((if leading then [Piece.header line] else []) ++ ps) =
      Outline.segmentsOf ps := by
  cases leading <;> rfl

/-- **The statements of a module stand one behind the other**, from every place that a segmentation
comes to. -/
theorem segmentsFrom_places (text : Text) (s : State) (current : Option Reading)
    (pending : Option Text) (leading : Bool) (past rest : Text) (position : Nat)
    (h : Reached text s current past rest position) :
    Places text (startOf current position)
      (Outline.segmentsOf
        (segmentsFrom .module text s current pending leading past rest position).pieces) := by
  revert h
  induction s, current, pending, leading, past, rest, position using
    segmentation_induction .module text with
  | nil s current pending leading past position =>
    intro h
    rw [segmentsFrom_nil]
    exact h.places_close
  | skip s pending leading past c r position hskip ih =>
    intro h
    rw [segmentsFrom_skip hskip]
    exact (ih (h.skip hskip)).of_le (Nat.le_succ _)
  | line s pending leading past c r position hopen ih =>
    intro h
    rw [segmentsFrom_line hopen, Segmentation.prepend, segmentsOf_header]
    exact (ih (h.line hopen)).of_le (Nat.le_add_right _ _)
  | block s pending leading past c r position n hopen hn ih =>
    intro h
    rw [segmentsFrom_block hopen hn]
    exact (ih (h.block hopen hn)).of_le (Nat.le_add_right _ _)
  | openBlock s pending leading past c r position hopen hn =>
    intro h
    rw [segmentsFrom_openBlock hopen hn]
    exact .nil h.startOf_le
  | fault s current pending leading past c r position f hbegins hstep =>
    intro h
    rw [segmentsFrom_fault hbegins hstep]
    exact .nil h.startOf_le
  | stop s current pending leading past c r position k s' stop hbegins hstep hstop ih =>
    intro h
    rw [segmentsFrom_read hbegins hstep, hstop]
    obtain ⟨hreached, hlt, hle⟩ := h.stop hbegins hstep hstop
    have hcons := ((ih hreached).of_le hle).cons (h.begins hbegins).1 hlt
    rw [← start_readingAt current pending s s' c position] at hcons ⊢
    exact hcons _ _
  | go s current pending leading past c r position k s' hbegins hstep hstop ih =>
    intro h
    rw [segmentsFrom_read hbegins hstep, hstop]
    refine (ih (h.go hbegins hstep pending)).of_le (Nat.le_of_eq ?_)
    exact (start_readingAt current pending s s' c position).symm

/-- The statements of a module stand one behind the other, and each begins outside everything. -/
theorem segments_places (text : Text) :
    Places text 0 (Outline.segmentsOf (segments .module text).pieces) :=
  segmentsFrom_places text {} none none true [] text 0 (Reached.start text)

end ModuleSurface.Statement
