import ModuleSurface.Proofs.Lexing.Closed
import ModuleSurface.Proofs.Statement.Lockstep

/-!
# The cases of a segmentation

One equation for each thing that a segmentation does next: it skips white space and separators, a
line comment or a block comment between two segments, or reads a unit of a segment.  `stopAt` is the
end of a segment behind the unit that ends it, and `readingAt` the segment with that unit.
-/

namespace ModuleSurface.Statement

open ModuleSurface.Lexing

/-- The segmentation with other pieces in front. -/
def Segmentation.prepend (pieces : List Piece) (s : Segmentation) : Segmentation :=
  { s with pieces := pieces ++ s.pieces }

/-- Between two segments, where `c` and then `r` stand, a comment opens with the delimiter. -/
structure Opens (l : Layout) (delimiter : Text) (c : Char) (r : Text) : Prop where
  /-- White space is skipped. -/
  blank : Text.isBlank c = false
  /-- Separators are skipped. -/
  separator : c ∉ l.separators
  /-- The delimiter stands there. -/
  stands : delimiter.isPrefixOf (c :: r) = true

/-- The character is read as the first one of a segment, or further in a segment that is being read
already. -/
def Begins (l : Layout) (current : Option Reading) (c : Char) (r : Text) : Prop :=
  current = none → Text.isBlank c = false ∧ c ∉ l.separators ∧
    "//".toList.isPrefixOf (c :: r) = false ∧ "/*".toList.isPrefixOf (c :: r) = false

/-- The segment with one more unit, which begins with `c` and leads from `s` to `s'`. -/
def readingAt (current : Option Reading) (pending : Option Text) (s s' : State) (c : Char)
    (position : Nat) : Reading :=
  let reading := current.getD { start := position, doc := pending, ignored := [] }
  if s'.clamped = s.clamped then reading
  else { reading with ignored := (c, position) :: reading.ignored }

/-- The end of the segment that began at `start`, if the unit at `position` of `k` characters, which
begins with `c` and leads from `s` to `s'`, ends it. -/
def stopAt (l : Layout) (text : Text) (s s' : State) (start position k : Nat) (c : Char) :
    Option Nat :=
  if s.context == .normal && s'.atTopLevel then l.stop? text start position (position + k) c
  else none

variable {l : Layout} {text : Text} {s : State} {pending : Option Text} {leading : Bool}
  {past : Text} {position : Nat}

theorem segmentsFrom_nil {current : Option Reading} :
    segmentsFrom l text s current pending leading past [] position =
      ⟨(current.map fun r => r.close text text.length).toList, .finished s⟩ := by
  rw [segmentsFrom]

/-- What is skipped between two segments. -/
theorem skips_iff {current : Option Reading} {c : Char} :
    (current.isNone && (Text.isBlank c || l.separators.contains c)) = true ↔
      current = none ∧ (Text.isBlank c = true ∨ c ∈ l.separators) := by
  simp

theorem segmentsFrom_skip {c : Char} (h : Text.isBlank c = true ∨ c ∈ l.separators) (r : Text) :
    segmentsFrom l text s none pending leading past (c :: r) position =
      segmentsFrom l text s none pending leading (c :: past) r (position + 1) := by
  rw [segmentsFrom, if_pos (skips_iff.2 ⟨rfl, h⟩)]

/-- A delimiter that is not skipped opens a comment between two segments. -/
theorem opens_iff {delimiter : Text} {current : Option Reading} {c : Char} {r : Text}
    (hskip : ¬ (current.isNone && (Text.isBlank c || l.separators.contains c)) = true) :
    (current.isNone && delimiter.isPrefixOf (c :: r)) = true ↔
      current = none ∧ Opens l delimiter c r := by
  rw [skips_iff, not_and, not_or, Bool.not_eq_true] at hskip
  rw [Bool.and_eq_true, Option.isNone_iff_eq_none]
  constructor
  · rintro ⟨hnone, h⟩
    exact ⟨hnone, (hskip hnone).1, (hskip hnone).2, h⟩
  · exact fun ⟨hnone, h⟩ => ⟨hnone, h.stands⟩

namespace Opens

variable {delimiter : Text} {c d : Char} {r : Text}

theorem skips_eq_false (h : Opens l delimiter c r) :
    (Text.isBlank c || l.separators.contains c) = false := by
  simp [h.blank, h.separator]

/-- The comment opens whatever follows. -/
theorem append (h : Opens l delimiter c r) (more : Text) : Opens l delimiter c (r ++ more) where
  blank := h.blank
  separator := h.separator
  stands := List.isPrefixOf_iff_prefix.2
    ((List.isPrefixOf_iff_prefix.1 h.stands).trans (List.prefix_append (c :: r) more))

/-- A comment opens with one delimiter. -/
theorem eq_false_of_ne {e : Char} (h : Opens l ['/', d] c r) (hne : e ≠ d) :
    ['/', e].isPrefixOf (c :: r) = false := by
  obtain ⟨rfl, t, rfl⟩ := eq_of_delimiter d h.stands
  simp [List.isPrefixOf, hne]

end Opens

theorem segmentsFrom_line {c : Char} {r : Text} (h : Opens l "//".toList c r) :
    segmentsFrom l text s none pending leading past (c :: r) position =
      (segmentsFrom l text s none none leading ((c :: r.takeWhile (· != '\n')).reverse ++ past)
        ((c :: r).drop (c :: r.takeWhile (· != '\n')).length)
        (position + (c :: r.takeWhile (· != '\n')).length)).prepend
      (if leading then [.header (Text.stripRight (c :: r.takeWhile (· != '\n')))] else []) := by
  rw [segmentsFrom]
  simp only [Option.isNone_none, Bool.true_and, h.skips_eq_false, h.stands]
  cases leading <;> rfl

theorem segmentsFrom_block {c : Char} {r : Text} {n : Nat} (h : Opens l "/*".toList c r)
    (hn : Text.find? (r.drop 1) "*/".toList = some n) :
    segmentsFrom l text s none pending leading past (c :: r) position =
      segmentsFrom l text s none (docOf ((c :: r).take (n + 4))) leading
        (((c :: r).take (n + 4)).reverse ++ past) ((c :: r).drop (n + 4)) (position + (n + 4)) := by
  have hline : "//".toList.isPrefixOf (c :: r) = false := h.eq_false_of_ne (by decide)
  rw [segmentsFrom]
  simp only [Option.isNone_none, Bool.true_and, h.skips_eq_false, hline, h.stands, hn, if_true,
    Bool.false_eq_true, if_false]

theorem segmentsFrom_openBlock {c : Char} {r : Text} (h : Opens l "/*".toList c r)
    (hn : Text.find? (r.drop 1) "*/".toList = none) :
    segmentsFrom l text s none pending leading past (c :: r) position =
      { pieces := [], ending := .openComment position } := by
  have hline : "//".toList.isPrefixOf (c :: r) = false := h.eq_false_of_ne (by decide)
  rw [segmentsFrom]
  simp only [Option.isNone_none, Bool.true_and, h.skips_eq_false, hline, h.stands, hn, if_true,
    Bool.false_eq_true, if_false]

theorem begins_iff {current : Option Reading} {c : Char} {r : Text} :
    Begins l current c r ↔
      ¬ (current.isNone && (Text.isBlank c || l.separators.contains c)) = true ∧
        ¬ (current.isNone && "//".toList.isPrefixOf (c :: r)) = true ∧
        ¬ (current.isNone && "/*".toList.isPrefixOf (c :: r)) = true := by
  cases current with
  | some reading => simp [Begins]
  | none =>
    have hsep : c ∉ l.separators ↔ l.separators.contains c = false := by simp
    simp only [Begins, true_implies, Option.isNone_none, Bool.true_and, Bool.not_eq_true,
      Bool.or_eq_false_iff, hsep, and_assoc]

theorem segmentsFrom_read {current : Option Reading} {c : Char} {r : Text} {k : Nat} {s' : State}
    (h : Begins l current c r) (hstep : s.step past c r position = .ok (k, s')) :
    segmentsFrom l text s current pending leading past (c :: r) position =
      match stopAt l text s s' (readingAt current pending s s' c position).start position k c with
      | some stop =>
        (segmentsFrom l text s' none none false (advancePast past (c :: r) k) ((c :: r).drop k)
          (position + k)).prepend [(readingAt current pending s s' c position).close text stop]
      | none =>
        segmentsFrom l text s' (some (readingAt current pending s s' c position)) none false
          (advancePast past (c :: r) k) ((c :: r).drop k) (position + k) := by
  obtain ⟨hskip, hline, hblock⟩ := begins_iff.1 h
  rw [segmentsFrom, if_neg hskip, if_neg hline, if_neg hblock]
  simp only
  split
  · rename_i f hf
    rw [hstep] at hf
    cases hf
  · rename_i hk
    rw [hstep] at hk
    cases hk
    rfl

theorem start_readingAt_le {current : Option Reading} {position : Nat}
    (h : ∀ r, current = some r → r.start ≤ position) (pending : Option Text) (s s' : State)
    (c : Char) : (readingAt current pending s s' c position).start ≤ position := by
  have hstart : (current.getD ⟨position, pending, []⟩).start ≤ position := by
    cases current with
    | none => exact Nat.le_refl _
    | some r => exact h r rfl
  unfold readingAt
  split <;> exact hstart

theorem segmentsFrom_fault {current : Option Reading} {c : Char} {r : Text} {f : Fault}
    (h : Begins l current c r) (hstep : s.step past c r position = .error f) :
    segmentsFrom l text s current pending leading past (c :: r) position =
      { pieces := [], ending := .faulty f } := by
  obtain ⟨hskip, hline, hblock⟩ := begins_iff.1 h
  rw [segmentsFrom, if_neg hskip, if_neg hline, if_neg hblock]
  simp only
  split
  · rename_i f' hf
    rw [hstep] at hf
    cases hf
    rfl
  · rename_i hk
    rw [hstep] at hk
    cases hk

/-- The cases of a segmentation as an induction: a property of the places of a segmentation holds if
it holds where the segmentation ends and is handed back from the next place to the one in front. -/
theorem segmentation_induction (l : Layout) (text : Text)
    {P : State → Option Reading → Option Text → Bool → Text → Text → Nat → Prop}
    (nil : ∀ s current pending leading past position, P s current pending leading past [] position)
    (skip : ∀ s pending leading past c r position, Text.isBlank c = true ∨ c ∈ l.separators →
      P s none pending leading (c :: past) r (position + 1) →
        P s none pending leading past (c :: r) position)
    (line : ∀ s pending leading past c r position, Opens l "//".toList c r →
      P s none none leading ((c :: r.takeWhile (· != '\n')).reverse ++ past)
          ((c :: r).drop (c :: r.takeWhile (· != '\n')).length)
          (position + (c :: r.takeWhile (· != '\n')).length) →
        P s none pending leading past (c :: r) position)
    (block : ∀ s pending leading past c r position n, Opens l "/*".toList c r →
      Text.find? (r.drop 1) "*/".toList = some n →
      P s none (docOf ((c :: r).take (n + 4))) leading (((c :: r).take (n + 4)).reverse ++ past)
          ((c :: r).drop (n + 4)) (position + (n + 4)) →
        P s none pending leading past (c :: r) position)
    (openBlock : ∀ s pending leading past c r position, Opens l "/*".toList c r →
      Text.find? (r.drop 1) "*/".toList = none → P s none pending leading past (c :: r) position)
    (fault : ∀ s current pending leading past c r position f, Begins l current c r →
      s.step past c r position = .error f → P s current pending leading past (c :: r) position)
    (stop : ∀ s current pending leading past c r position k s' stop, Begins l current c r →
      s.step past c r position = .ok (k, s') →
      stopAt l text s s' (readingAt current pending s s' c position).start position k c =
        some stop →
      P s' none none false (advancePast past (c :: r) k) ((c :: r).drop k) (position + k) →
        P s current pending leading past (c :: r) position)
    (go : ∀ s current pending leading past c r position k s', Begins l current c r →
      s.step past c r position = .ok (k, s') →
      stopAt l text s s' (readingAt current pending s s' c position).start position k c = none →
      P s' (some (readingAt current pending s s' c position)) none false
          (advancePast past (c :: r) k) ((c :: r).drop k) (position + k) →
        P s current pending leading past (c :: r) position)
    (s : State) (current : Option Reading) (pending : Option Text) (leading : Bool)
    (past rest : Text) (position : Nat) : P s current pending leading past rest position := by
  induction s, current, pending, leading, past, rest, position using segmentsFrom.induct l text with
  | case1 => exact nil _ _ _ _ _ _
  | case2 s current pending leading past position c r hskip ih =>
    obtain ⟨rfl, hchar⟩ := skips_iff.1 hskip
    exact skip _ _ _ _ _ _ _ hchar ih
  | case3 s current pending past position c r hskip hline _ ih =>
    obtain ⟨rfl, hopen⟩ := (opens_iff hskip).1 hline
    exact line _ _ _ _ _ _ _ hopen ih
  | case4 s current pending leading past position c r hskip hline _ _ ih =>
    obtain ⟨rfl, hopen⟩ := (opens_iff hskip).1 hline
    exact line _ _ _ _ _ _ _ hopen ih
  | case5 s current pending leading past position c r hskip _ hblock hn =>
    obtain ⟨rfl, hopen⟩ := (opens_iff hskip).1 hblock
    exact openBlock _ _ _ _ _ _ _ hopen hn
  | case6 s current pending leading past position c r hskip _ hblock n hn _ ih =>
    obtain ⟨rfl, hopen⟩ := (opens_iff hskip).1 hblock
    exact block _ _ _ _ _ _ _ _ hopen hn ih
  | case7 s current pending leading past position c r hskip hline hblock f hstep =>
    exact fault _ _ _ _ _ _ _ _ _ (begins_iff.2 ⟨hskip, hline, hblock⟩) hstep
  | case8 s current pending leading past position c r hskip hline hblock _ k s' hstep _ _ _ _ _
      hstop ih =>
    exact stop _ _ _ _ _ _ _ _ _ _ _ (begins_iff.2 ⟨hskip, hline, hblock⟩) hstep hstop ih
  | case9 s current pending leading past position c r hskip hline hblock _ k s' hstep _ _ _ _ hstop
      ih =>
    exact go _ _ _ _ _ _ _ _ _ _ (begins_iff.2 ⟨hskip, hline, hblock⟩) hstep hstop ih

/-- White space and separators between two segments are skipped. -/
theorem segmentsFrom_gap {t : Text} (ht : ∀ c ∈ t, Text.isBlank c = true ∨ c ∈ l.separators)
    (r : Text) :
    segmentsFrom l text s none pending leading past (t ++ r) position =
      segmentsFrom l text s none pending leading (t.reverse ++ past) r (position + t.length) := by
  induction t generalizing past position with
  | nil => rfl
  | cons c t ih =>
    rw [List.cons_append, segmentsFrom_skip (ht c List.mem_cons_self),
      ih fun d hd => ht d (List.mem_cons_of_mem _ hd)]
    simp [Nat.add_assoc, Nat.add_comm 1]

/-- A newline outside everything ends a segment that is complete and does not go on behind it. -/
theorem segmentsFrom_newline (reading : Reading) {r : Text} (hs : s.atTopLevel = true)
    (hends : endsBefore (Text.slice text reading.start position) (text.drop (position + 1)) =
      true) :
    segmentsFrom l text s (some reading) none false past ('\n' :: r) position =
      (segmentsFrom l text s none none false ('\n' :: past) r (position + 1)).prepend
        [reading.close text position] := by
  have hbegins : Begins l (some reading) '\n' r := fun h => by cases h
  have hstep : s.step past '\n' r position = .ok (1, s) :=
    State.step_of_plain (inCode_of_atTopLevel hs) (by decide) past r position
  have hreading : readingAt (some reading) none s s '\n' position = reading := by
    simp [readingAt]
  have hstop : stopAt l text s s reading.start position 1 '\n' = some position := by
    have hcontext : (s.context == .normal) = true := (Bool.and_eq_true_iff.1 hs).1
    simp [stopAt, hcontext, hs, Layout.stop?, hends]
  rw [segmentsFrom_read hbegins hstep, hreading, hstop]
  rfl

/-- A semicolon outside everything ends a segment. -/
theorem segmentsFrom_semicolon (reading : Reading) {r : Text} (hs : s.atTopLevel = true) :
    segmentsFrom l text s (some reading) none false past (';' :: r) position =
      (segmentsFrom l text s none none false (';' :: past) r (position + 1)).prepend
        [reading.close text (position + 1)] := by
  have hbegins : Begins l (some reading) ';' r := fun h => by cases h
  have hstep : s.step past ';' r position = .ok (1, s) :=
    State.step_of_plain (inCode_of_atTopLevel hs) (by decide) past r position
  have hreading : readingAt (some reading) none s s ';' position = reading := by
    simp [readingAt]
  have hstop : stopAt l text s s reading.start position 1 ';' = some (position + 1) := by
    have hcontext : (s.context == .normal) = true := (Bool.and_eq_true_iff.1 hs).1
    simp [stopAt, hcontext, hs, Layout.stop?]
  rw [segmentsFrom_read hbegins hstep, hreading, hstop]
  rfl

/-! ## Along a run -/

/-- The unit at the cursor does not end a segment that began at `start`. -/
def GoesOn (l : Layout) (text : Text) (start : Nat) (p : Cursor) : Prop :=
  ∀ {c : Char} {r : Text} {k : Nat} {s' : State}, p.rest = c :: r →
    p.state.step p.past c r p.position = .ok (k, s') →
      stopAt l text p.state s' start p.position k c = none

/-- A unit that ends no segment and ignores no closer belongs to the segment that is being read, or
begins one. -/
theorem segmentsFrom_next {s' : State} {current : Option Reading} {r : Text} {c : Char} {k : Nat}
    (hbegins : Begins l current c r) (hstep : s.step past c r position = .ok (k, s'))
    (hclamped : s'.clamped = s.clamped)
    (hgoes : GoesOn l text (current.getD ⟨position, pending, []⟩).start
      ⟨s, past, c :: r, position⟩) :
    segmentsFrom l text s current pending leading past (c :: r) position =
      segmentsFrom l text s' (some (current.getD ⟨position, pending, []⟩)) none false
        (advancePast past (c :: r) k) ((c :: r).drop k) (position + k) := by
  have hreading : readingAt current pending s s' c position =
      current.getD ⟨position, pending, []⟩ := if_pos hclamped
  rw [segmentsFrom_read hbegins hstep, hreading, hgoes rfl hstep]

/-- A run that ignores no closer over all ignores none in its first step. -/
theorem clamped_eq_of_run {p p' q : Cursor} {ps : List Cursor} (hnext : Cursor.Next p p')
    (hrun : Cursor.Run p' ps q) (h : q.state.clamped ≤ p.state.clamped) :
    p'.state.clamped = p.state.clamped := by
  have hlater : p'.state.clamped ≤ q.state.clamped :=
    hrun.preserves (fun hm h => Nat.le_trans h hm.clamped_le) (Nat.le_refl _)
  have hearlier : p.state.clamped ≤ p'.state.clamped := by
    cases hnext with
    | step hstep => exact (State.move_of_step hstep).clamped_le
  omega

/-- Along a run in which no segment ends, the one that is being read goes on. -/
theorem segmentsFrom_run {p q : Cursor} {ps : List Cursor} (hrun : Cursor.Run p ps q)
    (hclamped : q.state.clamped ≤ p.state.clamped) (reading : Reading)
    (hgoes : ∀ r ∈ ps, GoesOn l text reading.start r) :
    segmentsFrom l text p.state (some reading) none false p.past p.rest p.position =
      segmentsFrom l text q.state (some reading) none false q.past q.rest q.position := by
  induction hrun with
  | refl => rfl
  | cons hnext hrun ih =>
    have hsame := clamped_eq_of_run hnext hrun hclamped
    cases hnext with
    | @step s s' past c r position k hstep =>
      have hbegins : Begins l (some reading) c r := fun h => by cases h
      rw [segmentsFrom_next hbegins hstep hsame (hgoes _ List.mem_cons_self)]
      exact ih (Nat.le_trans hclamped (Nat.le_of_eq hsame.symm))
        fun r hr => hgoes r (List.mem_cons_of_mem _ hr)

/-- A run in which no segment ends begins one and reads on in it. -/
theorem segmentsFrom_run_start {r : Text} {c : Char} {q : Cursor} {ps : List Cursor}
    (hrun : Cursor.Run ⟨s, past, c :: r, position⟩ ps q) (hne : q.rest ≠ c :: r)
    (hclamped : q.state.clamped ≤ s.clamped) (hgoes : ∀ r ∈ ps, GoesOn l text position r)
    (hbegins : Begins l none c r) :
    segmentsFrom l text s none pending leading past (c :: r) position =
      segmentsFrom l text q.state (some ⟨position, pending, []⟩) none false q.past q.rest
        q.position := by
  cases hrun with
  | refl => exact absurd rfl hne
  | cons hnext hrun =>
    have hsame := clamped_eq_of_run hnext hrun hclamped
    cases hnext with
    | step hstep =>
      rw [segmentsFrom_next hbegins hstep hsame (hgoes _ List.mem_cons_self)]
      exact segmentsFrom_run hrun (Nat.le_trans hclamped (Nat.le_of_eq hsame.symm)) _
        fun r hr => hgoes r (List.mem_cons_of_mem _ hr)

end ModuleSurface.Statement
