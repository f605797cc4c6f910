import ModuleSurface.Proofs.Lexing.Separated
import ModuleSurface.Proofs.Lexing.TopLevel
import ModuleSurface.Proofs.Statement.Single

/-!
# A statement in a line of its own

A statement that is complete at the end of its text (`Whole`) is one segment in front of a line that
does not continue it, and what stands behind it is cut as on its own: `Whole.exists_cutOff`.  The
statement may end with a semicolon, ignore closers, and have a line comment behind it.  White space
and block comments in front of it (`Lead`) are skipped.
-/

namespace ModuleSurface.Lexing

open Cursor

theorem State.Coherent.opened_eq_nil_iff {s : State} (hs : s.Coherent) :
    s.opened = [] ↔ s.depth = 0 := by
  simp only [State.depth_eq_zero_iff, hs.depthOf_eq, List.countP_eq_zero]
  constructor
  · intro hnil
    simp [hnil]
  · intro hcount
    refine List.eq_nil_iff_forall_not_mem.2 fun e he => ?_
    simpa using hcount e.1 e he

/-- In a closed text everything ends. -/
theorem Closed.verdict {t : Text} (ht : Closed t) : (pass t).verdict = none := by
  have hopened := (coherent_pass t).opened_eq_nil_iff.2 ht.depth
  have hfinish : (pass t).state.finish.2 = none := by
    simp [State.finish, ht.context, hopened]
  rw [Pass.verdict, ht.fault, hfinish]
  rfl

/-- Where nothing is left open the text ends outside everything, in a line comment or not. -/
theorem State.Coherent.atTopLevel_finish {s : State} (hs : s.Coherent) (h : s.finish.2 = none) :
    s.finish.1.atTopLevel = true := by
  have hcontext : s.finish.1.context = .normal := by
    by_contra hopen
    obtain ⟨f, hf, -⟩ := hs.exists_fault_finish hopen
    rw [h] at hf
    cases hf
  have hopened : s.finish.1.opened = [] := by
    have hsame : (if s.context = .lineComment then s.leave else s).context = .normal := hcontext
    simp only [State.finish, hsame] at h
    exact List.head?_eq_none_iff.1 (Option.map_eq_none_iff.1 h)
  simp [State.atTopLevel, hcontext, hs.finish.opened_eq_nil_iff.1 hopened]

/-- A text in which everything ends is read alike with a line behind it, and then the pass is
outside everything, if no slash of the text begins a literal that ends behind it. -/
theorem exists_run_newline {t B : Text} (h : (pass t).verdict = none)
    (hslash : LeavesSlashes t ('\n' :: B)) :
    ∃ ps base, base.Coherent ∧ base.atTopLevel = true ∧
      Run ⟨{}, [], t ++ '\n' :: B, 0⟩ ps ⟨base, t.reverse, '\n' :: B, t.length⟩ ∧
      ps.filterMap visit? = (visits t).map (Visit.extend ('\n' :: B)) := by
  obtain ⟨hfault, hfinish⟩ := Option.or_eq_none_iff.1 h
  have hcoherent := coherent_pass t
  have htop := hcoherent.atTopLevel_finish hfinish
  have hparts : Parts ('\n' :: B) := ⟨⟨by simp, by simp⟩, rfl⟩
  have hread := fun hend => exists_run_append hfault (List.cons_ne_nil '\n' B) hend
    fun r _ hvisits hr c u hu => keepsUnit_of_leavesSlashes hslash hparts hvisits hr hu
  by_cases hline : (pass t).state.context = .lineComment
  · -- the comment ends at the newline, which is read behind it
    obtain ⟨ps, hrun, hvisits⟩ := hread (.inr ⟨hline, rfl⟩)
    have hleave : (pass t).state.finish.1 = (pass t).state.leave := if_pos hline
    have hstep : (pass t).state.step t.reverse '\n' B t.length = .ok (0, (pass t).state.leave) := by
      rw [State.step, hline]
      rfl
    have hcode : (pass t).state.inCode = false := by
      rw [State.inCode, hline]
      rfl
    rw [hleave] at htop
    refine ⟨_, _, hcoherent.step hstep, htop, hrun.append (.single (.step hstep)), ?_⟩
    rw [List.filterMap_append, hvisits]
    simp [visit?, State.readsCode, hcode]
  · have hsame : (pass t).state.finish.1 = (pass t).state := if_neg hline
    rw [hsame] at htop
    obtain ⟨ps, hrun, hvisits⟩ := hread (.inl (Statement.inCode_of_atTopLevel htop))
    exact ⟨ps, _, hcoherent, htop, hrun, hvisits⟩

end ModuleSurface.Lexing

namespace ModuleSurface.Statement

open ModuleSurface.Lexing
open ModuleSurface.Lexing.Cursor

/-! ## Runs that ignore closers -/

section

variable {l : Layout} {text : Text} {p q : Cursor} {ps : List Cursor}

/-- A unit that ends no segment belongs to the one that is being read, or begins one. -/
theorem exists_segmentsFrom_next {s s' : State} {current : Option Reading} {pending : Option Text}
    (leading : Bool) {past r : Text} {c : Char} {position k : Nat} (hbegins : Begins l current c r)
    (hstep : s.step past c r position = .ok (k, s'))
    (hgoes : GoesOn l text (current.getD ⟨position, pending, []⟩).start
      ⟨s, past, c :: r, position⟩) :
    ∃ ignored, segmentsFrom l text s current pending leading past (c :: r) position =
      segmentsFrom l text s'
        (some { current.getD ⟨position, pending, []⟩ with ignored := ignored }) none false
        (advancePast past (c :: r) k) ((c :: r).drop k) (position + k) := by
  obtain ⟨ignored, hreading⟩ : ∃ ignored, readingAt current pending s s' c position =
      { current.getD ⟨position, pending, []⟩ with ignored := ignored } := by
    unfold readingAt
    split <;> exact ⟨_, rfl⟩
  refine ⟨ignored, ?_⟩
  rw [segmentsFrom_read hbegins hstep, hreading, hgoes rfl hstep]

/-- Along a run in which no segment ends, the one being read goes on, whatever it ignores. -/
theorem exists_segmentsFrom_run (hrun : Run p ps q) (reading : Reading)
    (hgoes : ∀ r ∈ ps, GoesOn l text reading.start r) :
    ∃ ignored, segmentsFrom l text p.state (some reading) none false p.past p.rest p.position =
      segmentsFrom l text q.state (some { reading with ignored := ignored }) none false q.past
        q.rest q.position := by
  induction hrun generalizing reading with
  | refl => exact ⟨reading.ignored, rfl⟩
  | cons hnext _ ih =>
    cases hnext with
    | @step s s' past c r position k hstep =>
      have hbegins : Begins l (some reading) c r := fun h => by cases h
      obtain ⟨first, hfirst⟩ :=
        exists_segmentsFrom_next false hbegins hstep (hgoes _ List.mem_cons_self)
      obtain ⟨ignored, hothers⟩ := ih { reading with ignored := first }
        fun r hr => hgoes r (List.mem_cons_of_mem _ hr)
      exact ⟨ignored, hfirst.trans hothers⟩

/-- A run in which no segment ends begins one and reads on in it. -/
theorem exists_segmentsFrom_start {s : State} {pending : Option Text} {leading : Bool}
    {past r : Text} {c : Char} {position : Nat} (hrun : Run ⟨s, past, c :: r, position⟩ ps q)
    (hne : q.rest ≠ c :: r) (hgoes : ∀ r ∈ ps, GoesOn l text position r)
    (hbegins : Begins l none c r) :
    ∃ ignored, segmentsFrom l text s none pending leading past (c :: r) position =
      segmentsFrom l text q.state (some ⟨position, pending, ignored⟩) none false q.past q.rest
        q.position := by
  cases hrun with
  | refl => exact absurd rfl hne
  | cons hnext hrun =>
    cases hnext with
    | step hstep =>
      obtain ⟨first, hfirst⟩ :=
        exists_segmentsFrom_next leading hbegins hstep (hgoes _ List.mem_cons_self)
      obtain ⟨ignored, hothers⟩ := exists_segmentsFrom_run hrun ⟨position, pending, first⟩
        fun r hr => hgoes r (List.mem_cons_of_mem _ hr)
      exact ⟨ignored, hfirst.trans hothers⟩

end

/-! ## Whole statements -/

/-- A text that is one statement and complete: it begins like one, everything in it ends, and the
statement does not end before the text but for white space. -/
structure Whole (t : Text) : Prop where
  /-- The text begins with the statement. -/
  begins : ∃ c r, t = c :: r ∧ Begins .module none c r
  /-- Every construct and bracket of it ends. -/
  settled : (pass t).verdict = none
  /-- Outside everything there is no newline, and a semicolon only at the end. -/
  undivided : ∀ v ∈ visits t, v.state.atTopLevel = true →
    v.char ≠ '\n' ∧ (v.char = ';' → ∀ d ∈ v.rest, Text.isBlank d = true)
  /-- It does not ask for another line. -/
  complete : isIncomplete t = false

instance : (t : Text) → Decidable (Whole t)
  | [] => .isFalse fun h => by
    obtain ⟨c, r, hnil, -⟩ := h.begins
    cases hnil
  | c :: r =>
    decidable_of_iff
      ((Text.isBlank c = false ∧ c ∉ Layout.module.separators ∧
          "//".toList.isPrefixOf (c :: r) = false ∧ "/*".toList.isPrefixOf (c :: r) = false) ∧
        (pass (c :: r)).verdict = none ∧
        (∀ v ∈ visits (c :: r), v.state.atTopLevel = true →
          v.char ≠ '\n' ∧ (v.char = ';' → ∀ d ∈ v.rest, Text.isBlank d = true)) ∧
        isIncomplete (c :: r) = false)
      ⟨fun ⟨h₁, h₂, h₃, h₄⟩ => ⟨⟨c, r, rfl, fun _ => h₁⟩, h₂, h₃, h₄⟩, fun h => by
        obtain ⟨d, u, htext, hbegins⟩ := h.begins
        obtain ⟨rfl, rfl⟩ := List.cons.inj htext
        exact ⟨hbegins rfl, h.settled, h.undivided, h.complete⟩⟩

/-- A header with a closed text in brackets behind it is a whole statement. -/
theorem Whole.of_bracketed (b : Bracket) {c : Char} {r u : Text} (ht : Phrase (c :: r))
    (hu : Closed u) (hc : Plain c ∧ c ≠ '@')
    (hbegins : Text.isBlank c = false ∧ c ∉ Layout.module.separators) :
    Whole (c :: r ++ (b.opener :: u ++ [b.closer])) where
  begins := by
    have hslash : c ≠ '/' := by
      rintro rfl
      exact absurd hc.1 (by decide)
    exact ⟨c, _, rfl, fun _ => ⟨hbegins.1, hbegins.2, by simp [List.isPrefixOf, hslash.symm],
      by simp [List.isPrefixOf, hslash.symm]⟩⟩
  settled := (ht.closed_bracketed b hu).verdict
  undivided v hv htop := by
    obtain ⟨hsemicolon, hnewline⟩ := ht.unbroken_bracketed b hu v hv htop
    exact ⟨hnewline, fun h => absurd h hsemicolon⟩
  complete := isIncomplete_of_bracketed b ht hu hc.1 hbegins.1 hc.2

theorem Begins.append {c : Char} {r : Text} (h : Begins .module none c r) {more : Text}
    (hmore : more.head? ≠ some '/' ∧ more.head? ≠ some '*') :
    Begins .module none c (r ++ more) := by
  intro _
  obtain ⟨hblank, hsep, hline, hblock⟩ := h rfl
  have hlook : ∀ d, more.head? ≠ some d → ['/', d].isPrefixOf (c :: r) = false →
      ['/', d].isPrefixOf (c :: (r ++ more)) = false := by
    intro d hd hfront
    cases r with
    | cons e r => exact hfront
    | nil =>
      cases more with
      | nil => exact hfront
      | cons e more =>
        have hne : d ≠ e := by
          rintro rfl
          exact hd rfl
        simp [List.isPrefixOf, hne]
  exact ⟨hblank, hsep, hlook '/' hmore.1 hline, hlook '*' hmore.2 hblock⟩

/-! ## In front of a statement -/

/-- Where a segment begins, it does not matter whether others were read before. -/
theorem segmentsFrom_leading {l : Layout} {text past r : Text} {s : State} {pending : Option Text}
    {c : Char} {position : Nat} (h : Begins l none c r) (leading leading' : Bool) :
    segmentsFrom l text s none pending leading past (c :: r) position =
      segmentsFrom l text s none pending leading' past (c :: r) position := by
  cases hstep : s.step past c r position with
  | error f => rw [segmentsFrom_fault h hstep, segmentsFrom_fault h hstep]
  | ok e => rw [segmentsFrom_read h hstep, segmentsFrom_read h hstep]

/-- White space and block comments in front of a statement, where `pending` is the documentation
comment in front of them and `doc` the one that the statement gets. -/
inductive Lead : (pending : Option Text) → Text → (doc : Option Text) → Prop
  | nil (doc : Option Text) : Lead doc [] doc
  | blank {pending doc : Option Text} {c : Char} {t : Text} :
      Text.isBlank c = true → Lead pending t doc → Lead pending (c :: t) doc
  | comment {pending doc : Option Text} {body t : Text} :
      Text.find? (body ++ "*/".toList) "*/".toList = some body.length →
        Lead (docOf ("/*".toList ++ body ++ "*/".toList)) t doc →
          Lead pending ("/*".toList ++ body ++ "*/".toList ++ t) doc

namespace Lead

variable {pending doc : Option Text} {lead : Text}

/-- What stands in front of a statement is skipped. -/
theorem segmentsFrom_eq (h : Lead pending lead doc) (text : Text) (s : State) (leading : Bool)
    (past r : Text) (position : Nat) :
    segmentsFrom .module text s none pending leading past (lead ++ r) position =
      segmentsFrom .module text s none doc leading (lead.reverse ++ past) r
        (position + lead.length) := by
  induction h generalizing past position with
  | nil => rfl
  | blank hblank _ ih =>
    rw [List.cons_append, segmentsFrom_skip (.inl hblank), ih]
    simp [Nat.add_assoc, Nat.add_comm 1]
  | @comment pending doc body t hfind _ ih =>
    have hn : Text.find? (('*' :: (body ++ "*/".toList ++ (t ++ r))).drop 1) "*/".toList =
        some body.length := Text.findFrom_append hfind (t ++ r)
    have htext : "/*".toList ++ body ++ "*/".toList ++ t ++ r =
        '/' :: '*' :: (body ++ "*/".toList ++ (t ++ r)) := by
      simp
    have htake : ('/' :: '*' :: (body ++ "*/".toList ++ (t ++ r))).take (body.length + 4) =
        "/*".toList ++ body ++ "*/".toList := by
      rw [← htext, List.append_assoc _ t]
      exact List.take_left' (by simp)
    have hdrop : ('/' :: '*' :: (body ++ "*/".toList ++ (t ++ r))).drop (body.length + 4) =
        t ++ r := by
      rw [← htext, List.append_assoc _ t]
      exact List.drop_left' (by simp)
    rw [htext, segmentsFrom_block ⟨by decide, by decide, rfl⟩ hn, htake, hdrop, ih]
    simp [Nat.add_assoc, Nat.add_comm 4]

/-- What continues no statement does not with more in front of it either. -/
theorem continues_append (h : Lead pending lead doc) {t : Text} (ht : continues t = false) :
    continues (lead ++ t) = false := by
  induction h with
  | nil => exact ht
  | @blank _ _ c u hblank _ ih =>
    rw [continues, List.cons_append, Text.stripLeft, List.dropWhile_cons, if_pos hblank,
      ← Text.stripLeft, ← continues, ih]
  | @comment _ _ body u _ _ _ =>
    have hline : ∃ line, (Text.stripLeft ("/*".toList ++ body ++ "*/".toList ++ u ++ t)).takeWhile
        (· != '\n') = '/' :: '*' :: line := ⟨_, rfl⟩
    obtain ⟨line, hline⟩ := hline
    rw [continues, hline]
    rfl

/-- What stands in front of a statement does not end with a name. -/
theorem head?_reverse (h : Lead pending lead doc) :
    lead.reverse.head?.any Text.isIdentChar = false := by
  rw [List.head?_reverse]
  induction h with
  | nil => rfl
  | @blank _ _ c t hblank _ ih =>
    rw [List.getLast?_cons]
    cases hlast : t.getLast? with
    | none => exact Text.isIdentChar_of_isBlank hblank
    | some d => rwa [hlast] at ih
  | @comment _ _ body t _ _ ih =>
    rw [List.getLast?_append]
    cases hlast : t.getLast? with
    | none =>
      rw [List.getLast?_append]
      show Text.isIdentChar '/' = false
      decide
    | some d => rwa [hlast] at ih

end Lead

/-- What stands in front of a statement moves what is cut from there on. -/
theorem Lead.moved_segments {lead r : Text} {doc : Option Text} {c : Char}
    (hlead : Lead none lead doc) (h : Begins .module none c r)
    (hcontinues : continues (c :: r) = false) :
    Segmentation.Moved lead.length (segmentsFrom .module (c :: r) {} none doc true [] (c :: r) 0)
      (segments .module (lead ++ c :: r)) := by
  have hskip := hlead.segmentsFrom_eq (lead ++ c :: r) {} true [] (c :: r) 0
  rw [List.append_nil, Nat.zero_add, segmentsFrom_leading h true false] at hskip
  have hmoved := moved_segmentsFrom .fresh rfl hlead.head?_reverse hcontinues doc
  rwa [← hskip] at hmoved

/-! ## Behind a statement -/

/-- The first line behind a statement that is outside everything is cut as on its own. -/
theorem moved_segmentsFrom_line {base : State} (hbase : base.Coherent)
    (htop : base.atTopLevel = true) (t : Text) {B : Text} (hB : continues B = false) :
    Segmentation.Moved (t.length + 1) (segments .module B)
      (segmentsFrom .module (t ++ '\n' :: B) base none none false ('\n' :: t.reverse) B
        (t.length + 1)) := by
  have hmoved := moved_segmentsFrom hbase htop (head?_reverse_line t) hB none
  simpa [segments] using hmoved

/-- How a statement that fills a line is cut from what is behind it: it is one segment, and that is
cut as on its own. -/
structure CutOff (pending : Option Text) (t B : Text) (s : Segment) : Prop where
  /-- The segment begins with the text. -/
  start : s.start = 0
  /-- The documentation in front of it belongs to it. -/
  doc : s.doc = pending
  /-- The segment is the text, but for white space at the end. -/
  text : Text.stripRight s.text = Text.stripRight t
  /-- What is behind the line. -/
  behind : ∃ there, Segmentation.Moved (t.length + 1) (segments .module B) there ∧
    segmentsFrom .module (t ++ '\n' :: B) {} none pending true [] (t ++ '\n' :: B) 0 =
      there.prepend [.segment s]

namespace Whole

variable {t B : Text}

/-- A whole statement is read as one segment along a run in which it does not end. -/
theorem exists_segmentsFrom_start (h : Whole t) (pending : Option Text) {ps : List Cursor}
    {q : Cursor} (hrun : Run ⟨{}, [], t ++ '\n' :: B, 0⟩ ps q) (hne : q.rest ≠ t ++ '\n' :: B)
    (hgoes : ∀ v ∈ ps.filterMap visit?, v.state.atTopLevel = true →
      v.char ≠ ';' ∧ v.char ≠ '\n') :
    ∃ ignored, segmentsFrom .module (t ++ '\n' :: B) {} none pending true [] (t ++ '\n' :: B) 0 =
      segmentsFrom .module (t ++ '\n' :: B) q.state (some ⟨0, pending, ignored⟩) none false q.past
        q.rest q.position := by
  obtain ⟨c, r, rfl, hbegins⟩ := h.begins
  rw [List.cons_append] at hrun hne ⊢
  refine Statement.exists_segmentsFrom_start hrun hne
    (fun p hp => goesOn_module fun v hv htop => ?_) (hbegins.append ⟨by simp, by simp⟩)
  obtain ⟨hsemicolon, hnewline⟩ := hgoes v (List.mem_filterMap.2 ⟨p, hp, hv⟩) htop
  exact ⟨hsemicolon, fun hc => absurd hc hnewline⟩

/-- A whole statement without a semicolon ends at the newline. -/
theorem exists_cutOff_newline (h : Whole t) (hB : continues B = false)
    (hslash : LeavesSlashes t ('\n' :: B))
    (hnone : ∀ v ∈ visits t, v.state.atTopLevel = true → v.char ≠ ';') (pending : Option Text) :
    ∃ s, CutOff pending t B s := by
  obtain ⟨ps, base, hbase, htop, hrun, hvisits⟩ := exists_run_newline h.settled hslash
  have hgoes : ∀ v ∈ ps.filterMap visit?, v.state.atTopLevel = true →
      v.char ≠ ';' ∧ v.char ≠ '\n' := by
    intro v hv htop
    rw [hvisits] at hv
    obtain ⟨w, hw, rfl⟩ := List.mem_map.1 hv
    exact ⟨hnone w hw htop, (h.undivided w hw htop).1⟩
  have hne : '\n' :: B ≠ t ++ '\n' :: B := by
    obtain ⟨c, r, rfl, -⟩ := h.begins
    intro hsame
    have hlength := congrArg List.length hsame
    simp at hlength
    omega
  obtain ⟨ignored, hcut⟩ := h.exists_segmentsFrom_start pending hrun hne hgoes
  have hslice : Text.slice (t ++ '\n' :: B) 0 t.length = t := by
    rw [Text.slice, List.take_left, List.drop_zero]
  have hends : endsBefore (Text.slice (t ++ '\n' :: B) 0 t.length)
      ((t ++ '\n' :: B).drop (t.length + 1)) = true := by
    have hdrop : (t ++ '\n' :: B).drop (t.length + 1) = B := by
      rw [List.append_cons]
      exact List.drop_left' (by simp)
    rw [hslice, hdrop, endsBefore, h.complete, hB]
    rfl
  rw [segmentsFrom_newline ⟨0, pending, ignored⟩ htop hends, Reading.close, hslice] at hcut
  exact ⟨_, rfl, rfl, rfl, _, moved_segmentsFrom_line hbase htop t hB, hcut⟩

/-- The first semicolon of a whole statement is reached with nothing ended in front of it. -/
theorem exists_run_semicolon (h : Whole t) (hslash : LeavesSlashes t ('\n' :: B)) {v : Visit}
    {front behind : List Visit} (hsplit : visits t = front ++ v :: behind) (hchar : v.char = ';')
    (hnone : ∀ u ∈ front, u.state.atTopLevel = true → u.char ≠ ';') :
    ∃ ps, Run ⟨{}, [], t ++ '\n' :: B, 0⟩ ps
        ⟨v.state, v.past, ';' :: (v.rest ++ '\n' :: B), v.index⟩ ∧
      ∀ u ∈ ps.filterMap visit?, u.state.atTopLevel = true → u.char ≠ ';' ∧ u.char ≠ '\n' := by
  obtain ⟨qs, base, -, -, hall, hvisits⟩ := exists_run_newline h.settled hslash
  have hwhole := hall.visits_eq
  rw [hvisits, hsplit, List.map_append, List.map_cons, List.append_assoc,
    List.cons_append] at hwhole
  obtain ⟨ps, q, hrun, hfront, hq, -⟩ := exists_run_of_visits hwhole
  obtain ⟨rfl, -⟩ := visit?_eq_some hq
  simp only [Visit.extend, hchar] at hrun
  refine ⟨ps, hrun, fun u hu htop => ?_⟩
  rw [hfront] at hu
  obtain ⟨w, hw, rfl⟩ := List.mem_map.1 hu
  have hmem : w ∈ visits t := by
    simp [hsplit, hw]
  exact ⟨hnone w hw htop, (h.undivided w hmem htop).1⟩

/-- A whole statement with a semicolon ends at the first one. -/
theorem exists_cutOff_semicolon (h : Whole t) (hB : continues B = false)
    (hslash : LeavesSlashes t ('\n' :: B)) {v : Visit} {front behind : List Visit}
    (hsplit : visits t = front ++ v :: behind) (htop : v.state.atTopLevel = true)
    (hchar : v.char = ';') (hnone : ∀ u ∈ front, u.state.atTopLevel = true → u.char ≠ ';')
    (pending : Option Text) : ∃ s, CutOff pending t B s := by
  have hmem : v ∈ visits t := by
    simp [hsplit]
  have hblank := (h.undivided v hmem htop).2 hchar
  obtain ⟨htext, hindex⟩ := placed_of_mem_visits hmem
  rw [hchar] at htext
  obtain ⟨ps, hrun, hgoes⟩ := h.exists_run_semicolon hslash hsplit hchar hnone
  have hne : ';' :: (v.rest ++ '\n' :: B) ≠ t ++ '\n' :: B := by
    obtain ⟨c, r, rfl, hbegins⟩ := h.begins
    obtain ⟨-, hsep, -⟩ := hbegins rfl
    intro hsame
    exact hsep ((List.cons.inj hsame).1 ▸ by decide)
  obtain ⟨ignored, hcut⟩ := h.exists_segmentsFrom_start pending hrun hne hgoes
  -- the segment ends with the semicolon, and the white space behind it is skipped
  have hslice : Text.slice (t ++ '\n' :: B) 0 (v.index + 1) = v.past.reverse ++ [';'] := by
    rw [Text.slice, List.drop_zero, ← htext, List.append_cons v.past.reverse, List.append_assoc]
    exact List.take_left' (by simp [hindex])
  have hstrip : Text.stripRight (v.past.reverse ++ [';']) = Text.stripRight t := by
    rw [← htext, List.append_cons _ _ v.rest, Text.stripRight_concat (by decide)]
    exact (Text.dropRightWhile_append_of_last List.getLast?_concat (by decide) hblank).symm
  have hgap : ∀ d ∈ v.rest ++ ['\n'], Text.isBlank d = true ∨ d ∈ Layout.module.separators := by
    intro d hd
    rcases List.mem_append.1 hd with hd | hd
    · exact .inl (hblank d hd)
    · rw [List.mem_singleton.1 hd]
      exact .inl (by decide)
  have hpast : (v.rest ++ ['\n']).reverse ++ ';' :: v.past = '\n' :: t.reverse := by
    rw [← htext]
    simp
  have hlength : v.index + 1 + (v.rest ++ ['\n']).length = t.length + 1 := by
    rw [← htext, hindex]
    simp
    omega
  rw [segmentsFrom_semicolon _ htop, Reading.close, hslice, List.append_cons v.rest,
    segmentsFrom_gap hgap, hpast, hlength] at hcut
  exact ⟨_, rfl, rfl, hstrip, _,
    moved_segmentsFrom_line (coherent_of_mem_visits hmem) htop t hB, hcut⟩

/-- **A whole statement is cut off from a line that does not continue it.** -/
theorem exists_cutOff (h : Whole t) (hB : continues B = false)
    (hslash : LeavesSlashes t ('\n' :: B)) (pending : Option Text) :
    ∃ s, CutOff pending t B s := by
  cases hfind : (visits t).find? fun v => v.state.atTopLevel && v.char == ';' with
  | none =>
    refine h.exists_cutOff_newline hB hslash (fun v hv htop hc => ?_) pending
    have hnot := List.find?_eq_none.1 hfind v hv
    simp [htop, hc] at hnot
  | some v =>
    obtain ⟨hv, front, behind, hsplit, hfront⟩ := List.find?_eq_some_iff_append.1 hfind
    rw [Bool.and_eq_true, beq_iff_eq] at hv
    refine h.exists_cutOff_semicolon hB hslash hsplit hv.1 hv.2 (fun u hu htop hc => ?_) pending
    have hnot := hfront u hu
    simp [htop, hc] at hnot

/-- Whether a statement continues the one in front of it is decided in its line. -/
theorem continues_line (h : Whole t) (B : Text) : continues (t ++ '\n' :: B) = continues t := by
  obtain ⟨c, r, rfl, hbegins⟩ := h.begins
  have hblank := (hbegins rfl).1
  have hline : ∀ u : Text, (u ++ '\n' :: B).takeWhile (· != '\n') = u.takeWhile (· != '\n') := by
    intro u
    induction u with
    | nil => rfl
    | cons d u ih => simp [List.takeWhile_cons, ih]
  simp only [continues, List.cons_append, Text.stripLeft_cons hblank]
  rw [← List.cons_append, hline]

end Whole

/-- A slash in a line that does not end with a backslash begins no literal that ends behind it. -/
theorem leavesSlashes_newline {t : Text} (ht : t.getLast? ≠ some '\\') (B : Text) :
    LeavesSlashes t ('\n' :: B) := by
  intro v hv hchar hbegins
  have hlast : v.rest.getLast? ≠ some '\\' := by
    intro hrest
    apply ht
    rw [← (placed_of_mem_visits hv).1, List.getLast?_append, List.getLast?_cons, hrest]
    rfl
  have hnil := leavesSlashes_nil t v hv hchar hbegins
  rw [List.append_nil] at hnil
  rw [RegexLiteral.bodyWidth?_append (bars_newline hlast B), hnil]

end ModuleSurface.Statement
