import ModuleSurface.Outline
import ModuleSurface.Proofs.Lexing.Visits
import ModuleSurface.Proofs.Statement.Cases

/-!
# Cutting two texts one after the other

If the last segment of a text ends with the text's last line, and what follows does not continue it,
then the text and what follows are cut independently of each other.

* `segmentsFrom_append` — what follows changes nothing in front of it;
* `segmentsFrom_within` — what is in front changes nothing behind it, offsets apart;
* `segments_append` — both together.
-/

namespace ModuleSurface.Text

theorem takeWhile_append_of_mem {p : Char → Bool} {t : Text} {c : Char} (hc : c ∈ t)
    (hp : p c = false) (more : Text) : (t ++ more).takeWhile p = t.takeWhile p := by
  rw [List.takeWhile_append, if_neg]
  intro hlen
  have hall : ∀ a ∈ t, p a = true := by
    rw [← List.takeWhile_eq_self_iff]
    exact (List.takeWhile_prefix p).eq_of_length hlen
  rw [hall c hc] at hp
  cases hp

theorem stripLeft_append_of_blank {t : Text} (ht : ∀ c ∈ t, isBlank c = true) (more : Text) :
    stripLeft (t ++ more) = stripLeft more :=
  List.dropWhile_append_of_pos ht

theorem stripLeft_append_of_not_blank {t : Text} {c : Char} (hc : c ∈ t) (hb : isBlank c = false)
    (more : Text) : stripLeft (t ++ more) = stripLeft t ++ more := by
  induction t with
  | nil => cases hc
  | cons d t ih =>
    by_cases hd : isBlank d = true
    · have hct : c ∈ t := by
        rcases List.mem_cons.1 hc with rfl | h
        · rw [hb] at hd
          cases hd
        · exact h
      simp only [stripLeft, List.cons_append, List.dropWhile_cons, hd, if_true] at ih ⊢
      exact ih hct
    · simp [stripLeft, hd]

end ModuleSurface.Text

namespace ModuleSurface.Statement

open ModuleSurface.Lexing

/-! ## The end of a line -/

/-- A place in a text that ends with a newline is the newline, or has it at the end of what
follows. -/
theorem eq_concat_of_append {past S r : Text} {c : Char}
    (h : past.reverse ++ c :: r = S ++ ['\n']) :
    (r = [] ∧ c = '\n') ∨ ∃ t, r = t ++ ['\n'] ∧ S = past.reverse ++ c :: t := by
  rcases List.eq_nil_or_concat r with rfl | ⟨t, d, rfl⟩
  · exact .inl ⟨rfl, (List.append_inj' h rfl).2 |> List.cons.inj |>.1⟩
  · have h' : (past.reverse ++ c :: t) ++ [d] = S ++ ['\n'] := by simpa using h
    obtain ⟨hS, hd⟩ := List.append_inj' h' rfl
    exact .inr ⟨t, by rw [(List.cons.inj hd).1, List.concat_eq_append], hS.symm⟩

/-- A newline bars every regular expression literal. -/
theorem bars_newline {t : Text} (ht : t.getLast? ≠ some '\\') (more : Text) :
    RegexLiteral.Bars t ('\n' :: more) where
  open_left inClass := by
    cases more <;> cases inClass <;> rfl
  hidden h := absurd h ht
  flags := by
    show Text.isIdentChar '\n' = false
    decide

/-- What follows a newline does not change what a slash in front of it means. -/
theorem keepsSlash_of_newline {past S r : Text} {c : Char} (hS : S.getLast? ≠ some '\\')
    (h : past.reverse ++ c :: r = S ++ ['\n']) (more : Text) : State.KeepsSlash c r more := by
  rintro rfl
  rcases eq_concat_of_append h with ⟨-, hc⟩ | ⟨t, rfl, rfl⟩
  · cases hc
  · have ht : t.getLast? ≠ some '\\' := by
      intro ht
      apply hS
      rw [List.getLast?_append, List.getLast?_cons, ht]
      rfl
    refine ⟨fun h => by simp at h, ?_⟩
    rw [List.append_assoc, List.singleton_append,
      RegexLiteral.bodyWidth?_append (bars_newline ht _),
      RegexLiteral.bodyWidth?_append (bars_newline ht _)]

theorem continues_of_blank {t : Text} (ht : ∀ c ∈ t, Text.isBlank c = true) :
    continues t = false := by
  have hstrip : Text.stripLeft t = [] := by
    rw [← List.append_nil t, Text.stripLeft_append_of_blank ht]
    rfl
  rw [continues, hstrip]
  rfl

/-- Whether a line continues a statement is decided by the lines up to it. -/
theorem continues_append {r B : Text} (hr : r = [] ∨ r.getLast? = some '\n')
    (hB : continues B = false) : continues (r ++ B) = continues r := by
  by_cases hblank : ∀ c ∈ r, Text.isBlank c = true
  · rw [continues_of_blank hblank, continues, Text.stripLeft_append_of_blank hblank, ← continues,
      hB]
  · obtain ⟨c, hc, hb⟩ : ∃ c ∈ r, Text.isBlank c = false := by simpa using hblank
    have hnewline : '\n' ∈ Text.stripLeft r := by
      have hne : Text.stripLeft r ≠ [] := fun h => hblank (List.dropWhile_eq_nil_iff.1 h)
      obtain ⟨front, hfront⟩ : Text.stripLeft r <:+ r := List.dropWhile_suffix _
      rcases hr with rfl | hr
      · cases hc
      · rw [← hfront, List.getLast?_append_of_ne_nil _ hne] at hr
        exact List.mem_of_getLast? hr
    rw [continues, continues, Text.stripLeft_append_of_not_blank hc hb,
      Text.takeWhile_append_of_mem hnewline rfl]

/-! ## What follows a text -/

/-- The last segment of the segmentation ends at `stop`. -/
def Segmentation.EndsAt (cut : Segmentation) (stop : Nat) : Prop :=
  ∃ last, (Outline.segmentsOf cut.pieces).getLast? = some last ∧
    last.start + last.text.length = stop

/-- The last segment is the one in front, if no other follows. -/
theorem Segmentation.endsAt_segment {cut : Segmentation} {segment : Segment} {stop : Nat}
    (h : (cut.cons (.segment segment)).EndsAt stop) :
    cut.EndsAt stop ∨
      Outline.segmentsOf cut.pieces = [] ∧ segment.start + segment.text.length = stop := by
  obtain ⟨last, hlast, hstop⟩ := h
  have hcons : Outline.segmentsOf (cut.cons (.segment segment)).pieces =
      segment :: Outline.segmentsOf cut.pieces := rfl
  rw [hcons] at hlast
  cases hrest : Outline.segmentsOf cut.pieces with
  | nil =>
    rw [hrest] at hlast
    cases hlast
    exact .inr ⟨rfl, hstop⟩
  | cons other others =>
    rw [hrest, List.getLast?_cons_cons, ← hrest] at hlast
    exact .inl ⟨last, hlast, hstop⟩

/-- A segment that is read to an offset behind its start ends there. -/
theorem start_add_length_close {text : Text} {start stop : Nat} (h : start ≤ stop)
    (hstop : stop ≤ text.length) : start + (Text.slice text start stop).length = stop := by
  simp only [Text.slice, List.length_drop, List.length_take]
  omega

theorem stop?_append {S B past r : Text} {c : Char} (hB : continues B = false)
    (htext : past.reverse ++ c :: r = S ++ ['\n']) (start next : Nat) :
    Layout.module.stop? (S ++ ['\n'] ++ B) start past.length next c =
      Layout.module.stop? (S ++ ['\n']) start past.length next c := by
  have hlast : r = [] ∨ r.getLast? = some '\n' := by
    rcases eq_concat_of_append htext with ⟨hr, -⟩ | ⟨t, rfl, -⟩
    · exact .inl hr
    · exact .inr List.getLast?_concat
  have htake : (past.reverse ++ c :: r ++ B).take past.length =
      (past.reverse ++ c :: r).take past.length := by
    simp
  have hdrop : ∀ u, (past.reverse ++ c :: u).drop (past.length + 1) = u := by
    intro u
    simp [List.drop_append]
  have hends : endsBefore (Text.slice (S ++ ['\n'] ++ B) start past.length)
        ((S ++ ['\n'] ++ B).drop (past.length + 1)) =
      endsBefore (Text.slice (S ++ ['\n']) start past.length)
        ((S ++ ['\n']).drop (past.length + 1)) := by
    rw [← htext, Text.slice, Text.slice, htake, hdrop, List.append_assoc, List.cons_append, hdrop,
      endsBefore, endsBefore, continues_append hlast hB]
  simp only [Layout.stop?, hends]
  rfl

theorem stop?_module {text : Text} {start position next stop : Nat} {c : Char}
    (h : Layout.module.stop? text start position next c = some stop) :
    c = ';' ∧ stop = next ∨ c = '\n' ∧ stop = position := by
  unfold Layout.stop? at h
  split at h
  · rename_i hc
    cases h
    exact .inl ⟨beq_iff_eq.1 hc, rfl⟩
  split at h
  · rename_i hc
    cases hc
  split at h
  · rename_i hc
    split at h
    · cases h
      exact .inr ⟨beq_iff_eq.1 hc, rfl⟩
    · cases h
  · cases h

theorem stopAt_append {S B past r : Text} {c : Char} (hB : continues B = false)
    (htext : past.reverse ++ c :: r = S ++ ['\n']) (s s' : State) (start k : Nat) :
    stopAt .module (S ++ ['\n'] ++ B) s s' start past.length k c =
      stopAt .module (S ++ ['\n']) s s' start past.length k c := by
  rw [stopAt, stopAt, stop?_append hB htext]

/-- A unit that ends a statement is a semicolon or a newline outside everything, and it changes
nothing. -/
theorem stopAt_module {text past r : Text} {s s' : State} {start position k stop : Nat} {c : Char}
    (hstep : s.step past c r position = .ok (k, s'))
    (h : stopAt .module text s s' start position k c = some stop) :
    s.atTopLevel = true ∧ s = s' ∧ k = 1 ∧
      (c = ';' ∧ stop = position + 1 ∨ c = '\n' ∧ stop = position) := by
  unfold stopAt at h
  split at h
  · rename_i hguard
    rw [Bool.and_eq_true, beq_iff_eq] at hguard
    have hcode : s.inCode = true := by
      rw [State.inCode, hguard.1]
      rfl
    have hstop := stop?_module h
    have hplain : Plain c := by
      rcases hstop with ⟨rfl, -⟩ | ⟨rfl, -⟩ <;> decide
    rw [State.step_of_plain hcode hplain] at hstep
    cases hstep
    exact ⟨hguard.2, rfl, rfl, hstop⟩
  · cases h

theorem begins_append {S B past r : Text} {c : Char} {current : Option Reading}
    (htext : past.reverse ++ c :: r = S ++ ['\n']) (h : Begins .module current c r) :
    Begins .module current c (r ++ B) := by
  intro hcurrent
  obtain ⟨hblank, hsep, hline, hblock⟩ := h hcurrent
  have hlook : ∀ d, ['/', d].isPrefixOf (c :: (r ++ B)) = ['/', d].isPrefixOf (c :: r) := by
    intro d
    rcases eq_concat_of_append htext with ⟨rfl, rfl⟩ | ⟨t, rfl, -⟩
    · rfl
    · cases t <;> rfl
  exact ⟨hblank, hsep, (hlook '/').trans hline, (hlook '*').trans hblock⟩

/-- A segment that the end of the text ends goes beyond the last line. -/
theorem not_endsAt_nil {S A : Text} (hA : A = S ++ ['\n']) {current : Option Reading}
    {ending : Ending} (hstart : ∀ r, current = some r → r.start ≤ A.length) :
    ¬ Segmentation.EndsAt ⟨(current.map fun r => r.close A A.length).toList, ending⟩ S.length := by
  rintro ⟨last, hlast, hstop⟩
  cases current with
  | none => cases hlast
  | some r =>
    cases hlast
    have hclose : r.start + (Text.slice A r.start A.length).length = S.length := hstop
    rw [start_add_length_close (hstart r rfl) (Nat.le_refl _), hA, List.length_append] at hclose
    simp at hclose

theorem close_append {A : Text} {stop : Nat} (h : stop ≤ A.length) (r : Reading) (B : Text) :
    r.close (A ++ B) stop = r.close A stop := by
  rw [Reading.close, Reading.close, Text.slice, Text.slice, List.take_append_of_le_length h]

/-- Behind the line that a comment stands in. -/
theorem place_line {A past r : Text} {c : Char} (htext : past.reverse ++ c :: r = A) :
    ((c :: r.takeWhile (· != '\n')).reverse ++ past).reverse ++
      (c :: r).drop (c :: r.takeWhile (· != '\n')).length = A := by
  rw [← htext, List.length_cons, List.drop_succ_cons, Text.drop_length_takeWhile]
  simp

/-- A line comment ends with its line, whatever follows. -/
theorem segmentsFrom_line_append {S A : Text} {s : State} {pending : Option Text} {leading : Bool}
    {past r line : Text} {c : Char} {position : Nat} (htext : past.reverse ++ c :: r = S ++ ['\n'])
    (hopen : Opens .module "//".toList c r) (hline : line = c :: r.takeWhile (· != '\n'))
    (B : Text) :
    segmentsFrom .module A s none pending leading past (c :: r ++ B) position =
      (segmentsFrom .module A s none none leading (line.reverse ++ past)
        ((c :: r).drop line.length ++ B) (position + line.length)).prepend
          (if leading then [.header (Text.stripRight line)] else []) := by
  have hlong := hopen.append B
  obtain ⟨rfl, t, rfl⟩ := eq_of_delimiter '/' hopen.stands
  have hnewline : '\n' ∈ '/' :: t := by
    rcases eq_concat_of_append htext with ⟨h, -⟩ | ⟨u, hu, -⟩
    · cases h
    · rw [hu]
      simp
  have hle : line <+: '/' :: '/' :: t := by
    rw [hline]
    exact List.cons_prefix_cons.2 ⟨rfl, List.takeWhile_prefix _⟩
  have hsame : ('/' :: t ++ B).takeWhile (· != '\n') = ('/' :: t).takeWhile (· != '\n') :=
    Text.takeWhile_append_of_mem hnewline rfl B
  rw [List.cons_append, segmentsFrom_line hlong, hsame, ← hline, ← List.cons_append,
    List.drop_append_of_le_length hle.length_le]

/-- A block comment ends with its delimiter, whatever follows. -/
theorem segmentsFrom_block_append {A B : Text} {s : State} {pending : Option Text}
    {leading : Bool} {past r : Text} {c : Char} {position n : Nat}
    (hopen : Opens .module "/*".toList c r)
    (hn : Text.find? (r.drop 1) "*/".toList = some n) :
    n + 4 ≤ (c :: r).length ∧
      segmentsFrom .module (A ++ B) s none pending leading past (c :: r ++ B) position =
        segmentsFrom .module (A ++ B) s none (docOf ((c :: r).take (n + 4))) leading
          (((c :: r).take (n + 4)).reverse ++ past) ((c :: r).drop (n + 4) ++ B)
          (position + (n + 4)) := by
  have hlong := hopen.append B
  obtain ⟨rfl, t, rfl⟩ := eq_of_delimiter '*' hopen.stands
  have hfind : Text.find? t "*/".toList = some n := hn
  have hbound := (Text.findFrom_bounds hfind).2
  have hle : n + 4 ≤ ('/' :: '*' :: t).length := by
    simp only [List.length_cons]
    have : "*/".toList.length = 2 := rfl
    omega
  refine ⟨hle, ?_⟩
  have hsame : Text.find? (('*' :: t ++ B).drop 1) "*/".toList = some n :=
    Text.findFrom_append hfind B
  rw [List.cons_append, segmentsFrom_block hlong hsame, ← List.cons_append,
    List.take_append_of_le_length hle, List.drop_append_of_le_length hle]

/-- A unit that is read in front of the end of the last line is read alike with more text behind. -/
theorem step_append_of_newline {S past r : Text} {c : Char} (hS : S.getLast? ≠ some '\\')
    (htext : past.reverse ++ c :: r = S ++ ['\n']) {s s' : State} {position k : Nat}
    (hstep : s.step past c r position = .ok (k, s'))
    (hend : (c :: r).drop k = [] → s'.inCode = true) (B : Text) :
    s.step past c (r ++ B) position = .ok (k, s') ∧ k ≤ (c :: r).length :=
  State.step_append hstep hend fun _ => keepsSlash_of_newline hS htext B

theorem advancePast_append {past u B : Text} {k : Nat} (hk : k ≤ u.length) :
    advancePast past (u ++ B) k = advancePast past u k := by
  rw [advancePast, advancePast, List.take_append_of_le_length hk]

/-- A step leads to a place of the same text. -/
theorem text_advance {A past u : Text} (htext : past.reverse ++ u = A) (k : Nat) :
    (advancePast past u k).reverse ++ u.drop k = A := by
  rw [← htext]
  simp [advancePast]

theorem length_advance {past u : Text} {position k : Nat} (hposition : position = past.length)
    (hk : k ≤ u.length) : position + k = (advancePast past u k).length := by
  simp only [advancePast, List.length_append, List.length_reverse, List.length_take]
  omega

/-- A unit that is read in front of the end of the last line ends a segment with more text behind
exactly if it does without. -/
theorem segmentsFrom_read_append {S B : Text} (hS : S.getLast? ≠ some '\\')
    (hB : continues B = false) (pending : Option Text) (leading : Bool) {s s' : State}
    {current : Option Reading} {past r : Text} {c : Char} {k : Nat}
    (htext : past.reverse ++ c :: r = S ++ ['\n']) (hbegins : Begins .module current c r)
    (hstep : s.step past c r past.length = .ok (k, s'))
    (hend : (c :: r).drop k = [] → s'.inCode = true) :
    k ≤ (c :: r).length ∧
      segmentsFrom .module (S ++ ['\n'] ++ B) s current pending leading past (c :: r ++ B)
          past.length =
        match stopAt .module (S ++ ['\n']) s s'
            (readingAt current pending s s' c past.length).start past.length k c with
        | some stop =>
          (segmentsFrom .module (S ++ ['\n'] ++ B) s' none none false (advancePast past (c :: r) k)
            ((c :: r).drop k ++ B) (past.length + k)).prepend
              [(readingAt current pending s s' c past.length).close (S ++ ['\n'] ++ B) stop]
        | none =>
          segmentsFrom .module (S ++ ['\n'] ++ B) s'
            (some (readingAt current pending s s' c past.length)) none false
            (advancePast past (c :: r) k) ((c :: r).drop k ++ B) (past.length + k) := by
  obtain ⟨hlong, hk⟩ := step_append_of_newline hS htext hstep hend B
  have hread : segmentsFrom .module (S ++ ['\n'] ++ B) s current pending leading past
      (c :: (r ++ B)) past.length = _ := segmentsFrom_read (begins_append htext hbegins) hlong
  rw [stopAt_append hB htext, ← List.cons_append, advancePast_append hk,
    List.drop_append_of_le_length hk] at hread
  exact ⟨hk, hread⟩

/-- Behind a segment that ends with the last line there is nothing but white space. -/
theorem isBlank_behind_stop {S past r : Text} {c : Char} {stop : Nat}
    (htext : past.reverse ++ c :: r = S ++ ['\n'])
    (hc : c = ';' ∧ stop = past.length + 1 ∨ c = '\n' ∧ stop = past.length)
    (hstop : stop = S.length) : ∀ d ∈ r, Text.isBlank d = true := by
  rcases eq_concat_of_append htext with ⟨rfl, -⟩ | ⟨t, rfl, rfl⟩
  · simp
  · have ht : t = [] := by
      rw [List.length_append, List.length_reverse, List.length_cons] at hstop
      refine List.eq_nil_of_length_eq_zero ?_
      rcases hc with ⟨-, rfl⟩ | ⟨-, rfl⟩ <;> omega
    rw [ht]
    decide

/-- White space at the end of a text is skipped, with more text behind it or without. -/
theorem segmentsFrom_blank_append {A past r : Text} (hr : ∀ d ∈ r, Text.isBlank d = true)
    (htext : past.reverse ++ r = A) (s : State) (B : Text) :
    segmentsFrom .module A s none none false past r past.length = ⟨[], .finished s⟩ ∧
      segmentsFrom .module (A ++ B) s none none false past (r ++ B) past.length =
        segmentsFrom .module (A ++ B) s none none false A.reverse B A.length := by
  have hgap : ∀ d ∈ r, Text.isBlank d = true ∨ d ∈ Layout.module.separators :=
    fun d hd => .inl (hr d hd)
  constructor
  · rw [← List.append_nil r, segmentsFrom_gap hgap, segmentsFrom_nil]
    rfl
  · rw [segmentsFrom_gap hgap, ← htext]
    simp

/-- If `cut`, a segmentation of the lines `S`, comes to no fault and its last segment ends with the
last line, then `long` has the same pieces and goes on with `B` in code outside everything. -/
def Segmentation.Extended (S B : Text) (cut long : Segmentation) : Prop :=
  cut.ending.fault? = none → cut.EndsAt S.length →
    ∃ s : State, s.Coherent ∧ s.atTopLevel = true ∧
      long = (segmentsFrom .module (S ++ ['\n'] ++ B) s none none false (S ++ ['\n']).reverse B
        (S ++ ['\n']).length).prepend cut.pieces

namespace Segmentation.Extended

variable {S B past r : Text} {cut long : Segmentation} {s s' : State} {c : Char} {k : Nat}

theorem of_fault (h : cut.ending.fault? ≠ none) : Extended S B cut long :=
  fun hend => absurd hend h

/-- The end of the text ends no segment with the last line. -/
theorem nil {current : Option Reading} {ending : Ending}
    (hstart : ∀ r, current = some r → r.start ≤ (S ++ ['\n']).length) :
    Extended S B
      ⟨(current.map fun r => r.close (S ++ ['\n']) (S ++ ['\n']).length).toList, ending⟩ long :=
  fun _ hlast => absurd hlast (not_endsAt_nil rfl hstart)

/-- A line comment between two segments is no segment. -/
theorem header (h : Extended S B cut long) (leading : Bool) (line : Text) :
    Extended S B (cut.prepend (if leading then [.header line] else []))
      (long.prepend (if leading then [.header line] else [])) := by
  intro hend hlast
  obtain ⟨s, hs, htop, rfl⟩ := h hend (by cases leading <;> exact hlast)
  refine ⟨s, hs, htop, ?_⟩
  cases leading <;> rfl

/-- A segment ends, and there may be others behind it. -/
theorem stop (hs : s.Coherent) (htop : s.atTopLevel = true) {stop : Nat}
    (htext : past.reverse ++ c :: r = S ++ ['\n'])
    (hc : c = ';' ∧ stop = past.length + 1 ∨ c = '\n' ∧ stop = past.length) {reading : Reading}
    (hstart : reading.start ≤ past.length)
    (h : Extended S B
      (segmentsFrom .module (S ++ ['\n']) s none none false (c :: past) r (past.length + 1))
      (segmentsFrom .module (S ++ ['\n'] ++ B) s none none false (c :: past) (r ++ B)
        (past.length + 1))) :
    Extended S B
      ((segmentsFrom .module (S ++ ['\n']) s none none false (c :: past) r
        (past.length + 1)).prepend [reading.close (S ++ ['\n']) stop])
      ((segmentsFrom .module (S ++ ['\n'] ++ B) s none none false (c :: past) (r ++ B)
        (past.length + 1)).prepend [reading.close (S ++ ['\n'] ++ B) stop]) := by
  intro hend hlast
  have hbounds : reading.start ≤ stop ∧ stop ≤ (S ++ ['\n']).length := by
    rw [← htext, List.length_append, List.length_reverse, List.length_cons]
    rcases hc with ⟨-, rfl⟩ | ⟨-, rfl⟩ <;> omega
  rw [close_append hbounds.2]
  rcases endsAt_segment hlast with hlast | ⟨-, hlast⟩
  · obtain ⟨s', hs', htop', hothers⟩ := h hend hlast
    rw [hothers]
    exact ⟨s', hs', htop', rfl⟩
  · -- this was the last segment
    have hblank := isBlank_behind_stop htext hc
      ((start_add_length_close hbounds.1 hbounds.2).symm.trans hlast)
    have hrest : (c :: past).reverse ++ r = S ++ ['\n'] := by simpa using htext
    obtain ⟨hnothing, hskip⟩ := segmentsFrom_blank_append hblank hrest s B
    rw [← List.length_cons (a := c), hskip, hnothing]
    exact ⟨s, hs, htop, rfl⟩

/-- A segment goes on, and does not run into the end of the text. -/
theorem go (hS : S.getLast? ≠ some '\\') (hB : continues B = false)
    {current : Option Reading} {pending : Option Text} {leading : Bool}
    (htext : past.reverse ++ c :: r = S ++ ['\n'])
    (hstart : ∀ r, current = some r → r.start ≤ past.length)
    (hbegins : Begins .module current c r) (hstep : s.step past c r past.length = .ok (k, s'))
    (hstop : stopAt .module (S ++ ['\n']) s s'
      (readingAt current pending s s' c past.length).start past.length k c = none)
    (h : k ≤ (c :: r).length → Extended S B
      (segmentsFrom .module (S ++ ['\n']) s' (some (readingAt current pending s s' c past.length))
        none false (advancePast past (c :: r) k) ((c :: r).drop k) (past.length + k))
      (segmentsFrom .module (S ++ ['\n'] ++ B) s'
        (some (readingAt current pending s s' c past.length)) none false
        (advancePast past (c :: r) k) ((c :: r).drop k ++ B) (past.length + k))) :
    Extended S B
      (segmentsFrom .module (S ++ ['\n']) s current pending leading past (c :: r) past.length)
      (segmentsFrom .module (S ++ ['\n'] ++ B) s current pending leading past (c :: r ++ B)
        past.length) := by
  intro hend hlast
  rw [segmentsFrom_read hbegins hstep, hstop] at hend hlast ⊢
  have hnil : (c :: r).drop k = [] → s'.inCode = true := by
    intro hnil
    simp only [hnil, segmentsFrom_nil] at hlast
    refine absurd hlast (not_endsAt_nil rfl fun x hx => ?_)
    cases hx
    have hfirst := start_readingAt_le hstart pending s s' c
    have hle : past.length ≤ (S ++ ['\n']).length := by simp [← htext]
    omega
  obtain ⟨hk, hcut⟩ := segmentsFrom_read_append hS hB pending leading htext hbegins hstep hnil
  rw [hcut, hstop]
  exact h hk hend hlast

end Segmentation.Extended

/-- **What follows a text changes nothing in front of it**, if the last segment of the text ends
with its last line and is not continued. -/
theorem segmentsFrom_append {S B : Text} (hS : S.getLast? ≠ some '\\') (hB : continues B = false)
    (s : State) (current : Option Reading) (pending : Option Text) (leading : Bool)
    (past rest : Text) (position : Nat) (hs : s.Coherent)
    (htext : past.reverse ++ rest = S ++ ['\n']) (hposition : position = past.length)
    (hstart : ∀ r, current = some r → r.start ≤ position) :
    Segmentation.Extended S B
      (segmentsFrom .module (S ++ ['\n']) s current pending leading past rest position)
      (segmentsFrom .module (S ++ ['\n'] ++ B) s current pending leading past (rest ++ B)
        position) := by
  induction s, current, pending, leading, past, rest, position
    using segmentation_induction .module (S ++ ['\n']) with
  | nil s current pending leading past position =>
    rw [segmentsFrom_nil]
    refine .nil fun r hr => ?_
    rw [← htext, List.append_nil, List.length_reverse, ← hposition]
    exact hstart r hr
  | skip s pending leading past c r position hskip ih =>
    rw [segmentsFrom_skip hskip, List.cons_append, segmentsFrom_skip hskip]
    exact ih hs (by simpa using htext) (by simp [hposition]) (by simp)
  | line s pending leading past c r position hopen ih =>
    rw [segmentsFrom_line hopen, segmentsFrom_line_append htext hopen rfl]
    exact (ih hs (place_line htext) (by simp [hposition]; omega) (by simp)).header leading _
  | block s pending leading past c r position n hopen hn ih =>
    obtain ⟨hle, hcut⟩ := segmentsFrom_block_append hopen hn
    rw [segmentsFrom_block hopen hn, hcut]
    exact ih hs (text_advance htext _) (length_advance hposition hle) (by simp)
  | openBlock s pending leading past c r position hopen hn =>
    rw [segmentsFrom_openBlock hopen hn]
    exact .of_fault nofun
  | fault s current pending leading past c r position f hbegins hstep =>
    rw [segmentsFrom_fault hbegins hstep]
    exact .of_fault nofun
  | stop s current pending leading past c r position k s' stop hbegins hstep hstop ih =>
    obtain ⟨htop, rfl, rfl, hc⟩ := stopAt_module hstep hstop
    subst hposition
    obtain ⟨hk, hcut⟩ := segmentsFrom_read_append hS hB pending leading htext hbegins hstep
      fun _ => inCode_of_atTopLevel htop
    rw [segmentsFrom_read hbegins hstep, hcut, hstop]
    exact .stop hs htop htext hc (start_readingAt_le hstart pending s s c)
      (ih hs (text_advance htext 1) (length_advance rfl hk) (by simp))
  | go s current pending leading past c r position k s' hbegins hstep hstop ih =>
    subst hposition
    refine .go hS hB htext hstart hbegins hstep hstop fun hk => ?_
    refine ih (hs.step hstep) (text_advance htext k) (length_advance rfl hk) fun x hx => ?_
    cases hx
    exact Nat.le_add_right_of_le (start_readingAt_le hstart pending s s' c)

/-! ## What is in front of a text -/

/-- The segment at an offset moved by `n`. -/
def Segment.moved (n : Nat) (s : Segment) : Segment :=
  { s with start := n + s.start, ignored := s.ignored.map fun e => (e.1, n + e.2) }

/-- The segment that is being read, at an offset moved by `n`. -/
def Reading.moved (n : Nat) (r : Reading) : Reading :=
  { r with start := n + r.start, ignored := r.ignored.map fun e => (e.1, n + e.2) }

theorem slice_append_left (A B : Text) (i j : Nat) :
    Text.slice (A ++ B) (A.length + i) (A.length + j) = Text.slice B i j := by
  rw [Text.slice, Text.slice, List.take_length_add_append, List.drop_length_add_append]

theorem close_moved (A B : Text) (r : Reading) (stop : Nat) :
    (r.moved A.length).close (A ++ B) (A.length + stop) =
      .segment (Segment.moved A.length
        ⟨r.start, Text.slice B r.start stop, r.doc, r.ignored.reverse⟩) := by
  simp [Reading.close, Reading.moved, Segment.moved, slice_append_left]

/-- At the end of the text the segment that is being read goes up to there. -/
theorem close_map_moved (A B : Text) (current : Option Reading) :
    ((current.map (Reading.moved A.length)).map fun r =>
        r.close (A ++ B) (A ++ B).length).toList =
      (Outline.segmentsOf (current.map fun r => r.close B B.length).toList).map
        (.segment ∘ Segment.moved A.length) := by
  cases current with
  | none => rfl
  | some r =>
    rw [List.length_append]
    exact congrArg (fun p => [p]) (close_moved A B r B.length)

theorem stop?_moved (A B : Text) (start position next : Nat) (c : Char) :
    Layout.module.stop? (A ++ B) (A.length + start) (A.length + position) (A.length + next) c =
      (Layout.module.stop? B start position next c).map (A.length + ·) := by
  have hends : endsBefore (Text.slice (A ++ B) (A.length + start) (A.length + position))
        ((A ++ B).drop (A.length + position + 1)) =
      endsBefore (Text.slice B start position) (B.drop (position + 1)) := by
    rw [slice_append_left, Nat.add_assoc, List.drop_length_add_append]
  have hbrace : Layout.module.endsAtBrace = false := rfl
  simp only [Layout.stop?, hends, hbrace, Bool.false_and, Bool.false_eq_true, if_false]
  split
  · rfl
  split
  · split <;> rfl
  · rfl

/-- The segmentation `there` has the segments of `here`, moved by `n`, and no other pieces, and ends
with the same fault. -/
structure Segmentation.Moved (n : Nat) (here there : Segmentation) : Prop where
  /-- The segments. -/
  pieces : there.pieces = (Outline.segmentsOf here.pieces).map (.segment ∘ Segment.moved n)
  /-- The fault. -/
  fault : there.ending.fault? = here.ending.fault?.map (Fault.moved n)

theorem Segmentation.Moved.header {n : Nat} {here there : Segmentation} (h : Moved n here there)
    (leading : Bool) (line : Text) :
    Moved n (here.prepend (if leading then [.header line] else [])) there := by
  cases leading <;> exact ⟨h.pieces, h.fault⟩

theorem Segmentation.Moved.segment {n : Nat} {here there : Segmentation} (h : Moved n here there)
    (s : Segment) :
    Moved n (here.prepend [.segment s]) (there.prepend [.segment (s.moved n)]) := by
  refine ⟨?_, h.fault⟩
  show .segment (s.moved n) :: there.pieces = _
  rw [h.pieces]
  rfl

section

variable {A B : Text} {base : State}

theorem readingAt_moved (current : Option Reading) (pending : Option Text) (s s' : State) (c : Char)
    (position n : Nat) :
    readingAt (current.map (Reading.moved n)) pending (base.within n s) (base.within n s') c
        (n + position) =
      (readingAt current pending s s' c position).moved n := by
  have hclamped : (base.within n s').clamped = (base.within n s).clamped ↔ s'.clamped = s.clamped :=
    Nat.add_left_cancel_iff
  simp only [readingAt, hclamped]
  cases current <;> split <;> rfl

theorem stopAt_moved (htop : base.atTopLevel = true) {s s' : State} (hs : s.Coherent)
    (hs' : s'.Coherent) (start position k : Nat) (c : Char) :
    stopAt .module (A ++ B) (base.within A.length s) (base.within A.length s') (A.length + start)
        (A.length + position) k c =
      (stopAt .module B s s' start position k c).map (A.length + ·) := by
  rw [stopAt, stopAt, State.context_within_of_atTopLevel htop hs, State.atTopLevel_within htop hs',
    Nat.add_assoc, stop?_moved]
  split <;> rfl

theorem begins_moved {current : Option Reading} {n : Nat} {c : Char} {r : Text}
    (h : Begins .module current c r) : Begins .module (current.map (Reading.moved n)) c r := by
  intro hnone
  exact h (Option.map_eq_none_iff.1 hnone)

/-- A line that begins with a slash, and not with a comment, continues the one in front. -/
theorem continues_slash {past r : Text} (hpast : ∀ c ∈ past, Text.isBlank c = true)
    (hline : "//".toList.isPrefixOf ('/' :: r) = false)
    (hblock : "/*".toList.isPrefixOf ('/' :: r) = false) :
    continues (past.reverse ++ '/' :: r) = true := by
  have hstrip : Text.stripLeft (past.reverse ++ '/' :: r) = '/' :: r := by
    rw [Text.stripLeft_append_of_blank fun c hc => hpast c (List.mem_reverse.1 hc)]
    rfl
  rw [continues, hstrip]
  cases r with
  | nil => rfl
  | cons d r =>
    have hd : d ≠ '/' ∧ d ≠ '*' := by
      constructor
      · rintro rfl
        cases hline
      · rintro rfl
        cases hblock
    by_cases hn : d = '\n'
    · subst hn
      rfl
    · have htake : ('/' :: d :: r).takeWhile (· != '\n') = '/' :: d :: r.takeWhile (· != '\n') := by
        simp [hn]
      have hstart : Text.startsWithAny ('/' :: d :: r.takeWhile (· != '\n'))
          ["//".toList, "/*".toList] = false := by
        simp [Text.startsWithAny, List.isPrefixOf, Ne.symm hd.1, Ne.symm hd.2]
      rw [htake, hstart]
      simp [beginsContinuation, hd.1, hd.2]

/-- Whether a slash begins a regular expression literal is decided without what is in front of the
text, as a first line that begins with a slash would continue that. -/
theorem beginsAfter_of_begins (hA : A.reverse.head?.any Text.isIdentChar = false)
    (hB : continues B = false) {past r : Text} {current : Option Reading}
    (htext : past.reverse ++ '/' :: r = B)
    (hpast : current ≠ none → ∃ d ∈ past, RegexLiteral.isGap d = false)
    (hbegins : Begins .module current '/' r) :
    RegexLiteral.beginsAfter (past ++ A.reverse) = RegexLiteral.beginsAfter past := by
  by_cases hgap : ∃ d ∈ past, RegexLiteral.isGap d = false
  · obtain ⟨d, hd, hgap⟩ := hgap
    refine RegexLiteral.beginsAfter_append (fun hnil => ?_) hA
    rw [List.dropWhile_eq_nil_iff.1 hnil d hd] at hgap
    cases hgap
  · have hnone : current = none := by
      by_contra h
      exact hgap (hpast h)
    obtain ⟨-, -, hline, hblock⟩ := hbegins hnone
    have hblank : ∀ c ∈ past, Text.isBlank c = true := by
      intro c hc
      refine RegexLiteral.isBlank_of_isGap ?_
      by_contra h
      exact hgap ⟨c, hc, by simpa using h⟩
    rw [← htext, continues_slash hblank hline hblock] at hB
    cases hB

/-- A unit is read alike behind a text that is outside everything. -/
theorem step_moved (hA : A.reverse.head?.any Text.isIdentChar = false)
    (hB : continues B = false) (hbase : base.Coherent) (htop : base.atTopLevel = true) {s : State}
    (hs : s.Coherent) {past r : Text} {c : Char} {current : Option Reading}
    (htext : past.reverse ++ c :: r = B)
    (hpast : current ≠ none → ∃ d ∈ past, RegexLiteral.isGap d = false)
    (hbegins : Begins .module current c r) (position : Nat) :
    (base.within A.length s).step (past ++ A.reverse) c r (A.length + position) =
      ((s.step past c r position).map fun e => (e.1, base.within A.length e.2)).mapError
        (Fault.moved A.length) := by
  refine State.step_within hbase (inCode_of_atTopLevel htop) hs
    (State.keepsWithin_of_atTopLevel htop s c) ?_
  rintro rfl _
  exact beginsAfter_of_begins hA hB htext hpast hbegins

/-- Behind a unit of a segment something other than a gap was read. -/
theorem exists_not_gap {s s' : State} {past r : Text} {c : Char} {position k : Nat}
    {current : Option Reading} (hout : current = none → s.atTopLevel = true)
    (hpast : current ≠ none → ∃ d ∈ past, RegexLiteral.isGap d = false)
    (hbegins : Begins .module current c r) (hstep : s.step past c r position = .ok (k, s')) :
    ∃ d ∈ advancePast past (c :: r) k, RegexLiteral.isGap d = false := by
  by_cases hnone : current = none
  · have hk : 1 ≤ k := by
      rw [State.step_of_inCode (inCode_of_atTopLevel (hout hnone))] at hstep
      exact State.one_le_of_stepCode (Except.ok.inj hstep)
    refine ⟨c, ?_, ?_⟩
    · obtain ⟨n, rfl⟩ := Nat.exists_eq_add_of_le' hk
      simp [advancePast]
    · by_contra h
      have hblank := (hbegins hnone).1
      rw [RegexLiteral.isBlank_of_isGap (by simpa using h)] at hblank
      cases hblank
  · obtain ⟨d, hd, hgap⟩ := hpast hnone
    exact ⟨d, List.mem_append_right _ hd, hgap⟩

/-- A unit that is read behind such a text ends a segment exactly if it does on its own. -/
theorem segmentsFrom_read_moved (hA : A.reverse.head?.any Text.isIdentChar = false)
    (hB : continues B = false) (hbase : base.Coherent) (htop : base.atTopLevel = true)
    {s s' : State} (hs : s.Coherent) {past r : Text} {c : Char} {current : Option Reading}
    (htext : past.reverse ++ c :: r = B)
    (hpast : current ≠ none → ∃ d ∈ past, RegexLiteral.isGap d = false)
    (hbegins : Begins .module current c r) {position k : Nat}
    (hstep : s.step past c r position = .ok (k, s')) (pending : Option Text) (leading : Bool) :
    segmentsFrom .module (A ++ B) (base.within A.length s) (current.map (Reading.moved A.length))
        pending leading (past ++ A.reverse) (c :: r) (A.length + position) =
      match stopAt .module B s s' (readingAt current pending s s' c position).start position k
          c with
      | some stop =>
        (segmentsFrom .module (A ++ B) (base.within A.length s') none none false
          (advancePast past (c :: r) k ++ A.reverse) ((c :: r).drop k)
            (A.length + (position + k))).prepend
              [((readingAt current pending s s' c position).moved A.length).close (A ++ B)
                (A.length + stop)]
      | none =>
        segmentsFrom .module (A ++ B) (base.within A.length s')
          (some ((readingAt current pending s s' c position).moved A.length)) none false
          (advancePast past (c :: r) k ++ A.reverse) ((c :: r).drop k)
          (A.length + (position + k)) := by
  have hmoved := step_moved hA hB hbase htop hs htext hpast hbegins position
  rw [hstep] at hmoved
  have hthere : stopAt .module (A ++ B) (base.within A.length s) (base.within A.length s')
        ((readingAt current pending s s' c position).moved A.length).start (A.length + position) k
        c =
      (stopAt .module B s s' (readingAt current pending s s' c position).start position k c).map
        (A.length + ·) :=
    stopAt_moved htop hs (hs.step hstep) ..
  rw [segmentsFrom_read (begins_moved hbegins) hmoved, readingAt_moved, hthere]
  simp only [advancePast, List.append_assoc, Nat.add_assoc]
  cases stopAt .module B s s' (readingAt current pending s s' c position).start position k c <;> rfl

/-- **What is in front of a text changes nothing in it**, offsets apart, if it is outside everything
and the text does not continue it. -/
theorem segmentsFrom_within (hA : A.reverse.head?.any Text.isIdentChar = false)
    (hB : continues B = false) (hbase : base.Coherent) (htop : base.atTopLevel = true) (s : State)
    (current : Option Reading) (pending : Option Text) (leading : Bool) (past rest : Text)
    (position : Nat) (hs : s.Coherent) (htext : past.reverse ++ rest = B)
    (hout : current = none → s.atTopLevel = true)
    (hpast : current ≠ none → ∃ d ∈ past, RegexLiteral.isGap d = false) :
    Segmentation.Moved A.length
      (segmentsFrom .module B s current pending leading past rest position)
      (segmentsFrom .module (A ++ B) (base.within A.length s) (current.map (Reading.moved A.length))
        pending false (past ++ A.reverse) rest (A.length + position)) := by
  induction s, current, pending, leading, past, rest, position
    using segmentation_induction .module B with
  | nil s current pending leading past position =>
    rw [segmentsFrom_nil, segmentsFrom_nil]
    exact ⟨close_map_moved A B current, State.finish_within hbase htop hs⟩
  | skip s pending leading past c r position hskip ih =>
    rw [segmentsFrom_skip hskip, Option.map_none, segmentsFrom_skip hskip]
    exact ih hs (by simpa using htext) hout (fun h => absurd rfl h)
  | line s pending leading past c r position hopen ih =>
    rw [segmentsFrom_line hopen, Option.map_none, segmentsFrom_line hopen]
    have hnext := ih hs (place_line htext) hout (fun h => absurd rfl h)
    rw [List.append_assoc, ← Nat.add_assoc] at hnext
    exact hnext.header leading _
  | block s pending leading past c r position n hopen hn ih =>
    rw [segmentsFrom_block hopen hn, Option.map_none, segmentsFrom_block hopen hn]
    have hnext := ih hs (text_advance htext (n + 4)) hout (fun h => absurd rfl h)
    rw [List.append_assoc, ← Nat.add_assoc A.length] at hnext
    exact hnext
  | openBlock s pending leading past c r position hopen hn =>
    rw [segmentsFrom_openBlock hopen hn, Option.map_none, segmentsFrom_openBlock hopen hn]
    exact ⟨rfl, rfl⟩
  | fault s current pending leading past c r position f hbegins hstep =>
    have hmoved := step_moved hA hB hbase htop hs htext hpast hbegins position
    rw [hstep] at hmoved
    rw [segmentsFrom_fault hbegins hstep, segmentsFrom_fault (begins_moved hbegins) hmoved]
    exact ⟨rfl, rfl⟩
  | stop s current pending leading past c r position k s' stop hbegins hstep hstop ih =>
    rw [segmentsFrom_read hbegins hstep,
      segmentsFrom_read_moved hA hB hbase htop hs htext hpast hbegins hstep, hstop]
    simp only [close_moved]
    obtain ⟨htop', rfl, -⟩ := stopAt_module hstep hstop
    exact (ih hs (text_advance htext k) (fun _ => htop') (fun h => absurd rfl h)).segment _
  | go s current pending leading past c r position k s' hbegins hstep hstop ih =>
    rw [segmentsFrom_read hbegins hstep,
      segmentsFrom_read_moved hA hB hbase htop hs htext hpast hbegins hstep, hstop]
    exact ih (hs.step hstep) (text_advance htext k) (fun h => by cases h)
      (fun _ => exists_not_gap hout hpast hbegins hstep)

end

/-- Behind a place outside everything a text is cut as on its own. -/
theorem moved_segmentsFrom {A B : Text} {base : State} (hbase : base.Coherent)
    (htop : base.atTopLevel = true) (hA : A.reverse.head?.any Text.isIdentChar = false)
    (hB : continues B = false) (pending : Option Text) :
    Segmentation.Moved A.length (segmentsFrom .module B {} none pending true [] B 0)
      (segmentsFrom .module (A ++ B) base none pending false A.reverse B A.length) := by
  have hmoved := segmentsFrom_within hA hB hbase htop {} none pending true [] B 0 .fresh rfl
    (fun _ => rfl) (fun h => absurd rfl h)
  rwa [State.within_neutral .fresh rfl rfl rfl] at hmoved

/-- The character at the end of a line is part of no name. -/
theorem head?_reverse_line (t : Text) :
    (t ++ ['\n']).reverse.head?.any Text.isIdentChar = false := by
  rw [List.reverse_append]
  show Text.isIdentChar '\n' = false
  decide

/-- **Two texts are cut one after the other**, if the last segment of the first one ends with its
last line and the second one does not continue it. -/
theorem segments_append {S B A : Text} (hA : A = S ++ ['\n']) (hS : S.getLast? ≠ some '\\')
    (hB : continues B = false) (hend : (segments .module A).ending.fault? = none)
    (hlast : (segments .module A).EndsAt S.length) :
    ∃ there, Segmentation.Moved A.length (segments .module B) there ∧
      segments .module (A ++ B) = there.prepend (segments .module A).pieces := by
  subst hA
  obtain ⟨s, hs, htop, hcut⟩ := segmentsFrom_append hS hB {} none none true [] (S ++ ['\n']) 0
    .fresh rfl rfl nofun hend hlast
  exact ⟨_, moved_segmentsFrom hs htop (head?_reverse_line S) hB none, hcut⟩

end ModuleSurface.Statement
