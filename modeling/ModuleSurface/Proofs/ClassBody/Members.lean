import ModuleSurface.Proofs.ClassBody.Captured
import ModuleSurface.Proofs.ClassBody.Ending

/-!
# Class bodies from member texts

A class body with one member text after the other, each on lines of its own, is cut into these
members: `splitMembers_bodyOf`.  A member text must not end before its end (`IsMember`), a final
semicolon behind a curly bracket apart, and behind a member without a semicolon the next one must
not begin like a continuation.
-/

namespace ModuleSurface.ClassBody

open ModuleSurface.Lexing
open ModuleSurface.Lexing.Cursor
open ModuleSurface.Statement

/-! ## Member texts -/

/-- Is the unit a closing curly bracket with nothing but a semicolon behind it? -/
def hasSemicolonBehind (v : Visit) : Bool :=
  v.char == '}' && Text.strip v.rest == [';']

/-- Can a member begin with the character?  The words that modify a member are identifiers. -/
def beginsMember (c : Char) : Bool :=
  Text.isIdentChar c || "*#['\"".toList.contains c

/-- The character stands at the end of the text, as a unit of its own code. -/
def EndsIn (c : Char) (t : Text) : Prop :=
  ∃ v ∈ visits t, v.char = c ∧ v.rest = []

instance (c : Char) (t : Text) : Decidable (EndsIn c t) :=
  inferInstanceAs (Decidable (∃ v ∈ visits t, v.char = c ∧ v.rest = []))

/-- A text that is one member. -/
structure IsMember (m : Text) : Prop where
  /-- Everything that begins in it ends in it. -/
  closed : Closed m
  /-- It has no white space at its ends. -/
  stripped : Text.strip m = m
  /-- It begins like a member. -/
  head : m.head?.any beginsMember = true
  /-- It ends nowhere before its end, a final semicolon apart. -/
  whole : ∀ v ∈ visits m, endsMember [] v = true → v.rest = [] ∨ hasSemicolonBehind v = true
  /-- A semicolon, a curly bracket or a complete line ends it. -/
  ending : EndsIn ';' m ∨ EndsIn '}' m ∨ isIncomplete m = false ∧ m.getLast? ≠ some '\\'

instance (m : Text) : Decidable (IsMember m) :=
  decidable_of_iff
    (Closed m ∧ Text.strip m = m ∧ m.head?.any beginsMember = true ∧
      (∀ v ∈ visits m, endsMember [] v = true → v.rest = [] ∨ hasSemicolonBehind v = true) ∧
      (EndsIn ';' m ∨ EndsIn '}' m ∨ isIncomplete m = false ∧ m.getLast? ≠ some '\\'))
    ⟨fun ⟨h₁, h₂, h₃, h₄, h₅⟩ => ⟨h₁, h₂, h₃, h₄, h₅⟩, fun h =>
      ⟨h.closed, h.stripped, h.head, h.whole, h.ending⟩⟩

/-- What a member text is read as: a semicolon behind a curly bracket that ends the member belongs
to no member. -/
def written (m : Text) : Text :=
  match (visits m).find? hasSemicolonBehind with
  | some v => m.take (v.index + 1)
  | none => m

/-- The class body with the given member texts, each on lines of its own. -/
def bodyOf (ms : List Text) : Text :=
  "\x7b\n".toList ++ Text.join ['\n'] ms ++ "\n\x7d".toList

/-- No member begins with white space or with a sign that separates members, closes a block or may
begin a comment. -/
theorem not_sign_of_beginsMember {c : Char} (h : beginsMember c = true) :
    Text.isBlank c = false ∧ c ∉ [';', ',', '}', '/'] := by
  rw [beginsMember, Bool.or_eq_true, List.contains_iff_mem] at h
  rcases h with h | h
  · refine ⟨Text.isBlank_of_isIdentChar h, fun hc => ?_⟩
    have hnone : ∀ d ∈ [';', ',', '}', '/'], Text.isIdentChar d = false := by decide
    rw [hnone c hc] at h
    cases h
  · have hall : ∀ d ∈ "*#['\"".toList, Text.isBlank d = false ∧ d ∉ [';', ',', '}', '/'] := by
      decide
    exact hall c h

/-! ## What is behind a member -/

section

variable {m outer more : Text} {v : Visit}

theorem EndsIn.getLast? {c : Char} (h : EndsIn c m) : m.getLast? = some c := by
  obtain ⟨v, hv, rfl, hrest⟩ := h
  exact getLast?_of_mem_visits hv hrest

/-- Behind a curly bracket with a semicolon behind it stand white space and semicolons. -/
theorem mem_rest_of_hasSemicolonBehind (h : hasSemicolonBehind v = true) :
    ∀ c ∈ v.rest, Text.isBlank c = true ∨ c = ';' := by
  intro c hc
  by_contra hnot
  rw [not_or, Bool.not_eq_true] at hnot
  have hmem := Text.mem_stripRight hnot.1 (Text.mem_stripLeft hnot.1 hc)
  rw [hasSemicolonBehind, Bool.and_eq_true, beq_iff_eq, beq_iff_eq, Text.strip] at h
  rw [h.2, List.mem_singleton] at hmem
  exact hnot.2 hmem

theorem plain_of_blank_or_semicolon {t : Text} (h : ∀ c ∈ t, Text.isBlank c = true ∨ c = ';') :
    ∀ c ∈ t, Plain c := by
  intro c hc
  rcases h c hc with hblank | rfl
  · exact plain_of_isBlank hblank
  · decide

/-- White space and semicolons behind a unit that ends a member are skipped with the line. -/
theorem segmentsFrom_restOfLine (hv : v ∈ visits m)
    (hrest : ∀ c ∈ v.rest, Text.isBlank c = true ∨ c = ';') (text outer more : Text) :
    segmentsFrom .classBody text {} none none false (v.char :: (v.past ++ outer))
        (v.rest ++ '\n' :: more) (outer.length + v.index + 1) =
      segmentsFrom .classBody text {} none none false ('\n' :: (m.reverse ++ outer)) more
        (outer.length + m.length + 1) := by
  have hgap : ∀ c ∈ v.rest ++ ['\n'], Text.isBlank c = true ∨ c ∈ Layout.classBody.separators := by
    intro c hc
    rcases List.mem_append.1 hc with hc | hc
    · exact (hrest c hc).imp_right fun h => by rw [h]; decide
    · rw [List.mem_singleton.1 hc]
      decide
  have hpast : (v.rest ++ ['\n']).reverse ++ v.char :: (v.past ++ outer) =
      '\n' :: (m.reverse ++ outer) := by
    rw [← (placed_of_mem_visits hv).1]
    simp
  have hposition : outer.length + v.index + 1 + (v.rest ++ ['\n']).length =
      outer.length + m.length + 1 := by
    rw [length_of_mem_visits hv, List.length_append, List.length_singleton]
    omega
  have hline : v.rest ++ '\n' :: more = v.rest ++ ['\n'] ++ more := by simp
  rw [hline, segmentsFrom_gap hgap, hpast, hposition]

namespace IsMember

/-- A unit with something behind it has more than white space behind it. -/
theorem exists_not_blank (hm : IsMember m) (hv : v ∈ visits m) (hrest : v.rest ≠ []) :
    ∃ c ∈ v.rest, Text.isBlank c = false := by
  have hlast : m.getLast? = v.rest.getLast? := by
    rw [← (placed_of_mem_visits hv).1, List.getLast?_append, List.getLast?_cons]
    cases h : v.rest.getLast? with
    | none => exact absurd (List.getLast?_eq_none_iff.1 h) hrest
    | some c => rfl
  have hmem := List.getLast?_eq_some_getLast hrest
  exact ⟨_, List.getLast_mem hrest,
    Text.isBlank_getLast_of_strip hm.stripped (hlast.trans hmem)⟩

theorem not_newline (hm : IsMember m) (hv : v ∈ visits m) (hrest : v.rest = []) :
    v.char ≠ '\n' := by
  intro hc
  have hblank := Text.isBlank_getLast_of_strip hm.stripped (getLast?_of_mem_visits hv hrest)
  rw [hc] at hblank
  cases hblank

/-- What follows the text of a member matters for its last unit only. -/
theorem endsMember_append (hm : IsMember m) (hv : v ∈ visits m) (hrest : v.rest ≠ [])
    (more : Text) :
    endsMember ('\n' :: more) v = endsMember [] v := by
  obtain ⟨c, hc, hblank⟩ := hm.exists_not_blank hv hrest
  simp only [endsMember, endsBefore, continues_append_newline hc hblank, List.append_nil]

/-- Where a member does not end on its own, it does not end with more text behind it either. -/
theorem endsMember_append_eq_false (hm : IsMember m) (hv : v ∈ visits m)
    (h : endsMember [] v = false) (more : Text) : endsMember ('\n' :: more) v = false := by
  by_cases hrest : v.rest = []
  · have hnewline := hm.not_newline hv hrest
    have hcontinues : continues [] = false := rfl
    simp only [endsMember, hrest, List.append_nil, hcontinues] at h ⊢
    cases htop : v.behind.atTopLevel with
    | false => rfl
    | true =>
      simp only [htop, Bool.true_and, Bool.not_false, Bool.and_true, Bool.or_eq_false_iff] at h
      simp [h, hnewline]
  · rw [hm.endsMember_append hv hrest, h]

/-- The state behind a unit with nothing but plain characters behind it is outside everything. -/
theorem atTopLevel_behind (hm : IsMember m) (hv : v ∈ visits m)
    (hchar : v.char = '}' ∨ Plain v.char) (hrest : ∀ c ∈ v.rest, Plain c) :
    v.behind.atTopLevel = true := by
  have hneutral := Visit.within_behind hm.closed hv hchar hrest {} 0
  have hwithin : (State.within {} 0 v.behind).atTopLevel = v.behind.atTopLevel :=
    State.atTopLevel_within rfl (Visit.coherent_behind hv)
  rw [← hwithin, hneutral]
  rfl

/-- A curly bracket with a semicolon behind it ends the member. -/
theorem endsMember_of_hasSemicolonBehind (hm : IsMember m) (hv : v ∈ visits m)
    (h : hasSemicolonBehind v = true) : endsMember [] v = true := by
  have hboth := h
  rw [hasSemicolonBehind, Bool.and_eq_true, beq_iff_eq, beq_iff_eq] at hboth
  have hplain := plain_of_blank_or_semicolon (mem_rest_of_hasSemicolonBehind h)
  have htop := hm.atTopLevel_behind hv (.inl hboth.1) hplain
  have hcontinues : continues v.rest = false := by
    cases hstrip : Text.stripLeft v.rest with
    | nil =>
      rw [Text.strip, hstrip] at hboth
      cases hboth.2
    | cons c u =>
      have hmem : c ∈ v.rest := (List.dropWhile_suffix _).subset (hstrip ▸ List.mem_cons_self)
      have hblank : Text.isBlank c = false := by
        have hhead := List.head?_dropWhile_not Text.isBlank v.rest
        rw [show v.rest.dropWhile Text.isBlank = c :: u from hstrip] at hhead
        simpa using hhead
      rcases mem_rest_of_hasSemicolonBehind h c hmem with hb | rfl
      · rw [hblank] at hb
        cases hb
      · exact continues_of_stripLeft hstrip
  simp [endsMember, htop, hboth.1, hcontinues]

/-! ## Reading a member -/

theorem exists_head (hm : IsMember m) :
    ∃ c r, m = c :: r ∧ Text.isBlank c = false ∧ c ∉ [';', ',', '}', '/'] := by
  obtain ⟨c, hc, hbegins⟩ := (Option.any_eq_true _ _).1 hm.head
  obtain ⟨r, rfl⟩ : ∃ r, m = c :: r := List.head?_eq_some_iff.1 hc
  exact ⟨c, r, rfl, not_sign_of_beginsMember hbegins⟩

/-- Behind the line in front of it a member is read as on its own. -/
theorem reads (hm : IsMember m) (houter : outer.head? = some '\n') (more : Text) :
    Reads {} outer m ('\n' :: more) outer.length
      ((visits m).map (Visit.lift {} outer.length outer ('\n' :: more))) := by
  have hlast : m.getLast? ≠ some '\\' := by
    rcases hm.ending with h | h | h
    · rw [h.getLast?]
      decide
    · rw [h.getLast?]
      decide
    · exact h.2
  obtain ⟨c, r, rfl, hblank, hc⟩ := hm.exists_head
  have hgap : RegexLiteral.isGap c = false := by
    rw [Bool.eq_false_iff]
    intro hgap
    rw [RegexLiteral.isBlank_of_isGap hgap] at hblank
    cases hblank
  have hslash : c ≠ '/' := by
    rintro rfl
    exact hc (by decide)
  have hident : outer.head?.any Text.isIdentChar = false := by
    rw [houter]
    decide
  exact Reads.of_closed hm.closed .fresh rfl
    (keepsSlashes_of_head hgap hslash hident (by simp) (bars_newline hlast more)) _

/-- A member begins a segment. -/
theorem begins {c : Char} {r : Text} (hm : IsMember (c :: r)) (more : Text) :
    Begins .classBody none c (r ++ more) := by
  obtain ⟨d, t, hd, hblank, hsigns⟩ := hm.exists_head
  cases hd
  simp only [List.mem_cons, List.not_mem_nil, or_false, not_or] at hsigns
  obtain ⟨hsemicolon, hcomma, -, hslash⟩ := hsigns
  have hcomment : ∀ e : Char, ['/', e].isPrefixOf (c :: (r ++ more)) = false := by
    intro e
    simp [List.isPrefixOf, Ne.symm hslash]
  have hseparator : c ∉ Layout.classBody.separators := by
    simp [Layout.classBody, hsemicolon, hcomma]
  exact fun _ => ⟨hblank, hseparator, hcomment '/', hcomment '*'⟩

/-- Up to the first unit that ends it a member goes on. -/
theorem goesOn {ps : List Cursor} {vs : List Visit} (hm : IsMember m)
    (hps : ps.filterMap visit? = vs.map (Visit.lift {} outer.length outer ('\n' :: more)))
    (hmem : ∀ v ∈ vs, v ∈ visits m) (hvs : ∀ v ∈ vs, endsMember [] v = false) :
    ∀ p ∈ ps, GoesOn .classBody (outer.reverse ++ (m ++ '\n' :: more)) outer.length p := by
  intro p hp c r k s' hrest hstep
  obtain ⟨s, past, rest, position⟩ := p
  subst hrest
  rw [stopAt_classBody hstep]
  cases hv : visit? ⟨s, past, c :: r, position⟩ with
  | none => rfl
  | some w =>
    have hw : w ∈ ps.filterMap visit? := List.mem_filterMap.2 ⟨_, hp, hv⟩
    rw [hps] at hw
    obtain ⟨v, hmemv, rfl⟩ := List.mem_map.1 hw
    have hends := hm.endsMember_append_eq_false (hmem v hmemv) (hvs v hmemv) more
    rw [Option.bind_some, stop?_lift (hmem v hmemv), hends]
    rfl

/-- A member is read up to the first unit that ends it. -/
theorem segmentsFrom_to {vs₁ vs₂ : List Visit} {text : Text} (hm : IsMember m)
    (houter : outer.head? = some '\n') (htext : outer.reverse ++ (m ++ '\n' :: more) = text)
    (hvisits : visits m = vs₁ ++ v :: vs₂) (hbefore : ∀ u ∈ vs₁, endsMember [] u = false)
    (hchar : v.char = '}' ∨ v.char = ';') (leading : Bool) :
    visit? ⟨State.within {} outer.length v.state, v.past ++ outer,
        v.char :: (v.rest ++ '\n' :: more), outer.length + v.index⟩ =
          some (v.lift {} outer.length outer ('\n' :: more)) ∧
      segmentsFrom .classBody text {} none none leading outer (m ++ '\n' :: more) outer.length =
        segmentsFrom .classBody text (State.within {} outer.length v.state)
          (some ⟨outer.length, none, []⟩) none false (v.past ++ outer)
          (v.char :: (v.rest ++ '\n' :: more)) (outer.length + v.index) := by
  have hv : v ∈ visits m := by simp [hvisits]
  have hall := (hm.reads houter more).visits_eq
  rw [hvisits, List.map_append, List.map_cons, List.append_assoc, List.cons_append] at hall
  obtain ⟨ps, q, hrun, hps, hq, -⟩ :=
    exists_run_of_visits (p := ⟨{}, outer, m ++ '\n' :: more, outer.length⟩) hall
  obtain ⟨rfl, -⟩ := visit?_eq_some hq
  refine ⟨hq, ?_⟩
  have hgoes := hm.goesOn hps (fun u hu => by simp [hvisits, hu]) hbefore
  rw [htext] at hgoes
  obtain ⟨c, r, rfl, -, hc⟩ := hm.exists_head
  refine segmentsFrom_run_start hrun (fun h => ?_) ?_ hgoes (hm.begins _)
  · -- no member begins with a unit that ends one
    have hhead : v.char = c := (List.cons.inj h).1
    rw [← hhead] at hc
    rcases hchar with h | h <;> rw [h] at hc <;> exact hc (by decide)
  · show 0 + v.state.clamped ≤ 0
    rw [hm.closed.clamped_of_mem_visits hv]

/-- **A member is read up to the first unit that ends it**, and what is left of its line is
skipped. -/
theorem segmentsFrom_of_end {vs₁ vs₂ : List Visit} {text : Text} (hm : IsMember m)
    (houter : outer.head? = some '\n') (htext : outer.reverse ++ (m ++ '\n' :: more) = text)
    (hvisits : visits m = vs₁ ++ v :: vs₂) (hbefore : ∀ u ∈ vs₁, endsMember [] u = false)
    (hends : endsMember ('\n' :: more) v = true) (hchar : v.char = '}' ∨ v.char = ';')
    (hrest : ∀ c ∈ v.rest, Text.isBlank c = true ∨ c = ';') (leading : Bool) :
    segmentsFrom .classBody text {} none none leading outer (m ++ '\n' :: more) outer.length =
      (segmentsFrom .classBody text {} none none false ('\n' :: (m.reverse ++ outer)) more
        (outer.length + m.length + 1)).prepend
          [.segment ⟨outer.length, m.take (v.index + 1), none, []⟩] := by
  have hv : v ∈ visits m := by simp [hvisits]
  have hsign : v.char = '}' ∨ Plain v.char := hchar.imp_right fun h => by rw [h]; decide
  obtain ⟨hvisit, hstart⟩ := hm.segmentsFrom_to houter htext hvisits hbefore hchar leading
  have hbehind : (v.lift {} outer.length outer ('\n' :: more)).behind = {} := by
    rw [Visit.behind_lift (coherent_of_mem_visits hv),
      Visit.within_behind hm.closed hv hsign (plain_of_blank_or_semicolon hrest)]
  have hclamped : (v.lift {} outer.length outer ('\n' :: more)).behind.clamped =
      (v.lift {} outer.length outer ('\n' :: more)).state.clamped := by
    rw [hbehind]
    show 0 = 0 + v.state.clamped
    rw [hm.closed.clamped_of_mem_visits hv]
  have hstop : stop? text outer.length (v.lift {} outer.length outer ('\n' :: more)) =
      some (outer.length + (v.index + 1)) := by
    have hnewline : v.char ≠ '\n' := by
      rcases hchar with h | h <;> rw [h] <;> decide
    rw [← htext, stop?_lift hv, if_pos hends, if_neg hnewline]
  have hclose := segmentsFrom_visit (v := v.lift {} outer.length outer ('\n' :: more))
    ⟨outer.length, none, []⟩ hvisit hsign hclamped hstop
  have hindex : v.index + 1 ≤ m.length := by
    rw [length_of_mem_visits hv]
    omega
  have hskip := segmentsFrom_restOfLine hv hrest text outer more
  refine hstart.trans (hclose.trans ?_)
  rw [hbehind]
  refine (congrArg (Segmentation.prepend _) hskip).trans ?_
  rw [Reading.close, ← htext, slice_inner hindex]
  rfl

/-- **A member without a unit that ends it is read up to the end of its line**, if it is complete
there and does not go on behind. -/
theorem segmentsFrom_of_line {text : Text} (hm : IsMember m) (houter : outer.head? = some '\n')
    (htext : outer.reverse ++ (m ++ '\n' :: more) = text)
    (hgoes : ∀ v ∈ visits m, endsMember [] v = false) (hcomplete : isIncomplete m = false)
    (hmore : continues more = false) (leading : Bool) :
    segmentsFrom .classBody text {} none none leading outer (m ++ '\n' :: more) outer.length =
      (segmentsFrom .classBody text {} none none false ('\n' :: (m.reverse ++ outer)) more
        (outer.length + m.length + 1)).prepend [.segment ⟨outer.length, m, none, []⟩] := by
  obtain ⟨ps, hrun, hps⟩ := hm.reads houter more
  have hrungoes := hm.goesOn hps (fun v hv => hv) hgoes
  rw [htext] at hrungoes
  have hslice : Text.slice text outer.length (outer.length + m.length) = m := by
    rw [← htext, slice_inner (Nat.le_refl _), List.take_length]
  have hdrop : text.drop (outer.length + m.length + 1) = more := by
    have hdrop := drop_inner (m := m ++ ['\n']) (n := m.length + 1) (by simp) outer more
    rw [List.append_assoc, List.singleton_append, htext, ← Nat.add_assoc] at hdrop
    rw [hdrop]
    simp
  have hends : endsBefore (Text.slice text outer.length (outer.length + m.length))
      (text.drop (outer.length + m.length + 1)) = true := by
    rw [hslice, hdrop, endsBefore, hcomplete, hmore]
    rfl
  have hstart : segmentsFrom .classBody text {} none none leading outer (m ++ '\n' :: more)
        outer.length =
      segmentsFrom .classBody text {} (some ⟨outer.length, none, []⟩) none false
        (m.reverse ++ outer) ('\n' :: more) (outer.length + m.length) := by
    obtain ⟨c, r, rfl, -⟩ := hm.exists_head
    refine segmentsFrom_run_start hrun (fun h => ?_) (Nat.le_refl _) hrungoes (hm.begins _)
    have hlength := congrArg List.length h
    simp at hlength
    omega
  rw [hstart, segmentsFrom_newline ⟨outer.length, none, []⟩ rfl hends, Reading.close, hslice]
  rfl

/-! ## What a member is read as -/

/-- A member that ends nowhere before its end is read as it is. -/
theorem written_of_goesOn (hm : IsMember m) (hgoes : ∀ v ∈ visits m, endsMember [] v = false) :
    written m = m := by
  have hnone : (visits m).find? hasSemicolonBehind = none := by
    refine List.find?_eq_none.2 fun v hv hbehind => ?_
    have hends := hm.endsMember_of_hasSemicolonBehind hv hbehind
    rw [hgoes v hv] at hends
    cases hends
  rw [written, hnone]

/-- A member is read up to the first unit that ends it. -/
theorem written_of_end {vs₁ vs₂ : List Visit} (hm : IsMember m)
    (hvisits : visits m = vs₁ ++ v :: vs₂) (hbefore : ∀ u ∈ vs₁, endsMember [] u = false)
    (hends : endsMember [] v = true) : written m = m.take (v.index + 1) := by
  have hv : v ∈ visits m := by simp [hvisits]
  have hfront : vs₁.find? hasSemicolonBehind = none := by
    refine List.find?_eq_none.2 fun u hu hbehind => ?_
    have hend := hm.endsMember_of_hasSemicolonBehind (by simp [hvisits, hu]) hbehind
    rw [hbefore u hu] at hend
    cases hend
  by_cases hbehind : hasSemicolonBehind v = true
  · have hfind : (visits m).find? hasSemicolonBehind = some v := by
      rw [hvisits, List.find?_append, hfront, List.find?_cons_of_pos hbehind]
      rfl
    rw [written, hfind]
  · have hrest : v.rest = [] := (hm.whole v hv hends).resolve_right hbehind
    have hlength := length_of_mem_visits hv
    rw [hrest] at hlength
    -- no unit stands behind the last character
    have hlast : vs₂ = [] := by
      refine List.eq_nil_iff_forall_not_mem.2 fun u hu => ?_
      have hpair := (pairwise_visitsFrom {} [] m 0).2
      rw [← Lexing.visits, hvisits, List.pairwise_append, List.pairwise_cons] at hpair
      have hlt := hpair.2.1.1 u hu
      have hu' : u ∈ visits m := by simp [hvisits, hu]
      have hbound := length_of_mem_visits hu'
      simp only [List.length_nil] at hlength
      omega
    have hnone : (visits m).find? hasSemicolonBehind = none := by
      rw [hvisits, hlast, List.find?_append, hfront, List.find?_cons_of_neg hbehind]
      rfl
    have hall : v.index + 1 = m.length := by
      rw [hlength]
      rfl
    rw [written, hnone, hall, List.take_length]

/-! ## One member -/

/-- The last character of a member ends it if it is a semicolon, or a curly bracket that nothing
continues. -/
theorem endsMember_last (hm : IsMember m) (hv : v ∈ visits m) (hrest : v.rest = [])
    (hchar : v.char = ';' ∨ v.char = '}' ∧ continues more = false) : endsMember more v = true := by
  have hsign : v.char = '}' ∨ Plain v.char := by
    rcases hchar with h | ⟨h, -⟩
    · exact .inr (by rw [h]; decide)
    · exact .inl h
  have htop := hm.atTopLevel_behind hv hsign (by simp [hrest])
  rw [endsMember, htop, hrest, List.nil_append]
  rcases hchar with h | ⟨h, hcontinues⟩
  · simp [h]
  · simp [h, hcontinues]

/-- A member in which no unit ends it is ended by its line. -/
theorem line_of_goesOn (hm : IsMember m) (hgoes : ∀ v ∈ visits m, endsMember [] v = false) :
    isIncomplete m = false ∧ ¬ EndsIn ';' m := by
  have hnot : ∀ c, c = ';' ∨ c = '}' ∧ continues [] = false → ¬ EndsIn c m := by
    rintro c hc ⟨v, hv, rfl, hrest⟩
    have hends := hm.endsMember_last hv hrest hc
    rw [hgoes v hv] at hends
    cases hends
  have hsemicolon := hnot ';' (.inl rfl)
  refine ⟨?_, hsemicolon⟩
  rcases hm.ending with h | h | h
  · exact absurd h hsemicolon
  · exact absurd h (hnot '}' (.inr ⟨rfl, rfl⟩))
  · exact h.1

/-- **A member is read as one**, whatever is behind its line, unless that continues a member without
a semicolon. -/
theorem segmentsFrom_member {text : Text} (hm : IsMember m) (houter : outer.head? = some '\n')
    (htext : outer.reverse ++ (m ++ '\n' :: more) = text)
    (hmore : EndsIn ';' m ∨ continues more = false) (leading : Bool) :
    segmentsFrom .classBody text {} none none leading outer (m ++ '\n' :: more) outer.length =
      (segmentsFrom .classBody text {} none none false ('\n' :: (m.reverse ++ outer)) more
        (outer.length + m.length + 1)).prepend
          [.segment ⟨outer.length, written m, none, []⟩] := by
  cases hfind : (visits m).find? (endsMember []) with
  | none =>
    have hgoes : ∀ v ∈ visits m, endsMember [] v = false := by
      simpa using List.find?_eq_none.1 hfind
    obtain ⟨hcomplete, hsemicolon⟩ := hm.line_of_goesOn hgoes
    rw [hm.written_of_goesOn hgoes]
    exact hm.segmentsFrom_of_line houter htext hgoes hcomplete (hmore.resolve_left hsemicolon)
      leading
  | some v =>
    obtain ⟨hends, vs₁, vs₂, hvisits, hbefore⟩ := List.find?_eq_some_iff_append.1 hfind
    have hbefore : ∀ u ∈ vs₁, endsMember [] u = false := by simpa using hbefore
    have hv : v ∈ visits m := by simp [hvisits]
    rw [hm.written_of_end hvisits hbefore hends]
    rcases hm.whole v hv hends with hrest | hbehind
    · have hchar : v.char = ';' ∨ v.char = '}' := by
        have hnewline := hm.not_newline hv hrest
        rw [endsMember] at hends
        by_contra hnot
        rw [not_or] at hnot
        simp [hnot, hnewline] at hends
      have hlast : v.char = ';' ∨ v.char = '}' ∧ continues ('\n' :: more) = false := by
        rw [continues_newline]
        refine hchar.imp_right fun hbrace => ⟨hbrace, hmore.resolve_left fun hsemicolon => ?_⟩
        have hsame := hsemicolon.getLast?.symm.trans (getLast?_of_mem_visits hv hrest)
        rw [hbrace] at hsame
        cases hsame
      exact hm.segmentsFrom_of_end houter htext hvisits hbefore (hm.endsMember_last hv hrest hlast)
        hchar.symm (by simp [hrest]) leading
    · have hrest : v.rest ≠ [] := by
        intro h
        rw [hasSemicolonBehind, h] at hbehind
        exact absurd (Bool.and_eq_true_iff.1 hbehind).2 (by decide)
      have hend : endsMember ('\n' :: more) v = true := by
        rw [hm.endsMember_append hv hrest, hends]
      have hbrace : v.char = '}' := beq_iff_eq.1 (Bool.and_eq_true_iff.1 hbehind).1
      exact hm.segmentsFrom_of_end houter htext hvisits hbefore hend (.inl hbrace)
        (mem_rest_of_hasSemicolonBehind hbehind) leading

/-- What a member is read as is not blank and has no white space at its ends. -/
theorem strip_written (hm : IsMember m) :
    Text.strip (written m) = written m ∧ written m ≠ [] := by
  obtain ⟨c, r, hcons, hblank, hsigns⟩ := hm.exists_head
  unfold written
  split
  · rename_i v hfind
    have hv := List.mem_of_find?_eq_some hfind
    have hbehind : hasSemicolonBehind v = true := List.find?_some hfind
    have hbrace : v.char = '}' := beq_iff_eq.1 (Bool.and_eq_true_iff.1 hbehind).1
    have htext := (placed_of_mem_visits hv).1
    obtain ⟨u, hu⟩ : ∃ u, v.past.reverse = c :: u := by
      cases hpast : v.past.reverse with
      | nil =>
        rw [hpast, hcons, List.nil_append, hbrace] at htext
        rw [← (List.cons.inj htext).1] at hsigns
        exact absurd (by decide) hsigns
      | cons d u =>
        rw [hpast, hcons, List.cons_append] at htext
        exact ⟨u, by rw [(List.cons.inj htext).1]⟩
    rw [(take_of_mem_visits hv).2, hbrace, hu]
    exact ⟨Text.strip_eq_self hblank (by decide) u, by simp⟩
  · exact ⟨hm.stripped, by rw [hcons]; simp⟩

end IsMember

/-- **A method is a member**: a closed text with one block outside everything, at its end, and no
semicolon or newline there. -/
theorem isMember_of_block (hclosed : Closed m) (hstrip : Text.strip m = m)
    (hhead : m.head?.any beginsMember = true) (hbreak : Unbroken m) (hend : EndsIn '}' m)
    (honly : ∀ u ∈ visits m, u.char = '}' → u.behind.atTopLevel = true → u.rest = []) :
    IsMember m where
  closed := hclosed
  stripped := hstrip
  head := hhead
  ending := .inr (.inl hend)
  whole := by
    intro u hu hends
    by_cases hbrace : u.char = '}'
    · exact .inl (honly u hu hbrace (Bool.and_eq_true_iff.1 hends).1)
    · -- the state is the same behind any other unit that ends a member
      rw [endsMember, Visit.behind, if_neg hbrace, Bool.and_eq_true] at hends
      obtain ⟨hsemicolon, hnewline⟩ := hbreak u hu hends.1
      simp [hbrace, hsemicolon, hnewline] at hends

end

/-! ## Class bodies -/

/-- The member texts, each with its newline. -/
def unlines (ms : List Text) : Text :=
  ms.flatMap (· ++ ['\n'])

theorem unlines_cons (m : Text) (ms : List Text) : unlines (m :: ms) = m ++ '\n' :: unlines ms := by
  simp [unlines]

theorem join_append_newline {ms : List Text} (hne : ms ≠ []) :
    Text.join ['\n'] ms ++ ['\n'] = unlines ms := by
  induction ms with
  | nil => exact absurd rfl hne
  | cons m ms ih =>
    cases ms with
    | nil => simp [Text.join, unlines]
    | cons n ms =>
      rw [unlines_cons, ← ih (by simp), Text.join, List.intercalate_cons_cons]
      simp [Text.join]

/-- The pieces of lines of members are these members. -/
theorem exists_pieces {ms : List Text} (hms : ∀ m ∈ ms, IsMember m)
    (hnext : ms.IsChain fun m n => EndsIn ';' m ∨ continues n = false) {text outer : Text}
    (houter : outer.head? = some '\n') (htext : outer.reverse ++ unlines ms = text)
    (leading : Bool) :
    ∃ pieces, segmentsFrom .classBody text {} none none leading outer (unlines ms) outer.length =
        ⟨pieces, .finished {}⟩ ∧
      pieces.filterMap ofPiece? = ms.map fun m => ⟨written m, none⟩ := by
  induction ms generalizing outer leading with
  | nil => exact ⟨[], segmentsFrom_nil, rfl⟩
  | cons m ms ih =>
    have hm := hms m List.mem_cons_self
    rw [unlines_cons] at htext ⊢
    have hmore : EndsIn ';' m ∨ continues (unlines ms) = false := by
      cases ms with
      | nil => exact .inr rfl
      | cons n ms =>
        obtain ⟨c, r, hn, hblank, -⟩ := (hms n (by simp)).exists_head
        have hc : c ∈ n := by simp [hn]
        rw [unlines_cons, continues_append_newline hc hblank]
        exact (List.isChain_cons_cons.1 hnext).1
    have hplace : ('\n' :: (m.reverse ++ outer)).reverse ++ unlines ms = text := by
      rw [← htext]
      simp
    obtain ⟨pieces, hpieces, hmembers⟩ :=
      ih (fun n hn => hms n (List.mem_cons_of_mem _ hn)) hnext.tail rfl hplace false
    have hlength : ('\n' :: (m.reverse ++ outer)).length = outer.length + m.length + 1 := by
      simp [Nat.add_comm]
    rw [hlength] at hpieces
    refine ⟨.segment ⟨outer.length, written m, none, []⟩ :: pieces, ?_, ?_⟩
    · rw [hm.segmentsFrom_member houter htext hmore, hpieces]
      rfl
    · obtain ⟨hstrip, hne⟩ := hm.strip_written
      have hpiece : ofPiece? (.segment ⟨outer.length, written m, none, []⟩) =
          some ⟨written m, none⟩ := by
        simp [ofPiece?, hstrip, hne]
      rw [List.filterMap_cons, hpiece, List.map_cons, hmembers]

/-- **A class body is cut into the members it was put together from.**  Every text must be one
member, and behind a member without a semicolon at its end the next text must not begin like a
continuation. -/
theorem splitMembers_bodyOf {ms : List Text} (hms : ∀ m ∈ ms, IsMember m)
    (hnext : ms.IsChain fun m n => EndsIn ';' m ∨ continues n = false) :
    splitMembers (bodyOf ms) = .ok (ms.map fun m => ⟨written m, none⟩) := by
  have hinterior : interior (bodyOf ms) = '\n' :: (Text.join ['\n'] ms ++ ['\n']) := by
    have hblock : bodyOf ms = '{' :: ('\n' :: (Text.join ['\n'] ms ++ ['\n'])) ++ ['}'] := by
      simp [bodyOf]
    rw [hblock, interior_block]
  have hcut : ∃ pieces, segments .classBody (interior (bodyOf ms)) = ⟨pieces, .finished {}⟩ ∧
      pieces.filterMap ofPiece? = ms.map fun m => ⟨written m, none⟩ := by
    rw [hinterior, segments, segmentsFrom_skip (.inl (by decide))]
    by_cases hne : ms = []
    · subst hne
      exact ⟨[], by rw [Text.join, List.intercalate_nil, List.nil_append,
        segmentsFrom_skip (.inl (by decide)), segmentsFrom_nil]; rfl, rfl⟩
    · have hfirst : (['\n'] : Text).head? = some '\n' := rfl
      rw [join_append_newline hne]
      exact exists_pieces hms hnext hfirst rfl true
  obtain ⟨pieces, hpieces, hmembers⟩ := hcut
  simp only [splitMembers, hpieces, hmembers]

/-- Two generators with a property between them whose semicolon is not kept, a property that its
line ends, and one in quotes. -/
theorem splitMembers_bodyOf_five :
    ∃ ms : List Text,
      ms = ["*g() \x7b return '\x7d' \x7d".toList, "x = \x7b\x7d ;".toList,
        "*h(a: \x7b b: T; \x7d): T[] \x7b \x7d".toList, "y = 2 /\n3".toList, "'k': T;".toList] ∧
      (∀ m ∈ ms, IsMember m) ∧ (ms.IsChain fun m n => EndsIn ';' m ∨ continues n = false) ∧
      splitMembers (bodyOf ms) =
        .ok [⟨"*g() \x7b return '\x7d' \x7d".toList, none⟩, ⟨"x = \x7b\x7d".toList, none⟩,
          ⟨"*h(a: \x7b b: T; \x7d): T[] \x7b \x7d".toList, none⟩, ⟨"y = 2 /\n3".toList, none⟩,
          ⟨"'k': T;".toList, none⟩] := by
  refine ⟨_, rfl, by decide +kernel, by decide +kernel, ?_⟩
  rw [splitMembers_bodyOf (by decide +kernel) (by decide +kernel)]
  decide +kernel

/-- A text without comments that begins like a member and ends with its only semicolon outside
everything. -/
structure IsTerminated (m : Text) : Prop where
  /-- Everything that begins in it ends in it. -/
  closed : Closed m
  /-- It has no white space at its ends. -/
  stripped : Text.strip m = m
  /-- It has no comments. -/
  uncommented : stripComments m = m
  /-- It begins like a member. -/
  head : m.head?.any beginsMember = true
  /-- It ends with a semicolon. -/
  ending : EndsIn ';' m
  /-- It has no other semicolon outside everything. -/
  only : ∀ v ∈ visits m, v.state.atTopLevel = true → v.char = ';' → v.rest = []

/-- **What is not one member**: a line that is complete ends a member in front of the semicolon, and
so does a curly bracket. -/
theorem not_splitMembers_bodyOf :
    (∃ m, m = "a\nb;".toList ∧ IsTerminated m ∧ splitMembers (bodyOf [m]) ≠ .ok [⟨m, none⟩] ∧
      splitMembers (bodyOf [m]) = .ok [⟨"a".toList, none⟩, ⟨"b;".toList, none⟩]) ∧
    ∃ m, m = "x = \x7b\x7d;".toList ∧ IsTerminated m ∧
      splitMembers (bodyOf [m]) ≠ .ok [⟨m, none⟩] ∧
      splitMembers (bodyOf [m]) = .ok [⟨"x = \x7b\x7d".toList, none⟩] := by
  refine ⟨⟨_, rfl, ⟨?_, ?_, ?_, ?_, ?_, ?_⟩, ?_, ?_⟩, _, rfl, ⟨?_, ?_, ?_, ?_, ?_, ?_⟩, ?_, ?_⟩ <;>
    decide +kernel

end ModuleSurface.ClassBody
