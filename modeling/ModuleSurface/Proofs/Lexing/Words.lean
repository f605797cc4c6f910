import ModuleSurface.Proofs.Lexing.Phrase
import ModuleSurface.Proofs.Text.Search
import ModuleSurface.Proofs.Text.Tokens

/-!
# Words of code

What is not code is blanked out before words are searched for, and blanking could free a word that
a comment or a literal touches.  It does not: between an identifier character of code and one that
is none there is always a delimiter (`Seam.eq_of_step`).  So a word of the blanked text is a word in
the code of the text itself, with nothing next to it there either (`containsWord_codeOnly_iff`), and
`mem_identifiers_iff` says which identifiers are found.
-/

namespace ModuleSurface.Lexing

open Cursor

/-! ## Next to a character of code -/

/-- The flags of a regular expression literal are read to their end. -/
theorem RegexLiteral.head?_drop_bodyWidth? {inClass : Bool} {t : Text} {w : Nat}
    (h : bodyWidth? inClass t = some w) : (t.drop w).head?.any Text.isIdentChar = false := by
  induction inClass, t using body_induction generalizing w with
  | nil => cases h
  | cons inClass c t ih ih' =>
    obtain ⟨heq, -⟩ | heq | ⟨b, heq⟩ | heq := bodyWidth?_cons inClass c <;> rw [heq] at h
    · obtain ⟨v, hv, rfl⟩ := Option.map_eq_some_iff.1 h
      have hbehind := ih' inClass hv
      rwa [List.drop_drop, Nat.add_comm] at hbehind
    · cases h
    · obtain ⟨v, hv, rfl⟩ := Option.map_eq_some_iff.1 h
      exact ih b hv
    · cases h
      rw [Nat.add_comm, List.drop_succ_cons, Text.drop_length_takeWhile]
      exact Text.head?_dropWhile_isIdentChar t

/-- A regular expression literal ends with its slash or with a flag. -/
theorem RegexLiteral.exists_getLast?_bodyWidth? {inClass : Bool} {t : Text} {w : Nat}
    (h : bodyWidth? inClass t = some w) :
    ∃ c, (t.take w).getLast? = some c ∧ (c = '/' ∨ Text.isIdentChar c = true) := by
  induction inClass, t using body_induction generalizing w with
  | nil => cases h
  | cons inClass c t ih ih' =>
    obtain ⟨heq, -⟩ | heq | ⟨b, heq⟩ | heq := bodyWidth?_cons inClass c <;> rw [heq] at h
    · obtain ⟨v, hv, rfl⟩ := Option.map_eq_some_iff.1 h
      obtain ⟨d, hlast, hd⟩ := ih' inClass hv
      cases t with
      | nil => simp at hlast
      | cons e t =>
        refine ⟨d, ?_, hd⟩
        rw [List.drop_one, List.tail_cons] at hlast
        rw [List.take_succ_cons, List.take_succ_cons, List.getLast?_cons, List.getLast?_cons, hlast]
        rfl
    · cases h
    · obtain ⟨v, hv, rfl⟩ := Option.map_eq_some_iff.1 h
      obtain ⟨d, hlast, hd⟩ := ih b hv
      refine ⟨d, ?_, hd⟩
      rw [List.take_succ_cons, List.getLast?_cons, hlast]
      rfl
    · cases h
      have hflags : t.take (t.takeWhile Text.isIdentChar).length = t.takeWhile Text.isIdentChar :=
        (List.prefix_iff_eq_take.1 (List.takeWhile_prefix _)).symm
      rw [Nat.add_comm, List.take_succ_cons, hflags, List.getLast?_cons]
      cases hlast : (t.takeWhile Text.isIdentChar).getLast? with
      | none =>
        have hslash : c = '/' ∧ inClass = false := by
          simpa [bodyWidth?] using heq []
        exact ⟨c, rfl, .inl hslash.1⟩
      | some d => exact ⟨d, rfl, .inr (List.mem_takeWhile_imp (List.mem_of_getLast? hlast))⟩

/-- The characters that a string, a comment, a literal or a substitution begins or ends with. -/
def delimiters : Text :=
  "/'\"\x60\x7b".toList

/-- The place `k` characters further in `text` is behind `d`, and no literal or comment ends
there. -/
structure Seam (past text : Text) (k : Nat) (d : Char) : Prop where
  /-- The character in front of the place. -/
  before : (advancePast past text k).head? = some d
  /-- It delimits nothing. -/
  delimiter : d ∉ delimiters
  /-- The line goes on. -/
  line : (text.drop k).head? ≠ some '\n'
  /-- So does a word. -/
  word : Text.isIdentChar d = true → (text.drop k).head?.any Text.isIdentChar = true

namespace Seam

variable {past rest : Text} {c d : Char} {k : Nat} {s s' : State} {position : Nat}

/-- Between two identifier characters nothing ends. -/
theorem of_word {text : Text} (hbefore : (advancePast past text k).head? = some d)
    (hident : Text.isIdentChar d = true)
    (hbehind : (text.drop k).head?.any Text.isIdentChar = true) : Seam past text k d where
  before := hbefore
  delimiter hd := by
    have hall : ∀ c ∈ delimiters, Text.isIdentChar c = false := by decide
    rw [hall d hd] at hident
    cases hident
  line h := by
    rw [h] at hbehind
    exact absurd hbehind (by decide)
  word _ := hbehind

theorem char_eq (h : Seam past (c :: rest) 1 d) : c = d :=
  Option.some.inj h.before

/-- What has just been read is no delimiter. -/
theorem ne_of_read {u more : Text} {q : Char}
    (h : Seam past (u ++ q :: more) (u.length + 1) d) (hq : q ∈ delimiters) : False := by
  have hread : (u ++ q :: more).take (u.length + 1) = u ++ [q] := by
    rw [List.take_append, List.take_of_length_le (by omega)]
    simp
  have hd := h.before
  rw [advancePast, hread] at hd
  obtain rfl : q = d := by simpa using hd
  exact h.delimiter hq

/-- Code is left at no such place, and what leads from it to code was read as one character. -/
theorem eq_of_stepCode (h : Seam past (c :: rest) k d)
    (hstep : s.stepCode past c rest position = (k, s')) (hcode : s'.inCode = true) :
    k = 1 ∧ c = d := by
  suffices hk : k = 1 from ⟨hk, by subst hk; exact h.char_eq⟩
  unfold State.stepCode at hstep
  split at hstep
  · cases hstep
    cases hcode
  split at hstep
  · cases hstep
    cases hcode
  split at hstep
  · cases hstep
    rfl
  split at hstep
  · rename_i w hw
    cases hstep
    -- a regular expression literal is read to the end of its flags
    simp only [RegexLiteral.width?] at hw
    split at hw
    · obtain ⟨n, hn, rfl⟩ := Option.map_eq_some_iff.1 hw
      have hend := RegexLiteral.head?_drop_bodyWidth? hn
      obtain ⟨e, he, hlast⟩ := RegexLiteral.exists_getLast?_bodyWidth? hn
      have hd := h.before
      rw [advancePast, List.take_succ_cons, List.head?_append, List.head?_reverse,
        List.getLast?_cons, he] at hd
      obtain rfl : e = d := Option.some.inj hd
      rcases hlast with rfl | hident
      · exact absurd (by decide) h.delimiter
      · have hword := h.word hident
        rw [List.drop_succ_cons, hend] at hword
        cases hword
    · cases hw
  split at hstep
  · cases hstep
    rfl
  split at hstep
  · cases hstep
    rfl
  split at hstep <;> cases hstep <;> rfl

/-- A string is not left there. -/
theorem stepString_ne {q : Char} (h : Seam past (c :: rest) k d)
    (hq : q ∈ delimiters) (hs : s.inCode = false) (hcode : s'.inCode = true) :
    s.stepString q c ≠ .ok (k, s') := by
  intro hstep
  have stays : ∀ {n : Nat}, (Except.ok (n, s) : Except Fault (Nat × State)) ≠ .ok (k, s') := by
    rintro n hn
    cases hn
    rw [hs] at hcode
    cases hcode
  unfold State.stepString at hstep
  split at hstep
  · exact stays hstep
  split at hstep
  · rename_i hc
    cases hstep
    obtain rfl := beq_iff_eq.1 hc
    exact h.ne_of_read (u := []) hq
  split at hstep
  · cases hstep
  · exact stays hstep

/-- Neither is a comment that ends with its line, -/
theorem stepLineComment_ne (h : Seam past (c :: rest) k d) (hs : s.inCode = false)
    (hcode : s'.inCode = true) : s.stepLineComment c rest ≠ (k, s') := by
  intro hstep
  unfold State.stepLineComment at hstep
  split at hstep
  · rename_i hc
    cases hstep
    obtain rfl := beq_iff_eq.1 hc
    exact absurd rfl h.line
  · cases hstep
    rw [hs] at hcode
    cases hcode

/-- nor one between delimiters, -/
theorem stepBlockComment_ne (h : Seam past (c :: rest) k d) (hs : s.inCode = false)
    (hcode : s'.inCode = true) : s.stepBlockComment c rest ≠ (k, s') := by
  intro hstep
  unfold State.stepBlockComment at hstep
  split at hstep
  · rename_i n hn
    cases hstep
    obtain ⟨a, b, hab, hlength⟩ := Text.eq_of_findFrom hn
    rw [Nat.zero_add] at hlength
    subst hlength
    rw [hab, show a ++ ("*/".toList ++ b) = (a ++ ['*']) ++ '/' :: b by simp,
      show a.length + 2 = (a ++ ['*']).length + 1 by simp] at h
    exact h.ne_of_read (by decide)
  · cases hstep
    rw [hs] at hcode
    cases hcode

/-- nor a template literal. -/
theorem stepTemplate_ne (h : Seam past (c :: rest) k d) (hs : s.inCode = false)
    (hcode : s'.inCode = true) : s.stepTemplate c rest position ≠ (k, s') := by
  intro hstep
  have stays : ∀ {n : Nat}, (n, s) ≠ (k, s') := by
    rintro n hn
    cases hn
    rw [hs] at hcode
    cases hcode
  unfold State.stepTemplate at hstep
  split at hstep
  · exact stays hstep
  split at hstep
  · rename_i hc
    cases hstep
    obtain rfl := beq_iff_eq.1 hc
    exact h.ne_of_read (u := []) (by decide)
  split at hstep
  · rename_i hc
    cases hstep
    rw [Bool.and_eq_true, beq_iff_eq, beq_iff_eq] at hc
    obtain ⟨r, rfl⟩ := List.head?_eq_some_iff.1 hc.2
    exact h.ne_of_read (u := [c]) (by decide)
  · exact stays hstep

/-- **A step to code that ends at such a place has read one character as code.** -/
theorem eq_of_step (h : Seam past (c :: rest) k d)
    (hstep : s.step past c rest position = .ok (k, s')) (hcode : s'.inCode = true) :
    s.inCode = true ∧ k = 1 ∧ c = d := by
  by_cases hs : s.inCode = true
  · rw [State.step_of_inCode hs, Except.ok.injEq] at hstep
    exact ⟨hs, h.eq_of_stepCode hstep hcode⟩
  · rw [Bool.not_eq_true] at hs
    unfold State.step at hstep
    split at hstep
    case h_1 hctx | h_2 hctx =>
      rw [State.inCode, hctx] at hs
      cases hs
    case h_3 => exact absurd (Except.ok.inj hstep) (h.stepLineComment_ne hs hcode)
    case h_4 => exact absurd (Except.ok.inj hstep) (h.stepBlockComment_ne hs hcode)
    case h_5 => exact absurd hstep (h.stepString_ne (by decide) hs hcode)
    case h_6 => exact absurd hstep (h.stepString_ne (by decide) hs hcode)
    case h_7 => exact absurd (Except.ok.inj hstep) (h.stepTemplate_ne hs hcode)

end Seam

/-- A run that leads anywhere ends with a step. -/
theorem Cursor.Run.exists_last {p q : Cursor} {ps : List Cursor} (h : Run p ps q) :
    p = q ∨ ∃ r ∈ ps, Next r q := by
  induction h with
  | refl => exact .inl rfl
  | @cons p r q ps hnext _ ih =>
    rcases ih with rfl | ⟨r', hr', hlast⟩
    · exact .inr ⟨p, List.mem_cons_self, hnext⟩
    · exact .inr ⟨r', List.mem_cons_of_mem _ hr', hlast⟩

/-- A text that leads from code back to it and ends with a semicolon visits that semicolon. -/
theorem Reads.exists_semicolon {base : State} {outer t more : Text} {offset : Nat} {vs : List Visit}
    (h : Reads base outer (t ++ [';']) more offset vs) (hbase : base.inCode = true)
    (hmore : more.head? ≠ some '\n') : ∃ v ∈ vs, v.char = ';' ∧ v.state = base := by
  obtain ⟨ps, hrun, rfl⟩ := h
  obtain hstart | ⟨r, hr, hnext⟩ := hrun.exists_last
  · have hlength := congrArg (fun p : Cursor => p.rest.length) hstart
    simp only [List.length_append, List.length_singleton] at hlength
    omega
  · obtain ⟨s, past, rest, position⟩ := r
    generalize hq : (⟨base, (t ++ [';']).reverse ++ outer, more, _⟩ : Cursor) = q at hnext
    cases hnext with
    | @step _ s' _ c rest _ k hstep =>
      injection hq with hstate hpast hrest hindex
      have hseam : Seam past (c :: rest) k ';' :=
        ⟨by rw [← hpast]; simp, by decide, by rw [← hrest]; exact hmore, fun h => by cases h⟩
      obtain ⟨hs, rfl, rfl⟩ := hseam.eq_of_step hstep (hstate ▸ hbase)
      rw [State.step_of_plain hs (by decide), Except.ok.injEq, Prod.mk.injEq] at hstep
      obtain ⟨-, rfl⟩ := hstep
      exact ⟨_, List.mem_filterMap.2 ⟨_, hr, visit?_of_plain hs (by decide) _ _ _⟩, rfl,
        hstate.symm⟩

/-- A plain character at the front is visited, and the walk goes on behind it. -/
theorem Cursor.visits_plain {s : State} (hs : s.inCode = true) {c : Char} (hc : Plain c)
    (past rest : Text) (position : Nat) :
    Cursor.visits ⟨s, past, c :: rest, position⟩ =
      ⟨position, past, c, rest, s⟩ :: Cursor.visits ⟨s, c :: past, rest, position + 1⟩ := by
  rw [(Next.step (State.step_of_plain hs hc past rest position)).visits_eq, visit?_of_plain hs hc]
  rfl

section Neighbours

variable {t : Text} {v : Visit} {d : Char} {i : Nat}

theorem head?_past_of_mem_visits (hv : v ∈ visits t) (hi : i + 1 = v.index) :
    v.past.head? = t[i]? := by
  obtain ⟨htext, hindex⟩ := placed_of_mem_visits hv
  rw [hindex] at hi
  rw [← htext, List.getElem?_append_left (by simp; omega), List.getElem?_reverse (by omega),
    List.head?_eq_getElem?]
  congr 1
  omega

theorem head?_rest_of_mem_visits (hv : v ∈ visits t) : v.rest.head? = t[v.index + 1]? := by
  obtain ⟨htext, hindex⟩ := placed_of_mem_visits hv
  rw [← htext, hindex, List.getElem?_append_right (by simp), List.length_reverse,
    Nat.add_sub_cancel_left, List.getElem?_cons_succ, List.head?_eq_getElem?]

/-- An identifier character in front of one that is visited is visited, too. -/
theorem exists_visit_before (hv : v ∈ visits t) (hident : Text.isIdentChar v.char = true)
    (hi : i + 1 = v.index) (hd : t[i]? = some d) (hdi : Text.isIdentChar d = true) :
    ∃ u ∈ visits t, u.index = i ∧ u.char = d := by
  rw [← head?_past_of_mem_visits hv hi] at hd
  obtain ⟨ps, hrun, hreads, -⟩ := exists_run_of_mem_visits hv
  obtain hstart | ⟨r, hr, hnext⟩ := hrun.exists_last
  · have hpast : [] = v.past := congrArg Cursor.past hstart
    rw [← hpast] at hd
    cases hd
  · obtain ⟨s, past, rest, position⟩ := r
    generalize hq : (⟨v.state, v.past, v.char :: v.rest, v.index⟩ : Cursor) = q at hnext
    cases hnext with
    | @step _ s' _ c rest _ k hstep =>
      injection hq with hstate hpast hrest hindex
      have hseam : Seam past (c :: rest) k d :=
        .of_word (by rw [← hd, hpast]) hdi (by rw [← hrest]; exact hident)
      have hcode : s'.inCode = true := hstate ▸ (readsCode_iff.1 hreads).1
      obtain ⟨hs, rfl, rfl⟩ := hseam.eq_of_step hstep hcode
      have hplace : v.index = position + 1 := hindex
      have hindex : position = i := Nat.succ.inj (hplace.symm.trans hi.symm)
      refine ⟨⟨position, past, c, rest, s⟩, ?_, hindex, rfl⟩
      have hwalk : visits t = ps.filterMap visit? ++ _ := hrun.visits_eq
      rw [hwalk]
      refine List.mem_append_left _ (List.mem_filterMap.2 ⟨_, hr, ?_⟩)
      exact visit?_of_plain hs (plain_of_isIdentChar hdi) past rest position

/-- So is one behind it. -/
theorem exists_visit_behind (hv : v ∈ visits t) (hident : Text.isIdentChar v.char = true)
    (hd : t[v.index + 1]? = some d) (hdi : Text.isIdentChar d = true) :
    ∃ u ∈ visits t, u.index = v.index + 1 ∧ u.char = d := by
  rw [← head?_rest_of_mem_visits hv] at hd
  obtain ⟨ps, hrun, hreads, -⟩ := exists_run_of_mem_visits hv
  obtain ⟨r, hr⟩ := List.head?_eq_some_iff.1 hd
  have hcode := (readsCode_iff.1 hreads).1
  have hwalk : visits t = ps.filterMap visit? ++ _ := hrun.visits_eq
  rw [visits_plain hcode (plain_of_isIdentChar hident), hr,
    visits_plain hcode (plain_of_isIdentChar hdi)] at hwalk
  exact ⟨⟨v.index + 1, v.char :: v.past, d, r, v.state⟩, by simp [hwalk], rfl, rfl⟩

end Neighbours

/-! ## Blanking -/

section Blanking

variable {vs : List Visit} {position i : Nat} {t : Text}

/-- A visited character stays. -/
theorem getElem?_blankedFrom {v : Visit} (hsorted : vs.Pairwise (·.index < ·.index))
    (hlo : ∀ u ∈ vs, position ≤ u.index) (hv : v ∈ vs) (hi : v.index = position + i)
    (hlt : i < t.length) : (blankedFrom position vs t)[i]? = some v.char := by
  induction t generalizing position vs i with
  | nil => cases hlt
  | cons c t ih =>
    cases vs with
    | nil => cases hv
    | cons u vs =>
      obtain ⟨hfirst, hrest⟩ := List.pairwise_cons.1 hsorted
      have hu := hlo u List.mem_cons_self
      rw [blankedFrom]
      by_cases hhere : u.index = position
      · rw [if_pos (beq_iff_eq.2 hhere)]
        rcases List.mem_cons.1 hv with rfl | hv
        · obtain rfl : i = 0 := by omega
          rfl
        · have hlt' := hfirst v hv
          obtain ⟨i, rfl⟩ : ∃ j, i = j + 1 := ⟨i - 1, by omega⟩
          rw [List.getElem?_cons_succ]
          have hlo' : ∀ w ∈ vs, position + 1 ≤ w.index := by
            intro w hw
            have := hfirst w hw
            omega
          exact ih hrest hlo' hv (by omega) (by simpa using hlt)
      · have hne : ∀ w ∈ u :: vs, position + 1 ≤ w.index := by
          rintro w (_ | ⟨_, hw⟩)
          · omega
          · have := hfirst w hw
            omega
        have hv' := hne v hv
        obtain ⟨i, rfl⟩ : ∃ j, i = j + 1 := ⟨i - 1, by omega⟩
        rw [if_neg (by simpa using hhere), List.getElem?_cons_succ]
        exact ih hsorted hne hv (by omega) (by simpa using hlt)

/-- What is no blank was visited. -/
theorem exists_visit_of_blankedFrom {c : Char} (hc : (blankedFrom position vs t)[i]? = some c)
    (hblank : c ≠ ' ' ∧ c ≠ '\n') : ∃ v ∈ vs, v.index = position + i ∧ v.char = c := by
  induction t generalizing position vs i with
  | nil => cases hc
  | cons d t ih =>
    -- behind a blank the search goes on with the same visits
    have skip : ∀ {vs : List Visit},
        ((if d == '\n' then d else ' ') :: blankedFrom (position + 1) vs t)[i]? = some c →
          ∃ v ∈ vs, v.index = position + i ∧ v.char = c := by
      intro vs hc
      cases i with
      | zero =>
        rw [List.getElem?_cons_zero, Option.some.injEq] at hc
        split at hc
        · rename_i hd
          exact absurd (hc.symm.trans (beq_iff_eq.1 hd)) hblank.2
        · exact absurd hc.symm hblank.1
      | succ i =>
        obtain ⟨v, hv, hindex, hchar⟩ := ih hc
        exact ⟨v, hv, by omega, hchar⟩
    cases vs with
    | nil => exact skip hc
    | cons u vs =>
      rw [blankedFrom] at hc
      split at hc
      · rename_i hu
        cases i with
        | zero => exact ⟨u, List.mem_cons_self, beq_iff_eq.1 hu, by simpa using hc⟩
        | succ i =>
          obtain ⟨v, hv, hindex, hchar⟩ := ih hc
          exact ⟨v, List.mem_cons_of_mem _ hv, by omega, hchar⟩
      · exact skip hc

end Blanking

/-- The identifier characters of the blanked text are those that are visited. -/
theorem getElem?_codeOnly_iff {t : Text} {i : Nat} {c : Char} (hc : Text.isIdentChar c = true) :
    (codeOnly t)[i]? = some c ↔ ∃ v ∈ visits t, v.index = i ∧ v.char = c := by
  refine ⟨fun h => ?_, ?_⟩
  · have hblank : c ≠ ' ' ∧ c ≠ '\n' := by
      constructor <;> rintro rfl <;> revert hc <;> decide
    obtain ⟨v, hv, hindex, hchar⟩ := exists_visit_of_blankedFrom h hblank
    exact ⟨v, hv, by omega, hchar⟩
  · rintro ⟨v, hv, rfl, rfl⟩
    have hlt := (List.getElem?_eq_some_iff.1 (getElem?_of_mem_visits hv)).1
    exact getElem?_blankedFrom (pairwise_visitsFrom {} [] t 0).2 (fun _ _ => Nat.zero_le _) hv
      (Nat.zero_add _).symm hlt

/-! ## Words -/

/-- The word `w` stands in the code of `t`: its characters are visited, and in `t` no identifier
character is next to it. -/
def StandsInCode (t w : Text) : Prop :=
  ∃ n, (∀ i (h : i < w.length), ∃ v ∈ visits t, v.index = n + i ∧ v.char = w[i]) ∧
    (∀ i, i + 1 = n → t[i]?.any Text.isIdentChar = false) ∧
      t[n + w.length]?.any Text.isIdentChar = false

/-- **A word of the blanked text is a word in the code of the text**, and the other way round. -/
theorem containsWord_codeOnly_iff {t w : Text} (hne : w ≠ [])
    (hw : ∀ c ∈ w, Text.isIdentChar c = true) :
    Text.containsWord (codeOnly t) w = true ↔ StandsInCode t w := by
  have hident : ∀ i (h : i < w.length), Text.isIdentChar w[i] = true := fun i h =>
    hw _ (List.getElem_mem h)
  have hpos : 0 < w.length := List.length_pos_iff.2 hne
  -- an identifier character of the blanked text is one of the text
  have keeps : ∀ i : Nat, t[i]?.any Text.isIdentChar = false →
      (codeOnly t)[i]?.any Text.isIdentChar = false := by
    intro i hi
    by_contra hcode
    rw [Bool.not_eq_false, Option.any_eq_true] at hcode
    obtain ⟨c, hc, hci⟩ := hcode
    obtain ⟨v, hv, rfl, rfl⟩ := (getElem?_codeOnly_iff hci).1 hc
    rw [getElem?_of_mem_visits hv, Option.any_some, hci] at hi
    cases hi
  -- and one of the text is one of the blanked text, if it is next to code
  have visited : ∀ i : Nat, (codeOnly t)[i]?.any Text.isIdentChar = false →
      (∀ c, t[i]? = some c → Text.isIdentChar c = true →
        ∃ v ∈ visits t, v.index = i ∧ v.char = c) → t[i]?.any Text.isIdentChar = false := by
    intro i hi hnext
    by_contra htext
    rw [Bool.not_eq_false, Option.any_eq_true] at htext
    obtain ⟨c, hc, hci⟩ := htext
    rw [(getElem?_codeOnly_iff hci).2 (hnext c hc hci), Option.any_some, hci] at hi
    cases hi
  rw [Text.containsWord_iff_getElem? hne]
  refine exists_congr fun n => ?_
  have hchars : (∀ i (h : i < w.length), (codeOnly t)[n + i]? = some w[i]) ↔
      ∀ i (h : i < w.length), ∃ v ∈ visits t, v.index = n + i ∧ v.char = w[i] :=
    forall_congr' fun i => forall_congr' fun h => getElem?_codeOnly_iff (hident i h)
  rw [hchars]
  refine and_congr_right fun hvisits => ⟨?_, ?_⟩
  · rintro ⟨hbefore, hbehind⟩
    refine ⟨fun i hi => visited i (hbefore i hi) fun c hc hci => ?_, ?_⟩
    · obtain ⟨v, hv, hindex, hchar⟩ := hvisits 0 hpos
      exact exists_visit_before hv (hchar ▸ hident 0 hpos) (by omega) hc hci
    · refine visited _ hbehind fun c hc hci => ?_
      obtain ⟨v, hv, hindex, hchar⟩ := hvisits (w.length - 1) (by omega)
      have hplace : n + w.length = v.index + 1 := by omega
      rw [hplace] at hc ⊢
      exact exists_visit_behind hv (hchar ▸ hident _ (by omega)) hc hci
  · rintro ⟨hbefore, hbehind⟩
    exact ⟨fun i hi => keeps i (hbefore i hi), keeps _ hbehind⟩

/-- Which identifiers the code of a text mentions: those that stand in it as whole words, and those
behind a lead, digits for example, that makes one word with them. -/
theorem mem_identifiers_iff {t w : Text} (hw : Text.IsIdentifier w) :
    w ∈ identifiers t ↔ ∃ lead, Text.IsLead lead ∧ StandsInCode t (lead ++ w) := by
  rw [identifiers, Text.mem_identifierTokens_iff hw]
  refine exists_congr fun lead => and_congr_right fun hlead => ?_
  obtain ⟨c, r, rfl, -⟩ := hw.exists_cons
  refine containsWord_codeOnly_iff (by simp) fun d hd => ?_
  rcases List.mem_append.1 hd with hd | hd
  · exact (hlead d hd).1
  · exact hw.all d hd

/-- **Two readings of usage.**  A word is found in the blanked text just if it stands in the code of
the text.  It is an identifier of that code just if it stands there, alone or behind a lead.  So the
two readings agree on a text just if the word stands alone wherever it stands behind a lead. -/
theorem usage_readings {t w : Text} (hw : Text.IsIdentifier w) :
    (Text.containsWord (codeOnly t) w = true ↔ StandsInCode t w) ∧
      (w ∈ identifiers t ↔ ∃ lead, Text.IsLead lead ∧ StandsInCode t (lead ++ w)) ∧
      ((w ∈ identifiers t ↔ Text.containsWord (codeOnly t) w = true) ↔
        ∀ lead, Text.IsLead lead → StandsInCode t (lead ++ w) → StandsInCode t w) := by
  have hcontains : Text.containsWord (codeOnly t) w = true ↔ StandsInCode t w := by
    obtain ⟨c, r, rfl, -⟩ := hw.exists_cons
    exact containsWord_codeOnly_iff (by simp) hw.all
  refine ⟨hcontains, mem_identifiers_iff hw, ?_⟩
  rw [hcontains, mem_identifiers_iff hw]
  refine ⟨fun h lead hlead hstands => h.1 ⟨lead, hlead, hstands⟩, fun h => ⟨?_, ?_⟩⟩
  · rintro ⟨lead, hlead, hstands⟩
    exact h lead hlead hstands
  · intro hstands
    exact ⟨[], by simp [Text.IsLead], hstands⟩

/-- A word in the code of a text, with a string and a comment that repeat it. -/
theorem usage_readings_quoted :
    Text.IsIdentifier "n".toList ∧
      (Text.containsWord (codeOnly "n + 'n' // n".toList) "n".toList = true ↔
        StandsInCode "n + 'n' // n".toList "n".toList) ∧
      ("n".toList ∈ identifiers "n + 'n' // n".toList ↔
        ∃ lead, Text.IsLead lead ∧ StandsInCode "n + 'n' // n".toList (lead ++ "n".toList)) ∧
      (("n".toList ∈ identifiers "n + 'n' // n".toList ↔
          Text.containsWord (codeOnly "n + 'n' // n".toList) "n".toList = true) ↔
        ∀ lead, Text.IsLead lead → StandsInCode "n + 'n' // n".toList (lead ++ "n".toList) →
          StandsInCode "n + 'n' // n".toList "n".toList) :=
  have hw : Text.IsIdentifier "n".toList := ⟨by decide, by decide⟩
  ⟨hw, usage_readings hw⟩

/-- The two readings differ on the suffix of a number, which is an identifier that does not stand
there on its own. -/
theorem usage_readings_differ :
    ¬ ∀ t w : Text, Text.IsIdentifier w →
      (w ∈ identifiers t ↔ Text.containsWord (codeOnly t) w = true) := by
  intro h
  have hmem : "n".toList ∈ identifiers "10n".toList := by decide +kernel
  have hfound := (h _ _ ⟨by decide, by decide⟩).1 hmem
  exact absurd hfound (by decide +kernel)

end ModuleSurface.Lexing
