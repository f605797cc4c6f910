import ModuleSurface.Proofs.Lexing.Openings
import ModuleSurface.Proofs.Lexing.Words
import ModuleSurface.Proofs.Statement.Single

/-!
# What the places of a text are part of

The steps of a pass cut a text into units, and each unit is part of something: of code, of a
comment, of a string, of a template literal or of a regular expression literal.  A walk repeats some
of the decisions of a step before it takes the step, and leaps over regular expression literals on
its own.  This file shows that both agree on every text.

* `State.readsCode_iff_of_step` — code is what is read from code to code;
* `visits_eq_moments` — a walk visits the moments of the pass that read code, with the states of the
  pass;
* `visits_inStep` — so a place is visited exactly if it is code, and blanking a text keeps exactly
  the code and the newlines.
-/

namespace ModuleSurface.Lexing

open Cursor

/-! ## Regions -/

/-- What a place of a text is part of. -/
inductive Region where
  /-- Code outside literals. -/
  | code
  /-- A comment, with its delimiters. -/
  | comment
  /-- A string, with its quotes. -/
  | string
  /-- The text of a template literal. -/
  | templateText
  /-- A delimiter of a template literal or of one of its substitutions. -/
  | templateDelimiter
  /-- A regular expression literal. -/
  | regexLiteral
  /-- Nothing: the pass ended in front of it. -/
  | unread
  deriving DecidableEq, Repr

/-- The number of characters of the regular expression literal at an offset of a text, if one begins
there. -/
def RegexLiteral.widthAt? (text : Text) (i : Nat) : Option Nat :=
  match text.drop i with
  | [] => none
  | c :: rest => width? (text.take i).reverse c rest

namespace Moment

/-- What a step of the pass over `text` reads, by the constructs in front of it and behind it. -/
def region (text : Text) (m : Moment) : Region :=
  match m.before.context, m.after.context with
  | .lineComment, _ | .blockComment, _ => .comment
  | .singleQuote, _ | .doubleQuote, _ => .string
  | .template, .template => .templateText
  | .template, _ => .templateDelimiter
  | _, .lineComment | _, .blockComment => .comment
  | _, .singleQuote | _, .doubleQuote => .string
  | _, .template => .templateDelimiter
  | _, _ => if (RegexLiteral.widthAt? text m.index).isSome then .regexLiteral else .code

/-- Does the step read the character at the offset? -/
def Covers (m : Moment) (i : Nat) : Prop :=
  m.index ≤ i ∧ i < m.stop

instance (m : Moment) (i : Nat) : Decidable (m.Covers i) :=
  inferInstanceAs (Decidable (_ ∧ _))

/-- The visit of a character that the step reads on its own. -/
def visit (text : Text) (m : Moment) : Visit where
  index := m.index
  past := (text.take m.index).reverse
  char := m.read.headD ' '
  rest := text.drop (m.index + 1)
  state := m.before

end Moment

/-- What the place at an offset of a text is part of. -/
def regionAt (text : Text) (i : Nat) : Region :=
  match (pass text).moments.find? fun m => decide (m.Covers i) with
  | some m => m.region text
  | none => .unread

/-! ## Steps of code -/

namespace State

variable {s s' : State} {past : Text} {c : Char} {rest : Text} {position k : Nat}

/-- In code, what is no code of its own begins a comment or a literal, or ends a substitution. -/
theorem not_inCode_of_step (hs : s.Coherent) (hcode : s.inCode = true)
    (hreads : s.readsCode c rest = false) (h : s.step past c rest position = .ok (k, s')) :
    s'.inCode = false := by
  rw [step_of_inCode hcode, Except.ok.injEq] at h
  unfold stepCode at h
  split at h
  · cases h
    rfl
  rename_i hline
  split at h
  · cases h
    rfl
  rename_i hblock
  cases hquote : Context.ofQuote? c with
  | some literal =>
    rw [hquote] at h
    cases h
    exact inCode_ofQuote? hquote
  | none =>
    -- what is left is the curly bracket at the end of a substitution
    have hslash : c = '/' → rest.head? ≠ some '/' ∧ rest.head? ≠ some '*' := by
      rintro rfl
      exact ⟨by simpa using hline, by simpa using hblock⟩
    have hexpr : s.closesExpr c = true := by
      by_contra hno
      have hyes := readsCode_iff.2 ⟨hcode, hslash, hquote, Bool.eq_false_iff.2 hno⟩
      rw [hreads] at hyes
      cases hyes
    simp only [closesExpr, Bool.and_eq_true, beq_iff_eq] at hexpr
    obtain ⟨⟨rfl, hcontext⟩, hdepth⟩ := hexpr
    have hclose : s.closesExpr '}' = true := by
      simp [closesExpr, hcontext, hdepth]
    have hwidth : RegexLiteral.width? past '}' rest = none := rfl
    have hopener : Bracket.ofOpener? '}' = none := rfl
    rw [hquote, hwidth] at h
    simp only [hopener, hclose, if_true, Prod.mk.injEq] at h
    rw [← h.2]
    have hne : s.enclosing ≠ [] := hs.enclosing_ne_nil (by rw [hcontext]; decide)
    obtain ⟨hsits, -⟩ := hs.nested_leave (by rw [hcontext]; decide)
    rw [hcontext] at hsits
    have htemplate : s.leave.context = .template := hsits
    obtain ⟨e, outer, he⟩ := List.exists_cons_of_ne_nil hne
    rw [leave, he] at htemplate
    rw [inCode, leave, he]
    simp only at htemplate ⊢
    rw [htemplate]
    rfl

/-- **Code is what is read from code to code.** -/
theorem readsCode_iff_of_step (hs : s.Coherent) (h : s.step past c rest position = .ok (k, s')) :
    s.readsCode c rest = true ↔ s.inCode = true ∧ s'.inCode = true := by
  constructor
  · intro hreads
    have hcode := (readsCode_iff.1 hreads).1
    refine ⟨hcode, ?_⟩
    rw [step_of_readsCode hreads, Except.ok.injEq] at h
    rw [← show _ = s' from congrArg Prod.snd h, inCode]
    split
    · exact hcode
    · split
      · rw [context_openBracket]
        exact hcode
      · split
        · rw [context_closeBracket]
          exact hcode
        · exact hcode
  · rintro ⟨hcode, hcode'⟩
    by_contra hreads
    rw [not_inCode_of_step hs hcode (Bool.eq_false_iff.2 hreads) h] at hcode'
    cases hcode'

/-- A character of code that begins no literal is read on its own. -/
theorem eq_one_of_readsCode (hreads : s.readsCode c rest = true)
    (hwidth : RegexLiteral.width? past c rest = none)
    (h : s.step past c rest position = .ok (k, s')) : k = 1 := by
  rw [step_of_readsCode hreads, hwidth, Except.ok.injEq] at h
  rw [← show _ = k from congrArg Prod.fst h]
  simp only
  split
  · rfl
  · split <;> rfl

end State

/-! ## The moments of code -/

section Moments

variable {text : Text}

/-- Code is read from code to code, and is no regular expression literal. -/
theorem Moment.region_eq_code_iff (text : Text) (m : Moment) :
    m.region text = .code ↔ m.before.inCode = true ∧ m.after.inCode = true ∧
      RegexLiteral.widthAt? text m.index = none := by
  unfold Moment.region State.inCode
  cases m.before.context <;> cases m.after.context <;>
    simp [Context.inCode, Option.isSome_iff_ne_none]

/-- No step reads what is not read. -/
theorem Moment.region_ne_unread (text : Text) (m : Moment) : m.region text ≠ .unread := by
  unfold Moment.region
  split
  all_goals first | decide | (split <;> decide)

/-- A place of the text says what stands there. -/
theorem Cursor.Placed.widthAt?_eq {s : State} {past : Text} {c : Char} {rest : Text}
    {position : Nat} (h : Placed text ⟨s, past, c :: rest, position⟩) :
    text.take position = past.reverse ∧ text.drop (position + 1) = rest ∧
      RegexLiteral.widthAt? text position = RegexLiteral.width? past c rest := by
  have htext : past.reverse ++ c :: rest = text := h.text_eq
  obtain rfl : position = past.length := h.position_eq (by simp)
  have htake : text.take past.length = past.reverse := by
    rw [← htext, List.take_left' List.length_reverse]
  have hdrop : text.drop past.length = c :: rest := by
    rw [← htext, List.drop_left' List.length_reverse]
  refine ⟨htake, ?_, ?_⟩
  · rw [← List.drop_drop, hdrop]
    rfl
  · simp only [RegexLiteral.widthAt?, hdrop, htake, List.reverse_reverse]

/-- A step is visited exactly if it reads code. -/
theorem visit?_eq_of_step {s s' : State} {past : Text} {c : Char} {rest : Text} {position k : Nat}
    (hs : s.Coherent) (hplaced : Placed text ⟨s, past, c :: rest, position⟩)
    (hstep : s.step past c rest position = .ok (k, s')) :
    visit? ⟨s, past, c :: rest, position⟩ =
      if (Moment.mk position (position + k) ((c :: rest).take k) s s').region text = .code then
        some ((Moment.mk position (position + k) ((c :: rest).take k) s s').visit text)
      else none := by
  obtain ⟨htake, hdrop, hwidth⟩ := hplaced.widthAt?_eq
  have hreads := State.readsCode_iff_of_step hs hstep
  have hiff : (Moment.mk position (position + k) ((c :: rest).take k) s s').region text = .code ↔
      s.readsCode c rest = true ∧ RegexLiteral.width? past c rest = none := by
    rw [Moment.region_eq_code_iff, hreads, and_assoc]
    simp only [hwidth]
  by_cases hvisited : s.readsCode c rest = true ∧ RegexLiteral.width? past c rest = none
  · rw [if_pos (hiff.2 hvisited), visit?_of_readsCode hvisited.1 hvisited.2]
    obtain rfl := State.eq_one_of_readsCode hvisited.1 hvisited.2 hstep
    simp [Moment.visit, htake, hdrop]
  · rw [if_neg (mt hiff.1 hvisited)]
    have hnot : (s.readsCode c rest && (RegexLiteral.width? past c rest).isNone) = false := by
      rw [Bool.eq_false_iff, ne_eq, Bool.and_eq_true, Option.isNone_iff_eq_none]
      exact hvisited
    simp [visit?, hnot]

/-- Along a pass the moments of code are the visits. -/
theorem visitsFrom_eq_moments (s : State) (past rest : Text) (position : Nat) (hs : s.Coherent)
    (hplaced : Placed text ⟨s, past, rest, position⟩) :
    visitsFrom s past rest position =
      ((passFrom s past rest position).moments.filter fun m => m.region text = .code).map
        (Moment.visit text) := by
  induction s, past, rest, position using passFrom.induct with
  | case1 s past position => rw [visitsFrom, passFrom]; rfl
  | case2 s past position c r f hf =>
    have hmoments := congrArg Pass.moments (Cursor.pass_of_error hf)
    rw [visitsFrom_of_error hf, show (passFrom s past (c :: r) position).moments = [] from hmoments]
    rfl
  | case3 s past position c r k s' hstep ih =>
    have hmoments := congrArg Pass.moments (Cursor.Next.moments_eq hstep)
    have hnext := ih (hs.step hstep) (hplaced.next (.step hstep))
    rw [visitsFrom_cons hstep, hnext, visit?_eq_of_step hs hplaced hstep,
      show (passFrom s past (c :: r) position).moments = _ from hmoments, List.filter_cons]
    split <;> rename_i hcode <;> simp [hcode, advance, Cursor.pass]

/-- **A walk visits what the pass reads as code**, in the same order and in the same states. -/
theorem visits_eq_moments (text : Text) :
    visits text =
      ((pass text).moments.filter fun m => m.region text = .code).map (Moment.visit text) :=
  visitsFrom_eq_moments {} [] text 0 .fresh (.start text)

/-- A moment of a pass is a step that it takes at a place of the text. -/
theorem exists_step_of_mem_moments {s : State} {past rest : Text} {position : Nat}
    (hs : s.Coherent) (hplaced : Placed text ⟨s, past, rest, position⟩) {m : Moment}
    (hm : m ∈ (passFrom s past rest position).moments) :
    ∃ past c r k, m.before.Coherent ∧ Placed text ⟨m.before, past, c :: r, m.index⟩ ∧
      m.before.step past c r m.index = .ok (k, m.after) ∧ m.stop = m.index + k ∧
      m.read = (c :: r).take k := by
  induction s, past, rest, position using passFrom.induct with
  | case1 s past position =>
    rw [passFrom] at hm
    cases hm
  | case2 s past position c r f hf =>
    have hmoments := congrArg Pass.moments (Cursor.pass_of_error hf)
    rw [show (passFrom s past (c :: r) position).moments = [] from hmoments] at hm
    cases hm
  | case3 s past position c r k s' hstep ih =>
    have hmoments := congrArg Pass.moments (Cursor.Next.moments_eq hstep)
    rw [show (passFrom s past (c :: r) position).moments = _ from hmoments] at hm
    rcases List.mem_cons.1 hm with rfl | hm
    · exact ⟨past, c, r, k, hs, hplaced, hstep, rfl, rfl⟩
    · exact ih (hs.step hstep) (hplaced.next (.step hstep)) hm

/-- Code that is no regular expression literal is read character by character. -/
theorem read_of_region_eq_code {m : Moment} (hm : m ∈ (pass text).moments)
    (hcode : m.region text = .code) : m.stop = m.index + 1 ∧ m.read = [(m.visit text).char] := by
  obtain ⟨past, c, r, k, hs, hplaced, hstep, hstop, hread⟩ :=
    exists_step_of_mem_moments .fresh (.start text) hm
  obtain ⟨hbefore, hafter, hwidth⟩ := (Moment.region_eq_code_iff text m).1 hcode
  have hreads := (State.readsCode_iff_of_step hs hstep).2 ⟨hbefore, hafter⟩
  rw [hplaced.widthAt?_eq.2.2] at hwidth
  obtain rfl := State.eq_one_of_readsCode hreads hwidth hstep
  refine ⟨hstop, ?_⟩
  simp [Moment.visit, hread]

end Moments

/-! ## What the moments cover -/

section Coverage

variable {text : Text}

/-- The steps of a pass read one piece of the text behind the other. -/
theorem Trace.pairwise_stop_le {s t : State} {i : Nat} {ms : List Moment}
    (h : Trace text s i ms t) : ms.Pairwise fun m n => m.stop ≤ n.index := by
  induction h with
  | nil => exact .nil
  | cons _ hrest ih => exact List.pairwise_cons.2 ⟨hrest.le_index, ih⟩

/-- No place is read twice. -/
theorem eq_of_covers {m n : Moment} {i : Nat} (hm : m ∈ (pass text).moments)
    (hn : n ∈ (pass text).moments) (hmi : m.Covers i) (hni : n.Covers i) : m = n := by
  have hpair : (pass text).moments.Pairwise fun m n => ¬ (m.Covers i ∧ n.Covers i) := by
    refine (trace_pass text).pairwise_stop_le.imp fun {m n} hle hboth => ?_
    have hlt : i < m.stop := hboth.1.2
    have hge : n.index ≤ i := hboth.2.1
    omega
  by_contra hne
  have hsymm : Std.Symm fun m n : Moment => ¬ (m.Covers i ∧ n.Covers i) :=
    ⟨fun _ _ hmn hnm => hmn hnm.symm⟩
  exact hpair.forall hm hn hne ⟨hmi, hni⟩

/-- What a pass does not leave unread, one of its steps reads. -/
theorem exists_covers_iff (s : State) (past rest : Text) (position : Nat) {i : Nat}
    (hlo : position ≤ i) (hhi : i < position + rest.length) :
    (∃ m ∈ (passFrom s past rest position).moments, m.Covers i) ↔
      i + (passFrom s past rest position).unread.length < position + rest.length := by
  induction s, past, rest, position using passFrom.induct with
  | case1 s past position =>
    simp only [List.length_nil] at hhi
    omega
  | case2 s past position c r f hf =>
    have hpass : passFrom s past (c :: r) position = ⟨[], s, some f, c :: r⟩ :=
      Cursor.pass_of_error hf
    rw [hpass]
    simp only [List.not_mem_nil, false_and, exists_false, false_iff]
    omega
  | case3 s past position c r k s' hstep ih =>
    have hpass := Cursor.Next.moments_eq hstep
    simp only [Cursor.pass, advance] at hpass
    have hreads := length_reads_passFrom s' (advancePast past (c :: r) k) ((c :: r).drop k)
      (position + k)
    rw [List.length_drop] at hreads ih
    rw [hpass]
    simp only [List.mem_cons, exists_eq_or_imp]
    by_cases hi : i < position + k
    · -- the step reads the place
      exact iff_of_true (.inl ⟨hlo, hi⟩) (by omega)
    · have hnot : ¬ (Moment.mk position (position + k) ((c :: r).take k) s s').Covers i :=
        fun h => hi h.2
      rw [or_iff_right hnot, ih (by omega) (by omega)]
      omega

/-- The place that a step reads is part of what the step reads. -/
theorem regionAt_eq_of_covers {m : Moment} {i : Nat} (hm : m ∈ (pass text).moments)
    (hi : m.Covers i) : regionAt text i = m.region text := by
  have hsome : ((pass text).moments.find? fun n => decide (n.Covers i)).isSome :=
    List.find?_isSome.2 ⟨m, hm, decide_eq_true hi⟩
  obtain ⟨n, hn⟩ := Option.isSome_iff_exists.1 hsome
  have hcovers : n.Covers i := by simpa using List.find?_some hn
  rw [regionAt, hn, eq_of_covers (List.mem_of_find?_eq_some hn) hm hcovers hi]

/-- Nothing is known of a place that no step reads, and of no other. -/
theorem regionAt_eq_unread_iff {i : Nat} :
    regionAt text i = .unread ↔ ¬ ∃ m ∈ (pass text).moments, m.Covers i := by
  constructor
  · rintro hunread ⟨m, hm, hi⟩
    rw [regionAt_eq_of_covers hm hi] at hunread
    exact m.region_ne_unread text hunread
  · intro hnone
    have hfind : (pass text).moments.find? (fun m => decide (m.Covers i)) = none := by
      rw [List.find?_eq_none]
      exact fun m hm hi => hnone ⟨m, hm, of_decide_eq_true hi⟩
    rw [regionAt, hfind]

/-- A place is visited exactly if it is code. -/
theorem exists_visit_iff_regionAt {i : Nat} :
    (∃ v ∈ visits text, v.index = i) ↔ regionAt text i = .code := by
  rw [visits_eq_moments]
  constructor
  · rintro ⟨v, hv, rfl⟩
    obtain ⟨m, hfilter, rfl⟩ := List.mem_map.1 hv
    obtain ⟨hm, hdecide⟩ := List.mem_filter.1 hfilter
    have hcode : m.region text = .code := of_decide_eq_true hdecide
    have hcovers : m.Covers m.index := by
      have hstop := (read_of_region_eq_code hm hcode).1
      exact ⟨Nat.le_refl _, by omega⟩
    rw [← hcode]
    exact regionAt_eq_of_covers hm hcovers
  · intro hcode
    have hcovered : ∃ m ∈ (pass text).moments, m.Covers i := by
      by_contra hnone
      rw [regionAt_eq_unread_iff.2 hnone] at hcode
      cases hcode
    obtain ⟨m, hm, hi⟩ := hcovered
    rw [regionAt_eq_of_covers hm hi] at hcode
    obtain ⟨hlo, hhi⟩ := hi
    rw [(read_of_region_eq_code hm hcode).1] at hhi
    have hindex : m.index = i := by omega
    exact ⟨m.visit text, List.mem_map_of_mem (List.mem_filter.2 ⟨hm, decide_eq_true hcode⟩), hindex⟩

/-- A visit is made where the pass is, in the state that the pass is in. -/
theorem exists_read_of_mem_visits {v : Visit} (hv : v ∈ visits text) :
    ∃ m ∈ (pass text).moments, m.index = v.index ∧ m.read = [v.char] ∧ m.before = v.state := by
  rw [visits_eq_moments] at hv
  obtain ⟨m, hm, rfl⟩ := List.mem_map.1 hv
  obtain ⟨hm, hcode⟩ := List.mem_filter.1 hm
  exact ⟨m, hm, rfl, (read_of_region_eq_code hm (of_decide_eq_true hcode)).2, rfl⟩

end Coverage

/-! ## Blanking -/

/-- What is not visited becomes a blank, if it is no newline. -/
theorem getElem?_blankedFrom_of_not_mem {vs : List Visit} {t : Text} {position i : Nat}
    (hnot : ∀ v ∈ vs, v.index ≠ position + i) (hi : i < t.length) :
    (blankedFrom position vs t)[i]? = some (if t[i] = '\n' then t[i] else ' ') := by
  induction t generalizing position vs i with
  | nil => cases hi
  | cons c t ih =>
    -- behind the first place the search goes on with some of the visits
    have next : ∀ {d : Char} {others : List Visit}, (∀ v ∈ others, v ∈ vs) →
        (i = 0 → d = if c = '\n' then c else ' ') →
          (d :: blankedFrom (position + 1) others t)[i]? =
            some (if (c :: t)[i] = '\n' then (c :: t)[i] else ' ') := by
      intro d others hsub hd
      cases i with
      | zero => rw [List.getElem?_cons_zero, hd rfl, List.getElem_cons_zero]
      | succ i =>
        rw [List.getElem?_cons_succ]
        refine ih (fun v hv => ?_) (Nat.lt_of_succ_lt_succ hi)
        have := hnot v (hsub v hv)
        omega
    cases vs with
    | nil => exact next (fun _ hv => hv) fun _ => by simp
    | cons v others =>
      rw [blankedFrom]
      split
      · rename_i hhere
        refine next (fun _ => List.mem_cons_of_mem v) fun h => ?_
        subst h
        exact absurd (beq_iff_eq.1 hhere) (hnot v List.mem_cons_self)
      · exact next (fun _ hv => hv) fun _ => by simp

/-- Blanking a text keeps its code and its newlines. -/
theorem getElem?_codeOnly {text : Text} {i : Nat} (hi : i < text.length) :
    (codeOnly text)[i]? =
      some (if regionAt text i = .code ∨ text[i] = '\n' then text[i] else ' ') := by
  by_cases hcode : regionAt text i = .code
  · obtain ⟨v, hv, rfl⟩ := exists_visit_iff_regionAt.2 hcode
    have hchar : v.char = text[v.index] :=
      (Option.some.inj ((List.getElem?_eq_getElem hi).symm.trans (getElem?_of_mem_visits hv))).symm
    rw [if_pos (.inl hcode), ← hchar]
    exact getElem?_blankedFrom (pairwise_visitsFrom {} [] text 0).2 (fun _ _ => Nat.zero_le _) hv
      (Nat.zero_add _).symm hi
  · have hnot : ∀ v ∈ visits text, v.index ≠ 0 + i := by
      intro v hv heq
      exact hcode (exists_visit_iff_regionAt.1 ⟨v, hv, by omega⟩)
    rw [codeOnly, getElem?_blankedFrom_of_not_mem hnot hi]
    simp only [hcode, false_or]

/-- **A walk is in step with the pass.**  Its visits come in order, each in the state in which the
pass reads its character; what is not visited is no code or is not read at all; and blanking a text
keeps its length, its code and its newlines, and nothing else. -/
theorem visits_inStep (text : Text) :
    (visits text).Pairwise (·.index < ·.index) ∧
      (∀ v ∈ visits text, ∃ m ∈ (pass text).moments,
        m.index = v.index ∧ m.read = [v.char] ∧ m.before = v.state) ∧
      (∀ i < text.length, (∀ v ∈ visits text, v.index ≠ i) ↔ regionAt text i ≠ .code) ∧
      (∀ i < text.length, regionAt text i = .unread ↔
        text.length ≤ i + (pass text).unread.length) ∧
      (codeOnly text).length = text.length ∧
      ∀ (i : Nat) (hi : i < text.length), (codeOnly text)[i]? =
        some (if regionAt text i = .code ∨ text[i] = '\n' then text[i] else ' ') := by
  refine ⟨(pairwise_visitsFrom {} [] text 0).2, fun v hv => exists_read_of_mem_visits hv, ?_, ?_,
    length_blankedFrom 0 (visits text) text, fun i hi => getElem?_codeOnly hi⟩
  · intro i _
    rw [ne_eq, ← exists_visit_iff_regionAt]
    simp only [not_exists, not_and, ne_eq]
  · intro i hi
    have hcovers : (∃ m ∈ (pass text).moments, m.Covers i) ↔
        i + (pass text).unread.length < 0 + text.length :=
      exists_covers_iff {} [] text 0 (Nat.zero_le i) (by omega)
    rw [regionAt_eq_unread_iff, hcovers, Nat.zero_add]
    exact Nat.not_lt

example : (List.range 11).map (regionAt "x=/a/;'b'/*".toList) =
    [.code, .code, .regexLiteral, .regexLiteral, .regexLiteral, .code, .string, .string, .string,
      .comment, .comment] := by
  decide +kernel

end ModuleSurface.Lexing
