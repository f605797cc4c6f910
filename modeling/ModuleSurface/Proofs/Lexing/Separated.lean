import ModuleSurface.Proofs.Lexing.Continuation
import ModuleSurface.Proofs.Lexing.Inert

/-!
# Closed texts with commas between them

A closed text is read in a larger text as on its own, unless a slash in it is taken there for the
start of a regular expression literal.  It is not if the literal would not be closed in what follows
either (`LeavesSlashes`).

* `Closed.reads` — such a text leads back to the state in front of it;
* `Closed.inertAt` — and it goes through no comment if it has none;
* `row_of_elements` — closed texts with commas between them are a row.
-/

namespace ModuleSurface.Lexing

open Cursor

/-! ## Texts without comments -/

/-- A pass keeps no more than it reads. -/
theorem length_code_le (p : Cursor) : p.pass.code.length ≤ p.rest.length := by
  have hreads := length_reads_passFrom p.state p.past p.rest p.position
  have hkept := length_flatMap_filter_le
    (fun m : Moment => !m.before.context.isComment && !m.after.context.isComment) (·.read)
    p.pass.moments
  rw [Pass.code, List.length_append]
  rw [Cursor.pass] at hkept ⊢
  omega

/-- The step into a comment reads something. -/
theorem State.one_le_of_isComment {s s' : State} (hs : s.Coherent) {past : Text} {c : Char}
    {rest : Text} {position k : Nat} (h : s.step past c rest position = .ok (k, s'))
    (hc : s.context.isComment = false) (hc' : s'.context.isComment = true) : 1 ≤ k := by
  by_cases hcode : s.inCode = true
  · rw [step_of_inCode hcode] at h
    exact one_le_of_stepCode (Except.ok.inj h)
  · -- outside code no step goes into a comment
    rw [Bool.not_eq_true] at hcode
    have hcontext : s'.context.isComment = false := by
      cases move_of_step h with
      | stay => exact hc
      | substitute _ => rfl
      | leave _ => exact isComment_of_inCode (hs.inCode_leave hcode)
      | enter hs' _ | openBracket hs' | closeBracket hs' =>
        rw [hcode] at hs'
        cases hs'
      | resume hs' _ =>
        rw [inCode, hs'] at hcode
        cases hcode
    rw [hc'] at hcontext
    cases hcontext

/-- Where nothing is left out, a run goes through no comment. -/
theorem Cursor.Run.uncommented {p q : Cursor} {ps : List Cursor} (h : Run p ps q)
    (hp : p.state.Coherent) (hcomment : p.state.context.isComment = false)
    (hcode : p.rest.length ≤ p.pass.code.length) :
    ∀ r ∈ ps, r.state.context.isComment = false := by
  induction h with
  | refl => simp
  | @cons p p' q ps hnext _ ih =>
    cases hnext with
    | @step s s' past c rest position k hstep =>
      have hle := length_code_le (advance ⟨s, past, c :: rest, position⟩ k s')
      have hcomment' : s'.context.isComment = false := by
        rw [Bool.eq_false_iff]
        intro hc
        have hk := State.one_le_of_isComment hp hstep hcomment hc
        rw [Next.moments_eq hstep] at hcode
        simp only [Pass.code, hc, Bool.not_true, Bool.and_false, Bool.false_eq_true,
          not_false_eq_true, List.filter_cons_of_neg, advance, List.length_drop,
          List.length_cons] at hcode hle
        omega
      rw [code_of_uncommented hstep hcomment hcomment', List.length_append,
        List.length_take] at hcode
      have hrest : (advance ⟨s, past, c :: rest, position⟩ k s').rest.length ≤
          (advance ⟨s, past, c :: rest, position⟩ k s').pass.code.length := by
        simp only [advance, List.length_drop] at hcode ⊢
        omega
      exact List.forall_mem_cons.2 ⟨hcomment, ih (hp.step hstep) hcomment' hrest⟩

/-! ## Slashes -/

/-- No slash in the code of the text begins a regular expression literal that ends in `more`. -/
def LeavesSlashes (t more : Text) : Prop :=
  ∀ v ∈ visits t, v.char = '/' → RegexLiteral.beginsAfter v.past = true →
    RegexLiteral.bodyWidth? false (v.rest ++ more) = none

instance (t more : Text) : Decidable (LeavesSlashes t more) :=
  inferInstanceAs (Decidable (∀ v ∈ visits t, v.char = '/' →
    RegexLiteral.beginsAfter v.past = true →
      RegexLiteral.bodyWidth? false (v.rest ++ more) = none))

theorem LeavesSlashes.of_append {t more behind : Text} (h : LeavesSlashes t (more ++ behind)) :
    LeavesSlashes t more := by
  intro v hv hchar hbegins
  have hnone := h v hv hchar hbegins
  rw [← List.append_assoc] at hnone
  exact RegexLiteral.bodyWidth?_none_of_append hnone

/-- At the end of a text no literal is left open. -/
theorem leavesSlashes_nil (t : Text) : LeavesSlashes t [] := by
  intro v hv hchar hbegins
  obtain ⟨-, -, -, hwidth⟩ := exists_run_of_mem_visits hv
  rw [RegexLiteral.width?, hchar, hbegins] at hwidth
  rw [List.append_nil]
  simpa using hwidth

/-- The text begins with neither a slash, the second half of a comment's delimiter, nor flags. -/
def Parts (more : Text) : Prop :=
  (more.head? ≠ some '/' ∧ more.head? ≠ some '*') ∧ more.head?.any Text.isIdentChar = false

instance (more : Text) : Decidable (Parts more) :=
  inferInstanceAs (Decidable (_ ∧ _))

theorem parts_closer (b : Bracket) (more : Text) : Parts (b.closer :: more) := by
  cases b <;> exact ⟨⟨by simp [Bracket.closer], by simp [Bracket.closer]⟩, rfl⟩

/-- A slash of code is a visit, is part of a literal, or begins a comment. -/
theorem keepsUnit_of_leavesSlashes {t more : Text} (h : LeavesSlashes t more) (hmore : Parts more)
    {r : Cursor} (hvisits : ∀ v, r.visit? = some v → v ∈ visits t) (hcode : r.state.inCode = true)
    {c : Char} {u : Text} (hrest : r.rest = c :: u) : KeepsUnit r.past c u more := by
  rintro rfl
  refine ⟨fun _ => hmore.1, fun hline hblock => ?_⟩
  by_cases hbegins : RegexLiteral.beginsAfter r.past = true
  · cases hwidth : RegexLiteral.bodyWidth? false u with
    | some w =>
      have hlong := RegexLiteral.bodyWidth?_append_of_some hwidth hmore.2
      simp only [RegexLiteral.width?, hbegins, hwidth, hlong]
    | none =>
      have hreads : r.state.readsCode '/' u = true :=
        readsCode_iff.2 ⟨hcode, fun _ => ⟨hline, hblock⟩, rfl, rfl⟩
      have hvisit : r.visit? = some ⟨r.position, r.past, '/', u, r.state⟩ := by
        rw [visit?, hrest]
        simp [hreads, RegexLiteral.width?, hwidth]
      have hnone := h _ (hvisits _ hvisit) rfl hbegins
      simp only at hnone
      simp only [RegexLiteral.width?, hnone, hwidth]
  · simp [RegexLiteral.width?, hbegins]

theorem keepsSlashes_nil {outer : Text} (houter : RegexLiteral.Opens outer) (past t : Text) :
    KeepsSlashes outer past t [] :=
  keepsSlashes_of_opens houter (by simp) ⟨fun _ => rfl, fun _ _ => rfl, rfl⟩ past

/-! ## A closed text in its place -/

/-- The states along a run are coherent. -/
theorem Cursor.Run.coherent_of_mem {p q : Cursor} {ps : List Cursor} (h : Run p ps q)
    (hp : p.state.Coherent) : ∀ r ∈ ps, r.state.Coherent := by
  induction h with
  | refl => simp
  | cons hnext _ ih =>
    refine List.forall_mem_cons.2 ⟨hp, ih ?_⟩
    cases hnext with
    | step hstep => exact hp.step hstep

theorem State.isComment_within {base s : State} (hbase : base.inCode = true) (hs : s.Coherent)
    (offset : Nat) (hcomment : s.context.isComment = false) :
    (base.within offset s).context.isComment = false := by
  rw [context_within hs]
  split
  · exact isComment_of_inCode hbase
  · exact hcomment

/-- A visit of a closed text is inside the text wherever that stands. -/
theorem Visit.inside_lift {allowed : Char → Prop} {t : Text} (ht : Closed t)
    (hallowed : ∀ v ∈ visits t, v.state.depth = 0 → allowed v.char) {v : Visit} (hv : v ∈ visits t)
    (base : State) (offset : Nat) (outer more : Text) :
    (v.lift base offset outer more).Inside base allowed where
  depth := by
    rw [Visit.depth_lift]
    exact Nat.le_add_right _ _
  closer b hb := by
    have hne := ht.depthOf_ne_zero hv (b := b) hb
    show base.depthOf b < (base.within offset v.state).depthOf b
    rw [State.depthOf_within]
    omega
  outermost hdepth := by
    rw [Visit.depth_lift, Nat.add_eq_left] at hdepth
    exact hallowed v hv hdepth

/-- A closed text is passed in its place as on its own. -/
theorem Closed.exists_moved_run {base : State} {outer t more : Text} (ht : Closed t)
    (hb : base.Coherent) (hbase : base.inCode = true) (houter : RegexLiteral.Opens outer)
    (hmore : Parts more) (hslash : LeavesSlashes t more) (offset : Nat) :
    ∃ ps qs, Run ⟨{}, [], t, 0⟩ ps ⟨(Lexing.pass t).state, t.reverse, [], t.length⟩ ∧
      Run ⟨base, outer, t ++ more, offset⟩ qs
        ⟨base, t.reverse ++ outer, more, offset + t.length⟩ ∧
      qs = ps.map (fun p => (p.extend more).lift base offset outer []) ∧
      qs.filterMap visit? = (visits t).map (Visit.lift base offset outer more) := by
  obtain ⟨ps, hrun⟩ := ht.exists_run
  have hcode : (Lexing.pass t).state.inCode = true := by
    rw [State.inCode, ht.context]
    rfl
  have hvisits : visits t = ps.filterMap visit? := by
    have hvs := hrun.visits_eq
    rwa [Cursor.visits, Cursor.visits, visitsFrom, List.append_nil] at hvs
  -- the text with what follows it, and that behind what stands in front
  obtain ⟨hlong, hlongVisits⟩ := hrun.extend .fresh rfl (.inl hcode) fun r hr hs c u hu =>
    keepsUnit_of_leavesSlashes hslash hmore
      (fun v hv => by rw [hvisits]; exact List.mem_filterMap.2 ⟨r, hr, hv⟩) hs hu
  obtain ⟨hlift, hliftVisits⟩ := hlong.lift hb hbase .fresh hcode
    (Nat.le_of_eq ht.clamped) (keepsSlashes_nil houter _ _) offset
  simp only [Cursor.extend, Cursor.lift, List.append_nil, List.nil_append, Nat.add_zero,
    State.within_neutral .fresh rfl rfl rfl, ht.within_eq, List.map_map] at hlift
  refine ⟨ps, _, hrun, hlift, rfl, ?_⟩
  rw [List.filterMap_map, hvisits, List.map_filterMap]
  refine List.filterMap_congr fun r hr => ?_
  have hmoved : ((r.extend more).lift base offset outer []).visit? = _ :=
    hliftVisits _ (List.mem_map_of_mem hr)
  rw [hlongVisits r hr, Option.map_map] at hmoved
  have hlifted : Visit.lift base offset outer [] ∘ Visit.extend more =
      Visit.lift base offset outer more := by
    funext v
    simp [Visit.lift, Visit.extend]
  rw [hlifted] at hmoved
  exact hmoved

/-- **A closed text leads back to the state in front of it**, where a literal could begin in front
of it and none begins in it that ends behind it; its visits are those of the text on its own. -/
theorem Closed.reads {base : State} {outer t more : Text} (ht : Closed t) (hb : base.Coherent)
    (hbase : base.inCode = true) (houter : RegexLiteral.Opens outer) (hmore : Parts more)
    (hslash : LeavesSlashes t more) (offset : Nat) :
    Reads base outer t more offset ((visits t).map (Visit.lift base offset outer more)) := by
  obtain ⟨ps, qs, -, hrun, -, hvisits⟩ := ht.exists_moved_run hb hbase houter hmore hslash offset
  exact ⟨qs, hrun, hvisits⟩

/-- A closed text without comments goes through no comment in its place. -/
theorem Closed.inertAt {allowed : Char → Prop} {base : State} {outer t more : Text} (ht : Closed t)
    (hcomments : stripComments t = t)
    (hallowed : ∀ v ∈ visits t, v.state.depth = 0 → allowed v.char) (hb : base.Coherent)
    (hbase : base.inCode = true) (houter : RegexLiteral.Opens outer) (hmore : Parts more)
    (hslash : LeavesSlashes t more) (offset : Nat) :
    InertAt allowed base outer t more offset := by
  obtain ⟨ps, qs, hown, hrun, rfl, hvisits⟩ :=
    ht.exists_moved_run hb hbase houter hmore hslash offset
  have huncommented : ∀ p ∈ ps, p.state.context.isComment = false := by
    refine hown.uncommented .fresh rfl ?_
    rw [← stripComments_eq_code, hcomments]
  refine ⟨_, hrun, ?_, ?_⟩
  · intro p hp
    obtain ⟨r, hr, rfl⟩ := List.mem_map.1 hp
    exact State.isComment_within hbase (hown.coherent_of_mem .fresh r hr) offset
      (huncommented r hr)
  · intro v hv
    rw [hvisits] at hv
    obtain ⟨w, hw, rfl⟩ := List.mem_map.1 hv
    exact Visit.inside_lift ht hallowed hw base offset outer more

/-- Behind a phrase, a bracket around a closed text closes behind that text. -/
theorem Closed.matching?_bracket {front t more : Text} (ht : Closed t) (hfront : Phrase front)
    (b : Bracket) (hslash : LeavesSlashes t (b.closer :: more)) :
    matching? (front ++ (b.opener :: t ++ [b.closer] ++ more)) front.length =
      some (front.length + 1 + t.length) := by
  have hreads : Reads (State.openBracket {} b front.length) (b.opener :: front.reverse) t
      (b.closer :: more) (front.length + 1) _ :=
    ht.reads (State.Coherent.fresh.openBracket b _) (by cases b <;> rfl) (opens_opener b _)
      (parts_closer b more) hslash _
  refine hfront.matching?_enclosed b hreads fun u hu hchar => ?_
  obtain ⟨v, hv, rfl⟩ := List.mem_map.1 hu
  have hne := ht.depthOf_ne_zero hv hchar
  show 1 < (State.within _ _ v.state).depthOf b
  rw [State.depthOf_within, State.depthOf_openBracket, if_pos rfl]
  omega

/-! ## Elements -/

/-- An expression that can stand between commas: it is closed and has no comment, there is nothing
to strip, and every comma in it is in a bracket or in a literal. -/
structure Element (t : Text) : Prop where
  /-- It is complete on its own. -/
  closed : Closed t
  /-- There are no comments to take out. -/
  uncommented : stripComments t = t
  /-- There is nothing to strip. -/
  stripped : Text.strip t = t
  /-- It is no blank. -/
  nonempty : t ≠ []
  /-- No comma of its code is outside brackets. -/
  commas : ∀ v ∈ visits t, v.state.depth = 0 → v.char ≠ ','

instance (t : Text) : Decidable (Element t) :=
  decidable_of_iff
    (Closed t ∧ stripComments t = t ∧ Text.strip t = t ∧ t ≠ [] ∧
      ∀ v ∈ visits t, v.state.depth = 0 → v.char ≠ ',')
    ⟨fun ⟨h₁, h₂, h₃, h₄, h₅⟩ => ⟨h₁, h₂, h₃, h₄, h₅⟩,
      fun ⟨h₁, h₂, h₃, h₄, h₅⟩ => ⟨h₁, h₂, h₃, h₄, h₅⟩⟩

/-- What stands behind a text in a row, where `ts` are the texts behind it and `more` is what
follows the row. -/
def behind (more : Text) : List Text → Text
  | [] => more
  | ts => ", ".toList ++ Text.join ", ".toList ts ++ more

/-- No slash of a text in a row begins a literal that ends behind the text. -/
def SlashesApart (more : Text) : List Text → Prop
  | [] => True
  | t :: ts => LeavesSlashes t (behind more ts) ∧ SlashesApart more ts

instance decidableSlashesApart (more : Text) : ∀ ts, Decidable (SlashesApart more ts)
  | [] => instDecidableTrue
  | t :: ts =>
    have := decidableSlashesApart more ts
    inferInstanceAs (Decidable (LeavesSlashes t (behind more ts) ∧ SlashesApart more ts))

theorem SlashesApart.of_append {more last : Text} {ts : List Text}
    (h : SlashesApart (more ++ last) ts) : SlashesApart more ts := by
  induction ts with
  | nil => trivial
  | cons t ts ih =>
    refine ⟨?_, ih h.2⟩
    have hbehind : behind (more ++ last) ts = behind more ts ++ last := by
      cases ts <;> simp [behind]
    exact (hbehind ▸ h.1).of_append

/-- **Elements with commas between them are a row** where a literal could begin in front of them. -/
theorem row_of_elements {base : State} (hb : base.Coherent) (hbase : base.inCode = true)
    {more : Text} (hmore : Parts more) {ts : List Text} (hne : ts ≠ []) (hts : ∀ t ∈ ts, Element t)
    (hslash : SlashesApart more ts) {outer front : Text} (hfront : front = [] ∨ front = [' '])
    (houter : RegexLiteral.Opens (front ++ outer)) (offset : Nat) :
    Row base more outer offset front ts := by
  induction ts generalizing front outer offset with
  | nil => exact absurd rfl hne
  | cons t ts ih =>
    have ht := hts t List.mem_cons_self
    have hreverse : front.reverse = front := by
      rcases hfront with rfl | rfl <;> rfl
    have hblanks : Inert (· ≠ ',') front :=
      inert_blanks (by rcases hfront with rfl | rfl <;> simp)
    have hhere : ∀ more, Parts more → LeavesSlashes t more →
        InertAt (· ≠ ',') base outer (front ++ t) more offset := by
      intro more hmore hslash
      refine (hblanks.inertAt hb hbase outer (t ++ more) offset).append ?_
      rw [hreverse]
      exact ht.closed.inertAt ht.uncommented ht.commas hb hbase houter hmore hslash _
    have htrimmed : t.Trimmed := .of_strip ht.stripped ht.nonempty
    cases ts with
    | nil => exact .last htrimmed (hhere more hmore hslash.1)
    | cons u us =>
      have hcomma : ∀ more, Parts (',' :: more) := fun _ => ⟨⟨by simp, by simp⟩, rfl⟩
      refine .cons htrimmed (hhere _ (hcomma _) hslash.1) ?_
      exact ih (by simp) (fun v hv => hts v (List.mem_cons_of_mem _ hv)) hslash.2 (.inr rfl)
        ⟨rfl, rfl⟩ _

/-- A row is inert where it stands. -/
theorem Row.inertAt {base : State} (hb : base.Coherent) (hbase : base.inCode = true)
    {more outer front : Text} {offset : Nat} {ts : List Text}
    (h : Row base more outer offset front ts) :
    InertAt (fun _ => True) base outer (front ++ Text.join ", ".toList ts) more offset := by
  induction h with
  | last _ ht =>
    rw [Text.join, List.intercalate_singleton]
    exact ht.mono fun _ _ => trivial
  | @cons outer front t u us offset _ ht _ ih =>
    have hcomma : Inert (fun _ => True) [','] := .plain (by decide)
    have hfirst := ht.mono fun _ _ => trivial
    have hsplit : front ++ Text.join ", ".toList (t :: u :: us) =
        front ++ t ++ ([','] ++ ([' '] ++ Text.join ", ".toList (u :: us))) := by
      simpa using join_row front t u us []
    rw [hsplit]
    refine InertAt.append ?_ ((hcomma.inertAt hb hbase _ _ _).append ih)
    simpa using hfirst

end ModuleSurface.Lexing
