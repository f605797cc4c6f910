import ModuleSurface.Proofs.Statement.Single

/-!
# Pieces of code that are read alike everywhere

A piece is `Inert` if it leads back to the state in front of it wherever it stands in code, and goes
through no comment.  Unlike a closed text it need not be told what is around it: a slash may stand
in its strings.  Plain characters and strings are inert, and so are brackets around inert pieces.

* `Inert.stripComments` — there are no comments to take out of an inert text;
* `Inert.isBracketed` — a bracket around an inert text closes at the end;
* `splitCommas_join` — inert texts without outermost commas are told apart by commas between them.
-/

namespace ModuleSurface.Lexing

open Cursor

/-- Outside comments a run keeps what it reads. -/
theorem Cursor.Run.code_eq {p q : Cursor} {ps : List Cursor} (h : Run p ps q)
    (hps : ∀ r ∈ ps, r.state.context.isComment = false)
    (hq : q.state.context.isComment = false) : ∃ read, p.rest = read ++ q.rest ∧
      p.pass.code = read ++ q.pass.code := by
  induction h with
  | refl => exact ⟨[], rfl, rfl⟩
  | @cons p p' q ps hnext hrun ih =>
    obtain ⟨read, hread, hcode⟩ := ih (fun r hr => hps r (List.mem_cons_of_mem _ hr)) hq
    have hp' : p'.state.context.isComment = false := by
      cases hrun with
      | refl => exact hq
      | cons _ _ => exact hps _ (List.mem_cons_of_mem _ List.mem_cons_self)
    cases hnext with
    | @step s s' past c rest position k hstep =>
      refine ⟨(c :: rest).take k ++ read, ?_, ?_⟩
      · rw [List.append_assoc, ← hread]
        exact (List.take_append_drop k (c :: rest)).symm
      · rw [code_of_uncommented hstep (hps _ List.mem_cons_self) hp', hcode, List.append_assoc]

/-! ## Strings -/

/-- The quotes of a string. -/
inductive Quote where
  | single
  | double
  deriving DecidableEq, Repr

/-- The character at both ends of a string. -/
def Quote.char : Quote → Char
  | single => '\''
  | double => '"'

/-- The context inside a string. -/
def Quote.context : Quote → Context
  | single => .singleQuote
  | double => .doubleQuote

/-- The text between the quotes of a string: no newline, and the quote and the backslash only behind
a backslash. -/
def isStringBody (quote : Char) : Text → Bool
  | [] => true
  | c :: t =>
    if c = '\\' then
      match t with
      | [] => false
      | d :: t => d != '\n' && isStringBody quote t
    else c != quote && c != '\n' && isStringBody quote t

/-- The text between the quotes of any string: the quote, the newline and the backslash only behind
a backslash. -/
def isEscaped (quote : Char) : Text → Bool
  | [] => true
  | c :: t =>
    if c = '\\' then
      match t with
      | [] => false
      | _ :: t => isEscaped quote t
    else c != quote && c != '\n' && isEscaped quote t

theorem isEscaped_of_isStringBody {quote : Char} {t : Text} (h : isStringBody quote t = true) :
    isEscaped quote t = true := by
  fun_induction isStringBody quote t with
  | case1 => rfl
  | case2 => cases h
  | case3 d t ih =>
    rw [Bool.and_eq_true] at h
    exact ih h.2
  | case4 c t hc ih =>
    rw [Bool.and_eq_true] at h
    rw [isEscaped.eq_def]
    simp only [hc, if_false, h.1, ih h.2, Bool.and_self]

namespace Quote

variable {q : Quote}

theorem step_of_context {s : State} (hs : s.context = q.context) (past : Text) (c : Char)
    (rest : Text) (position : Nat) : s.step past c rest position = s.stepString q.char c := by
  cases q <;> rw [State.step, hs] <;> rfl

theorem not_isComment {s : State} (hs : s.context = q.context) :
    s.context.isComment = false ∧ s.inCode = false := by
  rw [State.inCode, hs]
  cases q <;> exact ⟨rfl, rfl⟩

/-- One unit of the text between the quotes, and the units behind it. -/
theorem run_unit {s : State} {past unit t more : Text} {position : Nat} {c : Char} {r : Text}
    (hstep : s.step past c r position = .ok (unit.length, s)) (hunit : c :: r = unit ++ (t ++ more))
    (h : ∃ ps, Run ⟨s, unit.reverse ++ past, t ++ more, position + unit.length⟩ ps
        ⟨s, t.reverse ++ (unit.reverse ++ past), more, position + unit.length + t.length⟩ ∧
      ∀ p ∈ ps, p.state = s) :
    ∃ ps, Run ⟨s, past, unit ++ t ++ more, position⟩ ps
        ⟨s, (unit ++ t).reverse ++ past, more, position + (unit ++ t).length⟩ ∧
      ∀ p ∈ ps, p.state = s := by
  obtain ⟨ps, hrun, hps⟩ := h
  have hall := Run.cons (.of_unit hstep hunit) hrun
  rw [hunit] at hall
  rw [List.append_assoc, List.reverse_append, List.append_assoc, List.length_append,
    ← Nat.add_assoc]
  refine ⟨_, hall, ?_⟩
  intro p hp
  rcases List.mem_cons.1 hp with rfl | hp
  · rfl
  · exact hps p hp

/-- The text between the quotes leads from one quote to the other. -/
theorem run_body {s : State} (hs : s.context = q.context) {t : Text}
    (ht : isEscaped q.char t = true) (past more : Text) (position : Nat) :
    ∃ ps, Run ⟨s, past, t ++ more, position⟩ ps ⟨s, t.reverse ++ past, more, position + t.length⟩ ∧
      ∀ p ∈ ps, p.state = s := by
  fun_induction isEscaped q.char t generalizing past position with
  | case1 => exact ⟨[], .refl _, by simp⟩
  | case2 => cases ht
  | case3 d t ih =>
    -- a backslash is read with the character behind it
    have hstep : s.step past '\\' (d :: (t ++ more)) position = .ok (['\\', d].length, s) := by
      rw [step_of_context hs]
      rfl
    exact run_unit hstep rfl (ih ht _ _)
  | case4 c t hc ih =>
    simp only [Bool.and_eq_true, bne_iff_ne] at ht
    have hstep : s.step past c (t ++ more) position = .ok ([c].length, s) := by
      simp [step_of_context hs, State.stepString, hc, ht.1.1, ht.1.2]
    exact run_unit hstep rfl (ih ht.2 _ _)

/-- The state between the quotes of a string that begins at an offset. -/
theorem step_open {s : State} (hs : s.inCode = true) (q : Quote) (past rest : Text)
    (position : Nat) :
    s.step past q.char rest position = .ok (1, s.enter q.context position) := by
  rw [State.step_of_inCode hs]
  cases q <;> rfl

theorem step_close (s : State) (q : Quote) (position : Nat) (past rest : Text)
    (position' : Nat) :
    (s.enter q.context position).step past q.char rest position' = .ok (1, s) := by
  rw [step_of_context rfl]
  cases q <;> rfl

/-- A string leads back to the state in front of it, and nothing is visited in it. -/
theorem run_string (q : Quote) {s : State} (hs : s.inCode = true) {t : Text}
    (ht : isEscaped q.char t = true) (past more : Text) (position : Nat) :
    ∃ ps, Run ⟨s, past, q.char :: t ++ [q.char] ++ more, position⟩ ps
        ⟨s, (q.char :: t ++ [q.char]).reverse ++ past, more,
          position + (q.char :: t ++ [q.char]).length⟩ ∧
      ∀ p ∈ ps, p.state.context.isComment = false ∧ p.visit? = none := by
  obtain ⟨ps, hrun, hps⟩ := run_body (s := s.enter q.context position) (q := q) rfl ht
    (q.char :: past) (q.char :: more) (position + 1)
  have hfirst := Next.step (step_open hs q past (t ++ q.char :: more) position)
  have hlast := Next.step (step_close s q position (t.reverse ++ q.char :: past) more
    (position + 1 + t.length))
  have hall := Run.cons hfirst (hrun.append (.single hlast))
  have hstart : q.char :: t ++ [q.char] ++ more = q.char :: (t ++ q.char :: more) := by
    simp
  have hend : (⟨s, (q.char :: t ++ [q.char]).reverse ++ past, more,
      position + (q.char :: t ++ [q.char]).length⟩ : Cursor) =
        advance ⟨s.enter q.context position, t.reverse ++ q.char :: past, q.char :: more,
          position + 1 + t.length⟩ 1 s := by
    simp [advance, advancePast, Nat.add_comm, Nat.add_left_comm]
  rw [hstart, hend]
  refine ⟨_, hall, ?_⟩
  intro p hp
  rw [List.mem_cons, List.mem_append, List.mem_singleton] at hp
  have hinside : ∀ p : Cursor, p.state = s.enter q.context position →
      p.state.context.isComment = false ∧ p.visit? = none := by
    intro p hp
    obtain ⟨hcomment, hcode⟩ := not_isComment (q := q) (s := p.state) (by rw [hp]; rfl)
    refine ⟨hcomment, ?_⟩
    rw [visit?]
    split
    · rfl
    · simp [State.readsCode, hcode]
  rcases hp with rfl | hp | rfl
  · refine ⟨State.isComment_of_inCode hs, ?_⟩
    cases q <;> simp [visit?, State.readsCode, Context.ofQuote?, Quote.char]
  · exact hinside p (hps p hp)
  · exact hinside _ rfl

end Quote

/-- A visit inside a piece that is read from the state `base` on: no bracket around the piece is
closed there, and outside the brackets of the piece the character is an allowed one. -/
structure Visit.Inside (base : State) (allowed : Char → Prop) (v : Visit) : Prop where
  /-- What is open in front of the piece stays open. -/
  depth : base.depth ≤ v.state.depth
  /-- A closer closes a bracket of the piece. -/
  closer : ∀ b : Bracket, v.char = b.closer → base.depthOf b < v.state.depthOf b
  /-- Outside the brackets of the piece only allowed characters stand. -/
  outermost : v.state.depth = base.depth → allowed v.char

theorem Visit.char_of_begins {v : Visit} {c : Char} (target : Text)
    (h : v.begins (c :: target) = true) : v.char = c := by
  rw [Visit.begins, Bool.and_eq_true, List.isPrefixOf_cons_cons, Bool.and_eq_true, beq_iff_eq] at h
  exact h.1.1.symm

/-- Of the visits of a bracket only the opener is outside brackets. -/
theorem Visit.inside_bracket {b : Bracket} {base : State} {offset : Nat} {allowed : Char → Prop}
    {vs : List Visit} (hvs : ∀ v ∈ vs, v.Inside (base.openBracket b offset) allowed)
    (outer inner past more : Text) (last : Nat) :
    ∀ v ∈ ⟨offset, outer, b.opener, inner, base⟩ :: vs ++
        [⟨last, past, b.closer, more, base.openBracket b offset⟩],
      v.Inside base (· = b.opener) := by
  intro v hv
  have hdepth := State.depth_openBracket base b offset
  rw [List.mem_append, List.mem_cons, List.mem_singleton] at hv
  rcases hv with (rfl | hv) | rfl
  · refine ⟨Nat.le_refl _, fun b' hb' => ?_, fun _ => rfl⟩
    have hchar : b.opener = b'.closer := hb'
    cases b <;> cases b' <;> cases hchar
  · obtain ⟨hle, hcloser, -⟩ := hvs v hv
    refine ⟨by omega, fun b' hb' => ?_, fun h => by omega⟩
    have hlt := hcloser b' hb'
    rw [State.depthOf_openBracket] at hlt
    omega
  · refine ⟨by simp only; omega, fun b' hb' => ?_, fun h => by simp only at h; omega⟩
    have hchar : b.closer = b'.closer := hb'
    obtain rfl : b = b' := by
      cases b <;> cases b' <;> first | rfl | cases hchar
    simp only [State.depthOf_openBracket, if_true]
    omega

/-- Between `outer`, in reverse, and `more` the text leads from `base` back to that state and goes
through no comment; outside its own brackets only allowed characters are code. -/
def InertAt (allowed : Char → Prop) (base : State) (outer t more : Text) (offset : Nat) : Prop :=
  ∃ ps, Run ⟨base, outer, t ++ more, offset⟩ ps
      ⟨base, t.reverse ++ outer, more, offset + t.length⟩ ∧
    (∀ p ∈ ps, p.state.context.isComment = false) ∧
    ∀ v ∈ ps.filterMap visit?, v.Inside base allowed

namespace InertAt

variable {allowed allowed' : Char → Prop} {base : State} {outer t u more : Text} {offset : Nat}

theorem mono (h : InertAt allowed base outer t more offset) (hall : ∀ c, allowed c → allowed' c) :
    InertAt allowed' base outer t more offset := by
  obtain ⟨ps, hrun, hcomments, hvisits⟩ := h
  exact ⟨ps, hrun, hcomments, fun v hv =>
    ⟨(hvisits v hv).depth, (hvisits v hv).closer, fun hd => hall _ ((hvisits v hv).outermost hd)⟩⟩

theorem append (ht : InertAt allowed base outer t (u ++ more) offset)
    (hu : InertAt allowed base (t.reverse ++ outer) u more (offset + t.length)) :
    InertAt allowed base outer (t ++ u) more offset := by
  obtain ⟨ps, hps, hpsc, hpsv⟩ := ht
  obtain ⟨qs, hqs, hqsc, hqsv⟩ := hu
  refine ⟨ps ++ qs, ?_, ?_, ?_⟩
  · have hrun := hps.append hqs
    rw [List.append_assoc, List.reverse_append, List.append_assoc, List.length_append,
      ← Nat.add_assoc]
    exact hrun
  · intro p hp
    exact (List.mem_append.1 hp).elim (hpsc p) (hqsc p)
  · intro v hv
    rw [List.filterMap_append] at hv
    exact (List.mem_append.1 hv).elim (hpsv v) (hqsv v)

/-- A bracket around an inert text: how it is read, and what is visited in it. -/
theorem exists_bracket {b : Bracket} (hb : base.Coherent) (hbase : base.inCode = true)
    (h : InertAt allowed (base.openBracket b offset) (b.opener :: outer) t (b.closer :: more)
      (offset + 1)) :
    ∃ ps vs, Run ⟨base, outer, b.opener :: t ++ [b.closer] ++ more, offset⟩ ps
        ⟨base, (b.opener :: t ++ [b.closer]).reverse ++ outer, more,
          offset + (b.opener :: t ++ [b.closer]).length⟩ ∧
      (∀ p ∈ ps, p.state.context.isComment = false) ∧
      ps.filterMap visit? = ⟨offset, outer, b.opener, t ++ b.closer :: more, base⟩ :: vs ++
        [⟨offset + 1 + t.length, t.reverse ++ b.opener :: outer, b.closer, more,
          base.openBracket b offset⟩] ∧
      ∀ v ∈ vs, v.Inside (base.openBracket b offset) allowed := by
  have hcode : (base.openBracket b offset).inCode = true := by
    cases b <;> exact hbase
  obtain ⟨ps, hrun, hcomments, hvisits⟩ := h
  refine ⟨_, ps.filterMap visit?, hrun.bracket hb hbase b, ?_,
    filterMap_visit?_bracket hb hbase b t outer more offset ps, hvisits⟩
  intro p hp
  rw [List.mem_cons, List.mem_append, List.mem_singleton] at hp
  rcases hp with rfl | hp | rfl
  · exact State.isComment_of_inCode hbase
  · exact hcomments p hp
  · exact State.isComment_of_inCode hcode

/-- Of a bracket around an inert text only the opener stands outside brackets. -/
theorem bracket {b : Bracket} (hb : base.Coherent) (hbase : base.inCode = true)
    (h : InertAt allowed (base.openBracket b offset) (b.opener :: outer) t (b.closer :: more)
      (offset + 1)) :
    InertAt (· = b.opener) base outer (b.opener :: t ++ [b.closer]) more offset := by
  obtain ⟨ps, vs, hrun, hcomments, hvisits, hvs⟩ := h.exists_bracket hb hbase
  refine ⟨ps, hrun, hcomments, ?_⟩
  rw [hvisits]
  exact Visit.inside_bracket hvs outer _ _ more _

theorem reads (h : InertAt allowed base outer t more offset) :
    ∃ vs, Reads base outer t more offset vs ∧ ∀ v ∈ vs, v.Inside base allowed := by
  obtain ⟨ps, hrun, -, hvisits⟩ := h
  exact ⟨_, ⟨ps, hrun, rfl⟩, hvisits⟩

/-! ## A whole text -/

theorem closed (h : InertAt allowed {} [] t [] 0) : Closed t := by
  obtain ⟨vs, hreads, -⟩ := h.reads
  exact hreads.closed.1

/-- Outside every bracket only allowed characters are visited. -/
theorem allowed_of_mem_visits (h : InertAt allowed {} [] t [] 0) {v : Visit} (hv : v ∈ visits t)
    (hd : v.state.depth = 0) : allowed v.char := by
  obtain ⟨vs, hreads, hvs⟩ := h.reads
  rw [hreads.closed.2] at hv
  exact (hvs v hv).outermost hd

/-- What is not allowed is not found outside brackets. -/
theorem findOutermost?_eq_none (h : InertAt allowed {} [] t [] 0) {c : Char} (hc : ¬ allowed c)
    (target : Text) (start : Nat) (angles : Bool) :
    findOutermost? t (c :: target) start angles = none := by
  rw [Option.eq_none_iff_forall_ne_some]
  intro i hi
  obtain ⟨v, hv, hdepth, hbegins, -⟩ := exists_visit_of_findOutermost? hi
  rw [← Visit.char_of_begins _ hbegins] at hc
  exact hc (h.allowed_of_mem_visits hv hdepth)

/-- There are no comments to take out. -/
theorem stripComments (h : InertAt allowed {} [] t [] 0) : stripComments t = t := by
  obtain ⟨ps, hrun, hcomments, -⟩ := h
  obtain ⟨read, hread, hcode⟩ := hrun.code_eq hcomments rfl
  have hend : (Cursor.pass ⟨{}, t.reverse ++ [], [], 0 + t.length⟩).code = [] := by
    simp [Cursor.pass, passFrom, Pass.code]
  simp only [List.append_nil] at hread hcode hend
  rw [stripComments_eq_code, hcode, hend, List.append_nil, hread]

/-- A bracket around an inert text closes at the end. -/
theorem isBracketed {b : Bracket}
    (h : InertAt allowed (State.openBracket {} b 0) [b.opener] t [b.closer] (0 + 1)) :
    isBracketed (b.opener :: t ++ [b.closer]) b.opener = true := by
  obtain ⟨ps, vs, hrun, -, hvisits, hvs⟩ := h.exists_bracket .fresh rfl
  have hreads : Reads {} [] (b.opener :: t ++ [b.closer]) [] 0 _ := ⟨ps, hrun, hvisits⟩
  have hall := hreads.closed.2
  have hinside : ∀ u ∈ vs, u.char = b.closer → u.state.depthOf b ≠ State.depthOf {} b + 1 := by
    intro u hu hchar
    have hlt := (hvs u hu).closer b hchar
    rw [State.depthOf_openBracket, if_pos rfl] at hlt
    omega
  have hsplit := (hall.trans (List.append_nil _).symm).trans (List.nil_append _).symm
  have hmatch : matching? (b.opener :: t ++ [b.closer]) 0 = some (0 + 1 + t.length) :=
    matching?_of_visits hsplit rfl rfl (by simp [State.depthOf_openBracket]) hinside
  have hlength : (b.opener :: t ++ [b.closer]).length - 1 = 0 + 1 + t.length := by
    simp [Nat.add_comm]
  rw [Lexing.isBracketed, hmatch, hlength]
  simp

end InertAt

/-- Wherever the text stands in code, it leads back to the state in front of it and goes through no
comment; outside its own brackets only allowed characters are code. -/
def Inert (allowed : Char → Prop) (t : Text) : Prop :=
  ∀ (base : State) (outer more : Text) (offset : Nat), base.Coherent → base.inCode = true →
    ∃ ps, Run ⟨base, outer, t ++ more, offset⟩ ps
        ⟨base, t.reverse ++ outer, more, offset + t.length⟩ ∧
      (∀ p ∈ ps, p.state.context.isComment = false) ∧
      ∀ v ∈ ps.filterMap visit?, v.Inside base allowed

namespace Inert

variable {allowed allowed' : Char → Prop} {t u : Text}

/-! ## Putting pieces together -/

/-- The text in one place. -/
theorem inertAt (h : Inert allowed t) {base : State} (hb : base.Coherent)
    (hbase : base.inCode = true) (outer more : Text) (offset : Nat) :
    InertAt allowed base outer t more offset :=
  h base outer more offset hb hbase

theorem mono (h : Inert allowed t) (hall : ∀ c, allowed c → allowed' c) : Inert allowed' t :=
  fun _ outer more offset hb hbase => (h.inertAt hb hbase outer more offset).mono hall

theorem nil : Inert allowed [] :=
  fun _ _ _ _ _ _ => ⟨[], .refl _, by simp, by simp⟩

theorem append (ht : Inert allowed t) (hu : Inert allowed u) : Inert allowed (t ++ u) :=
  fun _ outer more offset hb hbase =>
    (ht.inertAt hb hbase outer (u ++ more) offset).append (hu.inertAt hb hbase _ more _)

/-- Plain characters are read one by one. -/
theorem plain (h : ∀ c ∈ t, Plain c ∧ allowed c) : Inert allowed t := by
  induction t with
  | nil => exact nil
  | cons c t ih =>
    obtain ⟨hc, hallowed⟩ := h c List.mem_cons_self
    have hsingle : Inert allowed [c] := by
      intro base outer more offset hb hbase
      refine ⟨_, .single (.of_unit (State.step_of_plain hbase hc outer more offset) rfl), ?_, ?_⟩
      · intro p hp
        rw [List.mem_singleton.1 hp]
        exact State.isComment_of_inCode hbase
      · intro v hv
        rw [List.filterMap_cons, List.singleton_append, visit?_of_plain hbase hc,
          List.filterMap_nil, List.mem_singleton] at hv
        subst hv
        refine ⟨Nat.le_refl _, fun b hb => ?_, fun _ => hallowed⟩
        have hchar : c = b.closer := hb
        rw [hchar] at hc
        cases b <;> exact absurd hc (by decide)
    exact hsingle.append (ih fun d hd => h d (List.mem_cons_of_mem _ hd))

/-- Pieces with an allowed text between them are a piece. -/
theorem join {sep : Text} (hsep : Inert allowed sep) {ts : List Text}
    (h : ∀ t ∈ ts, Inert allowed t) : Inert allowed (Text.join sep ts) := by
  induction ts with
  | nil => exact nil
  | cons t ts ih =>
    have ht := h t List.mem_cons_self
    cases ts with
    | nil => simpa [Text.join] using ht
    | cons u us =>
      rw [Text.join, List.intercalate_cons_cons]
      exact (ht.append hsep).append (ih fun v hv => h v (List.mem_cons_of_mem _ hv))

/-! ## Brackets -/

/-- Of a bracket around an inert text only the opener stands outside brackets. -/
theorem bracket (h : Inert allowed t) (b : Bracket) :
    Inert (· = b.opener) (b.opener :: t ++ [b.closer]) := by
  intro base outer more offset hb hbase
  have hcode : (base.openBracket b offset).inCode = true := by
    cases b <;> exact hbase
  exact InertAt.bracket hb hbase (h.inertAt (hb.openBracket b offset) hcode _ _ _)

/-! ## Strings -/

/-- A string in quotes is inert, whatever stands in it. -/
theorem string (q : Quote) (h : isEscaped q.char t = true) :
    Inert allowed (q.char :: t ++ [q.char]) := by
  intro base outer more offset hb hbase
  obtain ⟨ps, hrun, hps⟩ := q.run_string hbase h outer more offset
  refine ⟨ps, hrun, fun p hp => (hps p hp).1, ?_⟩
  intro v hv
  obtain ⟨p, hp, hvisit⟩ := List.mem_filterMap.1 hv
  rw [(hps p hp).2] at hvisit
  cases hvisit

/-! ## Texts that are inert anywhere -/

theorem reads (h : Inert allowed t) (outer more : Text) (offset : Nat) :
    ∃ vs, Reads {} outer t more offset vs ∧ ∀ v ∈ vs, v.Inside {} allowed :=
  (h.inertAt .fresh rfl outer more offset).reads

/-- A whole text. -/
theorem whole (h : Inert allowed t) : InertAt allowed {} [] t [] 0 :=
  h.inertAt .fresh rfl [] [] 0

theorem closed (h : Inert allowed t) : Closed t :=
  h.whole.closed

/-- Outside every bracket only allowed characters are visited. -/
theorem allowed_of_mem_visits (h : Inert allowed t) {v : Visit} (hv : v ∈ visits t)
    (hd : v.state.depth = 0) : allowed v.char :=
  h.whole.allowed_of_mem_visits hv hd

/-- What is not allowed is not found outside brackets. -/
theorem findOutermost?_eq_none (h : Inert allowed t) {c : Char} (hc : ¬ allowed c) (target : Text)
    (start : Nat) (angles : Bool) : findOutermost? t (c :: target) start angles = none :=
  h.whole.findOutermost?_eq_none hc target start angles

/-- A sign is found behind a piece that does not have it outside its brackets. -/
theorem findOutermost?_sign {c : Char} (h : Inert (· ≠ c) t) (hc : Plain c)
    (hident : Text.isIdentChar c = false) (more : Text) :
    findOutermost? (t ++ c :: more) [c] 0 false = some t.length := by
  obtain ⟨vs, hreads, hvs⟩ := h.reads [] (c :: more) 0
  have hsign : visitsFrom {} (t.reverse ++ []) (c :: more) (0 + t.length) = _ :=
    (Reads.plain rfl hc (t.reverse ++ []) more (0 + t.length)).visits_eq
  have hvisits : visits (t ++ c :: more) = vs ++ _ := hreads.visits_eq
  rw [hsign] at hvisits
  have hnone : (vs.filter (·.state.depth == 0)).find?
      (fun v => decide (0 ≤ v.index) && v.begins [c]) = none := by
    rw [List.find?_eq_none]
    intro v hv hfound
    rw [List.mem_filter, beq_iff_eq] at hv
    have hbegins := (Bool.and_eq_true_iff.1 hfound).2
    exact (hvs v hv.1).outermost hv.2 (Visit.char_of_begins _ hbegins)
  rw [findOutermost?, outermost, outermostFrom_false, hvisits, List.filter_append,
    List.find?_append, hnone, Option.none_or, List.singleton_append,
    List.filter_cons_of_pos (by rfl), List.find?_cons_of_pos]
  · simp
  · simp [Visit.begins, hident]

theorem unbroken (h : Inert allowed t) (hbreak : ∀ c, allowed c → c ≠ ';' ∧ c ≠ '\n') :
    Unbroken t := by
  intro v hv htop
  refine hbreak _ (h.allowed_of_mem_visits hv ?_)
  by_contra hd
  rw [State.atTopLevel_of_depth hd] at htop
  cases htop

/-- There are no comments to take out. -/
theorem stripComments (h : Inert allowed t) : stripComments t = t :=
  h.whole.stripComments

/-- The text in a bracket that is the whole text. -/
theorem enclosed (h : Inert allowed t) (b : Bracket) :
    InertAt allowed (State.openBracket {} b 0) [b.opener] t [b.closer] (0 + 1) :=
  h.inertAt (State.Coherent.fresh.openBracket b 0) (by cases b <;> rfl) _ _ _

/-- A bracket around an inert text closes at the end. -/
theorem isBracketed (h : Inert allowed t) (b : Bracket) :
    isBracketed (b.opener :: t ++ [b.closer]) b.opener = true :=
  (h.enclosed b).isBracketed

end Inert

/-! ## Pieces between commas -/

/-- The offsets of the outermost commas in a text that begins at `offset`. -/
def commasFrom (outer text : Text) (offset : Nat) : List Nat :=
  ((outermostFrom false 0 (visitsFrom {} outer text offset)).filter (·.char == ',')).map (·.index)

/-- A text that can stand between commas: it has none outside its brackets, and there is nothing to
strip. -/
structure Item (t : Text) : Prop where
  /-- It is read alike everywhere and has no outermost comma. -/
  inert : Inert (· ≠ ',') t
  /-- There is nothing to strip. -/
  tight : t.Tight

/-- Items with commas between them are inert. -/
theorem inert_items {ts : List Text} (h : ∀ t ∈ ts, Item t) :
    Inert (fun _ => True) (Text.join ", ".toList ts) :=
  .join (.plain (by decide)) fun t ht => (h t ht).inert.mono fun _ _ => trivial

/-- One item is one piece, also where angle brackets are counted. -/
theorem Item.splitTypedCommas {t : Text} (h : Item t) : splitTypedCommas t = [t] := by
  have hnone : (outermost t true).filter (·.char == ',') = [] := by
    rw [List.filter_eq_nil_iff]
    intro v hv hcomma
    obtain ⟨hmem, hdepth⟩ := mem_of_mem_outermostFrom hv
    exact h.inert.allowed_of_mem_visits hmem hdepth (beq_iff_eq.1 hcomma)
  rw [Lexing.splitTypedCommas, splitOutermost, hnone, List.map_nil, cutAt, List.map_singleton,
    h.tight.strip_eq, List.filter_cons_of_pos (by simpa using h.tight.ne_nil)]
  rfl

theorem splitCommas_eq (text : Text) :
    splitCommas text =
      ((cutAt 0 text (commasFrom [] text 0)).map Text.strip).filter (!·.isEmpty) := rfl

/-- A piece without outermost commas has none of the commas of a text. -/
theorem Reads.commasFrom_append {outer t more : Text} {offset : Nat} {vs : List Visit}
    (h : Reads {} outer t more offset vs) (hvs : ∀ v ∈ vs, v.Inside {} (· ≠ ',')) :
    commasFrom outer (t ++ more) offset =
      commasFrom (t.reverse ++ outer) more (offset + t.length) := by
  have hnone : (vs.filter (·.state.depth == 0)).filter (·.char == ',') = [] := by
    rw [List.filter_filter, List.filter_eq_nil_iff]
    intro v hv hcomma
    rw [Bool.and_eq_true, beq_iff_eq, beq_iff_eq] at hcomma
    exact (hvs v hv).outermost hcomma.2 hcomma.1
  rw [commasFrom, h.visits_eq, outermostFrom_false, List.filter_append, List.filter_append,
    hnone, List.nil_append, ← outermostFrom_false 0, ← commasFrom]

theorem InertAt.commasFrom_append {outer t more : Text} {offset : Nat}
    (ht : InertAt (· ≠ ',') {} outer t more offset) :
    commasFrom outer (t ++ more) offset =
      commasFrom (t.reverse ++ outer) more (offset + t.length) := by
  obtain ⟨vs, hreads, hvs⟩ := ht.reads
  exact hreads.commasFrom_append hvs

theorem commasFrom_append {t : Text} (ht : Inert (· ≠ ',') t) (outer more : Text) (offset : Nat) :
    commasFrom outer (t ++ more) offset =
      commasFrom (t.reverse ++ outer) more (offset + t.length) :=
  (ht.inertAt .fresh rfl outer more offset).commasFrom_append

theorem commasFrom_comma (outer more : Text) (offset : Nat) :
    commasFrom outer (',' :: more) offset =
      offset :: commasFrom (',' :: outer) more (offset + 1) := by
  have hreads : Reads {} outer [','] more offset _ := Reads.plain rfl (by decide) outer more offset
  have hvisits := hreads.visits_eq
  rw [List.singleton_append] at hvisits
  rw [commasFrom, hvisits, outermostFrom_false]
  simp [commasFrom, outermostFrom_false, State.depth]

/-- The first piece of a text ends at the first outermost comma. -/
theorem Reads.cutAt_comma {outer t more : Text} {offset : Nat} {vs : List Visit}
    (h : Reads {} outer t (',' :: more) offset vs) (hvs : ∀ v ∈ vs, v.Inside {} (· ≠ ',')) :
    cutAt offset (t ++ ',' :: more) (commasFrom outer (t ++ ',' :: more) offset) =
      t :: cutAt (offset + t.length + 1) more
        (commasFrom (',' :: (t.reverse ++ outer)) more (offset + t.length + 1)) := by
  have htake : (t ++ ',' :: more).take (offset + t.length - offset) = t := by
    rw [Nat.add_sub_cancel_left, List.take_left]
  have hdrop : (t ++ ',' :: more).drop (offset + t.length + 1 - offset) = more := by
    rw [Nat.add_assoc, Nat.add_sub_cancel_left, ← List.drop_drop, List.drop_left]
    rfl
  rw [h.commasFrom_append hvs, commasFrom_comma, cutAt, htake, hdrop]

/-- A text without outermost commas is one piece. -/
theorem Reads.cutAt_end {outer t : Text} {offset : Nat} {vs : List Visit}
    (h : Reads {} outer t [] offset vs) (hvs : ∀ v ∈ vs, v.Inside {} (· ≠ ',')) :
    cutAt offset t (commasFrom outer t offset) = [t] := by
  have hnone := h.commasFrom_append hvs
  rw [List.append_nil] at hnone
  rw [hnone, commasFrom, visitsFrom]
  rfl

theorem inert_blanks {front : Text} (hfront : ∀ c ∈ front, c = ' ') : Inert (· ≠ ',') front :=
  Inert.plain fun c hc => by rw [hfront c hc]; decide

/-- Texts in a row between `outer`, in reverse, and `more`, with commas between them and `front` in
front of the first: where it stands, each of them has no outermost comma. -/
inductive Row (base : State) (more : Text) : Text → Nat → Text → List Text → Prop
  | last {outer front t : Text} {offset : Nat} : t.Trimmed →
      InertAt (· ≠ ',') base outer (front ++ t) more offset → Row base more outer offset front [t]
  | cons {outer front t u : Text} {us : List Text} {offset : Nat} : t.Trimmed →
      InertAt (· ≠ ',') base outer (front ++ t)
        (',' :: ([' '] ++ Text.join ", ".toList (u :: us) ++ more)) offset →
      Row base more (',' :: ((front ++ t).reverse ++ outer)) (offset + (front ++ t).length + 1)
        [' '] (u :: us) →
      Row base more outer offset front (t :: u :: us)

theorem join_row (front t u : Text) (us : List Text) (more : Text) :
    front ++ Text.join ", ".toList (t :: u :: us) ++ more =
      front ++ t ++ ',' :: ([' '] ++ Text.join ", ".toList (u :: us) ++ more) := by
  simp [Text.join, List.intercalate_cons_cons]

/-- The pieces of a row, from the first text on. -/
theorem Row.cutAt_eq {more outer front : Text} {offset : Nat} {ts : List Text}
    (h : Row {} more outer offset front ts) (hfront : ∀ c ∈ front, c = ' ')
    (hmore : ∀ c ∈ more, c = ' ') :
    (cutAt offset (front ++ Text.join ", ".toList ts ++ more)
      (commasFrom outer (front ++ Text.join ", ".toList ts ++ more) offset)).map Text.strip =
        ts := by
  have hblank : ∀ {u : Text}, (∀ c ∈ u, c = ' ') → ∀ c ∈ u, Text.isBlank c = true := by
    intro u hu c hc
    rw [hu c hc]
    decide
  induction h with
  | @last outer front t offset htrimmed hinert =>
    rw [← List.append_nil more] at hinert
    obtain ⟨vs, hreads, hvs⟩ :=
      (hinert.append ((inert_blanks hmore).inertAt .fresh rfl _ _ _)).reads
    rw [Text.join, List.intercalate_singleton, hreads.cutAt_end hvs, List.map_singleton,
      htrimmed.strip_between front more (hblank hfront) (hblank hmore)]
  | @cons outer front t u us offset htrimmed hinert _ ih =>
    have hlater := ih (by simp)
    have hstrip := htrimmed.strip_between front [] (hblank hfront) (by simp)
    rw [List.append_nil] at hstrip
    obtain ⟨vs, hreads, hvs⟩ := hinert.reads
    rw [join_row, hreads.cutAt_comma hvs, List.map_cons, hstrip, hlater]

/-- A row is split into its texts. -/
theorem Row.splitCommas_eq {more front : Text} {ts : List Text} (h : Row {} more [] 0 front ts)
    (hfront : ∀ c ∈ front, c = ' ') (hmore : ∀ c ∈ more, c = ' ') :
    splitCommas (front ++ Text.join ", ".toList ts ++ more) = ts := by
  have htrimmed : ∀ {outer front : Text} {offset : Nat} {ts : List Text},
      Row {} more outer offset front ts → ∀ t ∈ ts, t.Trimmed := by
    intro outer front offset ts h
    induction h with
    | last ht _ => simpa using ht
    | cons ht _ _ ih => exact List.forall_mem_cons.2 ⟨ht, ih⟩
  rw [Lexing.splitCommas_eq, h.cutAt_eq hfront hmore, List.filter_eq_self]
  intro t ht
  simpa using (htrimmed h t ht).ne_nil

/-- Items with commas between them are a row wherever they stand. -/
theorem row_of_items {ts : List Text} (hne : ts ≠ []) (hts : ∀ t ∈ ts, Item t) {front : Text}
    (hfront : ∀ c ∈ front, c = ' ') (outer more : Text) (offset : Nat) :
    Row {} more outer offset front ts := by
  induction ts generalizing front outer offset with
  | nil => exact absurd rfl hne
  | cons t ts ih =>
    obtain ⟨hinert, htight⟩ := hts t List.mem_cons_self
    have hfirst := (inert_blanks hfront).append hinert
    cases ts with
    | nil => exact .last htight.trimmed (hfirst.inertAt .fresh rfl _ _ _)
    | cons u us =>
      exact .cons htight.trimmed (hfirst.inertAt .fresh rfl _ _ _)
        (ih (by simp) (fun v hv => hts v (List.mem_cons_of_mem _ hv)) (by simp) _ _)

/-- **Items are told apart by the commas between them**, with or without a blank at the ends of the
row. -/
theorem splitCommas_join {ts : List Text} (hts : ∀ t ∈ ts, Item t)
    (front back : Text) (hfront : ∀ c ∈ front, c = ' ') (hback : ∀ c ∈ back, c = ' ') :
    splitCommas (front ++ Text.join ", ".toList ts ++ back) = ts := by
  by_cases hne : ts = []
  · subst hne
    have hblanks : ∀ c ∈ front ++ back, c = ' ' := by
      intro c hc
      exact (List.mem_append.1 hc).elim (hfront c) (hback c)
    have hnone : commasFrom [] (front ++ back) 0 = [] := by
      rw [← List.append_nil (front ++ back), commasFrom_append (inert_blanks hblanks)]
      simp [commasFrom, visitsFrom, outermostFrom]
    have hstrip : Text.strip (front ++ back) = [] := by
      rw [Text.strip, Text.stripLeft, List.dropWhile_eq_nil_iff.2 fun c hc => ?_]
      · rfl
      · rw [hblanks c hc]
        decide
    rw [splitCommas_eq, Text.join, List.intercalate_nil, List.append_nil, hnone, cutAt,
      List.map_singleton, hstrip]
    rfl
  · exact (row_of_items hne hts hfront [] back 0).splitCommas_eq hfront hback

end ModuleSurface.Lexing
