import ModuleSurface.Proofs.Lexing.Typed

/-!
# Pieces of code with their angle brackets

A piece that is read in its place is told by two things: which characters of its code stand outside
its brackets, and what it makes of the number of angle brackets that are open in front of it.
`CountedAt` says both, and pieces are put together from smaller ones.

* `CountedAt.append`, `CountedAt.plain`, `CountedAt.string`, `CountedAt.bracket`,
  `Closed.countedAt` — the pieces;
* `CountedAt.commasFrom_append` — a piece without outermost commas has none of the commas of a text;
* `findAssignment?_equals`, `CountedAt.findAssignment?_append` — the equals sign behind a piece in
  which nothing assigns.
-/

namespace ModuleSurface.Lexing

/-- Between `outer`, in reverse, and `more` the text leads from `base` back to that state and closes
only its own brackets; outside them only allowed characters are code.  If `n` angle brackets are
open in front of the text, `angles n` are open behind it. -/
def CountedAt (allowed : Char → Prop) (angles : Nat → Nat) (base : State) (outer t more : Text)
    (offset : Nat) : Prop :=
  ∃ vs, Reads base outer t more offset vs ∧ (∀ v ∈ vs, v.Inside base allowed) ∧
    ∀ n, anglesAfter n vs = angles n

namespace CountedAt

variable {allowed allowed' : Char → Prop} {angles angles' : Nat → Nat} {base : State}
  {outer t u more : Text} {offset : Nat}

/-! ## Putting pieces together -/

theorem mono (h : CountedAt allowed angles base outer t more offset)
    (hall : ∀ c, allowed c → allowed' c) : CountedAt allowed' angles base outer t more offset := by
  obtain ⟨vs, hreads, hinside, hangles⟩ := h
  exact ⟨vs, hreads, fun v hv =>
    ⟨(hinside v hv).depth, (hinside v hv).closer, fun hd => hall _ ((hinside v hv).outermost hd)⟩,
    hangles⟩

theorem nil (base : State) (outer more : Text) (offset : Nat) :
    CountedAt allowed id base outer [] more offset :=
  ⟨[], ⟨[], .refl _, rfl⟩, by simp, fun _ => rfl⟩

theorem append (ht : CountedAt allowed angles base outer t (u ++ more) offset)
    (hu : CountedAt allowed angles' base (t.reverse ++ outer) u more (offset + t.length)) :
    CountedAt allowed (fun n => angles' (angles n)) base outer (t ++ u) more offset := by
  obtain ⟨vs, hvs, hvsInside, hvsAngles⟩ := ht
  obtain ⟨ws, hws, hwsInside, hwsAngles⟩ := hu
  refine ⟨vs ++ ws, hvs.append hws, ?_, fun n => ?_⟩
  · intro v hv
    exact (List.mem_append.1 hv).elim (hvsInside v) (hwsInside v)
  · rw [anglesAfter_append, hvsAngles, hwsAngles]

/-- Plain characters other than angle brackets. -/
theorem plain (hbase : base.inCode = true)
    (ht : ∀ c ∈ t, Plain c ∧ allowed c ∧ c ≠ '<' ∧ c ≠ '>') (outer more : Text) (offset : Nat) :
    CountedAt allowed id base outer t more offset := by
  obtain ⟨vs, hreads, hvs⟩ := Reads.of_plain hbase (fun c hc => (ht c hc).1) outer more offset
  have hchar : ∀ v ∈ vs, v.char ∈ t := by
    intro v hv
    obtain ⟨-, a, b, hsplit, -⟩ := hvs v hv
    rw [hsplit]
    simp
  refine ⟨vs, hreads, fun v hv => ⟨?_, fun b hb => ?_, fun _ => (ht _ (hchar v hv)).2.1⟩,
    fun n => ?_⟩
  · rw [(hvs v hv).1]
  · have hplain := (ht _ (hchar v hv)).1
    rw [hb] at hplain
    cases b <;> exact absurd hplain (by decide)
  · exact anglesAfter_eq_self (fun v hv => (ht _ (hchar v hv)).2.2) n

/-- A string, of which nothing is visited. -/
theorem string (hbase : base.inCode = true) (q : Quote) (ht : isEscaped q.char t = true)
    (outer more : Text) (offset : Nat) :
    CountedAt allowed id base outer (q.char :: t ++ [q.char]) more offset := by
  obtain ⟨ps, hrun, hps⟩ := q.run_string hbase ht outer more offset
  have hnone : ps.filterMap Cursor.visit? = [] :=
    List.filterMap_eq_nil_iff.2 fun p hp => (hps p hp).2
  exact ⟨[], ⟨ps, hrun, hnone⟩, by simp, fun _ => rfl⟩

/-- A bracket around a piece, of which only the opener stands outside brackets. -/
theorem bracket {b : Bracket} (hb : base.Coherent) (hbase : base.inCode = true)
    (h : CountedAt allowed angles (base.openBracket b offset) (b.opener :: outer) t
      (b.closer :: more) (offset + 1)) :
    CountedAt (· = b.opener) angles base outer (b.opener :: t ++ [b.closer]) more offset := by
  obtain ⟨vs, hreads, hinside, hangles⟩ := h
  refine ⟨_, hreads.enclosed hb hbase b, Visit.inside_bracket hinside _ _ _ _ _, fun n => ?_⟩
  have hopener : b.opener ≠ '<' ∧ b.opener ≠ '>' := by cases b <;> decide
  have hcloser : b.closer ≠ '<' ∧ b.closer ≠ '>' := by cases b <;> decide
  have hsingle : ∀ (n : Nat) (v : Visit), v.char ≠ '<' ∧ v.char ≠ '>' → anglesAfter n [v] = n :=
    fun n v hv => anglesAfter_eq_self (by simpa using hv) n
  rw [anglesAfter_append, hsingle _ _ hcloser, ← List.singleton_append, anglesAfter_append,
    hsingle _ _ hopener, hangles]

end CountedAt

/-- A closed text makes of the angle brackets in its place what it makes of them on its own. -/
theorem Closed.countedAt {allowed : Char → Prop} {base : State} {outer t more : Text}
    (ht : Closed t) (hallowed : ∀ v ∈ visits t, v.state.depth = 0 → allowed v.char)
    (hb : base.Coherent) (hbase : base.inCode = true) (houter : RegexLiteral.Opens outer)
    (hequals : outer.head? ≠ some '=') (hmore : Parts more) (hslash : LeavesSlashes t more)
    (offset : Nat) :
    CountedAt allowed (fun n => anglesAfter n (visits t)) base outer t more offset := by
  refine ⟨_, ht.reads hb hbase houter hmore hslash offset, ?_, fun n => ?_⟩
  · intro v hv
    obtain ⟨w, hw, rfl⟩ := List.mem_map.1 hv
    exact Visit.inside_lift ht hallowed hw base offset outer more
  · rw [anglesAfter_lift hequals]

/-! ## The first assignment -/

/-- Behind a piece in which nothing assigns the search goes on. -/
theorem findAssignment?_of_reads {front more : Text} {vs : List Visit}
    (h : Reads {} [] front more 0 vs) (hangles : anglesAfter 0 vs = 0)
    (hassigns : ∀ v ∈ outermostFrom true 0 vs, v.assigns = false) :
    findAssignment? (front ++ more) =
      ((outermostFrom true 0 (visitsFrom {} front.reverse more front.length)).find?
        (·.assigns)).map (·.index) := by
  have hvisits : visits (front ++ more) = vs ++ _ := h.visits_eq
  have hnone : (outermostFrom true 0 vs).find? (·.assigns) = none :=
    List.find?_eq_none.2 fun v hv => by simp [hassigns v hv]
  rw [findAssignment?, outermost, hvisits, outermostFrom_append, hangles, List.find?_append, hnone,
    Option.none_or, List.append_nil, Nat.zero_add]

/-- The equals sign behind a piece in which nothing assigns assigns, unless what follows makes
another sign of it. -/
theorem findAssignment?_equals {front back : Text} {vs : List Visit}
    (h : Reads {} [] front (' ' :: '=' :: back) 0 vs) (hangles : anglesAfter 0 vs = 0)
    (hassigns : ∀ v ∈ outermostFrom true 0 vs, v.assigns = false)
    (hback : ∀ c ∈ back.head?, c ∉ ['=', '>']) :
    findAssignment? (front ++ ' ' :: '=' :: back) = some (front.length + 1) := by
  have hblank : visitsFrom {} front.reverse (' ' :: '=' :: back) front.length = _ :=
    (@Reads.plain {} rfl ' ' (by decide) front.reverse ('=' :: back) front.length).visits_eq
  have hequals : visitsFrom {} ([' '].reverse ++ front.reverse) ('=' :: back)
      (front.length + [' '].length) = _ :=
    (@Reads.plain {} rfl '=' (by decide) ([' '].reverse ++ front.reverse) back _).visits_eq
  have hdepth : State.depth {} = 0 := rfl
  have hsign : (back.head?.any fun c => c == '=' || c == '>') = false := by
    rw [Option.any_eq_false]
    intro c hc
    simpa using hback c hc
  rw [findAssignment?_of_reads h hangles hassigns, hblank, hequals]
  simp [outermostFrom, Visit.angleAfter, Visit.opensAngle, Visit.closesAngle, Visit.assigns, hdepth,
    hsign]

namespace CountedAt

variable {allowed : Char → Prop} {angles : Nat → Nat} {outer t more : Text} {offset : Nat}

/-! ## What is found -/

/-- A piece without outermost commas has none of the commas of a text. -/
theorem commasFrom_append (h : CountedAt (· ≠ ',') angles {} outer t more offset) :
    commasFrom outer (t ++ more) offset =
      commasFrom (t.reverse ++ outer) more (offset + t.length) := by
  obtain ⟨vs, hreads, hvs, -⟩ := h
  exact Reads.commasFrom_append hreads hvs

/-- What is not allowed is not found outside brackets. -/
theorem findOutermost?_eq_none (h : CountedAt allowed angles {} [] t [] 0) {c : Char}
    (hc : ¬ allowed c) (target : Text) (start : Nat) :
    findOutermost? t (c :: target) start false = none := by
  obtain ⟨vs, hreads, hvs, -⟩ := h
  rw [Option.eq_none_iff_forall_ne_some]
  intro i hi
  obtain ⟨v, hv, hdepth, hbegins, -⟩ := exists_visit_of_findOutermost? hi
  rw [hreads.closed.2] at hv
  rw [← Visit.char_of_begins _ hbegins] at hc
  exact hc ((hvs v hv).outermost hdepth)

/-- The angle brackets of a whole text. -/
theorem anglesAfter_visits (h : CountedAt allowed angles {} [] t [] 0) (n : Nat) :
    anglesAfter n (visits t) = angles n := by
  obtain ⟨vs, hreads, -, hangles⟩ := h
  rw [hreads.closed.2, hangles]

/-- Where no equals sign stands outside brackets, nothing assigns. -/
theorem assigns_eq_false {vs : List Visit} (hvs : ∀ v ∈ vs, v.Inside {} allowed)
    (hequals : ¬ allowed '=') : ∀ v ∈ outermostFrom true 0 vs, v.assigns = false := by
  intro v hv
  obtain ⟨hmem, hdepth⟩ := mem_of_mem_outermostFrom hv
  have hne : v.char ≠ '=' := fun heq => hequals (heq ▸ (hvs v hmem).outermost hdepth)
  simp [Visit.assigns, hne]

theorem findAssignment?_eq_none (h : CountedAt allowed angles {} [] t [] 0)
    (hequals : ¬ allowed '=') : findAssignment? t = none := by
  obtain ⟨vs, hreads, hvs, -⟩ := h
  have hnone : (outermostFrom true 0 vs).find? (·.assigns) = none :=
    List.find?_eq_none.2 fun v hv => by simp [assigns_eq_false hvs hequals v hv]
  rw [findAssignment?, outermost, hreads.closed.2, hnone, Option.map_none]

/-- The first equals sign outside brackets assigns if all angle brackets in front of it are
closed. -/
theorem findAssignment?_append {back : Text}
    (h : CountedAt allowed angles {} [] t (' ' :: '=' :: back) 0) (hequals : ¬ allowed '=')
    (hangles : angles 0 = 0) (hback : ∀ c ∈ back.head?, c ∉ ['=', '>']) :
    findAssignment? (t ++ ' ' :: '=' :: back) = some (t.length + 1) := by
  obtain ⟨vs, hreads, hvs, hcount⟩ := h
  exact findAssignment?_equals hreads ((hcount 0).trans hangles) (assigns_eq_false hvs hequals)
    hback

end CountedAt

end ModuleSurface.Lexing
