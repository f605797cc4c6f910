import ModuleSurface.Proofs.Lexing.Collapsed
import ModuleSurface.Proofs.Lexing.Stripped
import ModuleSurface.Proofs.Statement.Single

/-!
# Parameters with a default value

A parameter with a type and a default value is written with the type only, and marked as optional:
`render_defaulted`.  Whatever the type and whatever stands around the equals sign, that sign is the
first one that assigns, unless its neighbour makes it look like a comparison.
-/

namespace ModuleSurface.Callable

open ModuleSurface.Lexing

/-- A parameter with a type and a default value, part by part. -/
structure DefaultedParameter where
  /-- The name. -/
  name : Text
  /-- What is behind the colon. -/
  declaredType : Text
  /-- The white space in front of the equals sign. -/
  before : Text := " ".toList
  /-- The white space behind it. -/
  behind : Text := " ".toList
  /-- The default value. -/
  fallback : Text
  deriving DecidableEq, Repr

namespace DefaultedParameter

/-- Everything behind the type. -/
def back (p : DefaultedParameter) : Text :=
  p.before ++ '=' :: (p.behind ++ p.fallback)

/-- The whole parameter. -/
def text (p : DefaultedParameter) : Text :=
  p.name ++ (": ".toList ++ (p.declaredType ++ p.back))

/-- What is left behind the type when the comments are taken out. -/
def left (p : DefaultedParameter) : Text :=
  (stripComments p.text).drop (p.name ++ (": ".toList ++ p.declaredType)).length

/-- The parts are what they stand for: the type is closed, its angle brackets too, and it assigns
nothing outside of brackets; the default value is closed and does not make another sign of the
equals sign; neither has comments. -/
structure WellFormed (p : DefaultedParameter) : Prop where
  /-- The name. -/
  name : p.name ≠ [] ∧ ∀ c ∈ p.name, Text.isIdentChar c = true
  /-- The type. -/
  declaredType : Closed p.declaredType ∧ stripComments p.declaredType = p.declaredType ∧
    Text.strip p.declaredType = p.declaredType
  /-- The angle brackets of the type. -/
  angles : anglesAfter 0 (visits p.declaredType) = 0
  /-- The equals signs of the type. -/
  arrows : ∀ v ∈ outermost p.declaredType true, v.char = '=' → v.rest.head? = some '>'
  /-- The white space. -/
  blank : ∀ c ∈ p.before ++ p.behind, Text.isBlank c = true
  /-- The default value. -/
  fallback : Closed p.fallback ∧ stripComments p.fallback = p.fallback
  /-- Its first character. -/
  sign : ∀ c ∈ p.fallback.head?, c ∉ ['=', '>']

instance (p : DefaultedParameter) : Decidable p.WellFormed :=
  decidable_of_iff
    ((p.name ≠ [] ∧ ∀ c ∈ p.name, Text.isIdentChar c = true) ∧
      (Closed p.declaredType ∧ stripComments p.declaredType = p.declaredType ∧
        Text.strip p.declaredType = p.declaredType) ∧
      anglesAfter 0 (visits p.declaredType) = 0 ∧
      (∀ v ∈ outermost p.declaredType true, v.char = '=' → v.rest.head? = some '>') ∧
      (∀ c ∈ p.before ++ p.behind, Text.isBlank c = true) ∧
      (Closed p.fallback ∧ stripComments p.fallback = p.fallback) ∧
      ∀ c ∈ p.fallback.head?, c ∉ ['=', '>'])
    ⟨fun ⟨h₁, h₂, h₃, h₄, h₅, h₆, h₇⟩ => ⟨h₁, h₂, h₃, h₄, h₅, h₆, h₇⟩,
      fun ⟨h₁, h₂, h₃, h₄, h₅, h₆, h₇⟩ => ⟨h₁, h₂, h₃, h₄, h₅, h₆, h₇⟩⟩

variable {p : DefaultedParameter}

/-! ## Comments -/

theorem isBlank_before (hp : p.WellFormed) : ∀ c ∈ p.before, Text.isBlank c = true :=
  fun c hc => hp.blank c (List.mem_append_left _ hc)

theorem parts_before (hp : p.WellFormed) (value : Text) : Parts (p.before ++ '=' :: value) := by
  cases hbefore : p.before with
  | nil => exact ⟨⟨by simp, by simp⟩, rfl⟩
  | cons c before =>
    have hc := isBlank_before hp c (by rw [hbefore]; exact List.mem_cons_self)
    refine ⟨⟨?_, ?_⟩, Text.isIdentChar_of_isBlank hc⟩ <;>
      (intro h; rw [List.cons_append, List.head?_cons, Option.some_inj] at h; rw [h] at hc;
       exact absurd hc (by decide))

/-- Up to the default value nothing is taken out. -/
theorem keepsAt_front (hp : p.WellFormed) (hslash : LeavesSlashes p.declaredType p.back) :
    KeepsAt (p.name ++ (": ".toList ++ (p.declaredType ++ (p.before ++ ['='])))) {} []
      (p.name ++ (": ".toList ++ (p.declaredType ++ (p.before ++ ['=']))))
      (p.behind ++ p.fallback) 0 := by
  have hname : Inert (fun _ => True) p.name :=
    .plain fun c hc => ⟨plain_of_isIdentChar (hp.name.2 c hc), trivial⟩
  have hcolon : Inert (fun _ => True) ": ".toList :=
    .plain fun c hc => ⟨(by decide : ∀ c ∈ ": ".toList, Plain c) c hc, trivial⟩
  have hbefore : Inert (fun _ => True) (p.before ++ ['=']) := by
    refine .plain fun c hc => ⟨?_, trivial⟩
    rcases List.mem_append.1 hc with hc | hc
    · exact plain_of_isBlank (isBlank_before hp c hc)
    · rw [List.mem_singleton.1 hc]
      decide
  have hback : p.before ++ ['='] ++ (p.behind ++ p.fallback) = p.back := by simp [back]
  have hparts : Parts (p.before ++ ['='] ++ (p.behind ++ p.fallback)) := by
    rw [hback]
    exact parts_before hp _
  obtain ⟨hclosed, hcomments, -⟩ := hp.declaredType
  refine (InertAt.append (hname.inertAt .fresh rfl _ _ _) (InertAt.append
    (hcolon.inertAt .fresh rfl _ _ _) (InertAt.append (hclosed.inertAt hcomments
      (fun _ _ _ => trivial) .fresh rfl ⟨rfl, rfl⟩ hparts (hback ▸ hslash) _)
        (hbefore.inertAt .fresh rfl _ _ _)))).keepsAt rfl

/-- What is left behind the equals sign does not make another sign of it. -/
theorem head?_code (hp : p.WellFormed) {outer : Text} (houter : RegexLiteral.Opens outer)
    (offset : Nat) :
    ∀ c ∈ (Cursor.pass ⟨{}, outer, p.behind ++ p.fallback, offset⟩).code.head?,
      c ∉ ['=', '>'] := by
  cases hbehind : p.behind with
  | nil =>
    obtain ⟨hclosed, hcomments⟩ := hp.fallback
    have hkeeps : KeepsAt _ {} outer p.fallback [] offset :=
      hclosed.keepsAt .fresh rfl houter (by decide) (leavesSlashes_nil _) offset
    have hend : (Cursor.pass ⟨{}, p.fallback.reverse ++ outer, [],
        offset + p.fallback.length⟩).code = [] := by
      simp [Cursor.pass, passFrom, Pass.code]
    rw [KeepsAt, hcomments, hend, List.append_nil] at hkeeps
    rw [List.nil_append, hkeeps]
    exact hp.sign
  | cons c behind =>
    have hblank : Text.isBlank c = true :=
      hp.blank c (List.mem_append_right _ (by rw [hbehind]; exact List.mem_cons_self))
    have hcode := Cursor.code_of_step (State.step_of_plain (s := {}) rfl (plain_of_isBlank hblank)
      outer (behind ++ p.fallback) offset) rfl rfl
    rw [List.cons_append, hcode]
    intro d hd hsign
    obtain rfl : c = d := by simpa using hd
    have hall : ∀ c ∈ ['=', '>'], Text.isBlank c = false := by decide
    rw [hall c hsign] at hblank
    cases hblank

/-- Up to the default value the comments taken out make no difference. -/
theorem stripComments_text (hp : p.WellFormed) (hslash : LeavesSlashes p.declaredType p.back) :
    ∃ value, stripComments p.text =
        p.name ++ (": ".toList ++ (p.declaredType ++ p.before)) ++ '=' :: value ∧
      (∀ c ∈ value.head?, c ∉ ['=', '>']) ∧ p.left = p.before ++ '=' :: value := by
  have hcode := keepsAt_front hp hslash
  have htext : p.text = p.name ++ (": ".toList ++ (p.declaredType ++ (p.before ++ ['=']))) ++
      (p.behind ++ p.fallback) := by
    simp [text, back]
  have houter : RegexLiteral.Opens ((p.name ++ (": ".toList ++ (p.declaredType ++
      (p.before ++ ['='])))).reverse ++ []) := by
    simp only [List.reverse_append, List.reverse_singleton, List.cons_append]
    exact ⟨rfl, rfl⟩
  have hvalue := head?_code hp houter (0 + (p.name ++ (": ".toList ++ (p.declaredType ++
    (p.before ++ ['='])))).length)
  rw [KeepsAt, ← htext, ← stripComments_eq_code] at hcode
  generalize (Cursor.pass _).code = value at hcode hvalue
  refine ⟨value, by simpa using hcode, hvalue, ?_⟩
  have hsplit : p.name ++ (": ".toList ++ (p.declaredType ++ (p.before ++ ['=']))) ++ value =
      p.name ++ (": ".toList ++ p.declaredType) ++ (p.before ++ '=' :: value) := by
    simp
  rw [left, hcode, hsplit, List.drop_left]

/-! ## The equals sign -/

theorem unassignedAt_front (hp : p.WellFormed) {value : Text}
    (hslash : SlashesDivide p.declaredType (p.before ++ '=' :: value)) :
    UnassignedAt {} [] (p.name ++ (": ".toList ++ (p.declaredType ++ p.before))) ('=' :: value)
      0 := by
  have hname : ∀ c ∈ p.name, Plain c ∧ c ∉ ['=', '<', '>'] := by
    intro c hc
    have hident := hp.name.2 c hc
    refine ⟨plain_of_isIdentChar hident, fun hsign => ?_⟩
    have hall : ∀ c ∈ ['=', '<', '>'], Text.isIdentChar c = false := by decide
    rw [hall c hsign] at hident
    cases hident
  have hbefore : ∀ c ∈ p.before, Plain c ∧ c ∉ ['=', '<', '>'] := by
    intro c hc
    have hblank := isBlank_before hp c hc
    refine ⟨plain_of_isBlank hblank, fun hsign => ?_⟩
    have hall : ∀ c ∈ ['=', '<', '>'], Text.isBlank c = false := by decide
    rw [hall c hsign] at hblank
    cases hblank
  obtain ⟨hclosed, hcomments, -⟩ := hp.declaredType
  refine .append (.plain rfl hname _ _ _) (.append (.plain rfl (by decide) _ _ _) (.append
    (hclosed.unassignedAt hcomments hp.angles hp.arrows ⟨rfl, rfl⟩ (by simp)
      (parts_before hp value) hslash _) (.plain rfl hbefore _ _ _)))

/-! ## The colon -/

/-- The first colon outside brackets is the one behind the name. -/
theorem findOutermost?_colon {name : Text} (hname : ∀ c ∈ name, Text.isIdentChar c = true)
    (more : Text) : findOutermost? (name ++ ':' :: more) ":".toList 0 true = some name.length := by
  obtain ⟨vs, hreads, hvs⟩ := @Reads.of_plain {} name rfl
    (fun c hc => plain_of_isIdentChar (hname c hc)) [] (':' :: more) 0
  have hne : ∀ v ∈ vs, ∀ c, Text.isIdentChar c = false → v.char ≠ c := by
    rintro v hv c hc rfl
    obtain ⟨-, a, b, hsplit, -⟩ := hvs v hv
    rw [hname _ (by rw [hsplit]; simp)] at hc
    cases hc
  have hcolon : visitsFrom {} (name.reverse ++ []) (':' :: more) (0 + name.length) = _ :=
    (Reads.plain rfl (by decide) (name.reverse ++ []) more (0 + name.length)).visits_eq
  have hvisits : visits (name ++ ':' :: more) = vs ++ _ := hreads.visits_eq
  rw [hcolon] at hvisits
  have hnone : (outermostFrom true 0 vs).find?
      (fun v => decide (0 ≤ v.index) && v.begins ":".toList) = none := by
    refine List.find?_eq_none.2 fun v hv hbegins => ?_
    exact hne v (mem_of_mem_outermostFrom hv).1 ':' (by decide)
      (Visit.char_of_begins [] (Bool.and_eq_true_iff.1 hbegins).2)
  rw [findOutermost?, outermost, hvisits, outermostFrom_append,
    anglesAfter_eq_self fun v hv => ⟨hne v hv '<' (by decide), hne v hv '>' (by decide)⟩,
    List.find?_append, hnone, Option.none_or, List.singleton_append, outermostFrom, if_pos rfl,
    if_pos (by rfl), List.find?_cons_of_pos]
  · simp
  · simp [Visit.begins, (by decide : Text.isIdentChar ':' = false)]

theorem trimmed_of_isIdentChar {t : Text} (hne : t ≠ [])
    (ht : ∀ c ∈ t, Text.isIdentChar c = true) : t.Trimmed where
  head := ⟨_, List.head?_eq_some_head hne, Text.isBlank_of_isIdentChar (ht _ (List.head_mem hne))⟩
  last := ⟨_, List.getLast?_eq_some_getLast hne,
    Text.isBlank_of_isIdentChar (ht _ (List.getLast_mem hne))⟩

/-- The name and the type in front of an equals sign, stripped. -/
theorem strip_declared {c : Char} (hc : Text.isBlank c = false) (more t : Text) :
    Text.strip (c :: more ++ ':' :: ' ' :: Text.runs true t) =
      c :: more ++ ':' :: Text.squeeze false (' ' :: t) := by
  have hruns : ' ' :: Text.runs true t = Text.runs false (' ' :: t) := rfl
  have hcolon : Text.stripRight (':' :: Text.runs false (' ' :: t)) =
      ':' :: Text.squeeze false (' ' :: t) := by
    rw [Text.stripRight, Text.dropRightWhile_cons (by decide), ← Text.stripRight,
      Text.stripRight_runs]
  have hne : Text.dropRightWhile Text.isBlank (':' :: Text.runs false (' ' :: t)) ≠ [] := by
    rw [← Text.stripRight, hcolon]
    exact List.cons_ne_nil _ _
  rw [hruns, Text.strip, List.cons_append, Text.stripLeft_cons hc, ← List.cons_append,
    Text.stripRight, Text.dropRightWhile_append_left hne, ← Text.stripRight, hcolon]

/-- A name is neither a rest parameter nor a pattern, and it is not marked as optional. -/
theorem unmarked_of_isIdentChar {c : Char} {more : Text}
    (hname : ∀ d ∈ c :: more, Text.isIdentChar d = true) :
    c ∉ ['@', '\x7b', '['] ∧ "...".toList.isPrefixOf (c :: more) = false ∧
      (c :: more).getLast? ≠ some '?' := by
  have hnot : ∀ d ∈ c :: more, ∀ sign ∈ ['@', '\x7b', '[', '.', '?'], d ≠ sign := by
    rintro d hd sign hsign rfl
    have hall : ∀ d ∈ ['@', '\x7b', '[', '.', '?'], Text.isIdentChar d = false := by decide
    exact Bool.false_ne_true ((hall d hsign).symm.trans (hname d hd))
  have hc := hnot c List.mem_cons_self
  refine ⟨fun hsign => hc c (List.mem_append_left ['.', '?'] hsign) rfl, ?_, fun hlast => ?_⟩
  · simp [List.isPrefixOf, (hc '.' (by decide)).symm]
  · exact hnot '?' (List.mem_of_getLast? hlast) '?' (by decide) rfl

/-- A name, a colon, a type and an equals sign that assigns are the parts of a parameter. -/
theorem parse_eq {raw name t value : Text} (hne : name ≠ [])
    (hname : ∀ c ∈ name, Text.isIdentChar c = true)
    (hraw : Text.collapse (stripComments raw) =
      name ++ ':' :: ' ' :: Text.runs true t ++ '=' :: value)
    (hequals : findAssignment? (name ++ ':' :: ' ' :: Text.runs true t ++ '=' :: value) =
      some (name ++ ':' :: ' ' :: Text.runs true t).length) :
    Parameter.parse raw =
      { isRest := false
        isOptional := false
        binding := name
        declaredType := some (Text.collapse t)
        fallback := some (Text.strip value) } := by
  obtain ⟨c, more, rfl⟩ := List.exists_cons_of_ne_nil hne
  have hblank := Text.isBlank_of_isIdentChar (hname c List.mem_cons_self)
  obtain ⟨hsign, hdots, hmark⟩ := unmarked_of_isIdentChar hname
  simp only [List.mem_cons, List.not_mem_nil, or_false, not_or] at hsign
  have hbare : stripDecorators (Text.collapse (stripComments raw)) =
      c :: more ++ ':' :: ' ' :: Text.runs true t ++ '=' :: value :=
    Statement.stripDecorators_eq (by rw [hraw]; exact Text.stripLeft_cons hblank _) hsign.1
  have htype : Text.strip (Text.squeeze false (' ' :: t)) = Text.collapse t := by
    rw [Text.strip_squeeze, Text.collapse, Text.words_cons_blank (by decide), ← Text.collapse]
  have hself : Text.strip (c :: more) = c :: more :=
    (trimmed_of_isIdentChar (List.cons_ne_nil _ _) hname).strip_eq
  -- the parameter is cut at the equals sign, and what is in front of it at the colon
  have hcut : Parameter.cut (stripDecorators (Text.collapse (stripComments raw)))
      (findAssignment? (stripDecorators (Text.collapse (stripComments raw)))) =
        (c :: more ++ ':' :: Text.squeeze false (' ' :: t), some (Text.strip value)) := by
    rw [hbare, hequals, Parameter.cut, List.take_left, strip_declared hblank, ← List.drop_drop,
      List.drop_left]
    rfl
  have hcolon := findOutermost?_colon hname (Text.squeeze false (' ' :: t))
  have hcut' : Parameter.cut (c :: more ++ ':' :: Text.squeeze false (' ' :: t))
      (some (c :: more).length) = (c :: more, some (Text.collapse t)) := by
    rw [Parameter.cut, List.take_left, hself, ← List.drop_drop, List.drop_left, List.drop_one,
      List.tail_cons, htype]
  rw [Parameter.parse]
  simp only [hcut, hcolon, hcut', hdots, beq_eq_false_iff_ne.2 hmark, Bool.false_eq_true, if_false,
    List.head?_cons, Option.some_beq_some, beq_iff_eq, hsign, Bool.or_eq_true, or_self]

/-- Collapsing leaves the name alone. -/
theorem runs_name {name : Text} (hne : name ≠ []) (hname : ∀ c ∈ name, Text.isIdentChar c = true)
    (t : Text) :
    Text.runs true (name ++ (": ".toList ++ t)) = name ++ ':' :: ' ' :: Text.runs true t := by
  have hblank : ∀ c ∈ name, Text.isBlank c = false :=
    fun c hc => Text.isBlank_of_isIdentChar (hname c hc)
  have hgap : Text.gapAfter true name = false := by
    rw [Text.gapAfter_of_getLast? (List.getLast?_eq_some_getLast hne)]
    exact hblank _ (List.getLast_mem hne)
  have hself : Text.runs true name = name := by
    obtain ⟨c, more, rfl⟩ := List.exists_cons_of_ne_nil hne
    obtain ⟨hc, hmore⟩ := List.forall_mem_cons.1 hblank
    rw [Text.runs, if_neg (by simp [hc]), Text.runs_eq_self hmore]
  rw [Text.runs_append, hself, hgap]
  rfl

/-- **Default values are not written.** -/
theorem render_defaulted (hp : p.WellFormed)
    (hattached : p.before = [] → ∀ c ∈ p.declaredType.getLast?, c ∉ ['=', '!', '<', '>'])
    (hwritten : LeavesSlashes p.declaredType p.back)
    (hcollapsed : SlashesDivide p.declaredType p.left) (typeOf : Text → Text) :
    (Parameter.parse p.text).render typeOf =
      p.name ++ "?: ".toList ++ Text.collapse p.declaredType := by
  obtain ⟨value, hcode, hvalue, hleft⟩ := stripComments_text hp hwritten
  rw [hleft] at hcollapsed
  have hlast : ∀ c ∈ (p.name ++ (": ".toList ++ (p.declaredType ++ p.before))).getLast?,
      c ∉ ['=', '!', '<', '>'] := by
    intro c hc hsign
    have hblank : Text.isBlank c = false :=
      (by decide : ∀ c ∈ ['=', '!', '<', '>'], Text.isBlank c = false) c hsign
    simp only [List.getLast?_append, Option.mem_def] at hc
    cases hbefore : p.before.getLast? with
    | some d =>
      rw [hbefore, Option.some_or] at hc
      obtain rfl := Option.some.inj hc
      rw [isBlank_before hp d (List.mem_of_getLast? hbefore)] at hblank
      cases hblank
    | none =>
      rw [hbefore, Option.none_or] at hc
      cases htype : p.declaredType.getLast? with
      | some d =>
        rw [htype, Option.some_or] at hc
        exact hattached (List.getLast?_eq_none_iff.1 hbefore) c (htype.trans hc) hsign
      | none =>
        rw [htype, Option.none_or] at hc
        obtain rfl : ' ' = c := Option.some.inj hc
        cases hblank
  obtain ⟨hcollapse, hequals⟩ :=
    findAssignment?_collapse (unassignedAt_front hp hcollapsed) hlast hvalue
  have hfront : Text.runs true (p.name ++ (": ".toList ++ (p.declaredType ++ p.before))) =
      p.name ++ ':' :: ' ' :: Text.runs true (p.declaredType ++ p.before) :=
    runs_name hp.name.1 hp.name.2 _
  rw [← hcode, hfront] at hcollapse
  rw [hfront] at hequals
  rw [parse_eq hp.name.1 hp.name.2 hcollapse hequals,
    Text.collapse_append_blanks (isBlank_before hp)]
  simp [Parameter.render, Parameter.typeText]

/-- White space of every kind around the sign, or none, and signs of all kinds in the type. -/
theorem render_defaulted_spaced :
    let ps : List DefaultedParameter :=
      [⟨"f".toList, "(x: A<B>,\n  y: 'a = b') => Map<C, D / E>".toList, "\n".toList, [],
          "(x, y) => x / y".toList⟩,
        ⟨"n".toList, "number".toList, [], "\t".toList, "i == j".toList⟩]
    (∀ p ∈ ps, p.WellFormed ∧
      (p.before = [] → ∀ c ∈ p.declaredType.getLast?, c ∉ ['=', '!', '<', '>']) ∧
      LeavesSlashes p.declaredType p.back ∧ SlashesDivide p.declaredType p.left) ∧
    ps.map (fun p => (Parameter.parse p.text).render id) =
      ["f?: (x: A<B>, y: 'a = b') => Map<C, D / E>".toList, "n?: number".toList] := by
  intro ps
  have hps : ∀ p ∈ ps, p.WellFormed ∧
      (p.before = [] → ∀ c ∈ p.declaredType.getLast?, c ∉ ['=', '!', '<', '>']) ∧
      LeavesSlashes p.declaredType p.back ∧ SlashesDivide p.declaredType p.left := by
    decide +kernel
  have hrender : ∀ p ∈ ps, (Parameter.parse p.text).render id =
      p.name ++ "?: ".toList ++ Text.collapse p.declaredType := by
    intro p hp
    obtain ⟨hwell, hattached, hwritten, hcollapsed⟩ := hps p hp
    exact render_defaulted hwell hattached hwritten hcollapsed id
  refine ⟨hps, ?_⟩
  rw [List.map_congr_left hrender]
  decide +kernel

/-- Directly behind an angle bracket the sign looks like a comparison, and the default value is
written.  A slash can begin a literal that hides the sign, and a sign in a substitution is taken for
it. -/
theorem render_defaulted_attached :
    let attached : DefaultedParameter := ⟨"xs".toList, "Array<string>".toList, [], [], "[]".toList⟩
    let divided : DefaultedParameter :=
      ⟨"n".toList, "i++ / 2".toList, " ".toList, " ".toList, "j / 2".toList⟩
    let substituted : DefaultedParameter :=
      ⟨"t".toList, "\x60$\x7ba = b\x7d\x60".toList, " ".toList, " ".toList, "c".toList⟩
    let render (p : DefaultedParameter) := (Parameter.parse p.text).render id
    (attached.WellFormed ∧ render attached = "xs: Array<string>=[]".toList) ∧
    (divided.WellFormed ∧ render divided = "n: i++ / 2 = j / 2".toList) ∧
    Closed substituted.declaredType ∧
      stripComments substituted.declaredType = substituted.declaredType ∧
      render substituted = "t?: \x60$\x7ba".toList := by
  decide +kernel

end DefaultedParameter

end ModuleSurface.Callable
