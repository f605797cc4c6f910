import ModuleSurface.Proofs.Callable.Header
import ModuleSurface.Proofs.Lexing.Typed

/-!
# Lists of parameters

A parameter as written is a name, and behind it a type and a default value if there are any.  A
function with a list of them is read back with exactly these parameters, whatever types and values
they have: `parseFunction?_listed`.  The one split serves types, where angle brackets nest, and
default values, where they compare, so it needs that a value in front of another parameter closes as
many of them as it opens.
-/

namespace ModuleSurface.Callable

open ModuleSurface.Lexing

/-- A parameter part by part, as written. -/
structure RawParameter where
  /-- The name. -/
  name : Text
  /-- What is behind the colon, if there is one. -/
  declaredType : Option Text := none
  /-- What is behind the equals sign, if there is one. -/
  fallback : Option Text := none
  deriving DecidableEq, Repr

namespace RawParameter

/-- The type with its colon. -/
def typePart (p : RawParameter) : Text :=
  match p.declaredType with
  | some t => ": ".toList ++ t
  | none => []

/-- The default value with its equals sign. -/
def fallbackPart (p : RawParameter) : Text :=
  match p.fallback with
  | some v => " = ".toList ++ v
  | none => []

/-- The whole parameter. -/
def text (p : RawParameter) : Text :=
  p.name ++ (p.typePart ++ p.fallbackPart)

/-- The parameters with commas between them. -/
def listText (ps : List RawParameter) : Text :=
  Text.join ", ".toList (ps.map text)

/-- The parameter can stand in a list: its name is one, its type closes every bracket and angle
bracket and has no comma outside of them, and its default value closes every bracket and has no
comma outside of them. -/
structure WellFormed (p : RawParameter) : Prop where
  /-- The name. -/
  name : p.name ≠ [] ∧ ∀ c ∈ p.name, Text.isIdentChar c = true
  /-- The type. -/
  declaredType : ∀ t ∈ p.declaredType,
    Closed t ∧ anglesAfter 0 (visits t) = 0 ∧ ∀ v ∈ outermost t true, v.char ≠ ','
  /-- The default value. -/
  fallback : ∀ t ∈ p.fallback, Closed t ∧ ∀ v ∈ visits t, v.state.depth = 0 → v.char ≠ ','
  /-- There is nothing to strip. -/
  stripped : Text.strip p.text = p.text

instance (p : RawParameter) : Decidable p.WellFormed :=
  decidable_of_iff
    ((p.name ≠ [] ∧ ∀ c ∈ p.name, Text.isIdentChar c = true) ∧
      (∀ t ∈ p.declaredType,
        Closed t ∧ anglesAfter 0 (visits t) = 0 ∧ ∀ v ∈ outermost t true, v.char ≠ ',') ∧
      (∀ t ∈ p.fallback, Closed t ∧ ∀ v ∈ visits t, v.state.depth = 0 → v.char ≠ ',') ∧
      Text.strip p.text = p.text)
    ⟨fun ⟨h₁, h₂, h₃, h₄⟩ => ⟨h₁, h₂, h₃, h₄⟩, fun ⟨h₁, h₂, h₃, h₄⟩ => ⟨h₁, h₂, h₃, h₄⟩⟩

/-- The angle brackets that the default value leaves open when its comparisons are counted. -/
def anglesLeft (p : RawParameter) : Nat :=
  match p.fallback with
  | some v => anglesAfter 0 (visits v)
  | none => 0

/-- No slash of a type or a default value begins a literal that ends behind it, where `more` follows
the list. -/
def SlashesApart (more : Text) : List RawParameter → Prop
  | [] => True
  | p :: ps =>
    ((∀ t ∈ p.declaredType, LeavesSlashes t (p.fallbackPart ++ behind more (ps.map text))) ∧
      ∀ v ∈ p.fallback, LeavesSlashes v (behind more (ps.map text))) ∧ SlashesApart more ps

instance decidableSlashesApart (more : Text) : ∀ ps, Decidable (SlashesApart more ps)
  | [] => instDecidableTrue
  | p :: ps =>
    have := decidableSlashesApart more ps
    inferInstanceAs (Decidable (((∀ t ∈ p.declaredType,
      LeavesSlashes t (p.fallbackPart ++ behind more (ps.map text))) ∧
        ∀ v ∈ p.fallback, LeavesSlashes v (behind more (ps.map text))) ∧ SlashesApart more ps))

theorem SlashesApart.of_append {more last : Text} {ps : List RawParameter}
    (h : SlashesApart (more ++ last) ps) : SlashesApart more ps := by
  induction ps with
  | nil => trivial
  | cons p ps ih =>
    obtain ⟨⟨htype, hfallback⟩, hps⟩ := h
    have hbehind : behind (more ++ last) (ps.map text) = behind more (ps.map text) ++ last := by
      cases ps <;> simp [behind]
    rw [hbehind] at htype hfallback
    refine ⟨⟨fun t ht => ?_, fun v hv => (hfallback v hv).of_append⟩, ih hps⟩
    have htype := htype t ht
    rw [← List.append_assoc] at htype
    exact htype.of_append

variable {p : RawParameter}

theorem trimmed (hp : p.WellFormed) : p.text.Trimmed :=
  .of_strip hp.stripped fun hnil => hp.name.1 (List.append_eq_nil_iff.1 hnil).1

/-! ## A list in its place -/

section

variable {base : State} {outer more : Text}

/-- The type behind a name. -/
theorem partedAt_typePart (hp : p.WellFormed) (hb : base.Coherent) (hbase : base.inCode = true)
    (hmore : Parts more) (hslash : ∀ t ∈ p.declaredType, LeavesSlashes t more) (offset : Nat) :
    PartedAt [] 0 base outer p.typePart more offset := by
  cases htype : p.declaredType with
  | none =>
    rw [typePart, htype]
    exact .plain hbase (by simp) outer more offset
  | some t =>
    obtain ⟨hclosed, hangles, hcommas⟩ := hp.declaredType t htype
    have hcolon : PartedAt [] 0 base outer ": ".toList (t ++ more) offset :=
      .plain hbase (by decide) outer _ offset
    have ht : PartedAt [] _ base (": ".toList.reverse ++ outer) t more (offset + 2) :=
      hclosed.partedAt hcommas hb hbase ⟨rfl, rfl⟩ (by simp) hmore (hslash t htype) _
    rw [hangles] at ht
    rw [typePart, htype]
    exact hcolon.append ht

/-- The default value behind a name or a type. -/
theorem partedAt_fallbackPart (hp : p.WellFormed) (hb : base.Coherent) (hbase : base.inCode = true)
    (hmore : Parts more) (hslash : ∀ v ∈ p.fallback, LeavesSlashes v more) (offset : Nat) :
    PartedAt [] p.anglesLeft base outer p.fallbackPart more offset := by
  cases hfallback : p.fallback with
  | none =>
    rw [fallbackPart, anglesLeft, hfallback]
    exact .plain hbase (by simp) outer more offset
  | some v =>
    obtain ⟨hclosed, hcommas⟩ := hp.fallback v hfallback
    have hequals : PartedAt [] 0 base outer " = ".toList (v ++ more) offset :=
      .plain hbase (by decide) outer _ offset
    have houtermost : ∀ w ∈ outermost v true, w.char ≠ ',' := by
      intro w hw
      obtain ⟨hmem, hdepth⟩ := mem_of_mem_outermostFrom hw
      exact hcommas w hmem hdepth
    have hv : PartedAt [] _ base (" = ".toList.reverse ++ outer) v more (offset + 3) :=
      hclosed.partedAt houtermost hb hbase ⟨rfl, rfl⟩ (by simp) hmore (hslash v hfallback) _
    rw [fallbackPart, anglesLeft, hfallback]
    exact hequals.append hv

/-- A whole parameter has no comma of the list. -/
theorem partedAt_text (hp : p.WellFormed) (hb : base.Coherent) (hbase : base.inCode = true)
    (hmore : Parts more)
    (htype : ∀ t ∈ p.declaredType, LeavesSlashes t (p.fallbackPart ++ more))
    (hfallback : ∀ v ∈ p.fallback, LeavesSlashes v more) (offset : Nat) :
    PartedAt [] p.anglesLeft base outer p.text more offset := by
  have hname : PartedAt [] 0 base outer p.name (p.typePart ++ p.fallbackPart ++ more) offset := by
    refine .plain hbase (fun c hc => ?_) outer _ offset
    have hident := hp.name.2 c hc
    refine ⟨plain_of_isIdentChar hident, ?_, ?_, ?_⟩ <;>
      (rintro rfl; exact absurd hident (by decide))
  have hparts : Parts (p.fallbackPart ++ more) := by
    cases hvalue : p.fallback with
    | none =>
      rw [fallbackPart, hvalue]
      exact hmore
    | some v =>
      rw [fallbackPart, hvalue]
      exact ⟨⟨by simp, by simp⟩, rfl⟩
  exact hname.append ((partedAt_typePart hp hb hbase hparts htype _).append
    (partedAt_fallbackPart hp hb hbase hmore hfallback _))

/-- **The commas of a list are those between its parameters.** -/
theorem exists_partedAt_list (hb : base.Coherent) (hbase : base.inCode = true)
    (hmore : Parts more) {ps : List RawParameter} (hps : ∀ p ∈ ps, p.WellFormed)
    (hangles : ∀ p ∈ ps.dropLast, p.anglesLeft = 0) (hslash : SlashesApart more ps)
    {front : Text} (hfront : front = [] ∨ front = [' ']) (outer : Text) (offset : Nat) :
    ∃ left, PartedAt (joints (offset + front.length) (ps.map text)) left base outer
      (front ++ listText ps) more offset := by
  have hblank : ∀ more, PartedAt [] 0 base outer front more offset := by
    intro more
    refine .plain hbase (fun c hc => ?_) outer more offset
    rcases hfront with rfl | rfl
    · cases hc
    · rw [List.mem_singleton.1 hc]
      decide
  induction ps generalizing front outer offset with
  | nil => exact ⟨0, by simpa [listText, Text.join, joints] using hblank more⟩
  | cons p ps ih =>
    have hp := hps p List.mem_cons_self
    obtain ⟨⟨htype, hfallback⟩, hslashes⟩ := hslash
    cases ps with
    | nil =>
      have htext : PartedAt [] _ base (front.reverse ++ outer) p.text more
          (offset + front.length) := partedAt_text hp hb hbase hmore htype hfallback _
      exact ⟨_, by simpa [listText, Text.join, joints] using (hblank _).append htext⟩
    | cons q qs =>
      have hnext : Parts (behind more ((q :: qs).map text)) :=
        ⟨⟨by simp [behind], by simp [behind]⟩, rfl⟩
      have htext : PartedAt [] _ base (front.reverse ++ outer) p.text
          (behind more ((q :: qs).map text)) (offset + front.length) :=
        partedAt_text hp hb hbase hnext htype hfallback _
      rw [hangles p (by simp)] at htext
      have hcomma : PartedAt [offset + front.length + p.text.length] 0 base
          (p.text.reverse ++ (front.reverse ++ outer)) [','] ([' '] ++ listText (q :: qs) ++ more)
          (offset + front.length + p.text.length) := .comma hbase _ _ _
      have hblanks : [' '] = [] ∨ [' '] = [' '] := .inr rfl
      obtain ⟨left, hrest⟩ := ih (fun r hr => hps r (List.mem_cons_of_mem p hr))
        (fun r hr => hangles r (List.mem_cons_of_mem p hr)) hslashes hblanks
        ([','].reverse ++ (p.text.reverse ++ (front.reverse ++ outer)))
        (offset + front.length + p.text.length + [','].length)
        (.plain hbase (by decide) _ · _)
      have hbehind : behind more ((q :: qs).map text) =
          [','] ++ ([' '] ++ listText (q :: qs)) ++ more := by
        simp [behind, listText]
      rw [hbehind] at htext
      have hsplit : front ++ listText (p :: q :: qs) =
          front ++ (p.text ++ ([','] ++ ([' '] ++ listText (q :: qs)))) := by
        simpa [listText] using join_row front p.text q.text (qs.map text) []
      rw [hsplit]
      exact ⟨left, (hblank _).append (htext.append (hcomma.append hrest))⟩

end

/-! ## The function -/

section

variable {ps : List RawParameter}

/-- A list is split into its parameters. -/
theorem splitTypedCommas_listText (hps : ∀ p ∈ ps, p.WellFormed)
    (hangles : ∀ p ∈ ps.dropLast, p.anglesLeft = 0) (hslash : SlashesApart [] ps) :
    splitTypedCommas (listText ps) = ps.map text := by
  have hnone : ([] : Text) = [] ∨ [] = [' '] := .inl rfl
  obtain ⟨left, hlist⟩ := exists_partedAt_list .fresh rfl (by decide) hps hangles hslash hnone [] 0
  rw [List.length_nil, Nat.add_zero, List.nil_append, listText] at hlist
  refine hlist.splitTypedCommas ?_
  intro t ht
  obtain ⟨p, hp, rfl⟩ := List.mem_map.1 ht
  exact trimmed (hps p hp)

/-- Behind a phrase, the bracket around a list closes behind the list. -/
theorem matching?_listText {front back : Text} (hfront : Phrase front)
    (hps : ∀ p ∈ ps, p.WellFormed) (hangles : ∀ p ∈ ps.dropLast, p.anglesLeft = 0)
    (hslash : SlashesApart (')' :: back) ps) :
    matching? (front ++ ('(' :: listText ps ++ [')'] ++ back)) front.length =
      some (front.length + 1 + (listText ps).length) := by
  have hparts : Parts (')' :: back) := ⟨⟨by simp, by simp⟩, rfl⟩
  have hnone : ([] : Text) = [] ∨ [] = [' '] := .inl rfl
  obtain ⟨left, vs, hreads, hinside, -⟩ :=
    exists_partedAt_list (State.Coherent.fresh.openBracket .round front.length) rfl hparts hps
      hangles hslash hnone ('(' :: front.reverse) (front.length + 1)
  rw [List.nil_append] at hreads
  exact hfront.matching?_enclosed .round hreads fun u hu hchar => (hinside u hu).closer .round hchar

/-- What is read from a list of parameters on. -/
theorem readAt_of_matching? {whole : Text} {i stop : Nat} (hskip : skipBlank whole i = i)
    (hopen : whole[i]? = some '(') (hmatch : matching? whole i = some stop) :
    Signature.readAt whole i = some
      { parameters := splitTypedCommas (Text.slice whole (i + 1) stop)
        returnType := (Signature.splitBody (whole.drop (stop + 1))).1
        hasBody := (Signature.splitBody (whole.drop (stop + 1))).2.isSome } := by
  simp [Signature.readAt, readGenerics, hskip, hopen, hmatch]

/-- Behind a phrase, a list in front of a body is the list of parameters. -/
theorem readAt_listText {front b : Text} (hfront : Phrase front) (hb : Closed b)
    (hps : ∀ p ∈ ps, p.WellFormed) (hangles : ∀ p ∈ ps.dropLast, p.anglesLeft = 0)
    (hslash : SlashesApart (')' :: ' ' :: ('{' :: b ++ ['}'])) ps) :
    Signature.readAt (front ++ ('(' :: listText ps ++ [')'] ++ ' ' :: ('{' :: b ++ ['}'])))
      front.length = some { parameters := ps.map text, hasBody := true } := by
  have hinner : SlashesApart [] ps := SlashesApart.of_append hslash
  have hsplit := splitTypedCommas_listText hps hangles hinner
  have hmatch := matching?_listText hfront hps hangles hslash
  have hskip : skipBlank (front ++ ('(' :: listText ps ++ [')'] ++ ' ' :: ('{' :: b ++ ['}'])))
      front.length = front.length := Header.skipBlank_append (by decide) front _
  have hlist : front ++ ('(' :: listText ps ++ [')'] ++ ' ' :: ('{' :: b ++ ['}'])) =
      front ++ ['('] ++ (listText ps ++ ([')'] ++ ' ' :: ('{' :: b ++ ['}']))) := by
    simp
  have hslice : Text.slice (front ++ ('(' :: listText ps ++ [')'] ++ ' ' :: ('{' :: b ++ ['}'])))
      (front.length + 1) (front.length + 1 + (listText ps).length) = listText ps := by
    rw [hlist]
    exact Text.slice_append _ _ _ (by simp) rfl
  have hbody : (front ++ ('(' :: listText ps ++ [')'] ++ ' ' :: ('{' :: b ++ ['}']))).drop
      (front.length + 1 + (listText ps).length + 1) = ' ' :: ('{' :: b ++ ['}']) := by
    have hlength : front.length + 1 + (listText ps).length + 1 =
        (front ++ ['('] ++ listText ps ++ [')']).length := by
      simp only [List.length_append, List.length_singleton]
    rw [hlist, hlength, ← List.append_assoc, ← List.append_assoc, List.drop_left]
  rw [readAt_of_matching? hskip (by simp) hmatch, hslice, hbody, hsplit,
    Header.splitBody_of_nil hb]
  rfl

/-- A function with a list of parameters and an empty body. -/
def functionText (ps : List RawParameter) : Text :=
  "function f(".toList ++ listText ps ++ ") \x7b\x7d".toList

/-- **No parameter is lost.**  A function is read back with exactly the parameters it was written
with, each as written. -/
theorem parseFunction?_listed (hps : ∀ p ∈ ps, p.WellFormed)
    (hangles : ∀ p ∈ ps.dropLast, p.anglesLeft = 0)
    (hslash : SlashesApart ") \x7b\x7d".toList ps) :
    Signature.parseFunction? (functionText ps) =
      some ("f".toList, { parameters := ps.map text, hasBody := true }) := by
  have hkeyword : Phrase "function f".toList := .of_plain (by decide)
  have hempty : ") \x7b\x7d".toList = ')' :: ' ' :: ('{' :: [] ++ ['}']) := by decide
  rw [hempty] at hslash
  have hread := readAt_listText hkeyword (by decide +kernel) hps hangles hslash
  have hopen : "function f(".toList = "function f".toList ++ ['('] := by decide
  have htext : functionText ps = "function f".toList ++
      ('(' :: listText ps ++ [')'] ++ ' ' :: ('{' :: [] ++ ['}'])) := by
    unfold functionText
    rw [hempty, hopen]
    generalize "function f".toList = front
    simp
  have hstrip : Text.strip (functionText ps) = functionText ps := by
    have hself := Text.strip_eq_self (c := 'f') (d := '}') (by decide) (by decide)
      ("unction f".toList ++ ('(' :: listText ps ++ [')'] ++ [' ', '{']))
    have hword : "function f".toList = 'f' :: "unction f".toList := by decide
    rw [htext, hword]
    generalize "unction f".toList = front at hself ⊢
    simpa using hself
  rw [← htext] at hread
  have hname : readIdentifier (functionText ps) 9 = ("f".toList, 10) := by
    rw [htext]
    rfl
  have hsync : afterAsync? (functionText ps) = none := by
    rw [htext]
    rfl
  have hprefix : "function".toList.isPrefixOf (functionText ps) = true := by
    rw [htext]
    rfl
  have hskip : skipBlank (functionText ps) 8 = 9 := by
    rw [htext]
    rfl
  have hmark : (functionText ps)[9]? = some 'f' := by
    rw [htext]
    rfl
  have hread : Signature.readAt (functionText ps) 10 =
      some { parameters := ps.map text, hasBody := true } := hread
  have hkeywordLength : "function".toList.length = 8 := rfl
  have hmarked : ((some 'f' : Option Char) == some '*') = false := rfl
  rw [Signature.parseFunction?]
  simp only [hstrip, hsync, Option.getD_none, hprefix, if_true, hkeywordLength, hskip, hmark,
    hmarked, Bool.false_eq_true, if_false, hname, hread]
  rfl

end

/-- Commas in types and in values, comparisons that close each other, slashes that divide, and a
comparison in the last parameter. -/
theorem parseFunction?_listed_nested :
    let ps : List RawParameter :=
      [⟨"name".toList, none, none⟩,
        ⟨"m".toList, some "Map<string, /* any */ Array<number>>".toList, none⟩,
        ⟨"f".toList, some "(x: A, y: B) => Promise<C, D>".toList, some "(x, y) => g(x / y)".toList⟩,
        ⟨"o".toList, none,
          some "\x7b s: 'a, b', r: /[,]/g, t: \x60, $\x7b[1, 2]\x7d\x60 \x7d".toList⟩,
        ⟨"c".toList, some "boolean".toList, some "i < j && k > j".toList⟩,
        ⟨"n".toList, none, some "a / b < c / d".toList⟩]
    ((∀ p ∈ ps, p.WellFormed) ∧ (∀ p ∈ ps.dropLast, p.anglesLeft = 0) ∧
      SlashesApart ") \x7b\x7d".toList ps) ∧
    Signature.parseFunction? (functionText ps) =
      some ("f".toList, { parameters := ps.map text, hasBody := true }) := by
  intro ps
  have hps : ∀ p ∈ ps, p.WellFormed := by decide +kernel
  have hangles : ∀ p ∈ ps.dropLast, p.anglesLeft = 0 := by decide +kernel
  have hslash : SlashesApart ") \x7b\x7d".toList ps := by decide +kernel
  exact ⟨⟨hps, hangles, hslash⟩, parseFunction?_listed hps hangles hslash⟩

/-- A comparison hides the comma behind its value, a slash can begin a literal together with one of
the next value, and a comma in a substitution parts its parameter. -/
theorem parseFunction?_listed_hidden :
    let parametersOf (ps : List RawParameter) :=
      (Signature.parseFunction? (functionText ps)).map (·.2.parameters)
    let compared : List RawParameter :=
      [⟨"a".toList, none, some "1 < 2".toList⟩, ⟨"b".toList, none, none⟩]
    let divided : List RawParameter :=
      [⟨"a".toList, none, some "i++ / 2".toList⟩, ⟨"b".toList, none, some "j++ / 2".toList⟩]
    ((∀ p ∈ compared ++ divided, p.WellFormed ∧ ∀ v ∈ p.fallback, stripComments v = v) ∧
      parametersOf compared = some ["a = 1 < 2, b".toList] ∧
      parametersOf divided = some ["a = i++ / 2, b = j++ / 2".toList]) ∧
    Closed "\x60$\x7bx, y\x7d\x60".toList ∧
      stripComments "\x60$\x7bx, y\x7d\x60".toList = "\x60$\x7bx, y\x7d\x60".toList ∧
      parametersOf [⟨"a".toList, none, some "\x60$\x7bx, y\x7d\x60".toList⟩] =
        some ["a = \x60$\x7bx".toList, "y\x7d\x60".toList] := by
  decide +kernel

end RawParameter

end ModuleSurface.Callable
