import Mathlib.Data.List.Infix
import ModuleSurface.Outline
import ModuleSurface.Proofs.Declaration.Declarators
import ModuleSurface.Proofs.Lexing.Words

/-!
# Statements with several variables

A statement with a list of declarators is one segment (`segments_text`), and it declares one
variable for each of them, with the place where the declarator was written: `ofSource_variables`.
-/

namespace ModuleSurface

open ModuleSurface.Lexing
open ModuleSurface.Callable
open ModuleSurface.Statement

/-! ## The statement -/

/-- A statement that declares variables, part by part. -/
structure VariableStatement where
  /-- The keyword. -/
  keyword : Text
  /-- The declarators. -/
  declarators : List RawParameter
  deriving DecidableEq, Repr

namespace VariableStatement

/-- The whole statement. -/
def text (s : VariableStatement) : Text :=
  s.keyword ++ ' ' :: (RawParameter.listText s.declarators ++ [';'])

/-- The variables it declares. -/
def declared (s : VariableStatement) : List Declaration :=
  Declaration.inRow s.keyword (s.keyword.length + 1) s.declarators

/-- The statement is read as it is written: there are several declarators that can be read, only the
last one leaves angle brackets open when comparisons are counted, no slash of one of them begins a
literal that ends behind it, the statement does not end before its semicolon, and the first
declarator is not taken for a part of the keyword. -/
structure WellFormed (s : VariableStatement) : Prop where
  /-- The keyword. -/
  keyword : s.keyword ∈ ["const", "let", "var"].map String.toList
  /-- The number of declarators. -/
  several : 2 ≤ s.declarators.length
  /-- The declarators. -/
  declarable : ∀ d ∈ s.declarators, Declaration.Declarable d
  /-- Their angle brackets. -/
  angles : ∀ d ∈ s.declarators.dropLast, d.anglesLeft = 0
  /-- Their slashes. -/
  slashes : RawParameter.SlashesApart [';'] s.declarators
  /-- The end of the statement. -/
  whole : ∀ v ∈ visits s.text, v.rest ≠ [] → Unended v
  /-- The first declarator. -/
  first : ∀ d ∈ s.declarators.head?, ¬ d.text <:+: s.keyword ∧
    ¬ (s.keyword = "const".toList ∧ d.name = "enum".toList)

instance (s : VariableStatement) : Decidable s.WellFormed :=
  decidable_of_iff
    (s.keyword ∈ ["const", "let", "var"].map String.toList ∧ 2 ≤ s.declarators.length ∧
      (∀ d ∈ s.declarators, Declaration.Declarable d) ∧
      (∀ d ∈ s.declarators.dropLast, d.anglesLeft = 0) ∧
      RawParameter.SlashesApart [';'] s.declarators ∧
      (∀ v ∈ visits s.text, v.rest ≠ [] → Unended v) ∧
      ∀ d ∈ s.declarators.head?, ¬ d.text <:+: s.keyword ∧
        ¬ (s.keyword = "const".toList ∧ d.name = "enum".toList))
    ⟨fun ⟨h₁, h₂, h₃, h₄, h₅, h₆, h₇⟩ => ⟨h₁, h₂, h₃, h₄, h₅, h₆, h₇⟩,
      fun ⟨h₁, h₂, h₃, h₄, h₅, h₆, h₇⟩ => ⟨h₁, h₂, h₃, h₄, h₅, h₆, h₇⟩⟩

variable {s : VariableStatement}

theorem isIdentChar_keyword (hs : s.WellFormed) : ∀ c ∈ s.keyword, Text.isIdentChar c = true := by
  have hall : ∀ w ∈ ["const", "let", "var"].map String.toList,
      ∀ c ∈ w, Text.isIdentChar c = true := by decide
  exact hall _ hs.keyword

theorem exists_keyword_cons (hs : s.WellFormed) :
    ∃ c r, s.keyword = c :: r ∧ Text.isBlank c = false ∧ c ∉ [';', '/', '@'] := by
  have hne : s.keyword ≠ [] := by
    have hall : ∀ w ∈ ["const", "let", "var"].map String.toList, w ≠ [] := by decide
    exact hall _ hs.keyword
  obtain ⟨c, r, hkeyword⟩ := List.exists_cons_of_ne_nil hne
  have hc := isIdentChar_keyword hs c (by rw [hkeyword]; exact List.mem_cons_self)
  refine ⟨c, r, hkeyword, Text.isBlank_of_isIdentChar hc, fun hsign => ?_⟩
  have hall : ∀ c ∈ [';', '/', '@'], Text.isIdentChar c = false := by decide
  rw [hall c hsign] at hc
  cases hc

/-- The first declarator and the others. -/
theorem exists_declarators_cons (hs : s.WellFormed) :
    ∃ d e es, s.declarators = d :: e :: es := by
  have hseveral := hs.several
  rcases hds : s.declarators with _ | ⟨d, _ | ⟨e, es⟩⟩
  · simp [hds] at hseveral
  · simp [hds] at hseveral
  · exact ⟨d, e, es, rfl⟩

theorem wellFormed_declarators (hs : s.WellFormed) : ∀ d ∈ s.declarators, d.WellFormed :=
  fun d hd => (hs.declarable d hd).1

theorem trimmed_listText (hs : s.WellFormed) :
    (RawParameter.listText s.declarators).Trimmed := by
  obtain ⟨d, e, es, hds⟩ := exists_declarators_cons hs
  exact RawParameter.trimmed_listText (by simp [hds]) (wellFormed_declarators hs)

theorem text_eq (s : VariableStatement) :
    s.text = s.keyword ++ ' ' :: RawParameter.listText s.declarators ++ [';'] := by
  simp [text]

/-! ### Its end -/

/-- Up to the semicolon the statement leads back to where it began, and does not end. -/
theorem exists_reads (hs : s.WellFormed) :
    ∃ vs, Reads {} [] (s.keyword ++ ' ' :: RawParameter.listText s.declarators) [';'] 0 vs ∧
      ∀ v ∈ vs, Unended v := by
  have hplain : ∀ c ∈ s.keyword ++ [' '], Plain c := by
    intro c hc
    rcases List.mem_append.1 hc with hc | hc
    · exact plain_of_isIdentChar (isIdentChar_keyword hs c hc)
    · rw [List.mem_singleton.1 hc]
      decide
  have hnone : ([] : Text) = [] ∨ [] = [' '] := .inl rfl
  obtain ⟨us, hus, -⟩ := @Reads.of_plain {} _ rfl hplain []
    (RawParameter.listText s.declarators ++ [';']) 0
  obtain ⟨left, ws, hws, -, -⟩ := RawParameter.exists_partedAt_list .fresh rfl (by decide)
    (wellFormed_declarators hs) hs.angles hs.slashes hnone ((s.keyword ++ [' ']).reverse ++ [])
    (0 + (s.keyword ++ [' ']).length)
  have hreads := hus.append hws
  rw [List.append_assoc, List.singleton_append] at hreads
  refine ⟨_, hreads, fun v hv => ?_⟩
  have hvisits : visits (s.keyword ++ ' ' :: RawParameter.listText s.declarators ++ [';']) =
      us ++ ws ++ _ := hreads.visits_eq
  obtain ⟨ps, hrun, hps⟩ := hreads
  refine hs.whole v ?_ fun hrest => ?_
  · rw [text_eq, hvisits]
    exact List.mem_append_left _ hv
  · rw [← hps] at hv
    have hsuffix := hrun.suffix_of_visit hv
    rw [hrest] at hsuffix
    cases List.suffix_nil.1 hsuffix

/-- The list of declarators ends neither with white space nor with a semicolon. -/
theorem exists_getLast?_listText (hs : s.WellFormed) :
    ∃ c ∈ (RawParameter.listText s.declarators).getLast?, Text.isBlank c = false ∧ c ≠ ';' := by
  obtain ⟨c, hc, hblank⟩ := (trimmed_listText hs).last
  refine ⟨c, hc, hblank, ?_⟩
  rintro rfl
  obtain ⟨t, ht⟩ := List.getLast?_eq_some_iff.1 hc
  obtain ⟨vs, hreads, hvs⟩ := exists_reads hs
  have hsplit : s.keyword ++ ' ' :: (t ++ [';']) = (s.keyword ++ ' ' :: t) ++ [';'] := by simp
  rw [ht, hsplit] at hreads
  obtain ⟨v, hv, hchar, hstate⟩ := hreads.exists_semicolon rfl (by simp)
  exact (hvs v hv (by rw [hstate]; rfl)).1 hchar

/-- **The statement is one segment.** -/
theorem segments_text (hs : s.WellFormed) :
    segments .module s.text = ⟨[.segment ⟨0, s.text, none, []⟩], .finished {}⟩ := by
  obtain ⟨c, r, hkeyword, hblank, hsign⟩ := exists_keyword_cons hs
  simp only [List.mem_cons, List.not_mem_nil, or_false, not_or] at hsign
  obtain ⟨hsemicolon, hslash, -⟩ := hsign
  obtain ⟨vs, hreads, hvs⟩ := exists_reads hs
  have hfront : s.keyword ++ ' ' :: RawParameter.listText s.declarators =
      c :: (r ++ ' ' :: RawParameter.listText s.declarators) := by
    rw [hkeyword]
    rfl
  have hbegins : ∀ more, Begins .module none c more := fun more _ =>
    ⟨hblank, by simpa [Layout.module] using hsemicolon, by simp [List.isPrefixOf, Ne.symm hslash],
      by simp [List.isPrefixOf, Ne.symm hslash]⟩
  rw [hfront] at hreads
  rw [text_eq, hfront]
  exact segments_of_semicolon hreads (hbegins _) hvs (by simp)

/-! ### What it declares -/

/-- Only the semicolon of the statement is stripped. -/
theorem stripSemicolon_listText (hs : s.WellFormed) :
    Text.stripSemicolon (RawParameter.listText s.declarators ++ [';']) =
      RawParameter.listText s.declarators := by
  obtain ⟨c, hc, hblank, hne⟩ := exists_getLast?_listText hs
  have hleft := (trimmed_listText hs).stripLeft_append [] [';'] (by simp)
  rw [List.nil_append] at hleft
  rw [Text.stripSemicolon, hleft]
  exact Text.dropRightWhile_append_of_last hc (by simp [hblank, hne]) (by decide)

theorem ofVariables_listText (hs : s.WellFormed) :
    Declaration.ofVariables s.keyword (RawParameter.listText s.declarators ++ [';'])
        { kind := .exports, raw := s.text, stop := s.text.length } =
      { declarations := s.declared } := by
  obtain ⟨d, e, es, hds⟩ := exists_declarators_cons hs
  have hinner : RawParameter.SlashesApart [] s.declarators :=
    RawParameter.SlashesApart.of_append hs.slashes
  have hsplit : splitTypedCommas (RawParameter.listText s.declarators) =
      s.declarators.map RawParameter.text :=
    RawParameter.splitTypedCommas_listText (wellFormed_declarators hs) hs.angles hinner
  have hread := hs.declarable
  have hslash := hs.slashes
  have hfirst := hs.first d (by rw [hds]; rfl)
  rw [hds] at hread hslash
  have htext : s.text =
      s.keyword ++ ' ' :: (d.text ++ behind [';'] ((e :: es).map RawParameter.text)) := by
    rw [text, hds, RawParameter.listText, List.map_cons, Declaration.join_cons_append]
  have hfind : Text.find? (s.text.drop 0) d.text = some (s.keyword.length + 1) := by
    rw [List.drop_zero, htext]
    exact RawParameter.find?_behind_keyword (hread d List.mem_cons_self).1 (isIdentChar_keyword hs)
      hfirst.1 _
  have hbehind : s.text.drop (0 + (s.keyword.length + 1) + d.text.length) =
      behind [';'] ((e :: es).map RawParameter.text) := by
    have hlength : 0 + (s.keyword.length + 1) + d.text.length =
        (s.keyword ++ ' ' :: d.text).length := by
      simp
      omega
    rw [htext, hlength, ← List.cons_append, ← List.append_assoc, List.drop_left]
  have hothers := Declaration.ofDeclarators_behind
    (fun d hd => hread d (List.mem_cons_of_mem _ hd)) hslash.2 hbehind s.keyword 0 s.text.length
  have hplace : 0 + (0 + (s.keyword.length + 1) + d.text.length) + 2 =
      s.keyword.length + 1 + d.text.length + 2 := by
    omega
  have hstart : 0 + (0 + (s.keyword.length + 1)) = s.keyword.length + 1 := by
    omega
  unfold Declaration.ofVariables
  rw [stripSemicolon_listText hs, hsplit, hds, List.map_cons, List.map_cons]
  show Declaration.ofDeclarators s.keyword _ 0 (d.text :: (e :: es).map RawParameter.text) = _
  rw [Declaration.ofDeclarators_cons (hread d List.mem_cons_self)
    (Declaration.slashes_of_cons hslash) hfind s.keyword 0, hothers, hplace, hstart, declared, hds]
  rfl

theorem ofKeyword_text (hs : s.WellFormed) :
    Declaration.ofKeyword s.text { kind := .exports, raw := s.text, stop := s.text.length } =
      { declarations := s.declared } := by
  obtain ⟨c, r, hcons, -⟩ := exists_keyword_cons hs
  obtain ⟨d, e, es, hds⟩ := exists_declarators_cons hs
  have hne : s.keyword ≠ [] := by
    rw [hcons]
    exact List.cons_ne_nil c r
  have hread : readIdentifier s.text 0 = (s.keyword, s.keyword.length) :=
    Header.readIdentifier_start hne (isIdentChar_keyword hs) rfl
  have hrest : Text.stripLeft (s.text.drop s.keyword.length) =
      RawParameter.listText s.declarators ++ [';'] := by
    rw [text, List.drop_left]
    exact (trimmed_listText hs).stripLeft_append [' '] [';'] (by decide)
  have henum : s.keyword = "const".toList →
      Text.startsWithName "enum".toList (RawParameter.listText s.declarators ++ [';']) = false := by
    intro hconst
    have hfirst := hs.first d (by rw [hds]; rfl)
    have hname := (wellFormed_declarators hs d (by rw [hds]; exact List.mem_cons_self)).name
    have hlist : RawParameter.listText s.declarators ++ [';'] =
        d.name ++ (d.typePart ++ (d.fallbackPart ++
          behind [';'] ((e :: es).map RawParameter.text))) := by
      rw [hds, RawParameter.listText, List.map_cons, Declaration.join_cons_append]
      simp [RawParameter.text]
    rw [hlist]
    exact Declaration.startsWithName_eq_false (by decide) hname.2
      (RawParameter.any_head?_behind_name d rfl) fun h => hfirst.2 ⟨hconst, h⟩
  rw [← ofVariables_listText hs]
  unfold Declaration.ofKeyword
  simp only [hread, hrest]
  have hkeyword := hs.keyword
  simp only [List.map_cons, List.map_nil, List.mem_cons, List.not_mem_nil, or_false] at hkeyword
  rcases hkeyword with hkeyword | hkeyword | hkeyword
  · simp only [henum hkeyword, hkeyword]
    rfl
  · simp only [hkeyword]
    rfl
  · simp only [hkeyword]
    rfl

theorem classify_text (hs : s.WellFormed) :
    Declaration.classify s.text 0 none = { declarations := s.declared } := by
  obtain ⟨c, r, hkeyword, hblank, hsign⟩ := exists_keyword_cons hs
  simp only [List.mem_cons, List.not_mem_nil, or_false, not_or] at hsign
  have hdecorators : stripDecorators s.text = s.text := by
    have htext : s.text = c :: (r ++ ' ' :: (RawParameter.listText s.declarators ++ [';'])) := by
      rw [text, hkeyword]
      rfl
    rw [htext]
    exact stripDecorators_eq (Text.stripLeft_cons hblank _) hsign.2.2
  have hwords : ∀ word ∈ ["export", "declare"],
      Text.startsWithName word.toList s.text = false := by
    have hwords : ∀ word ∈ ["export", "declare"], (∀ c ∈ word.toList, Text.isIdentChar c = true) ∧
        word.toList ∉ ["const", "let", "var"].map String.toList := by
      decide
    intro word hword
    obtain ⟨hident, hne⟩ := hwords word hword
    exact Declaration.startsWithName_eq_false hident (isIdentChar_keyword hs) rfl
      fun h => hne (h ▸ hs.keyword)
  unfold Declaration.classify
  simp only [hdecorators, hwords "export" (by decide), Declaration.ofAmbient,
    Declaration.dropKeyword?, hwords "declare" (by decide), Bool.false_eq_true, if_false,
    Nat.zero_add]
  exact ofKeyword_text hs

/-- Variables have no overloads. -/
theorem groupFrom_inRow (keyword : Text) (start : Nat) (ds : List RawParameter) :
    Declaration.groupFrom [] (Declaration.inRow keyword start ds) =
      Declaration.inRow keyword start ds := by
  induction ds generalizing start with
  | nil => rfl
  | cons d ds ih => exact congrArg (Declaration.ofRaw keyword start d :: ·) (ih _)

/-- The places are where the declarators were written. -/
theorem slice_inRow (front more keyword : Text) (ds : List RawParameter) :
    (Declaration.inRow keyword front.length ds).map (fun d =>
        Text.slice (front ++ (RawParameter.listText ds ++ more)) d.start d.stop) =
      ds.map RawParameter.text := by
  induction ds generalizing front with
  | nil => rfl
  | cons d ds ih =>
    have hlist : RawParameter.listText (d :: ds) ++ more =
        d.text ++ behind more (ds.map RawParameter.text) := by
      rw [RawParameter.listText, List.map_cons, Declaration.join_cons_append]
    have hhead : Text.slice (front ++ (RawParameter.listText (d :: ds) ++ more)) front.length
        (front.length + d.text.length) = d.text := by
      rw [hlist]
      exact Text.slice_append _ _ _ rfl rfl
    rw [Declaration.inRow, List.map_cons, List.map_cons]
    refine congrArg₂ _ hhead ?_
    cases ds with
    | nil => rfl
    | cons e es =>
      have hplace : front.length + d.text.length + 2 =
          (front ++ (d.text ++ ", ".toList)).length := by
        simp
        omega
      have hrest : front ++ (RawParameter.listText (d :: e :: es) ++ more) =
          (front ++ (d.text ++ ", ".toList)) ++ (RawParameter.listText (e :: es) ++ more) := by
        simpa [RawParameter.listText] using
          join_row front d.text e.text (es.map RawParameter.text) more
      rw [hplace, hrest]
      exact ih _

/-- **One declaration for each declarator.** -/
theorem ofSource_variables (hs : s.WellFormed) :
    Outline.ofSource s.text = .ok ⟨s.declared, [], [], []⟩ ∧
      s.declared.map (fun d => Text.slice s.text d.start d.stop) =
        s.declarators.map RawParameter.text := by
  have hraw : Text.stripRight s.text = s.text := by
    rw [text_eq]
    exact Text.stripRight_concat (by decide) _
  have hcontrol : isControlHeader s.text = false := by
    have hkeyword := hs.keyword
    simp only [List.map_cons, List.map_nil, List.mem_cons, List.not_mem_nil, or_false] at hkeyword
    rcases hkeyword with hkeyword | hkeyword | hkeyword <;> rw [text, hkeyword] <;> rfl
  have hfound : Outline.findings s.text false [⟨0, s.text, none, []⟩] =
      { declarations := s.declared } := by
    simp only [Outline.findings, hraw, hcontrol, classify_text hs]
    show Finding.mk (s.declared ++ []) [] [] = _
    rw [List.append_nil]
  have hcut : Outline.segmentsOf [.segment ⟨0, s.text, none, []⟩] =
      [⟨0, s.text, none, []⟩] := rfl
  have hgroups : Declaration.groupOverloads s.declared = s.declared :=
    groupFrom_inRow _ _ _
  constructor
  · simp only [Outline.ofSource, segments_text hs, hcut, hfound, hgroups]
    rfl
  · have hslice := slice_inRow (s.keyword ++ [' ']) [';'] s.keyword s.declarators
    rw [List.length_append, List.length_singleton, List.append_assoc,
      List.singleton_append] at hslice
    exact hslice

/-- Names that begin like one another, commas in types, values, strings and literals, a value that
goes on in the next line, slashes that divide, and a comparison in the last declarator. -/
theorem ofSource_variables_nested :
    let s : VariableStatement := ⟨"let".toList,
      [⟨"tt".toList, none, some "[t, 'b;', /[,;]/]".toList⟩, ⟨"t".toList, none, none⟩,
        ⟨"m".toList, some "Map<K, /* any */ V[]>".toList, none⟩,
        ⟨"f".toList, some "(x: A) => Promise<B, C>".toList, some "(x) =>\n  g(x / y)".toList⟩,
        ⟨"n".toList, none, some "a / b < c".toList⟩]⟩
    s.WellFormed ∧ Outline.ofSource s.text = .ok ⟨s.declared, [], [], []⟩ ∧
      s.declared.map (fun d => Text.slice s.text d.start d.stop) =
        s.declarators.map RawParameter.text := by
  intro s
  have hs : s.WellFormed := by decide +kernel
  exact ⟨hs, ofSource_variables hs⟩

/-- A semicolon ends the statement in the middle of a value.  Apart from that, a first name that
stands in the keyword is found there, a comparison hides the comma behind its value, a slash can
begin a literal together with one of the next value, and a comma in a substitution parts its
declarator. -/
theorem not_ofSource_variables :
    let outlineOf (s : VariableStatement) :=
      (Outline.ofSource s.text).toOption.map fun o =>
        (o.declarations.map fun d => (d.raw, d.start, d.stop), o.notices)
    let ended : VariableStatement :=
      ⟨"let".toList, [⟨"a".toList, none, some "x; y".toList⟩, ⟨"b".toList, none, none⟩]⟩
    let early : VariableStatement :=
      ⟨"let".toList, [⟨"t".toList, none, none⟩, ⟨"e".toList, none, none⟩]⟩
    let compared : VariableStatement :=
      ⟨"let".toList, [⟨"a".toList, none, some "1 < 2".toList⟩, ⟨"b".toList, none, none⟩]⟩
    let divided : VariableStatement :=
      ⟨"let".toList, [⟨"a".toList, none, some "i++ / 2".toList⟩,
        ⟨"b".toList, none, some "j / 2".toList⟩]⟩
    let substituted : Text := "\x60$\x7bx, y\x7d\x60".toList
    (∀ s ∈ [ended, early, compared, divided], ∀ d ∈ s.declarators,
      Declaration.Declarable d ∧ ∀ v ∈ d.fallback, stripComments v = v) ∧
    outlineOf ended =
      some ([("let a = x;".toList, 0, 10)], [.unrecognizedStatement 11 "y, b;".toList]) ∧
    outlineOf early = some ([("t".toList, 2, 3), ("e".toList, 7, 8)], []) ∧
    outlineOf compared = some ([("let a = 1 < 2, b;".toList, 0, 17)], []) ∧
    outlineOf divided = some ([("let a = i++ / 2, b = j / 2;".toList, 0, 27)], []) ∧
    Closed substituted ∧ stripComments substituted = substituted ∧
      outlineOf ⟨"let".toList, [⟨"a".toList, none, some substituted⟩, ⟨"b".toList, none, none⟩]⟩ =
        some ([("a = \x60$\x7bx".toList, 4, 12), ("y\x7d\x60".toList, 14, 17),
          ("b".toList, 19, 20)], []) := by
  intro outlineOf ended early compared divided substituted
  refine ⟨?_, ?_, ?_, ?_, ?_, ?_, ?_, ?_⟩ <;> decide +kernel

end VariableStatement

end ModuleSurface
