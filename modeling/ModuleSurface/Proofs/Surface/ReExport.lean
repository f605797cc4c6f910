import ModuleSurface.Proofs.Declaration.ReExport
import ModuleSurface.Proofs.Import.Retention
import ModuleSurface.Proofs.Surface.Interleaving

/-!
# Names exported as a list survive

A list of names that a module exports is written to its declaration file with all its tokens, and
the imports of these names stay (`build_reExport`).  A line comment in the list swallows what stands
behind it: `not_build_reExport`.
-/

namespace ModuleSurface

open ModuleSurface.Lexing
open ModuleSurface.Statement

/-! ## The statement -/

namespace Outline

variable (r : ReExport)

theorem stripRight_text_eq : ∃ t, Text.stripRight r.text = "export".toList ++ t := by
  obtain ⟨t, ht⟩ := r.exists_clause_cons
  refine ⟨written r.front ++ r.clause, ?_⟩
  rw [r.stripRight_text, ReExport.head, List.append_assoc]
  rfl

theorem segmentsIn_reExport : segmentsIn (r.text ++ ['\n']) = [⟨0, r.text, none, []⟩] := by
  rw [segmentsIn, r.segments_text]
  rfl

theorem isControlHeader_reExport : isControlHeader (Text.stripRight r.text) = false := by
  obtain ⟨t, ht⟩ := stripRight_text_eq r
  rw [ht]
  rfl

theorem continues_reExport (more : Text) : continues (r.text ++ more) = false := by
  have htext : r.text = "export".toList ++ written (r.front ++ (r.block ++ r.ending)) := rfl
  rw [htext]
  rfl

/-- The list is a complete statement. -/
theorem complete_reExport : Complete r.text := by
  have hfault : fault? (r.text ++ ['\n']) = none := by
    rw [fault?, r.segments_text]
    rfl
  refine ⟨?_, ?_, ?_, ?_⟩
  · exact getLast?_written _
  · obtain ⟨o, ho, -⟩ := ofSource_of_ok hfault
    exact ⟨o, ho⟩
  · rw [r.segments_text]
    exact ⟨_, rfl, Nat.zero_add _⟩
  · rw [segmentsIn_reExport, awaits, awaits, isControlHeader_reExport]
    rfl

theorem ungrouped_reExport : ungrouped (r.text ++ ['\n']) = [r.declaration] := by
  rw [ungrouped, segmentsIn_reExport, findings, findings, isControlHeader_reExport]
  simp only [Bool.false_eq_true, if_false, r.classify_text]
  rfl

/-- Between complete statements it is declared. -/
theorem exists_mem_ungrouped {A C : Text} (hA : A = [] ∨ ∃ S, A = S ++ ['\n'] ∧ Complete S)
    (hC : continues C = false) (hok : fault? C = none) :
    fault? (A ++ (r.text ++ ['\n'] ++ C)) = none ∧
      ∃ n, r.declaration.moved n ∈ ungrouped (A ++ (r.text ++ ['\n'] ++ C)) := by
  have hjoin := (complete_reExport r).joins hC
  have hfault : fault? (r.text ++ ['\n'] ++ C) = none := by
    rw [hjoin.fault, hok]
    rfl
  have hmem : r.declaration ∈ ungrouped (r.text ++ ['\n'] ++ C) := by
    rw [hjoin.declarations, ungrouped_reExport]
    exact List.mem_cons_self
  rcases hA with rfl | ⟨S, rfl, hS⟩
  · refine ⟨hfault, 0, ?_⟩
    rw [Declaration.moved_zero]
    exact hmem
  · have hcontinues : continues (r.text ++ ['\n'] ++ C) = false := by
      rw [List.append_assoc]
      exact continues_reExport r _
    have hjoinS := hS.joins hcontinues
    refine ⟨?_, (S ++ ['\n']).length, ?_⟩
    · rw [hjoinS.fault, hfault]
      rfl
    · rw [hjoinS.declarations]
      exact List.mem_append_right _ (List.mem_map.2 ⟨_, hmem, rfl⟩)

end Outline

/-- What is no function stays as it is when overloads are grouped. -/
theorem Declaration.mem_groupFrom {run ds : List Declaration} {d : Declaration} (hd : d ∈ ds)
    (hkind : d.kind ≠ .function) : d ∈ groupFrom run ds := by
  induction ds generalizing run with
  | nil => cases hd
  | cons e ds ih =>
    rcases List.mem_cons.1 hd with rfl | hd
    · rw [groupFrom]
      split
      · rename_i hfunction _
        exact absurd hfunction hkind
      · simp
    · obtain ⟨closed, run', -, hgroup | hgroup⟩ := groupFrom_cons run e ds <;> rw [hgroup]
      · exact List.mem_append_right _ (List.mem_cons_of_mem _ (ih hd))
      · exact List.mem_append_right _ (ih hd)

/-! ## Imports -/

/-- The document has the import statement with every binding of that name. -/
def Document.Binds (document : Document) (s : ImportStatement) (name : Text) : Prop :=
  ∃ defaultBinding namespaceBinding namedBindings,
    s.render defaultBinding namespaceBinding namedBindings ∈ document.imports ∧
      (s.defaultBinding = some name → defaultBinding = some name) ∧
      (s.namespaceBinding = some name → namespaceBinding = some name) ∧
      ∀ b ∈ s.namedBindings, b.localName = name → b ∈ namedBindings

/-- An import stays with its bindings of a name that is mentioned. -/
theorem RetainedImport.exists_binds {statements : List ImportStatement} {s : ImportStatement}
    (hs : s ∈ statements) {text name : Text} (hname : name ∈ s.localNames)
    (hused : name ∈ identifiers text) (preferred : List Text) {document : Document}
    (himports : document.imports = (ofUsage statements text preferred).map (·.text)) :
    document.Binds s name := by
  have hany : s.localNames.any (identifiers text).contains = true :=
    List.any_eq_true.2 ⟨name, hname, by simpa using hused⟩
  have hkept : s ∈ (ofUsage statements text preferred).map (·.statement) :=
    (map_statement_ofUsage statements text preferred).mem_iff.2
      (List.mem_filter.2 ⟨hs, by simp [hany]⟩)
  obtain ⟨k, hk, rfl⟩ := List.mem_map.1 hkept
  have hreduced := reduced_of_mem_ofUsage hk
  have htext : k.text ∈ document.imports := by
    rw [himports]
    exact List.mem_map.2 ⟨k, hk, rfl⟩
  cases heffect : k.statement.isSideEffect with
  | true =>
    -- such a statement is written without bindings
    refine ⟨k.statement.defaultBinding, k.statement.namespaceBinding, k.statement.namedBindings, ?_,
      id, id, fun b hb _ => hb⟩
    rw [hreduced.text] at htext
    simpa [ImportStatement.render, heffect] using htext
  | false =>
    refine ⟨k.defaultBinding, k.namespaceBinding, k.namedBindings, hreduced.text ▸ htext, ?_, ?_,
      ?_⟩
    · intro h
      simp [hreduced.defaultBinding heffect, h, Option.filter, hused]
    · intro h
      simp [hreduced.namespaceBinding heffect, h, Option.filter, hused]
    · intro b hb hlocal
      rw [hreduced.namedBindings heffect]
      exact List.mem_filter.2 ⟨hb, by simpa [hlocal] using hused⟩

/-! ## The document -/

namespace Document

open Declaration

variable {r : ReExport} {ds : List Declaration} {n : Nat}

theorem chunkLines_reExport (r : ReExport) (n : Nat) :
    (r.declaration.moved n).chunkLines = [[{ text := r.declaration.passthroughText }]] := rfl

/-- Names that a declared list exports are mentioned, if the list names no module and the other
chunks end outside everything. -/
theorem mem_identifiers_reExport (hmem : r.declaration.moved n ∈ ds)
    (hsource : sourceFrom? none r.clause = none)
    (hwell : ∀ d ∈ ds, ∀ ls ∈ d.chunkLines, Line.WellFormed ls) {keepComments : Bool}
    (hends : ∀ d ∈ ds, ∀ chunk ∈ d.chunks keepComments,
      chunk ≠ r.declaration.passthroughText → EndsOutside chunk)
    {s : Specifier} (hs : s ∈ r.specifiers) (hname : Text.IsIdentifier s.name.1) :
    s.name.1 ∈ identifiers (usedText keepComments ds) := by
  obtain ⟨htokens, houtside⟩ := r.codeTokens_passthroughText
  have hall : ∀ d ∈ ds, ∀ chunk ∈ d.chunks keepComments, EndsOutside chunk := by
    intro d hd chunk hchunk
    by_cases hline : chunk = r.declaration.passthroughText
    · rwa [hline]
    · exact hends d hd chunk hchunk hline
  have hnotOn : (r.declaration.moved n).handsOn = false := by
    have hnone : (r.declaration.moved n).source = none := hsource
    simp [handsOn, hnone]
  have hchunk : r.declaration.passthroughText ∈ ds.flatMap (usedChunks keepComments) := by
    refine List.mem_flatMap.2 ⟨_, hmem, ?_⟩
    rw [usedChunks, usedLines, hnotOn, if_neg Bool.false_ne_true, chunkLines_reExport]
    simp
  have htoken : s.name.1 ∈ codeTokens r.declaration.passthroughText := by
    rw [htokens, ReExport.tokens]
    simp [Specifier.mem_listTokens r.trailing hs]
  rw [identifiers_join_usedChunks hwell hall]
  exact List.mem_flatMap.2 ⟨_, hchunk, Text.mem_identifierTokens_of_mem_tokens hname htoken⟩

/-- **A list of exported names survives**, however it is laid out with white space and block
comments, and whether a semicolon ends it or not.  Between complete statements in front and behind
it is written as a line with the tokens of the statement.  If no comment in it reads like the name
of a module, and the other chunks end outside every literal, comment and substitution, then imports
stay with every binding of its names. -/
theorem build_reExport (r : ReExport) {A C : Text}
    (hA : A = [] ∨ ∃ S, A = S ++ ['\n'] ∧ Outline.Complete S) (hC : continues C = false)
    (hok : ∃ c, Outline.ofSource C = .ok c) (keepComments : Bool) (preferred : List Text) :
    ∃ o document line, Outline.ofSource (A ++ (r.text ++ ['\n'] ++ C)) = .ok o ∧
      build o.declarations o.imports keepComments preferred o.directives = .ok document ∧
      line ∈ document.valueReExports ∧
      codeTokens r.text = r.tokens ++ (if r.terminated then [[';']] else []) ∧
      codeTokens line = r.tokens ++ [[';']] ∧
      (sourceFrom? none r.clause = none →
        (∀ chunk ∈ document.bodyChunks, chunk ≠ line → EndsOutside chunk) →
          ∀ s ∈ r.specifiers, Text.IsIdentifier s.name.1 →
            ∀ i ∈ o.imports, s.name.1 ∈ i.localNames → document.Binds i s.name.1) := by
  obtain ⟨c, hc⟩ := hok
  obtain ⟨hfault, n, hmem⟩ :=
    Outline.exists_mem_ungrouped r hA hC (Outline.fault?_of_ofSource hc)
  obtain ⟨o, ho, hdeclarations, -⟩ := Outline.ofSource_of_ok hfault
  have hd : r.declaration.moved n ∈ o.declarations := by
    rw [hdeclarations]
    exact mem_groupFrom hmem (by simp [Declaration.moved, ReExport.declaration])
  have hread := Outline.readable_ofSource ho
  have hwell : ∀ d ∈ o.declarations, ∀ ls ∈ d.chunkLines, Line.WellFormed ls := fun d hd =>
    wellFormed_chunkLines
      (Outline.shaped_ofSource ho (fun s hs t ht => docComment_of_mem hs ht) d hd)
  have hline : r.declaration.passthroughText ∈ (r.declaration.moved n).chunks keepComments := by
    rw [chunks, chunkLines_reExport]
    simp
  refine ⟨o, _, r.declaration.passthroughText, ho, build_eq hread .., ?_, r.codeTokens_text,
    r.codeTokens_passthroughText.1, ?_⟩
  · exact List.mem_flatMap.2 ⟨_, List.mem_filter.2 ⟨hd, rfl⟩, hline⟩
  · intro hsource hends s hs hname i hi hlocal
    have hused : s.name.1 ∈ identifiers (usedText keepComments o.declarations) :=
      mem_identifiers_reExport hd hsource hwell
        (fun d hd chunk hchunk => hends chunk (mem_bodyChunks_fill hd hchunk _)) hs hname
    exact RetainedImport.exists_binds hi hlocal hused preferred rfl

/-- Two names over three lines, with comments. -/
def overLines : ReExport where
  specifiers := [{ name := ⟨"a".toList, by decide⟩ },
    { name := ⟨"b".toList, by decide⟩, rename := some ⟨"c".toList, by decide⟩ }]
  trailing := true
  front := [.blank ⟨'\n', by decide⟩]
  inside := [.comment ⟨" x ".toList, by decide⟩, .word ⟨"a".toList, by decide⟩,
    .sign ⟨',', by decide⟩, .blank ⟨'\n', by decide⟩, .space,
    .word ⟨"b".toList, by decide⟩, .space, .word ⟨"as".toList, by decide⟩,
    .comment ⟨[], by decide⟩, .word ⟨"c".toList, by decide⟩, .sign ⟨',', by decide⟩]
  behind := [.space, .comment ⟨"y".toList, by decide⟩]
  terminated := true
  front_blank := by decide
  inside_tokens := by decide
  inside_apart := by decide
  behind_space := by decide

/-- Its first name is one of two that are imported, and the other one is mentioned elsewhere. -/
theorem build_reExport_overLines :
    overLines.text = "export\n\x7b/* x */a,\n b as/**/c,\x7d /*y*/;".toList ∧
      ∃ o document line, Outline.ofSource ("import \x7b a, d \x7d from 'm'".toList ++ ['\n'] ++
          (overLines.text ++ ['\n'] ++ "let v: d".toList)) = .ok o ∧
        build o.declarations o.imports true [] o.directives = .ok document ∧
        line ∈ document.valueReExports ∧
        codeTokens line = ["export", "\x7b", "a", ",", "b", "as", "c", ",", "\x7d", ";"].map
          String.toList ∧
        ∃ i ∈ o.imports, document.Binds i "a".toList := by
  refine ⟨by decide +kernel, ?_⟩
  obtain ⟨a, ha, -⟩ := Outline.ofSource_of_ok
    (by decide +kernel : Outline.fault? "import \x7b a, d \x7d from 'm'\n".toList = none)
  obtain ⟨c, hc, -⟩ :=
    Outline.ofSource_of_ok (by decide +kernel : Outline.fault? "let v: d".toList = none)
  have hA : Outline.Complete "import \x7b a, d \x7d from 'm'".toList :=
    ⟨by decide, ⟨a, ha⟩, ⟨⟨0, "import \x7b a, d \x7d from 'm'".toList, none, []⟩,
      by decide +kernel, rfl⟩, by decide +kernel⟩
  obtain ⟨o, document, line, ho, hdocument, hline, -, htokens, hbinds⟩ :=
    build_reExport overLines (.inr ⟨_, rfl, hA⟩) (by decide) ⟨c, hc⟩ true []
  obtain ⟨o', ho', hdeclarations, himports, -⟩ :=
    Outline.ofSource_of_ok (Outline.fault?_of_ofSource ho)
  cases ho.symm.trans ho'
  have hends : ∀ chunk ∈ document.bodyChunks, EndsOutside chunk := by
    rw [bodyChunks_of_build (Outline.readable_ofSource ho) hdocument, hdeclarations]
    decide +kernel
  have himport : ∃ i ∈ o.imports, "a".toList ∈ i.localNames := by
    rw [himports]
    decide +kernel
  obtain ⟨i, hi, hname⟩ := himport
  refine ⟨o, document, line, ho, hdocument, hline, htokens.trans (by decide), i, hi, ?_⟩
  exact hbinds (sourceFrom?_of_unquoted (by decide +kernel)) (fun chunk h _ => hends chunk h) _
    List.mem_cons_self ⟨by decide, by decide⟩ i hi hname

/-- A line comment swallows the other names, and the import of one of them goes.  A comment behind
the keyword hides the list altogether. -/
theorem not_build_reExport :
    (∃ o document, Outline.ofSource
        "import \x7b b \x7d from 'm'\nexport \x7b a, // c\n b \x7d;".toList = .ok o ∧
      build o.declarations o.imports true [] o.directives = .ok document ∧
      document.valueReExports = ["export \x7b a, // c b \x7d;".toList] ∧
      codeTokens "export \x7b a, // c b \x7d;".toList =
        ["export", "\x7b", "a", ","].map String.toList ∧
      o.imports.map (·.localNames) = [["b".toList]] ∧ document.imports = []) ∧
    ∃ o document, Outline.ofSource "export /**/ \x7b a \x7d;".toList = .ok o ∧
      build o.declarations o.imports true [] o.directives = .ok document ∧
      document.bodyChunks = [] := by
  refine ⟨?_, ?_⟩
  · obtain ⟨o, ho, hdeclarations, himports, -⟩ := Outline.ofSource_of_ok (by decide +kernel :
      Outline.fault? "import \x7b b \x7d from 'm'\nexport \x7b a, // c\n b \x7d;".toList = none)
    have hread := Outline.readable_ofSource ho
    have hbuild := build_eq hread o.imports true [] o.directives
    refine ⟨o, _, ho, hbuild, ?_, by decide +kernel, ?_, ?_⟩
    · show [] ++ chunksIn true .valueReExports o.declarations = _
      rw [hdeclarations]
      decide +kernel
    · rw [himports]
      decide +kernel
    · rw [← List.length_eq_zero_iff, length_imports_of_build hread hbuild, hdeclarations, himports]
      decide +kernel
  · obtain ⟨o, ho, hdeclarations, -⟩ := Outline.ofSource_of_ok
      (by decide +kernel : Outline.fault? "export /**/ \x7b a \x7d;".toList = none)
    have hread := Outline.readable_ofSource ho
    have hbuild := build_eq hread o.imports true [] o.directives
    refine ⟨o, _, ho, hbuild, ?_⟩
    rw [bodyChunks_of_build hread hbuild, hdeclarations]
    decide +kernel

end Document

end ModuleSurface
