import ModuleSurface.Proofs.Import.Usage
import ModuleSurface.Proofs.Outline.Composition
import ModuleSurface.Proofs.Surface.Lines

/-!
# The order of declarations

A declaration file has its sections in a fixed order, so it does not matter how the declarations of
different sections are interleaved in the source.  That its import section does not depend on it
either rests on the lexing of the chunks: the names that are used are read off all chunks joined in
source order, and each chunk contributes what it mentions on its own (`build_interleaved`).  A chunk
that leaves a substitution open takes part of the next one with it: `not_build_interleaved`.
-/

namespace ModuleSurface

open ModuleSurface.Lexing
open ModuleSurface.Statement

/-! ## Sections -/

namespace Declaration

/-- The same declarations in the same order in each section.  Declarations that go to no section may
stand anywhere or nowhere. -/
def Interleaved (ds es : List Declaration) : Prop :=
  ∀ place : DocumentSection,
    ds.filter (·.section? == some place) = es.filter (·.section? == some place)

instance (ds es : List Declaration) : Decidable (Interleaved ds es) :=
  decidable_of_iff (∀ place ∈ [DocumentSection.typeReExports, .declarations, .valueReExports,
      .defaultExport], ds.filter (·.section? == some place) = es.filter (·.section? == some place))
    ⟨fun h place => h place (by cases place <;> decide), fun h place _ => h place⟩

/-- The texts between the comments in the chunks of a declaration. -/
def stretches (d : Declaration) : List Text :=
  d.chunkLines.flatMap fun ls => (Line.stretches ls).map (·.text)

variable {ds es : List Declaration}

namespace Interleaved

theorem symm (h : Interleaved ds es) : Interleaved es ds :=
  fun place => (h place).symm

theorem mem_of_mem (h : Interleaved ds es) {d : Declaration} (hd : d ∈ ds)
    (hplace : d.section? ≠ none) : d ∈ es := by
  obtain ⟨place, hplace⟩ := Option.ne_none_iff_exists'.1 hplace
  have hmem : d ∈ ds.filter (·.section? == some place) := by simp [hd, hplace]
  rw [h place] at hmem
  exact (List.mem_filter.1 hmem).1

/-- A declaration with chunks has a section. -/
theorem mem_of_chunkLines (h : Interleaved ds es) {d : Declaration} (hd : d ∈ ds) {ls : List Line}
    (hls : ls ∈ d.chunkLines) : d ∈ es := by
  refine h.mem_of_mem hd ?_
  intro hplace
  simp [chunkLines, hplace] at hls

theorem readable (h : Interleaved ds es) (hes : ∀ d ∈ es, d.Readable) : ∀ d ∈ ds, d.Readable := by
  intro d hd hkind
  refine hes d (h.mem_of_mem hd ?_) hkind
  cases hdefault : d.isDefault <;> simp [section?, hkind, hdefault]

theorem fill_eq (h : Interleaved ds es) (doc : Document) (keepComments : Bool) :
    doc.fill keepComments ds = doc.fill keepComments es := by
  simp only [Document.fill, chunksIn, h .typeReExports, h .declarations, h .valueReExports,
    h .defaultExport]

theorem usedChunks_subset (h : Interleaved ds es) (keepComments : Bool) :
    ds.flatMap (usedChunks keepComments) ⊆ es.flatMap (usedChunks keepComments) := by
  intro chunk hchunk
  obtain ⟨d, hd, hchunk⟩ := List.mem_flatMap.1 hchunk
  obtain ⟨ls, hls, -⟩ := List.mem_map.1 hchunk
  exact List.mem_flatMap.2 ⟨d, h.mem_of_chunkLines hd (mem_of_mem_usedLines hls), hchunk⟩

theorem mem_usedChunks_iff (h : Interleaved ds es) {keepComments : Bool} {chunk : Text} :
    chunk ∈ ds.flatMap (usedChunks keepComments) ↔ chunk ∈ es.flatMap (usedChunks keepComments) :=
  ⟨fun hchunk => h.usedChunks_subset keepComments hchunk,
    fun hchunk => h.symm.usedChunks_subset keepComments hchunk⟩

end Interleaved

end Declaration

/-! ## What is used -/

namespace Declaration

variable {ds : List Declaration}

/-- Chunks that end outside everything mention what each of them mentions. -/
theorem identifiers_join_usedChunks (hwell : ∀ d ∈ ds, ∀ ls ∈ d.chunkLines, Line.WellFormed ls)
    {keepComments : Bool} (h : ∀ d ∈ ds, ∀ chunk ∈ d.chunks keepComments, EndsOutside chunk) :
    identifiers (usedText keepComments ds) =
      (ds.flatMap (usedChunks keepComments)).flatMap identifiers := by
  refine identifiers_join fun chunk hchunk => ?_
  obtain ⟨d, hd, hchunk⟩ := List.mem_flatMap.1 hchunk
  obtain ⟨ls, hls, rfl⟩ := List.mem_map.1 hchunk
  have hlines := mem_of_mem_usedLines hls
  exact (hwell d hd ls hlines).standalone (h d hd _ (List.mem_map.2 ⟨ls, hlines, rfl⟩))

/-- Chunks whose stretches can stand alone mention what their stretches mention, so it does not
matter whether the comments between these are kept. -/
theorem identifiers_join_usedStretches
    (hwell : ∀ d ∈ ds, ∀ ls ∈ d.chunkLines, Line.WellFormed ls)
    (h : ∀ d ∈ ds, ∀ t ∈ d.stretches, EndsOutside t ∧ beginsWithSlash t = false)
    (keepComments : Bool) :
    identifiers (usedText keepComments ds) =
      ((ds.flatMap usedLines).flatMap Line.stretches).flatMap fun l => identifiers l.text := by
  have hused : ∀ ls ∈ ds.flatMap usedLines, ∃ d ∈ ds, ls ∈ d.chunkLines := by
    intro ls hls
    obtain ⟨d, hd, hls⟩ := List.mem_flatMap.1 hls
    exact ⟨d, hd, mem_of_mem_usedLines hls⟩
  -- Cut into stretches the chunks are the same texts, and now `keepComments` decides only about
  -- texts that mention nothing.
  have hchunks : ds.flatMap (usedChunks keepComments) =
      ((ds.flatMap usedLines).map Line.stretches).map (Line.join keepComments) := by
    rw [List.map_map, List.map_flatMap]
    exact List.flatMap_congr fun d _ =>
      List.map_congr_left fun ls _ => (Line.join_stretches keepComments ls).symm
  have hne : ∀ ls ∈ (ds.flatMap usedLines).map Line.stretches, ls ≠ [] := by
    intro ls hls
    obtain ⟨lines, hlines, rfl⟩ := List.mem_map.1 hls
    obtain ⟨d, hd, hlines⟩ := hused lines hlines
    exact Line.stretches_ne_nil (hwell d hd lines hlines).ne_nil
  have hstretch : ∀ l ∈ (ds.flatMap usedLines).flatMap Line.stretches,
      l.Sound ∧ Standalone l.text := by
    intro l hl
    obtain ⟨lines, hlines, hl⟩ := List.mem_flatMap.1 hl
    obtain ⟨d, hd, hlines⟩ := hused lines hlines
    have hsound := Line.sound_stretches (hwell d hd lines hlines).sound l hl
    obtain ⟨hends, hfront⟩ := h d hd l.text
      (List.mem_flatMap.2 ⟨lines, hlines, List.mem_map.2 ⟨l, hl, rfl⟩⟩)
    exact ⟨hsound, hends, hsound.last, hfront⟩
  rw [usedText, hchunks, Line.join_flatten hne, ← List.flatMap_def,
    Line.identifiers_join (fun l hl => (hstretch l hl).1) (fun l hl => (hstretch l hl).2)]

end Declaration

/-! ## Documents -/

namespace Document

open Declaration

theorem mem_bodyChunks_fill {ds : List Declaration} {d : Declaration} (hd : d ∈ ds)
    {keepComments : Bool} {chunk : Text} (h : chunk ∈ d.chunks keepComments) (doc : Document) :
    chunk ∈ (doc.fill keepComments ds).bodyChunks := by
  cases hplace : d.section? with
  | none => simp [chunks, chunkLines, hplace] at h
  | some place =>
    have hmem : chunk ∈ chunksIn keepComments place ds :=
      List.mem_flatMap.2 ⟨d, List.mem_filter.2 ⟨hd, by simp [hplace]⟩, h⟩
    cases place <;> simp [bodyChunks, fill, hmem]

variable {ds es : List Declaration} {imports imports' : List ImportStatement}

/-- Interleaved declarations have the same document when every chunk ends outside everything. -/
theorem build_congr (h : Interleaved ds es) (himports : imports.Perm imports')
    (hread : ∀ d ∈ es, d.Readable) (hwell : ∀ d ∈ es, ∀ ls ∈ d.chunkLines, Line.WellFormed ls)
    {keepComments : Bool} (hends : ∀ d ∈ es, ∀ chunk ∈ d.chunks keepComments, EndsOutside chunk)
    (preferred directives : List Text) :
    build ds imports keepComments preferred directives =
      build es imports' keepComments preferred directives := by
  have hused : ∀ name, name ∈ identifiers (usedText keepComments ds) ↔
      name ∈ identifiers (usedText keepComments es) := by
    -- A declaration of `ds` that has chunks is one of `es`.
    have hwell' : ∀ d ∈ ds, ∀ ls ∈ d.chunkLines, Line.WellFormed ls := fun d hd ls hls =>
      hwell d (h.mem_of_chunkLines hd hls) ls hls
    have hends' : ∀ d ∈ ds, ∀ chunk ∈ d.chunks keepComments, EndsOutside chunk := by
      intro d hd chunk hchunk
      obtain ⟨ls, hls, -⟩ := List.mem_map.1 hchunk
      exact hends d (h.mem_of_chunkLines hd hls) chunk hchunk
    intro name
    rw [identifiers_join_usedChunks hwell' hends', identifiers_join_usedChunks hwell hends,
      List.mem_flatMap, List.mem_flatMap]
    simp only [h.mem_usedChunks_iff]
  rw [build_eq (h.readable hread), build_eq hread, h.fill_eq,
    RetainedImport.map_text_ofUsage himports hused]

/-- Kept comments do not decide which imports are kept when no stretch runs over a comment. -/
theorem imports_build (hread : ∀ d ∈ ds, d.Readable)
    (hwell : ∀ d ∈ ds, ∀ ls ∈ d.chunkLines, Line.WellFormed ls)
    (hstretches : ∀ d ∈ ds, ∀ t ∈ d.stretches, EndsOutside t ∧ beginsWithSlash t = false)
    (imports : List ImportStatement) (preferred directives : List Text) :
    ∃ documented bare, build ds imports true preferred directives = .ok documented ∧
      build ds imports false preferred directives = .ok bare ∧
        documented.imports = bare.imports := by
  refine ⟨_, _, build_eq hread .., build_eq hread .., ?_⟩
  have hused : ∀ keepComments, _ := identifiers_join_usedStretches hwell hstretches
  exact RetainedImport.map_text_ofUsage (.refl imports)
    (fun name => by rw [hused true, hused false]) preferred

/-- **How declarations are interleaved does not matter**: the document depends on their order in
each section only, and not on the order of the imports, if every chunk ends outside every literal,
block comment and substitution.  If the text between two comments of a chunk always does, and does
not begin with a slash, the import section does not depend on the comments either. -/
theorem build_interleaved {text : Text} {o : Outline} (h : Outline.ofSource text = .ok o)
    (preferred directives : List Text) :
    (∀ keepComments, ∃ document,
      build o.declarations o.imports keepComments preferred directives = .ok document ∧
        ((∀ chunk ∈ document.bodyChunks, EndsOutside chunk) →
          ∀ ds imports, Interleaved ds o.declarations → imports.Perm o.imports →
            build ds imports keepComments preferred directives = .ok document)) ∧
    ((∀ d ∈ o.declarations, ∀ t ∈ d.stretches, EndsOutside t ∧ beginsWithSlash t = false) →
      ∀ ds imports, Interleaved ds o.declarations → imports.Perm o.imports →
        ∃ documented bare, build ds imports true preferred directives = .ok documented ∧
          build ds imports false preferred directives = .ok bare ∧
            documented.imports = bare.imports) := by
  have hread := Outline.readable_ofSource h
  have hwell : ∀ d ∈ o.declarations, ∀ ls ∈ d.chunkLines, Line.WellFormed ls := fun d hd =>
    wellFormed_chunkLines
      (Outline.shaped_ofSource h (fun s hs t ht => docComment_of_mem hs ht) d hd)
  refine ⟨fun keepComments => ⟨_, build_eq hread .., fun hends ds imports hds himports => ?_⟩,
    fun hstretches ds imports hds _ => ?_⟩
  · have hchunks : ∀ d ∈ o.declarations, ∀ chunk ∈ d.chunks keepComments, EndsOutside chunk :=
      fun d hd chunk hchunk => hends chunk (mem_bodyChunks_fill hd hchunk _)
    rw [build_congr hds himports hread hwell hchunks, build_eq hread]
  · refine imports_build (hds.readable hread) (fun d hd ls hls => ?_) (fun d hd t ht => ?_) ..
    · exact hwell d (hds.mem_of_chunkLines hd hls) ls hls
    · obtain ⟨ls, hls, -⟩ := List.mem_flatMap.1 ht
      exact hstretches d (hds.mem_of_chunkLines hd hls) t ht

theorem bodyChunks_of_build (hread : ∀ d ∈ ds, d.Readable) {keepComments : Bool}
    {preferred directives : List Text} {document : Document}
    (h : build ds imports keepComments preferred directives = .ok document) :
    document.bodyChunks = (fill {} keepComments ds).bodyChunks := by
  rw [build_eq hread, Except.ok.injEq] at h
  rw [← h]
  rfl

/-- The imports that the chunks mention, in the order of the imports. -/
def mentioned (imports : List ImportStatement) (keepComments : Bool) (ds : List Declaration) :
    List RetainedImport :=
  imports.filterMap (·.reduce? (identifiers (usedText keepComments ds)).contains)

theorem length_imports_of_build (hread : ∀ d ∈ ds, d.Readable) {keepComments : Bool}
    {preferred directives : List Text} {document : Document}
    (h : build ds imports keepComments preferred directives = .ok document) :
    document.imports.length = (mentioned imports keepComments ds).length := by
  rw [build_eq hread, Except.ok.injEq] at h
  rw [← h]
  simp only [RetainedImport.ofUsage, RetainedImport.sort, List.length_map, List.length_mergeSort,
    mentioned]

/-- A class with comments and an assignment to the exports, the other way round. -/
theorem build_interleaved_class :
    ∃ o document, Outline.ofSource ("import A from 'a'\nimport B from 'b'\n/** d */\n" ++
        "class K \x7b\n/** m */\nf: B\n\x7d\nexport = A").toList = .ok o ∧
      o.declarations.reverse ≠ o.declarations ∧ Interleaved o.declarations.reverse o.declarations ∧
      o.imports.reverse ≠ o.imports ∧
      (∀ chunk ∈ document.bodyChunks, EndsOutside chunk) ∧
      (∀ d ∈ o.declarations, ∀ t ∈ d.stretches, EndsOutside t ∧ beginsWithSlash t = false) ∧
      build o.declarations.reverse o.imports.reverse true [] [] = .ok document ∧
      document.imports.length = 2 ∧
      ∃ bare, build o.declarations.reverse o.imports.reverse false [] [] = .ok bare ∧
        document.imports = bare.imports := by
  have hfault : Outline.fault? ("import A from 'a'\nimport B from 'b'\n/** d */\n" ++
      "class K \x7b\n/** m */\nf: B\n\x7d\nexport = A").toList = none := by decide +kernel
  obtain ⟨o, ho, hdeclarations, himports, -⟩ := Outline.ofSource_of_ok hfault
  have hfacts : o.declarations.reverse ≠ o.declarations ∧
      Interleaved o.declarations.reverse o.declarations ∧ o.imports.reverse ≠ o.imports ∧
      (∀ chunk ∈ (fill {} true o.declarations).bodyChunks, EndsOutside chunk) ∧
      (∀ d ∈ o.declarations, ∀ t ∈ d.stretches, EndsOutside t ∧ beginsWithSlash t = false) ∧
      (mentioned o.imports true o.declarations).length = 2 := by
    rw [hdeclarations, himports]
    decide +kernel
  obtain ⟨hne, hinterleaved, himportsNe, hchunks, hstretches, hlength⟩ := hfacts
  have hread := Outline.readable_ofSource ho
  obtain ⟨horder, hcomments⟩ := build_interleaved ho [] []
  obtain ⟨document, hdocument, hsame⟩ := horder true
  rw [← bodyChunks_of_build hread hdocument] at hchunks
  have hreversed := hsame hchunks _ _ hinterleaved o.imports.reverse_perm
  obtain ⟨documented, bare, hdocumented, hbare, heq⟩ :=
    hcomments hstretches _ _ hinterleaved o.imports.reverse_perm
  rw [hreversed, Except.ok.injEq] at hdocumented
  exact ⟨o, document, ho, hne, hinterleaved, himportsNe, hchunks, hstretches, hreversed,
    (length_imports_of_build hread hdocument).trans hlength, bare, hbare, hdocumented ▸ heq⟩

/-- Read on its own, the text ends in code outside every literal or in a line comment, be it in a
substitution or not. -/
def EndsInCode (t : Text) : Prop :=
  (pass t).fault = none ∧
    ((pass t).state.context = .normal ∨ (pass t).state.context = .lineComment)

instance (t : Text) : Decidable (EndsInCode t) :=
  inferInstanceAs (Decidable (_ ∧ _))

/-- Whether comments are kept decides which imports are kept, although every chunk ends in code or
in a line comment. -/
def CommentsMatter (o : Outline) : Prop :=
  ∃ documented bare, build o.declarations o.imports true [] [] = .ok documented ∧
    build o.declarations o.imports false [] [] = .ok bare ∧
    (∀ chunk ∈ documented.bodyChunks ++ bare.bodyChunks, EndsInCode chunk) ∧
    documented.imports ≠ bare.imports

/-- A module for which comments matter, with what is known of the stretches of its chunks. -/
theorem exists_commentsMatter {text : Text} {P : Text → Prop} (hfault : Outline.fault? text = none)
    (h : let ds := groupOverloads (Outline.ungrouped text)
      let imports := Outline.importsIn text
      (∀ d ∈ ds, ∀ t ∈ d.stretches, P t) ∧
        (∀ chunk ∈ (fill {} true ds).bodyChunks ++ (fill {} false ds).bodyChunks,
          EndsInCode chunk) ∧
        (mentioned imports true ds).length ≠ (mentioned imports false ds).length) :
    ∃ o, Outline.ofSource text = .ok o ∧ (∀ d ∈ o.declarations, ∀ t ∈ d.stretches, P t) ∧
      CommentsMatter o := by
  obtain ⟨o, ho, hdeclarations, himports, -⟩ := Outline.ofSource_of_ok hfault
  rw [← hdeclarations, ← himports] at h
  obtain ⟨hstretches, hchunks, hne⟩ := h
  have hread := Outline.readable_ofSource ho
  refine ⟨o, ho, hstretches, _, _, build_eq hread .., build_eq hread .., hchunks,
    fun heq => hne ?_⟩
  rw [← length_imports_of_build hread (build_eq hread _ true [] []), heq,
    length_imports_of_build hread (build_eq hread _ false [] [])]

/-- A line comment that ends in a substitution hides the import in another chunk; a slash behind a
comment begins a literal that it does not begin behind a bracket; and an unclosed template ends in a
comment that is kept. -/
theorem not_build_interleaved :
    (∃ o document, Outline.ofSource
        "import A from 'm'\nlet x: `$\x7bB // c\n\x7d`\nexport = \x7d A".toList = .ok o ∧
      build o.declarations o.imports true [] [] = .ok document ∧
      (∀ chunk ∈ document.bodyChunks, EndsInCode chunk) ∧
      Interleaved o.declarations.reverse o.declarations ∧
      build o.declarations.reverse o.imports true [] [] ≠ .ok document) ∧
    (∃ o, Outline.ofSource ("import x from 'm'\nclass A \x7b\n/** d */\n" ++
        "constructor(public /x/) \x7b\x7d\n\x7d").toList = .ok o ∧
      (∀ d ∈ o.declarations, ∀ t ∈ d.stretches, EndsOutside t) ∧ CommentsMatter o) ∧
    (∃ o, Outline.ofSource ("import A from 'm'\nfunction f(a: /x\n`/`);\n" ++
        "/** ` */\nfunction f(b: A): B // `").toList = .ok o ∧
      (∀ d ∈ o.declarations, ∀ t ∈ d.stretches, beginsWithSlash t = false) ∧
        CommentsMatter o) := by
  refine ⟨?_, ?_, ?_⟩
  · obtain ⟨o, ho, hdeclarations, himports, -⟩ := Outline.ofSource_of_ok
      (by decide +kernel : Outline.fault?
        "import A from 'm'\nlet x: `$\x7bB // c\n\x7d`\nexport = \x7d A".toList = none)
    have hfacts : (∀ chunk ∈ (fill {} true o.declarations).bodyChunks, EndsInCode chunk) ∧
        Interleaved o.declarations.reverse o.declarations ∧
        (mentioned o.imports true o.declarations.reverse).length ≠
          (mentioned o.imports true o.declarations).length := by
      rw [hdeclarations, himports]
      decide +kernel
    obtain ⟨hchunks, hinterleaved, hne⟩ := hfacts
    have hread := Outline.readable_ofSource ho
    have hbuild := build_eq hread o.imports true [] []
    refine ⟨o, _, ho, hbuild, hchunks, hinterleaved, fun heq => hne ?_⟩
    rw [← length_imports_of_build (hinterleaved.readable hread) heq,
      length_imports_of_build hread hbuild]
  · exact exists_commentsMatter (by decide +kernel) (by decide +kernel)
  · exact exists_commentsMatter (by decide +kernel) (by decide +kernel)

end Document

end ModuleSurface
