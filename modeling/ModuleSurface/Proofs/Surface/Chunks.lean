import ModuleSurface.Proofs.ClassBody.Captured
import ModuleSurface.Proofs.Declaration.Shape
import ModuleSurface.Surface.Build

/-!
# The lines of a chunk

A chunk of a declaration file is written line by line, and a comment may stand in front of a line
(`Line`).  `Declaration.chunkLines` takes the chunks of a declaration apart into such lines, and
put together again, with the comments or without, they are what the declaration adds to a document:
`Document.add_eq`, and for all declarations `Document.build_eq`.  They can be written because every
class of an outline has a body that can be read again: `readable_ofSource`.
-/

namespace ModuleSurface

open ModuleSurface.Lexing
open ModuleSurface.Narrowing
open ModuleSurface.Statement

/-! ## Classes that can be read -/

namespace Declaration

/-- If the declaration is a class, its body can be cut into members. -/
def Readable (d : Declaration) : Prop :=
  d.kind = .classType → ∃ members, ClassBody.splitMembers d.bodyOrEmpty = .ok members

/-- A class without a block is read as an empty one. -/
theorem exists_splitMembers_empty :
    ∃ members, ClassBody.splitMembers "\x7b\x7d".toList = .ok members := by
  apply ClassBody.exists_splitMembers_of_pass
  show (pass (ClassBody.interior ('{' :: [] ++ ['}']))).fault = none
  rw [ClassBody.interior_block, Lexing.pass, State.feed, passFrom]

theorem readable_of_body {d : Declaration} {block : Option Text}
    (hbody : d.body = some (block.getD "\x7b\x7d".toList))
    (hblock : ∀ b, block = some b → ∃ members, ClassBody.splitMembers b = .ok members) :
    d.Readable := by
  intro _
  rw [bodyOrEmpty, hbody]
  cases block with
  | none => exact exists_splitMembers_empty
  | some b =>
    cases b with
    | nil => exact exists_splitMembers_empty
    | cons c t => exact hblock _ rfl

/-- A declaration with the shape of one can be read. -/
theorem Shaped.readable {P : Text → Prop} {d : Declaration} (h : d.Shaped P) : d.Readable := by
  intro hkind
  obtain ⟨rest, hbody⟩ := h.block (by rw [hkind]; rfl)
  exact readable_of_body hbody (fun b hb => ClassBody.exists_splitMembers hb) hkind

end Declaration

/-- Every class of an outline can be read. -/
theorem Outline.readable_ofSource {text : Text} {o : Outline} (h : ofSource text = .ok o) :
    ∀ d ∈ o.declarations, d.Readable := by
  intro d hd
  exact (shaped_ofSource (P := fun _ => True) h (by simp) d hd).readable

/-! ## Joining -/

namespace Text

theorem join_cons (t : Text) (ts : List Text) :
    join "\n".toList (t :: ts) = t ++ ts.flatMap ('\n' :: ·) := by
  induction ts generalizing t with
  | nil => simp [join]
  | cons u ts ih =>
    have hrest := ih u
    rw [join] at hrest ⊢
    rw [List.intercalate_cons_cons, hrest]
    simp

/-- Every text of a list on a line of its own. -/
theorem newline_join {ts : List Text} (h : ts ≠ []) :
    '\n' :: join "\n".toList ts = ts.flatMap ('\n' :: ·) := by
  cases ts with
  | nil => exact absurd rfl h
  | cons t ts => rw [join_cons, List.flatMap_cons, List.cons_append]

theorem join_eq_tail (ts : List Text) :
    join "\n".toList ts = (ts.flatMap ('\n' :: ·)).tail := by
  cases ts with
  | nil => rfl
  | cons t ts => rw [← newline_join (by simp), List.tail_cons]

/-- Lines that are joined in groups first. -/
theorem join_map_join {α : Type} {f : α → List Text} {xs : List α} (h : ∀ x ∈ xs, f x ≠ []) :
    join "\n".toList (xs.map fun x => join "\n".toList (f x)) =
      join "\n".toList (xs.flatMap f) := by
  rw [join_eq_tail, join_eq_tail, List.flatMap_map, List.flatMap_assoc]
  congr 1
  exact List.flatMap_congr fun x hx => newline_join (h x hx)

end Text

/-! ## Lines and their comments -/

/-- A line of a chunk, with the comment that may stand in front of it. -/
structure Line where
  /-- The comment. -/
  comment : Option Text := none
  /-- The line itself. -/
  text : Text
  deriving DecidableEq, Repr

namespace Line

/-- The line with its comment, if comments are kept. -/
def written (keepComments : Bool) (l : Line) : List Text :=
  (if keepComments then l.comment.toList else []) ++ [l.text]

theorem mem_written {keepComments : Bool} {l : Line} {t : Text} (h : t ∈ l.written keepComments) :
    l.comment = some t ∨ t = l.text := by
  rcases List.mem_append.1 h with h | h
  · split at h
    · exact .inl (Option.mem_toList.1 h)
    · cases h
  · exact .inr (List.mem_singleton.1 h)

theorem written_ne_nil (keepComments : Bool) (l : Line) : l.written keepComments ≠ [] := by
  simp [written]

/-- The chunk of the lines. -/
def join (keepComments : Bool) (ls : List Line) : Text :=
  Text.join "\n".toList (ls.flatMap (written keepComments))

theorem join_flatten {keepComments : Bool} {chunks : List (List Line)}
    (h : ∀ ls ∈ chunks, ls ≠ []) :
    Text.join "\n".toList (chunks.map (join keepComments)) = join keepComments chunks.flatten := by
  have hne : ∀ ls ∈ chunks, ls.flatMap (written keepComments) ≠ [] := by
    intro ls hls hnil
    obtain ⟨l, others, rfl⟩ := List.exists_cons_of_ne_nil (h ls hls)
    exact written_ne_nil keepComments l (List.append_eq_nil_iff.1 hnil).1
  show Text.join _ (chunks.map fun ls => Text.join _ (ls.flatMap (written keepComments))) = _
  rw [Text.join_map_join hne, join, List.flatten_eq_flatMap, List.flatMap_assoc]
  rfl

/-- A line with more lines below it. -/
theorem join_cons (keepComments : Bool) (l : Line) (ls : List Line) :
    join keepComments (l :: ls) = join keepComments [l] ++
      (ls.flatMap (written keepComments)).flatMap ('\n' :: ·) := by
  obtain ⟨first, others, heq⟩ := List.exists_cons_of_ne_nil (written_ne_nil keepComments l)
  rw [join, join, List.flatMap_cons, List.flatMap_cons, heq, List.cons_append, List.cons_append,
    Text.join_cons, Text.join_cons]
  simp

@[simp] theorem join_uncommented (keepComments : Bool) (t : Text) :
    join keepComments [{ text := t }] = t := by
  cases keepComments <;> simp [join, written, Text.join]

theorem join_append_text (keepComments : Bool) (comment : Option Text) (t u : Text) :
    join keepComments [⟨comment, t ++ u⟩] = join keepComments [⟨comment, t⟩] ++ u := by
  cases keepComments <;> cases comment <;> simp [join, written, Text.join]

end Line

/-- The sections of a declaration file that declarations go to. -/
inductive DocumentSection where
  /-- Re-exports that are about types only. -/
  | typeReExports
  /-- Declarations. -/
  | declarations
  /-- Re-exports of values. -/
  | valueReExports
  /-- The default export. -/
  | defaultExport
  deriving DecidableEq, Repr

namespace Declaration

/-! ## The chunks of a declaration -/

/-- The comment of a declaration or of an overload, unless it is empty. -/
def docText : Option Text → Option Text
  | some (c :: t) => some (Text.strip (c :: t))
  | _ => none

theorem withDoc_eq (text : Text) (doc : Option Text) (keepComments : Bool) :
    withDoc text doc keepComments = Line.join keepComments [⟨docText doc, text⟩] := by
  unfold withDoc docText Line.join
  split <;> cases keepComments <;> simp [Line.written, Text.join]

/-- The lines of a function. -/
def functionLines (d : Declaration) (keywords : Text) : List Line :=
  (d.overloads.map fun s => ⟨docText s.doc, functionLine keywords d.name s⟩) ++
    [⟨docText d.doc, functionLine keywords d.name d.ownSignature⟩]

theorem functionText_eq (d : Declaration) (keepComments : Bool) (keywords : Text) :
    d.functionText keepComments keywords = Line.join keepComments (d.functionLines keywords) := by
  have hlines : d.functionLines keywords =
      ((d.functionLines keywords).map fun l => [l]).flatten := by
    simp [List.flatten_eq_flatMap, List.flatMap_map]
  rw [hlines, ← Line.join_flatten (by simp)]
  simp [functionText, functionLines, withDoc_eq, Function.comp_def]

/-- The comment of a member of a class. -/
def memberDoc : Option Text → Option Text
  | some (c :: t) =>
    let lines := ClassBody.docLines (c :: t) []
    if lines.isEmpty then none else some (Text.join "\n".toList (lines.map ("  ".toList ++ ·)))
  | _ => none

/-- The lines of a member of a class. -/
def memberLines (m : ClassBody.ClassMember) : List Line :=
  match (ClassBody.memberLines m.text).map ("  ".toList ++ ·) with
  | [] => []
  | first :: others => ⟨memberDoc m.doc, first⟩ :: others.map fun line => { text := line }

/-- The lines of a member as a class body has them, each line of the comment on its own. -/
def bodyLines (keepComments : Bool) (m : ClassBody.ClassMember) : List Text :=
  match ClassBody.memberLines m.text with
  | [] => []
  | declared =>
    match m.doc with
    | some (c :: doc) =>
      if keepComments then ClassBody.docLines (c :: doc) [] ++ declared else declared
    | _ => declared

theorem bodyLines_eq_nil_iff (keepComments : Bool) (m : ClassBody.ClassMember) :
    bodyLines keepComments m = [] ↔ memberLines m = [] := by
  unfold bodyLines memberLines
  cases hm : ClassBody.memberLines m.text with
  | nil => simp
  | cons first others =>
    refine iff_of_false ?_ (by simp)
    simp only
    split
    · split <;> simp
    · simp

/-- The comment of a member is the same whether its lines are joined first or last. -/
theorem below_memberDoc (c : Char) (t : Text) :
    ((ClassBody.docLines (c :: t) []).map ("  ".toList ++ ·)).flatMap ('\n' :: ·) =
      (memberDoc (some (c :: t))).toList.flatMap ('\n' :: ·) := by
  simp only [memberDoc]
  cases hlines : ClassBody.docLines (c :: t) [] with
  | nil => rfl
  | cons line lines =>
    rw [← Text.newline_join (by simp)]
    simp

theorem below_bodyLines (keepComments : Bool) (m : ClassBody.ClassMember) :
    ((bodyLines keepComments m).map ("  ".toList ++ ·)).flatMap ('\n' :: ·) =
      ((memberLines m).flatMap (Line.written keepComments)).flatMap ('\n' :: ·) := by
  unfold bodyLines memberLines
  cases hm : ClassBody.memberLines m.text with
  | nil => rfl
  | cons first others =>
    have hplain : ((others.map ("  ".toList ++ ·)).map fun line =>
        ({ text := line } : Line)).flatMap (Line.written keepComments) =
          others.map ("  ".toList ++ ·) := by
      rw [List.map_map, List.flatMap_map, List.map_eq_flatMap]
      refine List.flatMap_congr fun line _ => ?_
      cases keepComments <;> rfl
    simp only [List.map_cons, List.flatMap_cons, hplain]
    cases hdoc : m.doc with
    | none => cases keepComments <;> simp [memberDoc, Line.written]
    | some doc =>
      cases doc with
      | nil => cases keepComments <;> simp [memberDoc, Line.written]
      | cons c t =>
        cases keepComments with
        | false => simp [Line.written]
        | true =>
          simp only [if_true, List.map_append, List.map_cons, List.flatMap_append, below_memberDoc,
            Line.written, List.append_assoc, List.singleton_append]

/-- What stands in front of the block of a class. -/
def classHead (d : Declaration) (keywords : Text) : Text :=
  let marks := if d.modifiers.contains "abstract".toList then "abstract ".toList else []
  let name := if d.name.isEmpty then [] else " ".toList ++ d.name
  keywords ++ marks ++ "class".toList ++ name ++ d.generics.getD [] ++ d.heritage ++ " ".toList

/-- The lines of a class with the given members. -/
def classLines (d : Declaration) (keywords : Text) (members : List ClassBody.ClassMember) :
    List Line :=
  match members.flatMap memberLines with
  | [] => [⟨docText d.doc, d.classHead keywords ++ "\x7b\x7d".toList⟩]
  | lines => ⟨docText d.doc, d.classHead keywords ++ "\x7b".toList⟩ :: lines ++
      [{ text := "\x7d".toList }]

theorem classText_eq {d : Declaration} {members : List ClassBody.ClassMember}
    (h : ClassBody.splitMembers d.bodyOrEmpty = .ok members) (keepComments : Bool)
    (keywords : Text) :
    ∃ text, d.classText keepComments keywords = .ok text ∧
      withDoc text d.doc keepComments =
        Line.join keepComments (d.classLines keywords members) := by
  have hlines : ClassBody.lines d.bodyOrEmpty keepComments =
      .ok (members.flatMap (bodyLines keepComments)) := by
    rw [ClassBody.lines, h]
    rfl
  have htext : d.classText keepComments keywords =
      .ok (d.classHead keywords ++ block (members.flatMap (bodyLines keepComments))) := by
    rw [classText, hlines]
    rfl
  -- The members are compared with the line break in front of each line: joined, the first line of
  -- a member would have to be told apart from the others.
  have hbelow : ((members.flatMap (bodyLines keepComments)).map ("  ".toList ++ ·)).flatMap
      ('\n' :: ·) = ((members.flatMap memberLines).flatMap (Line.written keepComments)).flatMap
        ('\n' :: ·) := by
    rw [List.map_flatMap, List.flatMap_assoc, List.flatMap_assoc, List.flatMap_assoc]
    exact List.flatMap_congr fun m _ => (below_bodyLines keepComments m).trans List.flatMap_assoc
  have hempty : members.flatMap (bodyLines keepComments) = [] ↔
      members.flatMap memberLines = [] := by
    simp only [List.flatMap_eq_nil_iff, bodyLines_eq_nil_iff]
  refine ⟨_, htext, ?_⟩
  rw [withDoc_eq]
  unfold classLines
  cases hmembers : members.flatMap memberLines with
  | nil =>
    rw [hempty.2 hmembers]
    rfl
  | cons line lines =>
    have hne : members.flatMap (bodyLines keepComments) ≠ [] := by
      rw [Ne, hempty, hmembers]
      simp
    rw [hmembers] at hbelow
    have hne' : (members.flatMap (bodyLines keepComments)).map ("  ".toList ++ ·) ≠ [] := by
      simpa using hne
    have hjoin := Text.newline_join hne'
    rw [hbelow] at hjoin
    rw [block, if_neg (by simpa using hne)]
    have hbehind : ((line :: lines ++ [({ text := "\x7d".toList } : Line)]).flatMap
        (Line.written keepComments)).flatMap ('\n' :: ·) =
          '\n' :: Text.join "\n".toList ((members.flatMap (bodyLines keepComments)).map
            ("  ".toList ++ ·)) ++ "\n\x7d".toList := by
      rw [hjoin, List.flatMap_append, List.flatMap_append]
      cases keepComments <;> rfl
    simp only [List.cons_append] at hbehind ⊢
    rw [Line.join_append_text,
      Line.join_cons keepComments ⟨docText d.doc, d.classHead keywords ++ "\x7b".toList⟩,
      Line.join_append_text, hbehind]
    simp

/-- The members of a class. -/
def members (d : Declaration) : List ClassBody.ClassMember :=
  (ClassBody.splitMembers d.bodyOrEmpty).toOption.getD []

/-- The section of a declaration.  Imports have none. -/
def section? (d : Declaration) : Option DocumentSection :=
  if d.kind = .imports then none
  else if d.isDefault then some .defaultExport
  else if d.kind = .exports then some (if d.isTypeOnly then .typeReExports else .valueReExports)
  else some .declarations

/-- The lines of the chunks of a declaration. -/
def chunkLines (d : Declaration) : List (List Line) :=
  let one (text : Text) : List (List Line) := [[⟨docText d.doc, text⟩]]
  let expression := Text.collapse (d.value.getD [])
  match d.section?, d.kind with
  | none, _ => []
  | some .defaultExport, .function => [d.functionLines defaultKeywords]
  | some .defaultExport, .classType => [d.classLines defaultKeywords d.members]
  | some .defaultExport, .interface => one (d.interfaceText defaultKeywords)
  | some .defaultExport, _ =>
    if Text.isIdentifier expression then
      [[{ text := defaultKeywords ++ expression ++ ";".toList }]]
    else
      [[{ text :=
          "declare const _default: ".toList ++ (infer expression false).text ++ ";".toList }],
        [{ text := "export default _default;".toList }]]
  | some .declarations, .function => [d.functionLines d.keywords]
  | some .declarations, .classType => [d.classLines d.keywords d.members]
  | some .declarations, .binding => one d.variableText
  | some .declarations, .interface => one (d.interfaceText d.keywords)
  | some .declarations, .typeAlias => one d.aliasText
  | some .declarations, .enum => one d.enumText
  | some .declarations, .scope => one d.scopeText
  | some .declarations, _ => []
  | some .typeReExports, _ | some .valueReExports, _ => [[{ text := d.passthroughText }]]

/-- The chunks of a declaration. -/
def chunks (d : Declaration) (keepComments : Bool) : List Text :=
  d.chunkLines.map (Line.join keepComments)

variable {d : Declaration}

theorem exists_classText (h : d.Readable) (hkind : d.kind = .classType) (keepComments : Bool)
    (keywords : Text) :
    ∃ text, d.classText keepComments keywords = .ok text ∧
      withDoc text d.doc keepComments =
        Line.join keepComments (d.classLines keywords d.members) := by
  obtain ⟨members, hmembers⟩ := h hkind
  obtain ⟨text, htext, hdoc⟩ := classText_eq hmembers keepComments keywords
  refine ⟨text, htext, hdoc.trans ?_⟩
  rw [Declaration.members, hmembers]
  rfl

theorem defaultChunks_eq (h : d.Readable) (hsection : d.section? = some .defaultExport)
    (keepComments : Bool) : d.defaultChunks keepComments = .ok (d.chunks keepComments) := by
  unfold defaultChunks chunks chunkLines
  rw [hsection]
  cases hkind : d.kind with
  | function => simp [functionText_eq]
  | classType =>
    obtain ⟨text, htext, hdoc⟩ := exists_classText h hkind keepComments defaultKeywords
    simp [htext, hdoc, Except.map]
  | interface => simp [withDoc_eq]
  | _ =>
    simp only
    split <;> simp

theorem text?_eq (h : d.Readable) (hsection : d.section? = some .declarations)
    (keepComments : Bool) :
    (d.text? keepComments).map Option.toList = .ok (d.chunks keepComments) := by
  unfold text? chunks chunkLines
  rw [hsection]
  cases hkind : d.kind with
  | function => simp [functionText_eq, Except.map]
  | classType =>
    obtain ⟨text, htext, hdoc⟩ := exists_classText h hkind keepComments d.keywords
    simp [htext, hdoc, Except.map]
  | imports | exports => simp [Except.map]
  | _ => simp [withDoc_eq, Except.map]

/-- Does the declaration only hand on names from another module?  Such names are no uses of
imports. -/
def handsOn (d : Declaration) : Bool :=
  d.kind == .exports && !d.isDefault && d.source.isSome

/-- The lines of the chunks that count as uses of imports. -/
def usedLines (d : Declaration) : List (List Line) :=
  if d.handsOn then [] else d.chunkLines

theorem mem_of_mem_usedLines {d : Declaration} {ls : List Line} (h : ls ∈ d.usedLines) :
    ls ∈ d.chunkLines := by
  unfold usedLines at h
  split at h
  · cases h
  · exact h

/-- The chunks that count as uses of imports. -/
def usedChunks (keepComments : Bool) (d : Declaration) : List Text :=
  d.usedLines.map (Line.join keepComments)

/-- The text that the uses of imports are read off. -/
def usedText (keepComments : Bool) (ds : List Declaration) : Text :=
  Text.join "\n".toList (ds.flatMap (usedChunks keepComments))

/-- The chunks of one section. -/
def chunksIn (keepComments : Bool) (place : DocumentSection) (ds : List Declaration) : List Text :=
  (ds.filter (·.section? == some place)).flatMap (·.chunks keepComments)

end Declaration

/-! ## The chunks of a document -/

namespace Document

open Declaration

/-- The document with more chunks at the end of a section. -/
def extend (doc : Document) : Option DocumentSection → List Text → Document
  | none, _ => doc
  | some .typeReExports, chunks => { doc with typeReExports := doc.typeReExports ++ chunks }
  | some .declarations, chunks => { doc with declarations := doc.declarations ++ chunks }
  | some .valueReExports, chunks => { doc with valueReExports := doc.valueReExports ++ chunks }
  | some .defaultExport, chunks => { doc with defaultExport := doc.defaultExport ++ chunks }

/-- **What a declaration adds to a draft**: its chunks, at the end of its section. -/
theorem add_eq {d : Declaration} (h : d.Readable) (keepComments : Bool) (draft : Draft) :
    Draft.add keepComments draft d =
      .ok
        { document := draft.document.extend d.section? (d.chunks keepComments)
          usage := draft.usage ++ if d.handsOn then [] else d.chunks keepComments } := by
  by_cases himports : d.kind = .imports
  · have hsection : d.section? = none := by simp [section?, himports]
    simp [Draft.add, himports, hsection, extend, handsOn, chunks, chunkLines]
  by_cases hdefault : d.isDefault = true
  · have hsection : d.section? = some .defaultExport := by simp [section?, himports, hdefault]
    simp [Draft.add, himports, hdefault, defaultChunks_eq h hsection, hsection, extend, handsOn,
      Except.map]
  by_cases hexports : d.kind = .exports
  · have hsection : d.section? =
        some (if d.isTypeOnly then .typeReExports else .valueReExports) := by
      simp [section?, hexports, hdefault]
    cases htype : d.isTypeOnly <;> cases hsource : d.source <;>
      simp [Draft.add, hexports, hdefault, hsection, htype, hsource, extend, handsOn, chunks,
        chunkLines]
  · have hsection : d.section? = some .declarations := by
      simp [section?, himports, hdefault, hexports]
    have htext := text?_eq h hsection keepComments
    cases ht : d.text? keepComments with
    | error e =>
      rw [ht] at htext
      cases htext
    | ok text =>
      rw [ht] at htext
      have hchunks : text.toList = d.chunks keepComments := Except.ok.inj htext
      cases text <;>
        simp [Draft.add, himports, hdefault, hexports, ht, hsection, extend, handsOn, ← hchunks,
          Except.map]

/-- The document with the chunks of the declarations at the end of their sections. -/
def fill (doc : Document) (keepComments : Bool) (ds : List Declaration) : Document :=
  { doc with
    typeReExports := doc.typeReExports ++ chunksIn keepComments .typeReExports ds
    declarations := doc.declarations ++ chunksIn keepComments .declarations ds
    valueReExports := doc.valueReExports ++ chunksIn keepComments .valueReExports ds
    defaultExport := doc.defaultExport ++ chunksIn keepComments .defaultExport ds }

theorem fill_cons (doc : Document) (keepComments : Bool) (d : Declaration)
    (ds : List Declaration) :
    (doc.extend d.section? (d.chunks keepComments)).fill keepComments ds =
      doc.fill keepComments (d :: ds) := by
  cases hplace : d.section? with
  | none => simp [extend, fill, chunksIn, hplace]
  | some place => cases place <;> simp [extend, fill, chunksIn, hplace]

theorem foldlM_add {ds : List Declaration} (h : ∀ d ∈ ds, d.Readable) (keepComments : Bool)
    (draft : Draft) :
    ds.foldlM (Draft.add keepComments) draft =
      .ok
        { document := draft.document.fill keepComments ds
          usage := draft.usage ++ ds.flatMap (usedChunks keepComments) } := by
  induction ds generalizing draft with
  | nil => simp [fill, chunksIn, pure, Except.pure]
  | cons d ds ih =>
    have hused : (if d.handsOn then [] else d.chunks keepComments) = usedChunks keepComments d := by
      unfold usedChunks usedLines
      split <;> rfl
    rw [List.foldlM_cons, add_eq (h d List.mem_cons_self), hused]
    refine (ih (fun e he => h e (List.mem_cons_of_mem _ he)) _).trans ?_
    simp only [fill_cons, List.flatMap_cons, List.append_assoc]

/-- **The document of declarations that can be read**: the chunks of each section in their order,
and the imports that the chunks mention. -/
theorem build_eq {ds : List Declaration} (h : ∀ d ∈ ds, d.Readable)
    (imports : List ImportStatement) (keepComments : Bool) (preferred directives : List Text) :
    build ds imports keepComments preferred directives =
      .ok
        { fill { directives := directives } keepComments ds with
          imports := (RetainedImport.ofUsage imports (usedText keepComments ds) preferred).map
            (·.text) } := by
  rw [build, foldlM_add h]
  rfl

end Document

end ModuleSurface
