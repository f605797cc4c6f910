import ModuleSurface.Proofs.Lexing.Joined
import ModuleSurface.Proofs.Statement.Documentation
import ModuleSurface.Proofs.Surface.Chunks

/-!
# Lines that can stand below each other

The chunks of a module's declarations are well formed (`wellFormed_chunkLines`): the comments are
block comments, a chunk begins with a keyword or a comment, and no line ends with a backslash.  So a
chunk that ends outside every literal can stand among others (`WellFormed.standalone`), and when the
text between two comments always does, a chunk mentions the same with its comments and without:
`Line.identifiers_join` for its `stretches`.
-/

namespace ModuleSurface

open ModuleSurface.Lexing
open ModuleSurface.Narrowing
open ModuleSurface.Statement

/-! ## Well-formed lines -/

/-- The text begins like a keyword or like a comment, so what it stands behind says nothing about
its first character. -/
def Leads (t : Text) : Prop :=
  (∃ r, t = '/' :: '*' :: r) ∨ ∃ c r, t = c :: r ∧ c ≠ '/' ∧ RegexLiteral.isGap c = false

namespace Leads

variable {t : Text}

theorem append (h : Leads t) (more : Text) : Leads (t ++ more) := by
  rcases h with ⟨r, rfl⟩ | ⟨c, r, rfl, hc⟩
  · exact .inl ⟨r ++ more, rfl⟩
  · exact .inr ⟨c, r ++ more, rfl, hc⟩

theorem front (h : Leads t) : beginsWithSlash t = false := by
  rcases h with ⟨r, rfl⟩ | ⟨c, r, rfl, hc, hgap⟩
  · rfl
  · unfold beginsWithSlash
    rw [List.dropWhile_cons_of_neg (by simp [hgap])]
    split
    · rename_i heq
      exact absurd (List.cons.inj heq).1 hc
    · rfl

end Leads

/-- A comment that can stand alone and mentions nothing. -/
structure Silent (c : Text) : Prop where
  /-- It can stand among other texts. -/
  standalone : Standalone c
  /-- There is no identifier in it. -/
  identifiers_eq : identifiers c = []

theorem Silent.cons_blank {c : Text} (h : Silent c) : Silent (' ' :: c) :=
  ⟨h.standalone.cons_blank, (identifiers_cons_blank c).trans h.identifiers_eq⟩

theorem Statement.DocComment.silent {c : Text} (h : DocComment c) : Silent c := by
  obtain ⟨body, closed, rfl⟩ := h.exists_block
  exact ⟨.block closed, Comment.identifiers_block closed⟩

theorem Statement.DocComment.leads {c : Text} (h : DocComment c) : Leads c := by
  obtain ⟨rest, rfl⟩ := h.opener
  exact .inl ⟨_, rfl⟩

/-- What is known of a line, whatever its types and names say. -/
structure Line.Sound (l : Line) : Prop where
  /-- The comment mentions nothing. -/
  silent : ∀ c, l.comment = some c → Silent c
  /-- The line does not end with a backslash. -/
  last : l.text.getLast? ≠ some '\\'

/-- What is known of the lines of a chunk. -/
structure Line.WellFormed (ls : List Line) : Prop where
  /-- Every line is sound. -/
  sound : ∀ l ∈ ls, l.Sound
  /-- The first line begins with a keyword, and its comment like a comment. -/
  leads : ∃ first others, ls = first :: others ∧ Leads first.text ∧
    ∀ c, first.comment = some c → Leads c

/-- A text ends like the part at its end. -/
theorem Text.getLast?_append_of {t u : Text} {c : Char} (h : u.getLast? = some c) :
    (t ++ u).getLast? = some c := by
  rw [List.getLast?_append, h]
  rfl

namespace ClassBody

theorem getLast?_parameterProperty? {modifiers : List Text} {text line : Text}
    (h : parameterProperty? modifiers text = some line) : line.getLast? = some ';' := by
  unfold parameterProperty? at h
  split at h
  · cases h
  · cases h
    exact Text.getLast?_append_of rfl

theorem getLast?_callableLines {modifiers : List Text} {isGenerator : Bool}
    {accessor name marker rest line : Text}
    (h : line ∈ callableLines modifiers isGenerator accessor name marker rest) :
    line.getLast? = some ';' := by
  unfold callableLines at h
  split at h
  · cases h
  simp only at h
  split at h
  · rcases List.mem_append.1 h with h | h
    · obtain ⟨p, -, hp⟩ := List.mem_filterMap.1 h
      exact getLast?_parameterProperty? hp
    · rw [List.mem_singleton.1 h]
      exact Text.getLast?_append_of rfl
  split at h
  · rw [List.mem_singleton.1 h]
    exact Text.getLast?_append_of rfl
  split at h
  · rw [List.mem_singleton.1 h]
    exact Text.getLast?_append_of rfl
  · rw [List.mem_singleton.1 h]
    exact Text.getLast?_append_of rfl

theorem getLast?_namedLines {modifiers : List Text} {isGenerator : Bool}
    {accessor text line : Text} (h : line ∈ namedLines modifiers isGenerator accessor text) :
    line.getLast? = some ';' := by
  unfold namedLines at h
  simp only at h
  generalize Text.stripLeft (text.drop (readName text).2) = rest at h
  generalize (if rest.head? == some '?' || rest.head? == some '!' then Text.stripLeft (rest.drop 1)
    else rest) = behind at h
  split at h
  · cases h
  split at h
  · exact getLast?_callableLines h
  · rw [List.mem_singleton.1 h]
    exact Text.getLast?_append_of rfl

/-- Every line of a member ends with a semicolon. -/
theorem getLast?_memberLines {member line : Text} (h : line ∈ memberLines member) :
    line.getLast? = some ';' := by
  unfold memberLines at h
  simp only at h
  split at h
  · cases h
  split at h
  · rw [List.mem_singleton.1 h]
    exact Text.getLast?_append_of rfl
  · exact getLast?_namedLines h

end ClassBody

namespace Declaration

variable {d : Declaration}

theorem docComment_docText {doc : Option Text} (h : ∀ t, doc = some t → DocComment t) {c : Text}
    (hc : docText doc = some c) : DocComment c := by
  unfold docText at hc
  split at hc
  · rename_i a t
    have hdoc := h _ rfl
    rw [hdoc.strip_eq] at hc
    cases hc
    exact hdoc
  · cases hc

theorem silent_memberDoc {doc : Option Text} (h : ∀ t, doc = some t → DocComment t) {c : Text}
    (hc : memberDoc doc = some c) : Silent c := by
  unfold memberDoc at hc
  split at hc
  · rename_i a t
    obtain ⟨u, hu, hjoin⟩ := (h _ rfl).exists_docLines
    simp only [Option.ite_none_left_eq_some, Option.some.injEq] at hc
    rw [← hc.2, hjoin]
    exact hu.silent.cons_blank.cons_blank
  · cases hc

/-! ### One line after the other -/

theorem leads_keywords (d : Declaration) : Leads d.keywords := by
  unfold keywords
  split
  · exact .inr ⟨'e', _, rfl, by decide, by decide⟩
  · exact .inr ⟨'d', _, rfl, by decide, by decide⟩

theorem leads_defaultKeywords : Leads defaultKeywords :=
  .inr ⟨'e', _, rfl, by decide, by decide⟩

theorem wellFormed_one (hdoc : ∀ t, d.doc = some t → DocComment t) {text : Text}
    (hleads : Leads text) (hlast : text.getLast? ≠ some '\\') :
    Line.WellFormed [⟨docText d.doc, text⟩] where
  sound := List.forall_mem_singleton.2
    ⟨fun _ hc => (docComment_docText hdoc hc).silent, hlast⟩
  leads := ⟨_, _, rfl, hleads, fun _ hc => (docComment_docText hdoc hc).leads⟩

theorem wellFormed_uncommented {text : Text} (hleads : Leads text)
    (hlast : text.getLast? ≠ some '\\') : Line.WellFormed [{ text := text }] where
  sound := List.forall_mem_singleton.2 ⟨by simp, hlast⟩
  leads := ⟨_, _, rfl, hleads, by simp⟩

theorem wellFormed_functionLines (h : d.Shaped DocComment) {keywords : Text}
    (hkeywords : Leads keywords) : Line.WellFormed (d.functionLines keywords) := by
  have hline : ∀ s, Leads (functionLine keywords d.name s) := by
    intro s
    simp only [functionLine, List.append_assoc]
    exact hkeywords.append _
  have hlast : ∀ s, (functionLine keywords d.name s).getLast? ≠ some '\\' := by
    intro s
    rw [functionLine, Text.getLast?_append_of rfl]
    decide
  have hmem : ∀ l ∈ d.functionLines keywords, ∃ s doc,
      l = ⟨docText doc, functionLine keywords d.name s⟩ ∧
      ∀ t, doc = some t → DocComment t := by
    intro l hl
    rcases List.mem_append.1 hl with hl | hl
    · obtain ⟨s, hs, rfl⟩ := List.mem_map.1 hl
      exact ⟨s, s.doc, rfl, h.overloads s hs⟩
    · rw [List.mem_singleton.1 hl]
      exact ⟨_, d.doc, rfl, h.doc⟩
  refine ⟨?_, ?_⟩
  · intro l hl
    obtain ⟨s, doc, rfl, hdoc⟩ := hmem l hl
    exact ⟨fun c hc => (docComment_docText hdoc hc).silent, hlast s⟩
  · obtain ⟨first, others, heq⟩ : ∃ first others, d.functionLines keywords = first :: others :=
      List.exists_cons_of_ne_nil (by simp [functionLines])
    obtain ⟨s, doc, rfl, hdoc⟩ := hmem first (heq ▸ List.mem_cons_self)
    exact ⟨_, _, heq, hline s, fun c hc => (docComment_docText hdoc hc).leads⟩

theorem sound_memberLines {m : ClassBody.ClassMember} (h : ∀ t, m.doc = some t → DocComment t) :
    ∀ l ∈ memberLines m, l.Sound := by
  have hlast : ∀ line ∈ (ClassBody.memberLines m.text).map ("  ".toList ++ ·),
      line.getLast? ≠ some '\\' := by
    intro line hline
    obtain ⟨t, ht, rfl⟩ := List.mem_map.1 hline
    rw [Text.getLast?_append_of (ClassBody.getLast?_memberLines ht)]
    decide
  unfold memberLines
  split
  · simp
  · rename_i first others heq
    rw [heq] at hlast
    rintro l (_ | ⟨_, hl⟩)
    · exact ⟨fun c hc => silent_memberDoc h hc, hlast first List.mem_cons_self⟩
    · obtain ⟨line, hline, rfl⟩ := List.mem_map.1 hl
      exact ⟨by simp, hlast line (List.mem_cons_of_mem _ hline)⟩

theorem docComment_of_mem_members {m : ClassBody.ClassMember} (h : m ∈ d.members) {t : Text}
    (ht : m.doc = some t) : DocComment t := by
  unfold members at h
  cases hsplit : ClassBody.splitMembers d.bodyOrEmpty with
  | error e =>
    rw [hsplit] at h
    cases h
  | ok ms =>
    rw [hsplit] at h
    unfold ClassBody.splitMembers at hsplit
    simp only at hsplit
    split at hsplit
    · cases hsplit
    · cases hsplit
      obtain ⟨piece, hpiece, heq⟩ := List.mem_filterMap.1 h
      cases piece with
      | header line => cases heq
      | segment s =>
        simp only [ClassBody.ofPiece?, Option.ite_none_left_eq_some, Option.some.injEq] at heq
        rw [← heq.2] at ht
        exact docComment_of_mem hpiece ht

theorem wellFormed_classLines (h : d.Shaped DocComment) {keywords : Text}
    (hkeywords : Leads keywords) : Line.WellFormed (d.classLines keywords d.members) := by
  have hhead : ∀ t, Leads (d.classHead keywords ++ t) := by
    intro t
    simp only [classHead, List.append_assoc]
    exact hkeywords.append _
  have hmembers : ∀ l ∈ d.members.flatMap memberLines, l.Sound := by
    intro l hl
    obtain ⟨m, hm, hl⟩ := List.mem_flatMap.1 hl
    exact sound_memberLines (fun t ht => docComment_of_mem_members hm ht) l hl
  unfold classLines
  split
  · exact wellFormed_one h.doc (hhead _) (by rw [Text.getLast?_append_of rfl]; decide)
  · have hfirst := wellFormed_one h.doc (hhead "\x7b".toList)
      (by rw [Text.getLast?_append_of rfl]; decide)
    have hlines : ∀ l ∈ ⟨docText d.doc, d.classHead keywords ++ "\x7b".toList⟩ ::
        d.members.flatMap memberLines ++ [{ text := "\x7d".toList }], l.Sound := by
      intro l hl
      rcases List.mem_append.1 hl with hl | hl
      · rcases List.mem_cons.1 hl with rfl | hl
        · exact hfirst.sound _ List.mem_cons_self
        · exact hmembers l hl
      · rw [List.mem_singleton.1 hl]
        exact ⟨by simp, by decide⟩
    exact ⟨hlines, _, _, rfl, hhead _, fun c hc => (docComment_docText h.doc hc).leads⟩

theorem last_block (h : d.Shaped DocComment) (hkind : d.kind.hasBlock = true) :
    d.bodyText.getLast? = some '}' := by
  obtain ⟨rest, hbody⟩ := h.block hkind
  rw [bodyText, hbody, Option.getD_some]
  cases hblock : (splitBlock rest).2 with
  | none => rfl
  | some block =>
    obtain ⟨inside, rfl, -⟩ := ClassBody.exists_block hblock
    exact List.getLast?_concat

theorem last_scopeText (h : d.Shaped DocComment) (hkind : d.kind = .scope) :
    d.scopeText.getLast? ≠ some '\\' := by
  obtain ⟨rest, hbody⟩ := h.scope hkind
  have hclosed : ∀ block, d.body = some block → block.getLast? = some '}' := by
    intro block hblock
    obtain ⟨inside, rfl, -⟩ := ClassBody.exists_block (hbody.symm.trans hblock)
    exact List.getLast?_concat
  have hempty : d.bodyOrEmpty.getLast? = some '}' := by
    unfold bodyOrEmpty
    split
    · rename_i hblock
      exact hclosed _ hblock
    · rfl
  unfold scopeText
  split
  · rw [Text.getLast?_append_of hempty]
    decide
  · simp only
    split
    · rw [Text.getLast?_append_of rfl]
      decide
    · rename_i block hblock
      rw [Text.getLast?_append_of (hclosed block hblock)]
      decide

theorem leads_scopeText (d : Declaration) : Leads d.scopeText := by
  have hdeclare : ∀ t u : Text, Leads ('d' :: t ++ u) :=
    fun t u => .inr ⟨'d', t ++ u, rfl, by decide, by decide⟩
  unfold scopeText
  split
  · exact hdeclare _ _
  · have hhead : Leads (if d.name.head?.any fun c => c == '\'' || c == '"' then
        "declare module ".toList ++ d.name
      else d.keywords ++ d.firstModifier "namespace" ++ " ".toList ++ d.name) := by
      split
      · exact hdeclare _ _
      · simp only [List.append_assoc]
        exact d.leads_keywords.append _
    simp only
    split
    · exact hhead.append _
    · rw [List.append_assoc]
      exact hhead.append _

theorem wellFormed_interfaceText (h : d.Shaped DocComment) (hkind : d.kind = .interface)
    {keywords : Text} (hkeywords : Leads keywords) :
    Line.WellFormed [⟨docText d.doc, d.interfaceText keywords⟩] := by
  refine wellFormed_one h.doc ?_ ?_
  · simp only [interfaceText, List.append_assoc]
    exact hkeywords.append _
  · rw [interfaceText, Text.getLast?_append_of (last_block h (by rw [hkind]; rfl))]
    decide

/-- **The lines of the chunks of a declaration can stand below each other.** -/
theorem wellFormed_chunkLines (h : d.Shaped DocComment) :
    ∀ ls ∈ d.chunkLines, Line.WellFormed ls := by
  have hlast : ∀ t : Text, (t ++ ";".toList).getLast? ≠ some '\\' := by
    intro t
    rw [Text.getLast?_append_of rfl]
    decide
  unfold chunkLines
  cases hsection : d.section? with
  | none => simp
  | some place =>
    cases place with
    | typeReExports | valueReExports =>
      refine List.forall_mem_singleton.2 (wellFormed_uncommented ?_ (hlast _))
      unfold passthroughText
      simp only
      split <;> exact .inr ⟨'e', _, rfl, by decide, by decide⟩
    | declarations =>
      cases hkind : d.kind with
      | imports | exports => simp
      | function => exact List.forall_mem_singleton.2 (wellFormed_functionLines h d.leads_keywords)
      | classType => exact List.forall_mem_singleton.2 (wellFormed_classLines h d.leads_keywords)
      | interface =>
        exact List.forall_mem_singleton.2 (wellFormed_interfaceText h hkind d.leads_keywords)
      | binding =>
        refine List.forall_mem_singleton.2 (wellFormed_one h.doc ?_ (hlast _))
        simp only [variableText, List.append_assoc]
        exact d.leads_keywords.append _
      | typeAlias =>
        refine List.forall_mem_singleton.2 (wellFormed_one h.doc ?_ (hlast _))
        simp only [aliasText, List.append_assoc]
        exact d.leads_keywords.append _
      | enum =>
        refine List.forall_mem_singleton.2 (wellFormed_one h.doc ?_ ?_)
        · simp only [enumText, List.append_assoc]
          exact d.leads_keywords.append _
        · rw [enumText, Text.getLast?_append_of (last_block h (by rw [hkind]; rfl))]
          decide
      | scope =>
        exact List.forall_mem_singleton.2
          (wellFormed_one h.doc d.leads_scopeText (last_scopeText h hkind))
    | defaultExport =>
      cases hkind : d.kind with
      | function =>
        exact List.forall_mem_singleton.2 (wellFormed_functionLines h leads_defaultKeywords)
      | classType =>
        exact List.forall_mem_singleton.2 (wellFormed_classLines h leads_defaultKeywords)
      | interface =>
        exact List.forall_mem_singleton.2 (wellFormed_interfaceText h hkind leads_defaultKeywords)
      | _ =>
        simp only
        split
        · refine List.forall_mem_singleton.2 (wellFormed_uncommented ?_ (hlast _))
          rw [List.append_assoc]
          exact leads_defaultKeywords.append _
        · have hexport : Line.WellFormed [{ text := "export default _default;".toList }] :=
            wellFormed_uncommented (leads_defaultKeywords.append "_default;".toList) (by decide)
          refine List.forall_mem_cons.2 ⟨wellFormed_uncommented ?_ (hlast _),
            List.forall_mem_singleton.2 hexport⟩
          exact .inr ⟨'d', _, rfl, by decide, by decide⟩

end Declaration

/-! ## What chunks mention -/

/-- A text ends like its last line, or with the line break in front of it. -/
theorem Text.getLast?_newline_ne {c : Char} (hc : c ≠ '\n') (t : Text) {u : Text}
    (hu : u.getLast? ≠ some c) : (t ++ '\n' :: u).getLast? ≠ some c := by
  rw [List.getLast?_append, List.getLast?_cons]
  cases hlast : u.getLast? with
  | none => simpa using hc.symm
  | some d =>
    rw [hlast] at hu
    simpa using hu

theorem Text.getLast?_join_ne {c : Char} (hc : c ≠ '\n') {ts : List Text}
    (h : ∀ t ∈ ts, t.getLast? ≠ some c) : (join "\n".toList ts).getLast? ≠ some c := by
  induction ts with
  | nil => simp [join]
  | cons t ts ih =>
    obtain ⟨ht, hothers⟩ := List.forall_mem_cons.1 h
    cases ts with
    | nil => rwa [join, List.intercalate_singleton]
    | cons u us =>
      rw [join_cons, ← newline_join (by simp)]
      exact getLast?_newline_ne hc t (ih hothers)

namespace Line.WellFormed

variable {ls : List Line}

theorem ne_nil (h : Line.WellFormed ls) : ls ≠ [] := by
  obtain ⟨first, others, rfl, -⟩ := h.leads
  simp

/-- A chunk that ends outside everything can stand among other chunks. -/
theorem standalone (h : Line.WellFormed ls) {keepComments : Bool}
    (hends : EndsOutside (Line.join keepComments ls)) :
    Standalone (Line.join keepComments ls) where
  ends := hends
  last := by
    refine Text.getLast?_join_ne (by decide) fun t ht => ?_
    obtain ⟨l, hl, ht⟩ := List.mem_flatMap.1 ht
    rcases Line.mem_written ht with hcomment | rfl
    · exact ((h.sound l hl).silent t hcomment).standalone.last
    · exact (h.sound l hl).last
  front := by
    obtain ⟨first, others, rfl, hleads, hcomment⟩ := h.leads
    refine Leads.front ?_
    rw [Line.join_cons]
    refine Leads.append ?_ _
    cases keepComments with
    | false => simpa [Line.join, Line.written, Text.join] using hleads
    | true =>
      cases hc : first.comment with
      | none => simpa [Line.join, Line.written, Text.join, hc] using hleads
      | some c =>
        have hjoin : Line.join true [first] = c ++ '\n' :: first.text := by
          simp [Line.join, Line.written, Text.join, hc]
        rw [hjoin]
        exact (hcomment c hc).append _

end Line.WellFormed

/-- Lines that can stand alone mention the same with their comments and without. -/
theorem Line.identifiers_join {ls : List Line} (hsound : ∀ l ∈ ls, l.Sound)
    (h : ∀ l ∈ ls, Standalone l.text) (keepComments : Bool) :
    identifiers (Line.join keepComments ls) = ls.flatMap fun l => identifiers l.text := by
  have hstandalone : ∀ t ∈ ls.flatMap (written keepComments), Standalone t := by
    intro t ht
    obtain ⟨l, hl, ht⟩ := List.mem_flatMap.1 ht
    rcases mem_written ht with hcomment | rfl
    · exact ((hsound l hl).silent t hcomment).standalone
    · exact h l hl
  rw [Line.join, Lexing.identifiers_join hstandalone, List.flatMap_assoc]
  refine List.flatMap_congr fun l hl => ?_
  have hcomment : (if keepComments then l.comment.toList else []).flatMap identifiers = [] := by
    refine List.flatMap_eq_nil_iff.2 fun t ht => ?_
    split at ht
    · exact ((hsound l hl).silent t (Option.mem_toList.1 ht)).identifiers_eq
    · cases ht
  rw [written, List.flatMap_append, hcomment]
  simp

/-! ## Stretches between comments -/

namespace Line

/-- A line above others.  If the first of these has no comment, it is written as one with it. -/
def above (l : Line) : List Line → List Line
  | [] => [l]
  | next :: others =>
    if next.comment.isNone then ⟨l.comment, l.text ++ '\n' :: next.text⟩ :: others
    else l :: next :: others

/-- The lines with all the text between two comments in one. -/
def stretches (ls : List Line) : List Line :=
  ls.foldr above []

theorem above_ne_nil (l : Line) (ls : List Line) : l.above ls ≠ [] := by
  cases ls with
  | nil => simp [above]
  | cons next others =>
    rw [above]
    split <;> simp

theorem stretches_ne_nil {ls : List Line} (h : ls ≠ []) : stretches ls ≠ [] := by
  obtain ⟨l, ls, rfl⟩ := List.exists_cons_of_ne_nil h
  exact above_ne_nil l (stretches ls)

/-- What holds of the lines and of two lines written as one holds of the stretches. -/
theorem forall_stretches {P : Line → Prop}
    (hone : ∀ l next, P l → P next → P ⟨l.comment, l.text ++ '\n' :: next.text⟩) {ls : List Line}
    (h : ∀ l ∈ ls, P l) : ∀ l ∈ stretches ls, P l := by
  induction ls with
  | nil => exact h
  | cons l ls ih =>
    obtain ⟨hl, hls⟩ := List.forall_mem_cons.1 h
    have hbelow := ih hls
    show ∀ m ∈ l.above (stretches ls), P m
    cases hstretches : stretches ls with
    | nil => simpa [above] using hl
    | cons next others =>
      rw [hstretches] at hbelow
      obtain ⟨hnext, hothers⟩ := List.forall_mem_cons.1 hbelow
      rw [above]
      split
      · exact List.forall_mem_cons.2 ⟨hone l next hl hnext, hothers⟩
      · exact List.forall_mem_cons.2 ⟨hl, hbelow⟩

theorem below_above (keepComments : Bool) (l : Line) (ls : List Line) :
    ((l.above ls).flatMap (written keepComments)).flatMap ('\n' :: ·) =
      ((l :: ls).flatMap (written keepComments)).flatMap ('\n' :: ·) := by
  cases ls with
  | nil => rfl
  | cons next others =>
    rw [above]
    split
    · rename_i hcomment
      simp [written, Option.isNone_iff_eq_none.1 hcomment]
    · rfl

theorem join_stretches (keepComments : Bool) (ls : List Line) :
    join keepComments (stretches ls) = join keepComments ls := by
  have hbelow : ((stretches ls).flatMap (written keepComments)).flatMap ('\n' :: ·) =
      (ls.flatMap (written keepComments)).flatMap ('\n' :: ·) := by
    induction ls with
    | nil => rfl
    | cons l ls ih =>
      refine (below_above keepComments l (stretches ls)).trans ?_
      simp only [List.flatMap_cons, List.flatMap_append, ih]
  rw [join, join, Text.join_eq_tail, Text.join_eq_tail, hbelow]

/-- Stretches have the comments of the lines, and they end like lines. -/
theorem sound_stretches {ls : List Line} (h : ∀ l ∈ ls, l.Sound) :
    ∀ l ∈ stretches ls, l.Sound := by
  refine forall_stretches ?_ h
  intro l next hl hnext
  exact ⟨hl.silent, Text.getLast?_newline_ne (by decide) l.text hnext.last⟩

end Line

end ModuleSurface
