import ModuleSurface.Import.Parser
import ModuleSurface.Proofs.Text.Search
import ModuleSurface.Proofs.Text.Words

/-!
# Reading the bindings of an import

The bindings of an import are read back from the text that they are written as.  Names that are also
keywords (`type`, `as`, `from`) are told from them by what stands around them.

* `ImportBinding.Writable` — the named bindings that can be written, and `binding?_of_strip`, by
  which they are read back;
* `withClause?_clauseText` — all bindings of a statement are read back from its clause.
-/

namespace ModuleSurface

/-! ## Names -/

/-- Identifier characters, at least one. -/
def Text.IsName (t : Text) : Prop :=
  t ≠ [] ∧ ∀ c ∈ t, Text.isIdentChar c = true

namespace Text.IsName

variable {t : Text}

theorem isWord (h : IsName t) : IsWord t :=
  ⟨h.1, fun c hc => isBlank_of_isIdentChar (h.2 c hc)⟩

theorem not_mem (h : IsName t) {c : Char} (hc : isIdentChar c = false) : c ∉ t := by
  intro hmem
  rw [h.2 c hmem] at hc
  cases hc

theorem exists_cons (h : IsName t) : ∃ c r, t = c :: r ∧ isIdentChar c = true := by
  obtain ⟨c, r, rfl⟩ := List.exists_cons_of_ne_nil h.1
  exact ⟨c, r, rfl, h.2 c List.mem_cons_self⟩

end Text.IsName

namespace Text

theorem after?_append (head t : Text) : after? head (head ++ t) = some t := by
  simp [after?]

end Text

/-! ## Bindings -/

/-- A binding that can be written: it has a name, and the local name is one.  A binding with the
name `type` and another local name is marked as a type, as without the mark the name is taken for
it. -/
structure ImportBinding.Writable (b : ImportBinding) : Prop where
  /-- The name is a name. -/
  name : Text.IsName b.name
  /-- The local name is a name. -/
  rename : ∀ n ∈ b.rename, Text.IsName n
  /-- The name is not the mark. -/
  marked : b.name = "type".toList → b.rename.isSome = true → b.isTypeOnly = true

namespace ImportBinding

variable {b : ImportBinding}

/-- The binding without its mark. -/
def plainText (b : ImportBinding) : Text :=
  match b.rename with
  | some n => b.name ++ " as ".toList ++ n
  | none => b.name

theorem Writable.render_eq (h : b.Writable) :
    b.render = (if b.isTypeOnly then "type ".toList else []) ++ b.plainText := by
  unfold render plainText
  cases hrename : b.rename with
  | none => cases b.isTypeOnly <;> rfl
  | some n =>
    obtain ⟨c, r, rfl, -⟩ := (h.rename n hrename).exists_cons
    cases b.isTypeOnly <;> rfl

theorem Writable.spaced_plainText (h : b.Writable) : Text.Spaced b.plainText := by
  unfold plainText
  split
  · rename_i n hn
    have has : Text.IsWord "as".toList := ⟨by decide, by decide⟩
    have hspaced := Text.Spaced.cons h.name.isWord (.cons has (.word (h.rename n hn).isWord))
    simpa using hspaced
  · exact .word h.name.isWord

theorem Writable.spaced_render (h : b.Writable) : Text.Spaced b.render := by
  rw [h.render_eq]
  split
  · exact Text.Spaced.cons (w := "type".toList) ⟨by decide, by decide⟩ h.spaced_plainText
  · exact h.spaced_plainText

/-- The characters of a binding. -/
theorem Writable.of_mem_render (h : b.Writable) {c : Char} (hc : c ∈ b.render) :
    Text.isIdentChar c = true ∨ c = ' ' := by
  have hplain : ∀ c ∈ b.plainText, Text.isIdentChar c = true ∨ c = ' ' := by
    unfold plainText
    split
    · rename_i n hn
      intro c hc
      simp only [List.mem_append, or_assoc] at hc
      rcases hc with hc | hc | hc
      · exact .inl (h.name.2 c hc)
      · have has : ∀ c ∈ " as ".toList, Text.isIdentChar c = true ∨ c = ' ' := by decide
        exact has c hc
      · exact .inl ((h.rename n hn).2 c hc)
    · intro c hc
      exact .inl (h.name.2 c hc)
  rw [h.render_eq, List.mem_append] at hc
  rcases hc with hc | hc
  · have htype : ∀ c ∈ "type ".toList, Text.isIdentChar c = true ∨ c = ' ' := by decide
    split at hc
    · exact htype c hc
    · cases hc
  · exact hplain c hc

/-- Where the local name stands in a binding without a mark. -/
theorem Writable.find?_plainText (h : b.Writable) :
    Text.find? b.plainText " as ".toList = b.rename.map fun _ => b.name.length := by
  have hspace : ' ' ∉ b.name := h.name.not_mem (by decide)
  unfold plainText
  cases hrename : b.rename with
  | none =>
    have hfind := Text.findFrom_append_of_not_mem " as ".toList hspace rfl 0 []
    rw [List.append_nil] at hfind
    simpa [Text.find?, Text.findFrom] using hfind
  | some n =>
    have hfind := Text.findFrom_append_of_not_mem " as ".toList hspace rfl 0
      (" as ".toList ++ n)
    simp only [Text.find?, List.append_assoc]
    rw [hfind]
    simp [Text.findFrom]

/-- Only the mark is read as the mark. -/
theorem Writable.after?_plainText (h : b.Writable) (hmark : b.isTypeOnly = false) :
    Text.after? "type ".toList b.plainText = none := by
  have hspace : ' ' ∉ b.name := h.name.not_mem (by decide)
  have hfree : ∀ c ∈ b.name, (c != ' ') = true := by
    intro c hc
    simpa using fun heq => hspace (by rwa [← heq])
  rw [Text.after?, if_neg]
  rw [List.isPrefixOf_iff_prefix]
  rintro ⟨rest, hrest⟩
  unfold plainText at hrest
  cases hrename : b.rename with
  | none =>
    rw [hrename] at hrest
    apply hspace
    simp only [← hrest]
    simp
  | some n =>
    rw [hrename] at hrest
    have hsplit : "type".toList ++ ' ' :: rest = b.name ++ ' ' :: ("as ".toList ++ n) := by
      simpa using hrest
    have hname : "type".toList = b.name :=
      Text.eq_of_append_cons (p := (· != ' ')) (by decide) hfree rfl rfl hsplit
    have hmarked := h.marked hname.symm (by rw [hrename]; rfl)
    rw [hmark] at hmarked
    cases hmarked

/-- The names of a binding are read back from its text without the mark. -/
theorem Writable.match_find?_plainText (h : b.Writable) :
    (match Text.find? b.plainText " as ".toList with
      | some i => some { name := b.plainText.take i, rename := some (b.plainText.drop (i + 4)),
                         isTypeOnly := b.isTypeOnly }
      | none => some { name := b.plainText, isTypeOnly := b.isTypeOnly }) = some b := by
  rw [h.find?_plainText]
  obtain ⟨name, rename, isTypeOnly⟩ := b
  cases rename with
  | none => rfl
  | some n => simp [plainText]

/-- **A binding is read back**, whatever white space is around it. -/
theorem Writable.binding?_of_strip (h : b.Writable) {piece : Text}
    (hpiece : Text.strip piece = b.render) : ImportStatement.binding? piece = some b := by
  obtain ⟨c, r, hplain, -⟩ := h.spaced_plainText.exists_head
  have hresult := h.match_find?_plainText
  have hrender := h.render_eq
  simp only [ImportStatement.binding?, hpiece]
  cases hmark : b.isTypeOnly with
  | true =>
    rw [hmark, if_pos rfl] at hrender
    rw [hmark] at hresult
    have hmarked : (Text.after? "type ".toList b.render).map Text.strip = some b.plainText := by
      rw [hrender, Text.after?_append, Option.map_some, h.spaced_plainText.strip_eq]
    have hpresent : Text.isPresent (some b.plainText) = true := by
      rw [hplain]
      rfl
    rw [if_neg (by rw [hrender]; simp), hmarked, hpresent]
    exact hresult
  | false =>
    rw [hmark, if_neg (by decide), List.nil_append] at hrender
    rw [hmark] at hresult
    rw [if_neg (by rw [hrender, hplain]; simp), hrender, h.after?_plainText hmark]
    exact hresult

end ImportBinding

/-! ## Clauses -/

namespace ImportStatement

variable {s : ImportStatement}

/-- The bindings in front of the curly brackets, as written. -/
def headTexts (s : ImportStatement) : List Text :=
  s.defaultBinding.toList ++ s.namespaceBinding.toList.map ("* as ".toList ++ ·)

/-- The named bindings with their curly brackets. -/
def namedText (s : ImportStatement) : Text :=
  "\x7b ".toList ++ Text.join ", ".toList (s.namedBindings.map (·.render)) ++ " \x7d".toList

/-- All bindings with commas between them. -/
def clauseText (s : ImportStatement) : Text :=
  Text.join ", ".toList (s.headTexts ++ if s.namedBindings.isEmpty then [] else [s.namedText])

/-- The statement binds something. -/
def Binds (s : ImportStatement) : Prop :=
  s.defaultBinding.isSome = true ∨ s.namespaceBinding.isSome = true ∨ s.namedBindings ≠ []

/-- The names of a statement are names, and its bindings can be written. -/
structure WritableNames (s : ImportStatement) : Prop where
  /-- The default binding is a name. -/
  defaultBinding : ∀ n ∈ s.defaultBinding, Text.IsName n
  /-- The namespace binding is a name. -/
  namespaceBinding : ∀ n ∈ s.namespaceBinding, Text.IsName n
  /-- The named bindings can be written. -/
  namedBindings : ∀ b ∈ s.namedBindings, b.Writable

/-- A keyword and one space are read in front of anything that is not white space. -/
theorem keyword?_append (word : Text) {c : Char} (hc : Text.isBlank c = false) (r : Text) :
    keyword? word (word ++ ' ' :: c :: r) = some (c :: r) := by
  have hspace : Text.isBlank ' ' = true := by decide
  simp [keyword?, skipSpaces, Text.after?_append, hc, hspace]

theorem namespaceName?_name {n : Text} (hn : Text.IsName n) :
    namespaceName? ("* as ".toList ++ n) = some n := by
  obtain ⟨c, r, rfl, hc⟩ := hn.exists_cons
  have hkeyword : keyword? "as".toList (skipSpaces (" as ".toList ++ c :: r)) = some (c :: r) :=
    keyword?_append "as".toList (Text.isBlank_of_isIdentChar hc) r
  have hall : (c :: r).all Text.isIdentChar = true := List.all_eq_true.2 hn.2
  have hcons : "* as ".toList ++ c :: r = '*' :: (" as ".toList ++ c :: r) := rfl
  rw [hcons, namespaceName?]
  simp only [hkeyword, hall]
  rfl

theorem namespaceName?_of_isName {n : Text} (hn : Text.IsName n) : namespaceName? n = none := by
  obtain ⟨c, r, rfl, hc⟩ := hn.exists_cons
  unfold namespaceName?
  split
  · rename_i heq
    cases heq
    exact absurd hc (by decide)
  · rfl

/-- What stands in front of the curly brackets is set piece by piece. -/
theorem withHead_of_pieces (h : s.WritableNames) {t : ImportStatement}
    (hdefault : t.defaultBinding = none) (hnamespace : t.namespaceBinding = none) {head : Text}
    (hpieces : ((commaPieces head).map Text.strip).filter (!·.isEmpty) = s.headTexts) :
    withHead t head = { t with
      defaultBinding := s.defaultBinding, namespaceBinding := s.namespaceBinding } := by
  rw [withHead, hpieces, headTexts]
  obtain ⟨source, _, _, named, typeOnly, sideEffect, require, raw⟩ := t
  subst hdefault hnamespace
  cases hd : s.defaultBinding with
  | none =>
    cases hn : s.namespaceBinding with
    | none => rfl
    | some n =>
      simp only [Option.toList_none, Option.toList_some, List.map_cons, List.map_nil,
        List.nil_append, List.foldl_cons, List.foldl_nil,
        namespaceName?_name (h.namespaceBinding n hn)]
  | some d =>
    have hplain := namespaceName?_of_isName (h.defaultBinding d hd)
    cases hn : s.namespaceBinding with
    | none => simp [hplain]
    | some n =>
      simp only [Option.toList_some, List.map_cons, List.map_nil, List.singleton_append,
        List.foldl_cons, List.foldl_nil, hplain, namespaceName?_name (h.namespaceBinding n hn)]

/-- The characters of the pieces in front of the curly brackets. -/
theorem WritableNames.of_mem_headTexts (h : s.WritableNames) {t : Text} (ht : t ∈ s.headTexts) :
    Text.Spaced t ∧ ∀ c ∈ t, Text.isIdentChar c = true ∨ c ∈ ['*', ' '] := by
  rw [headTexts, List.mem_append] at ht
  rcases ht with ht | ht
  · have hname := h.defaultBinding t (by simpa using ht)
    exact ⟨.word hname.isWord, fun c hc => .inl (hname.2 c hc)⟩
  · obtain ⟨n, hn, rfl⟩ := List.mem_map.1 ht
    have hname := h.namespaceBinding n (by simpa using hn)
    refine ⟨Text.Spaced.cons (w := ['*']) ⟨by decide, by decide⟩
      (Text.Spaced.cons (w := "as".toList) ⟨by decide, by decide⟩ (.word hname.isWord)), ?_⟩
    intro c hc
    rcases List.mem_append.1 hc with hc | hc
    · have hfront : ∀ c ∈ "* as ".toList, Text.isIdentChar c = true ∨ c ∈ ['*', ' '] := by decide
      exact hfront c hc
    · exact .inl (hname.2 c hc)

theorem filter_headTexts (h : s.WritableNames) :
    s.headTexts.filter (!·.isEmpty) = s.headTexts := by
  rw [List.filter_eq_self]
  intro t ht
  obtain ⟨c, r, rfl, -⟩ := (h.of_mem_headTexts ht).1.exists_head
  rfl

theorem join_concat (sep : Text) (ts : List Text) (u : Text) :
    Text.join sep (ts ++ [u]) = Text.join sep (ts ++ [[]]) ++ u := by
  induction ts with
  | nil => simp [Text.join]
  | cons t ts ih =>
    cases ts with
    | nil => simp [Text.join, List.intercalate_cons_cons]
    | cons v ts =>
      simp only [Text.join, List.cons_append, List.intercalate_cons_cons] at ih ⊢
      rw [ih]
      simp

/-- Reading a clause with curly brackets. -/
theorem withClause?_braces {t : ImportStatement} {head inner : Text} (hhead : '{' ∉ head) :
    withClause? t (head ++ '{' :: inner ++ ['}']) =
      some (withHead { t with namedBindings := (commaPieces inner).filterMap binding? } head) := by
  have hopen : (head ++ '{' :: inner ++ ['}']).idxOf? '{' = some head.length := by
    rw [List.idxOf?_eq_some_iff]
    refine ⟨by simp, by simp, ?_⟩
    intro j hj heq
    apply hhead
    rw [← heq]
    simp [List.getElem_append_left, hj]
  have hclose : lastIndex? (head ++ '{' :: inner ++ ['}']) '}' =
      some (head.length + 1 + inner.length) := by
    simp [lastIndex?, List.idxOf?_cons]
    omega
  have hinner : Text.slice (head ++ '{' :: inner ++ ['}']) (head.length + 1)
      (head.length + 1 + inner.length) = inner := by
    have hassoc : head ++ '{' :: inner ++ ['}'] = (head ++ ['{']) ++ inner ++ ['}'] := by simp
    have hlength : head.length + 1 = (head ++ ['{']).length := by simp
    rw [Text.slice, hassoc, hlength, ← List.length_append, List.take_left, List.drop_left]
  simp only [withClause?, hopen, hclose, hinner]
  rw [if_neg (by omega), List.append_assoc, List.take_left]

theorem mem_join {sep : Text} {ts : List Text} {c : Char} (hc : c ∈ Text.join sep ts) :
    c ∈ sep ∨ ∃ t ∈ ts, c ∈ t := by
  induction ts with
  | nil => cases hc
  | cons t ts ih =>
    cases ts with
    | nil =>
      rw [Text.join, List.intercalate_singleton] at hc
      exact .inr ⟨t, List.mem_cons_self, hc⟩
    | cons u ts =>
      rw [Text.join, List.intercalate_cons_cons, List.mem_append, List.mem_append] at hc
      rcases hc with (hc | hc) | hc
      · exact .inr ⟨t, List.mem_cons_self, hc⟩
      · exact .inl hc
      · rcases ih hc with hsep | ⟨v, hv, hcv⟩
        · exact .inl hsep
        · exact .inr ⟨v, List.mem_cons_of_mem _ hv, hcv⟩

/-- No curly bracket stands in front of the named bindings. -/
theorem not_mem_join (h : s.WritableNames) {ts : List Text}
    (hts : ∀ t ∈ ts, t ∈ s.headTexts ∨ t = []) :
    '\x7b' ∉ Text.join ", ".toList ts := by
  intro hmem
  rcases mem_join hmem with hmem | ⟨t, ht, hct⟩
  · exact absurd hmem (by decide)
  · rcases hts t ht with ht | rfl
    · rcases (h.of_mem_headTexts ht).2 _ hct with hident | hsign
      · exact absurd hident (by decide)
      · exact absurd hsign (by decide)
    · cases hct

/-- Pieces that are bindings but for the white space around them are read as these. -/
theorem filterMap_binding? {pieces : List Text} {bs : List ImportBinding}
    (hbs : ∀ b ∈ bs, b.Writable) (h : pieces.map Text.strip = bs.map (·.render)) :
    pieces.filterMap binding? = bs := by
  induction bs generalizing pieces with
  | nil =>
    rw [List.map_nil, List.map_eq_nil_iff] at h
    rw [h]
    rfl
  | cons b bs ih =>
    obtain ⟨hb, hbs⟩ := List.forall_mem_cons.1 hbs
    obtain ⟨piece, pieces, rfl, hpiece, hpieces⟩ := List.map_eq_cons_iff.1 h
    rw [List.filterMap_cons, hb.binding?_of_strip hpiece, ih hbs hpieces]

/-- The pieces in front of the curly brackets are told apart by their commas; behind the last one
nothing may stand. -/
theorem pieces_headTexts (h : s.WritableNames) {ts : List Text} (hne : ts ≠ [])
    (hts : ∀ t ∈ ts, t ∈ s.headTexts ∨ t = []) :
    (commaPieces (Text.join ", ".toList ts)).map Text.strip = ts := by
  have hpieces := Text.map_strip_splitOn hne ?_ ?_ [] [] (by simp) (by simp)
  · rwa [List.nil_append, List.append_nil] at hpieces
  · intro t ht hmem
    rcases hts t ht with ht | rfl
    · rcases (h.of_mem_headTexts ht).2 _ hmem with hident | hsign
      · exact absurd hident (by decide)
      · exact absurd hsign (by decide)
    · cases hmem
  · intro t ht
    rcases hts t ht with ht | rfl
    · exact .inr (h.of_mem_headTexts ht).1
    · exact .inl rfl

/-- The named bindings between their curly brackets are told apart by their commas. -/
theorem pieces_namedBindings (h : s.WritableNames) (hne : s.namedBindings ≠ []) :
    (commaPieces (" ".toList ++ Text.join ", ".toList (s.namedBindings.map (·.render)) ++
      " ".toList)).map Text.strip = s.namedBindings.map (·.render) := by
  refine Text.map_strip_splitOn (by simpa using hne) ?_ ?_ " ".toList " ".toList (by decide)
    (by decide)
  · intro t ht hmem
    obtain ⟨b, hb, rfl⟩ := List.mem_map.1 ht
    rcases (h.namedBindings b hb).of_mem_render hmem with hident | hsign
    · exact absurd hident (by decide)
    · exact absurd hsign (by decide)
  · intro t ht
    obtain ⟨b, hb, rfl⟩ := List.mem_map.1 ht
    exact .inr (h.namedBindings b hb).spaced_render

/-- **A clause is read back.** -/
theorem withClause?_clauseText (h : s.WritableNames) (hbinds : s.Binds) {t : ImportStatement}
    (hdefault : t.defaultBinding = none) (hnamespace : t.namespaceBinding = none)
    (hnamed : t.namedBindings = []) :
    withClause? t s.clauseText = some { t with
      defaultBinding := s.defaultBinding, namespaceBinding := s.namespaceBinding
      namedBindings := s.namedBindings } := by
  cases hempty : s.namedBindings.isEmpty with
  | true =>
    rw [List.isEmpty_iff] at hempty
    have hne : s.headTexts ≠ [] := by
      rcases hbinds with hbinds | hbinds | hbinds
      · obtain ⟨d, hd⟩ := Option.isSome_iff_exists.1 hbinds
        simp [headTexts, hd]
      · obtain ⟨n, hn⟩ := Option.isSome_iff_exists.1 hbinds
        simp [headTexts, hn]
      · exact absurd hempty hbinds
    have hheads : ∀ t ∈ s.headTexts, t ∈ s.headTexts ∨ t = [] := fun t ht => .inl ht
    have hclause : s.clauseText = Text.join ", ".toList s.headTexts := by
      simp [clauseText, hempty]
    have hbrace : s.clauseText.idxOf? '\x7b' = none := by
      rw [List.idxOf?_eq_none_iff, hclause]
      exact not_mem_join h hheads
    have hpieces : ((commaPieces s.clauseText).map Text.strip).filter (!·.isEmpty) =
        s.headTexts := by
      rw [hclause, pieces_headTexts h hne hheads, filter_headTexts h]
    simp only [withClause?, hbrace]
    rw [withHead_of_pieces h hdefault hnamespace hpieces, hempty, ← hnamed]
  | false =>
    have hne : s.namedBindings ≠ [] := by
      rintro hnil
      rw [hnil] at hempty
      cases hempty
    have hheads : ∀ t ∈ s.headTexts ++ [[]], t ∈ s.headTexts ∨ t = [] := by
      intro t ht
      rwa [List.mem_append, List.mem_singleton] at ht
    have hclause : s.clauseText = Text.join ", ".toList (s.headTexts ++ [[]]) ++
        '\x7b' :: (" ".toList ++ Text.join ", ".toList (s.namedBindings.map (·.render)) ++
          " ".toList) ++ ['\x7d'] := by
      rw [clauseText, hempty, if_neg (by decide), join_concat, namedText]
      simp
    have hpieces : ((commaPieces (Text.join ", ".toList (s.headTexts ++ [[]]))).map
        Text.strip).filter (!·.isEmpty) = s.headTexts := by
      rw [pieces_headTexts h (by simp) hheads, List.filter_append, filter_headTexts h]
      simp
    rw [hclause, withClause?_braces (not_mem_join h hheads),
      filterMap_binding? h.namedBindings (pieces_namedBindings h hne),
      withHead_of_pieces h (t := { t with namedBindings := s.namedBindings }) hdefault hnamespace
        hpieces]

/-! ## The text of a clause -/

theorem join_cons_eq (t : Text) (ts : List Text) :
    Text.join ", ".toList (t :: ts) = t ∨ ∃ r, Text.join ", ".toList (t :: ts) = t ++ ',' :: r := by
  cases ts with
  | nil => exact .inl (List.intercalate_singleton ..)
  | cons u ts =>
    refine .inr ⟨' ' :: Text.join ", ".toList (u :: ts), ?_⟩
    rw [Text.join, List.intercalate_cons_cons, ← Text.join]
    simp

/-- A clause begins with its default binding, or with the sign of another one. -/
theorem clauseText_cases (h : s.WritableNames) (hbinds : s.Binds) :
    (∃ d, Text.IsName d ∧ (s.clauseText = d ∨ ∃ r, s.clauseText = d ++ ',' :: r)) ∨
      ∃ c r, s.clauseText = c :: r ∧ c ∈ ['*', '\x7b'] := by
  have hstarts : ∀ (c : Char) (t : Text) (ts : List Text),
      ∃ r, Text.join ", ".toList ((c :: t) :: ts) = c :: r := by
    intro c t ts
    rcases join_cons_eq (c :: t) ts with heq | ⟨r, heq⟩
    · exact ⟨t, heq⟩
    · exact ⟨t ++ ',' :: r, heq⟩
  cases hdefault : s.defaultBinding with
  | some d =>
    refine .inl ⟨d, h.defaultBinding d hdefault, ?_⟩
    rw [clauseText, headTexts, hdefault]
    exact join_cons_eq d _
  | none =>
    refine .inr ?_
    cases hnamespace : s.namespaceBinding with
    | some n =>
      obtain ⟨r, hr⟩ := hstarts '*' (" as ".toList ++ n)
        (if s.namedBindings.isEmpty then [] else [s.namedText])
      refine ⟨'*', r, ?_, by decide⟩
      rw [← hr, clauseText, headTexts, hdefault, hnamespace]
      rfl
    | none =>
      have hnamed : s.namedBindings.isEmpty = false := by
        rcases hbinds with hbinds | hbinds | hbinds
        · simp [hdefault] at hbinds
        · simp [hnamespace] at hbinds
        · simpa using hbinds
      obtain ⟨r, hr⟩ := hstarts '\x7b' (' ' :: (Text.join ", ".toList
        (s.namedBindings.map (·.render)) ++ " \x7d".toList)) []
      refine ⟨'\x7b', r, ?_, by decide⟩
      rw [← hr, clauseText, headTexts, hdefault, hnamespace, hnamed]
      rfl

/-- The characters of a clause. -/
theorem of_mem_clauseText (h : s.WritableNames) {c : Char} (hc : c ∈ s.clauseText) :
    Text.isIdentChar c = true ∨ c ∈ ['*', ' ', ',', '\x7b', '\x7d'] := by
  rcases mem_join hc with hc | ⟨t, ht, hc⟩
  · have hseparator : ∀ c ∈ ", ".toList, c ∈ ['*', ' ', ',', '\x7b', '\x7d'] := by decide
    exact .inr (hseparator c hc)
  rcases List.mem_append.1 ht with ht | ht
  · rcases (h.of_mem_headTexts ht).2 c hc with hident | hsign
    · exact .inl hident
    · have hsigns : ∀ c ∈ ['*', ' '], c ∈ ['*', ' ', ',', '\x7b', '\x7d'] := by decide
      exact .inr (hsigns c hsign)
  split at ht
  · cases ht
  rw [List.mem_singleton.1 ht, namedText, List.mem_append, List.mem_append] at hc
  have hopen : ∀ c ∈ "\x7b ".toList, c ∈ ['*', ' ', ',', '\x7b', '\x7d'] := by decide
  have hclose : ∀ c ∈ " \x7d".toList, c ∈ ['*', ' ', ',', '\x7b', '\x7d'] := by decide
  have hcomma : ∀ c ∈ ", ".toList, c ∈ ['*', ' ', ',', '\x7b', '\x7d'] := by decide
  rcases hc with (hc | hc) | hc
  · exact .inr (hopen c hc)
  · rcases mem_join hc with hc | ⟨t, ht, hc⟩
    · exact .inr (hcomma c hc)
    · obtain ⟨b, hb, rfl⟩ := List.mem_map.1 ht
      rcases (h.namedBindings b hb).of_mem_render hc with hident | rfl
      · exact .inl hident
      · exact .inr (by decide)
  · exact .inr (hclose c hc)

theorem spaced_clauseText (h : s.WritableNames) (hbinds : s.Binds) : Text.Spaced s.clauseText := by
  refine Text.Spaced.commas ?_ ?_
  · intro hnil
    rw [List.append_eq_nil_iff] at hnil
    obtain ⟨hheads, hnamed⟩ := hnil
    rw [headTexts, List.append_eq_nil_iff, Option.toList_eq_nil_iff, List.map_eq_nil_iff,
      Option.toList_eq_nil_iff] at hheads
    rcases hbinds with hbinds | hbinds | hbinds
    · simp [hheads.1] at hbinds
    · simp [hheads.2] at hbinds
    · simp [hbinds] at hnamed
  · intro t ht
    rcases List.mem_append.1 ht with ht | ht
    · exact (h.of_mem_headTexts ht).1
    · split at ht
      · cases ht
      · rename_i hnamed
        rw [List.mem_singleton.1 ht]
        have hinner : Text.Spaced
            (Text.join ", ".toList (s.namedBindings.map (·.render))) := by
          refine Text.Spaced.commas (by simpa using hnamed) ?_
          intro t ht
          obtain ⟨b, hb, rfl⟩ := List.mem_map.1 ht
          exact (h.namedBindings b hb).spaced_render
        have hbrace : ∀ d ∈ ['\x7b', '\x7d'], Text.Spaced [d] := by
          intro d hd
          have hblank : ∀ d ∈ ['\x7b', '\x7d'], Text.isBlank d = false := by decide
          refine .word ⟨by simp, ?_⟩
          intro c hc
          rw [List.mem_singleton.1 hc]
          exact hblank d hd
        have hall := (hbrace '\x7b' (by decide)).space (hinner.space (hbrace '\x7d' (by decide)))
        simpa [namedText] using hall

end ImportStatement

end ModuleSurface
