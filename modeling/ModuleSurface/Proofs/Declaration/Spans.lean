import ModuleSurface.Declaration.Classify
import ModuleSurface.Proofs.Statement.Places
import ModuleSurface.Proofs.Text.Search

/-!
# Where the declarations of a statement stand

A statement has at most one declaration over all of it, or one for each of its declarators.  The
declarators are looked for one after the other in the statement, and each is found behind the one in
front of it, because this is the order in which they were cut out (`InOrder`).  So the declarations
stand one behind the other in the statement: `spanned_classify`.
-/

namespace ModuleSurface.Lexing

/-- The pieces between cuts stand in the text one behind the other. -/
theorem inOrder_cutAt (position : Nat) (text : Text) (cuts : List Nat) :
    Text.InOrder text (cutAt position text cuts) := by
  induction cuts generalizing position text with
  | nil => exact ⟨[], [], by simp, trivial⟩
  | cons cut cuts ih =>
    refine ⟨[], text.drop (cut - position), by simp, ?_⟩
    have hdrop : text.drop (cut + 1 - position) <:+ text.drop (cut - position) := by
      have hlater : cut + 1 - position =
          cut - position + (cut + 1 - position - (cut - position)) := by omega
      rw [hlater, ← List.drop_drop]
      exact List.drop_suffix _ _
    exact (ih _ _).of_isInfix hdrop.isInfix

theorem inOrder_splitOutermost (text : Text) (isSeparator : Char → Bool) (angles : Bool) :
    Text.InOrder text (splitOutermost text isSeparator angles) :=
  ((inOrder_cutAt 0 text _).map Text.strip_isInfix).filter _

end ModuleSurface.Lexing

namespace ModuleSurface.Callable

theorem stripDecorators_suffix (t : Text) : stripDecorators t <:+ t := by
  fun_induction stripDecorators t with
  | case1 text h => exact List.nil_suffix
  | case2 text c rest h _ ih =>
    have hstrip := Text.stripLeft_suffix text
    rw [h] at hstrip
    exact (ih.trans (List.drop_suffix _ _)).trans hstrip
  | case3 text c rest h _ =>
    rw [← h]
    exact Text.stripLeft_suffix text

end ModuleSurface.Callable

namespace ModuleSurface

open ModuleSurface.Lexing
open ModuleSurface.Callable

/-- The offsets of a declaration. -/
def Declaration.span (d : Declaration) : Nat × Nat :=
  (d.start, d.stop)

/-- The declaration `d` is the part `d.raw` of the statement `raw` at the offset `start`. -/
def Declaration.PartOf (raw : Text) (start : Nat) (d : Declaration) : Prop :=
  ∃ a b, raw = a ++ (d.raw ++ b) ∧ d.start = start + a.length ∧ d.stop = d.start + d.raw.length

/-- The declarations of a finding stand one behind the other in the statement `raw` at the offset
`start`, and all but functions are what is written there. -/
structure Finding.Spanned (raw : Text) (start : Nat) (f : Finding) : Prop where
  /-- The declarations come in order. -/
  order : Successive start (start + raw.length) (f.declarations.map Declaration.span)
  /-- They are parts of the statement. -/
  part : ∀ d ∈ f.declarations, d.kind ≠ .function → d.PartOf raw start

namespace Finding.Spanned

variable {raw : Text} {start : Nat}

theorem empty : Spanned raw start {} :=
  ⟨.nil (Nat.le_add_right _ _), by simp⟩

theorem notice (n : Notice) : Spanned raw start (.notice n) :=
  ⟨.nil (Nat.le_add_right _ _), by simp [Finding.notice]⟩

theorem ite {c : Prop} [Decidable c] {f g : Finding} (hf : Spanned raw start f)
    (hg : Spanned raw start g) : Spanned raw start (if c then f else g) := by
  split
  · exact hf
  · exact hg

end Finding.Spanned

namespace Declaration

/-- The declaration has the place of the whole statement `raw` at the offset `start`, and its text
unless it is a function. -/
structure Whole (raw : Text) (start : Nat) (d : Declaration) : Prop where
  /-- The statement is not empty. -/
  ne_nil : raw ≠ []
  /-- The text of the statement. -/
  raw_eq : d.kind ≠ .function → d.raw = raw
  /-- Its first offset. -/
  start_eq : d.start = start
  /-- The offset behind it. -/
  stop_eq : d.stop = start + raw.length

variable {raw : Text} {start : Nat} {base : Declaration}

/-- A statement with one declaration over all of it. -/
theorem Whole.spanned {f : Finding} {d : Declaration} (h : d.Whole raw start)
    (hf : f.declarations = [d]) : f.Spanned raw start := by
  have hpos : 0 < raw.length := List.length_pos_iff.2 h.ne_nil
  refine ⟨?_, ?_⟩
  · rw [hf, List.map_singleton, span, h.start_eq, h.stop_eq]
    exact .cons (Nat.le_refl _) (by omega) (.nil (Nat.le_refl _))
  · intro e he hkind
    rw [hf, List.mem_singleton] at he
    subst he
    refine ⟨[], [], ?_, h.start_eq, ?_⟩
    · rw [h.raw_eq hkind]
      simp
    · rw [h.stop_eq, h.start_eq, h.raw_eq hkind]

/-- What else is known of a declaration does not matter. -/
theorem Whole.congr {d : Declaration} (h : base.Whole raw start) (hbase : base.kind = .exports)
    (hraw : d.kind ≠ .function → d.raw = base.raw) (hstart : d.start = base.start)
    (hstop : d.stop = base.stop) : d.Whole raw start where
  ne_nil := h.ne_nil
  raw_eq hkind := (hraw hkind).trans (h.raw_eq (by rw [hbase]; decide))
  start_eq := hstart.trans h.start_eq
  stop_eq := hstop.trans h.stop_eq

theorem Whole.one {d : Declaration} (h : base.Whole raw start) (hbase : base.kind = .exports)
    (hraw : d.kind ≠ .function → d.raw = base.raw) (hstart : d.start = base.start)
    (hstop : d.stop = base.stop) : (Finding.one d).Spanned raw start :=
  (h.congr hbase hraw hstart hstop).spanned rfl

/-! ## Declarations over a whole statement -/

theorem spanned_ofBlock (h : base.Whole raw start) (hbase : base.kind = .exports)
    (kind : DeclarationKind) (rest : Text) (modifiers : List Text) :
    (ofBlock kind rest modifiers base).Spanned raw start :=
  .ite (.notice _) (h.one hbase (fun _ => rfl) rfl rfl)

theorem spanned_ofModule (h : base.Whole raw start) (hbase : base.kind = .exports)
    (keyword rest : Text) : (ofModule keyword rest base).Spanned raw start :=
  .ite .empty (h.one hbase (fun _ => rfl) rfl rfl)

theorem spanned_ofTypeAlias (h : base.Whole raw start) (hbase : base.kind = .exports)
    (rest : Text) : (ofTypeAlias rest base).Spanned raw start := by
  simp only [ofTypeAlias]
  split
  · exact h.one hbase (fun _ => rfl) rfl rfl
  · exact .empty

theorem spanned_ofFunction (h : base.Whole raw start) (hbase : base.kind = .exports)
    (body : Text) : (ofFunction body base).Spanned raw start := by
  unfold ofFunction
  split
  · exact .notice _
  · exact h.one hbase (fun hkind => absurd rfl hkind) rfl rfl

theorem spanned_ofImport (h : base.Whole raw start) (hbase : base.kind = .exports)
    (rest : Text) : (ofImport rest base).Spanned raw start := by
  unfold ofImport
  refine .ite .empty ?_
  split
  · exact .notice _
  · rename_i s _
    exact Whole.spanned (d := { base with
      kind := .imports, isTypeOnly := s.isTypeOnly, source := some s.source })
      (h.congr hbase (fun _ => rfl) rfl rfl) rfl

/-! ## Variables -/

/-- A variable has the place and the text of what it is read from. -/
theorem place_ofDeclarator? {keyword declarator : Text} {d : Declaration}
    (h : ofDeclarator? keyword declarator base = some d) :
    d.raw = base.raw ∧ d.start = base.start ∧ d.stop = base.stop := by
  simp only [ofDeclarator?] at h
  split at h
  · cases h
  · cases h
    exact ⟨rfl, rfl, rfl⟩

/-- Declarators that stand behind `cursor` in order are found there, one behind the other. -/
theorem spanned_ofDeclarators (keyword : Text) (hraw : base.raw = raw) (hstart : base.start = start)
    {cursor : Nat} (hcursor : cursor ≤ raw.length) {declarators : List Text}
    (hne : ∀ d ∈ declarators, d ≠ []) (hin : Text.InOrder (raw.drop cursor) declarators) :
    Successive (start + cursor) (start + raw.length)
        ((ofDeclarators keyword base cursor declarators).declarations.map span) ∧
      ∀ d ∈ (ofDeclarators keyword base cursor declarators).declarations, d.PartOf raw start := by
  induction declarators generalizing base cursor with
  | nil =>
    refine ⟨.nil (by omega), ?_⟩
    intro d hd
    cases hd
  | cons declarator others ih =>
    obtain ⟨a, b, hdrop, hfind, hothers⟩ := hin.exists_find?
    have hpos : 0 < declarator.length :=
      List.length_pos_iff.2 (hne declarator List.mem_cons_self)
    have hlength := congrArg List.length hdrop
    simp only [List.length_drop, List.length_append] at hlength
    have hnext : raw.drop (cursor + a.length + declarator.length) = b := by
      rw [Nat.add_assoc, ← List.drop_drop, hdrop, ← List.append_assoc,
        List.drop_left' (List.length_append)]
    have hsplit : raw = (raw.take cursor ++ a) ++ (declarator ++ b) := by
      rw [List.append_assoc, ← hdrop, List.take_append_drop]
    have htake : (raw.take cursor ++ a).length = cursor + a.length := by
      rw [List.length_append, List.length_take]
      omega
    have hmax : max cursor (cursor + a.length + declarator.length) =
        cursor + a.length + declarator.length := by
      omega
    have hrest := fun base hraw hstart => @ih base hraw hstart
      (cursor + a.length + declarator.length) (by omega)
      (fun d hd => hne d (List.mem_cons_of_mem _ hd)) (by rwa [hnext])
    rw [← hraw] at hfind
    simp only [ofDeclarators, hfind, Option.map_some, Option.getD_some, hmax]
    cases hd : ofDeclarator? keyword declarator (base.movedTo declarator (cursor + a.length)) with
    | none =>
      obtain ⟨horder, hpart⟩ := hrest base hraw hstart
      exact ⟨horder.of_le (by omega), hpart⟩
    | some d =>
      obtain ⟨horder, hpart⟩ := hrest { base with doc := none } hraw hstart
      obtain ⟨hdraw, hdstart, hdstop⟩ := place_ofDeclarator? hd
      simp only [movedTo, hstart] at hdraw hdstart hdstop
      refine ⟨.cons ?_ ?_ ?_, ?_⟩
      · omega
      · omega
      · refine horder.of_le ?_
        omega
      · rintro e (_ | ⟨_, he⟩)
        · exact ⟨_, b, by rw [hdraw]; exact hsplit, by omega, by rw [hdraw]; omega⟩
        · exact hpart e he

theorem spanned_ofVariables (h : base.Whole raw start) (hbase : base.kind = .exports)
    (keyword : Text) {rest : Text} (hrest : rest <:+ raw) :
    (ofVariables keyword rest base).Spanned raw start := by
  have hne : base.kind ≠ .function := by
    rw [hbase]
    decide
  unfold ofVariables
  split
  · split
    · exact .notice _
    · rename_i d hd
      obtain ⟨hraw, hstart, hstop⟩ := place_ofDeclarator? hd
      exact h.one hbase (fun _ => hraw) hstart hstop
  · have hin : Text.InOrder (raw.drop 0) (splitTypedCommas (Text.stripSemicolon rest)) :=
      (inOrder_splitOutermost _ _ _).of_isInfix
        ((Text.stripSemicolon_isInfix rest).trans hrest.isInfix)
    have hpieces : ∀ d ∈ splitTypedCommas (Text.stripSemicolon rest), d ≠ [] := by
      intro d hd
      simpa using (List.mem_filter.1 hd).2
    obtain ⟨horder, hpart⟩ :=
      spanned_ofDeclarators keyword (h.raw_eq hne) h.start_eq (Nat.zero_le _) hpieces hin
    exact ⟨horder, fun d hd _ => hpart d hd⟩

/-! ## Statements -/

theorem spanned_ofKeyword (h : base.Whole raw start) (hbase : base.kind = .exports) {body : Text}
    (hbody : body <:+ raw) : (ofKeyword body base).Spanned raw start := by
  have hrest : Text.stripLeft (body.drop (readIdentifier body 0).2) <:+ raw :=
    ((Text.stripLeft_suffix _).trans (List.drop_suffix _ _)).trans hbody
  refine .ite (spanned_ofImport h hbase _) (.ite (h.one hbase (fun _ => rfl) rfl rfl) ?_)
  refine .ite (spanned_ofBlock h hbase _ _ _) (.ite (spanned_ofVariables h hbase _ hrest) ?_)
  refine .ite (spanned_ofFunction h hbase _) (.ite (spanned_ofBlock h hbase _ _ _) ?_)
  refine .ite (spanned_ofTypeAlias h hbase _) (.ite (spanned_ofBlock h hbase _ _ _) ?_)
  refine .ite (spanned_ofBlock h hbase _ _ _) (.ite (spanned_ofBlock h hbase _ _ _) ?_)
  exact .ite (spanned_ofModule h hbase _ _) (.notice _)

theorem dropKeyword?_suffix {word : String} {t r : Text} (h : dropKeyword? word t = some r) :
    r <:+ t := by
  unfold dropKeyword? at h
  split at h
  · cases h
    exact (Text.stripLeft_suffix _).trans (List.drop_suffix _ _)
  · cases h

theorem spanned_ofAmbient (h : base.Whole raw start) (hbase : base.kind = .exports) {body : Text}
    (hbody : body <:+ raw) : (ofAmbient body base).Spanned raw start := by
  unfold ofAmbient
  split
  · rename_i rest hrest
    have hwhole : Whole raw start { base with isAmbient := true } :=
      h.congr hbase (fun _ => rfl) rfl rfl
    exact spanned_ofKeyword hwhole hbase ((dropKeyword?_suffix hrest).trans hbody)
  · exact spanned_ofKeyword h hbase hbody

/-- **The declarations of a statement stand one behind the other in it.** -/
theorem spanned_classify (hraw : raw ≠ []) (start : Nat) (doc : Option Text) :
    (classify raw start doc).Spanned raw start := by
  have hwhole : ∀ exported default : Bool, Whole raw start
      { kind := .exports, raw := raw, doc := doc, start := start, stop := start + raw.length,
        isExported := exported, isDefault := default } :=
    fun _ _ => ⟨hraw, fun _ => rfl, rfl, rfl⟩
  have hbody : stripDecorators ((stripDecorators raw).drop 6) <:+ raw :=
    ((stripDecorators_suffix _).trans (List.drop_suffix _ _)).trans (stripDecorators_suffix raw)
  simp only [classify]
  refine .ite ?_ (spanned_ofAmbient (hwhole false false) rfl (stripDecorators_suffix raw))
  split
  · rename_i d hd
    unfold ofPassthrough? at hd
    simp only [Option.ite_none_right_eq_some, Option.some.injEq] at hd
    rw [← hd.2]
    exact (hwhole true false).one rfl (fun _ => rfl) rfl rfl
  · split
    · rename_i hrest
      exact spanned_ofAmbient (hwhole true true) rfl ((dropKeyword?_suffix hrest).trans hbody)
    · exact spanned_ofAmbient (hwhole true false) rfl hbody

end Declaration

end ModuleSurface
