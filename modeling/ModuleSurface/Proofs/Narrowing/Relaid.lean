import ModuleSurface.Narrowing.Descent
import ModuleSurface.Proofs.Lexing.Commented
import ModuleSurface.Proofs.Narrowing.Layouts

/-!
# Types of values in two layouts

A type can have parts of its value in it as they are written: the key of a property, and the return
type of a function without a body.  Everything else in a type is the same in every layout of the
value.  So where the type is a text with single spaces, the value written with single spaces has the
same type (`infer_single`).

Every rule of the inference has its lemma.  They are stated for any `typeOf` that keeps the types of
the values inside (`Settled`), and the induction is on the number of pieces.
-/

namespace ModuleSurface

namespace Text.Squeezed

theorem inner {a t b : Text} (h : Squeezed (a ++ t ++ b)) : Squeezed t :=
  h.of_isInfix ⟨a, b, rfl⟩

theorem front {t b : Text} (h : Squeezed (t ++ b)) : Squeezed t :=
  h.of_isInfix (List.prefix_append t b).isInfix

theorem back {a t : Text} (h : Squeezed (a ++ t)) : Squeezed t :=
  h.of_isInfix (List.suffix_append a t).isInfix

/-- A text is part of what it is joined to. -/
theorem of_join {sep t : Text} {ts : List Text} (h : Squeezed (join sep ts)) (ht : t ∈ ts) :
    Squeezed t := by
  induction ts with
  | nil => cases ht
  | cons u ts ih =>
    cases ts with
    | nil =>
      rw [List.mem_singleton.1 ht]
      simpa [join] using h
    | cons v ts =>
      have hcons : join sep (u :: v :: ts) = [] ++ u ++ (sep ++ join sep (v :: ts)) := by
        rw [join, List.intercalate_cons_cons, join]
        simp
      rw [hcons] at h
      rcases List.mem_cons.1 ht with rfl | ht
      · exact h.inner
      · exact ih h.back.back ht

end Text.Squeezed

namespace Spacing

open ModuleSurface.Lexing
open ModuleSurface.Callable
open ModuleSurface.Narrowing
open ModuleSurface.Text (Squeezed)

variable {l : Layout} {ps qs : List Piece} {typeOf : Typing}

/-! ## Squeezed texts -/

/-- A text with single spaces is the same in the layout with single spaces. -/
theorem render_single (h : Squeezed (render l ps)) : render single ps = render l ps := by
  refine List.flatMap_congr fun x hx => ?_
  cases x with
  | gap g =>
    have hin : (l g).1 <:+: render l ps :=
      List.infix_of_mem_flatten (List.mem_map.2 ⟨_, hx, rfl⟩)
    exact ((h.of_isInfix hin).eq_singleton (l g).2.1 (l g).2.2).symm
  | _ => rfl

/-- Where what is written for a return type has single spaces, both layouts have it. -/
theorem writtenOrUnknown_single {a b : Option Text} (hab : Option.Rel (Akin l single) a b)
    (h : Squeezed (writtenOrUnknown a)) : a = b := by
  cases hab with
  | none => rfl
  | @some a b hab =>
    rcases hab with rfl | ⟨qs, rfl, rfl⟩
    · rfl
    · cases hqs : render l qs with
      | nil =>
        rw [render_eq_nil_iff] at hqs
        rw [hqs]
        rfl
      | cons c t =>
        have hsqueezed : Squeezed (render l qs) := by
          rw [hqs] at h ⊢
          exact h
        rw [render_single hsqueezed, hqs]

theorem squeezed_of_annotatedReturn {a : Option Text} {isAsync : Bool}
    (h : Squeezed (annotatedReturn a isAsync)) : Squeezed (writtenOrUnknown a) := by
  simp only [annotatedReturn] at h
  split at h
  · exact h.inner
  · exact h

/-- The type of the value that is written by the pieces does not change in the layout with single
spaces, if it is a text with single spaces itself. -/
def Settled (typeOf : Typing) (l : Layout) (ps : List Piece) : Prop :=
  ∀ isConst, Squeezed (typeOf (render l ps) isConst).text →
    typeOf (render single ps) isConst = typeOf (render l ps) isConst

/-! ## Arrays -/

theorem text_isInfix_inUnion (t : InferredType) : t.text <:+: t.inUnion := by
  unfold InferredType.inUnion
  split
  · exact ⟨_, _, rfl⟩
  · exact List.infix_refl _

/-- The pieces between commas. -/
theorem exists_splitCommas (l : Layout) (ps : List Piece) :
    ∃ pss : List (List Piece), splitCommas (render l ps) = pss.map (render l) ∧
      splitCommas (render single ps) = pss.map (render single) ∧
      ∀ qs ∈ pss, qs <:+: ps ∧ Tight qs := by
  have hsep : ∀ c, (c == ',') = true → Visible c := fun c hc => by
    rw [beq_iff_eq.1 hc]
    decide
  exact exists_splitOutermost hsep l single ps false

/-- The types of the pieces between commas, one behind the other. -/
theorem map_splitCommas_single (hps : ∀ qs, qs <:+: ps → Settled typeOf l qs) {isConst : Bool}
    {sep : Text}
    (h : Squeezed (Text.join sep
      ((splitCommas (render l ps)).map fun e => (typeOf e isConst).text))) :
    (splitCommas (render single ps)).map (fun e => (typeOf e isConst).text) =
      (splitCommas (render l ps)).map fun e => (typeOf e isConst).text := by
  obtain ⟨pss, hl, hs, hpss⟩ := exists_splitCommas l ps
  simp only [hl, hs, List.map_map] at h ⊢
  refine List.map_congr_left fun qs hqs => ?_
  have htext := h.of_join (List.mem_map_of_mem hqs)
  simp only [Function.comp_apply]
  rw [hps qs (hpss qs hqs).1 isConst htext]

theorem ofArray_single (hps : ∀ qs, qs <:+: ps → Settled typeOf l qs) {isConst : Bool}
    (h : Squeezed (ofArray typeOf (render l ps) isConst).text) :
    ofArray typeOf (render single ps) isConst = ofArray typeOf (render l ps) isConst := by
  cases isConst with
  | true =>
    simp only [ofArray, if_true] at h ⊢
    rw [map_splitCommas_single hps h.inner]
  | false =>
    obtain ⟨pss, hl, hs, hpss⟩ := exists_splitCommas l ps
    have hempty : ∀ m : Layout, (pss.map (render m)).isEmpty = pss.isEmpty := by
      intro m
      cases pss <;> rfl
    simp only [ofArray, hl, hs, hempty, List.map_map, Bool.false_eq_true, if_false] at h ⊢
    split
    · rfl
    · rename_i hne
      rw [if_neg hne] at h
      congr 5
      refine List.map_congr_left fun qs hqs => ?_
      have hmember := h.inner.of_join (List.mem_eraseDups.2 (List.mem_map_of_mem hqs))
      have htext := hmember.of_isInfix (text_isInfix_inUnion _)
      simp only [Function.comp_apply]
      rw [hps qs (hpss qs hqs).1 false htext]

/-! ## Objects -/

theorem squeezed_of_quoted {t : Text} (h : Squeezed (quoted t)) : Squeezed t := by
  have hescaped := h.inner
  refine ⟨fun c hc hblank => hescaped.1 c (List.mem_flatMap.2 ⟨c, hc, ?_⟩) hblank, ?_⟩
  · split <;> simp
  · rintro ⟨a, b, rfl⟩
    rw [List.flatMap_append, List.flatMap_append] at hescaped
    exact hescaped.2 ⟨_, _, rfl⟩

theorem isDigit_of_isBlank {c : Char} (h : Text.isBlank c = true) : Text.isDigit c = false :=
  Text.eq_false_of_isBlank (by decide +kernel) h

theorem all_isDigit_single (hps : Tight ps) (l : Layout) :
    (render single ps).all Text.isDigit = (render l ps).all Text.isDigit := by
  have hnone : ∀ t : Text, (∃ c ∈ t, Text.isBlank c = true) → t.all Text.isDigit = false := by
    rintro t ⟨c, hc, hblank⟩
    exact List.all_eq_false.2 ⟨c, hc, by simp [isDigit_of_isBlank hblank]⟩
  exact congr_of_blank (fun t _ => hnone t) hps single l

/-- **The key of a property**, if what is kept of it has single spaces. -/
theorem propertyKey?_single (h : ∀ k ∈ propertyKey? (render l ps), Squeezed k) :
    propertyKey? (render single ps) = propertyKey? (render l ps) := by
  have hkey : ∀ key, propertyKey? key =
      if Text.strip key = [] ∨ (Text.strip key).head? = some '[' then none
      else if (Text.strip key).head?.any (fun c => c == '\'' || c == '"') ||
          Text.isIdentifier (Text.strip key) || (Text.strip key).all Text.isDigit then
        some (Text.strip key)
      else some (quoted (Text.strip key)) := by
    intro key
    rw [propertyKey?]
    cases Text.strip key with
    | nil => rfl
    | cons c t => simp
  have htight := tight_strip ps
  simp only [hkey, strip_render] at h ⊢
  generalize strip ps = qs at h htight ⊢
  have hhead : (render single qs).head? = (render l qs).head? := by
    cases qs with
    | nil => rfl
    | cons x qs =>
      obtain ⟨c, r, d, s, htext, -⟩ := x.exists_ends l
      rw [render_cons, render_cons, Piece.text_congr (htight.1 x rfl) single l, htext]
      rfl
  simp only [render_eq_nil_iff, hhead, isIdentifier_render htight single l,
    all_isDigit_single htight l] at h ⊢
  split
  · rfl
  · rename_i hnone
    rw [if_neg hnone] at h
    split
    · rename_i hkept
      rw [if_pos hkept] at h
      rw [render_single (h _ rfl)]
    · rename_i hkept
      rw [if_neg hkept] at h
      rw [render_single (squeezed_of_quoted (h _ rfl))]

theorem ofSignature_single {s t : Signature} (hst : SignatureAlike l single s t) {isAsync : Bool}
    (h : Squeezed (ofSignature typeOf s isAsync).text) :
    ofSignature typeOf t isAsync = ofSignature typeOf s isAsync := by
  obtain ⟨pss, hs, ht⟩ := hst.parameters
  have hreturn := writtenOrUnknown_single hst.returnType (squeezed_of_annotatedReturn h.back)
  rw [ofSignature, ofSignature, hs, ht, renderParameters_render _ single l, hst.generics, hreturn]

/-- **The type of a method.** -/
theorem methodType?_single (m : ObjectMethod × List Piece)
    (h : ∀ t ∈ methodType? typeOf (methodAt l m), Squeezed t) :
    methodType? typeOf (methodAt single m) = methodType? typeOf (methodAt l m) := by
  have hread := exists_readAt l single (m.2.dropWhile Piece.isGap) 0
  simp only [offset_zero] at hread
  simp only [methodType?, methodAt, stripLeft_render] at h ⊢
  generalize Signature.readAt (render l (m.2.dropWhile Piece.isGap)) 0 = a at h hread ⊢
  generalize Signature.readAt (render single (m.2.dropWhile Piece.isGap)) 0 = b at hread ⊢
  cases hread with
  | none => rfl
  | some hst =>
    cases haccessor : m.1.accessor with
    | none =>
      simp only [haccessor] at h ⊢
      rw [ofSignature_single hst (h _ rfl)]
    | some accessor =>
      cases accessor with
      | setter => rfl
      | getter =>
        simp only [haccessor] at h ⊢
        rw [writtenOrUnknown_single hst.returnType (h _ rfl)]

/-- **The entry for a property.** -/
theorem entryOf?_single (hps : ∀ qs, qs <:+: ps → Settled typeOf l qs) (htight : Tight ps)
    (hunkeyed : ∀ x, Piece.literal x ∈ ps → Unkeyed x) {isConst : Bool}
    (h : ∀ t ∈ entryOf? typeOf isConst (render l ps), Squeezed t) :
    entryOf? typeOf isConst (render single ps) = entryOf? typeOf isConst (render l ps) := by
  have hdots : ∀ c ∈ "...".toList, Visible c := by decide
  have hcolon : ∀ c ∈ ":".toList, Visible c := by decide
  obtain ⟨method, hmethod⟩ := readAlike_parse? hunkeyed
  obtain ⟨o, hl, hs, ho⟩ := exists_findOutermost? hcolon l single ps false
  have hl : findOutermost? (render l ps) ":".toList 0 false = _ := hl
  have hs : findOutermost? (render single ps) ":".toList 0 false = _ := hs
  simp only [entryOf?, isPrefixOf_render hdots, hmethod, hl, hs] at h ⊢
  split
  · rfl
  rename_i hspread
  rw [if_neg hspread] at h
  cases method with
  | some m =>
    simp only [Option.map_some] at h ⊢
    rw [methodType?_single m fun t ht => (h _ (Option.mem_map_of_mem _ ht)).back]
    rfl
  | none =>
    cases o with
    | none =>
      simp only [Option.map_none, isIdentifier_render htight single l] at h ⊢
      split
      · rename_i hident
        rw [if_pos hident] at h
        rw [render_single (h _ rfl).front]
      · rfl
    | some n =>
      have hbehind : ∀ m : Layout, (render m ps).drop (offset m ps n + 1) =
          render m (ps.drop (n + 1)) := by
        intro m
        have hhead : (lead (ps.drop n)).head? = some ':' := by
          obtain ⟨r, hr⟩ := ho n rfl
          rw [← hr]
          rfl
        rw [← offset_succ hhead, drop_offset]
      simp only [Option.map_some, Option.map_none, take_offset, hbehind] at h ⊢
      rw [propertyKey?_single fun k hk => (h _ (Option.mem_map_of_mem _ hk)).front.front]
      cases hkey : propertyKey? (render l (ps.take n)) with
      | none => rfl
      | some key =>
        have hentry := h _ (Option.mem_map_of_mem _ hkey)
        rw [hps _ (List.drop_suffix _ _).isInfix isConst hentry.back]

theorem ofObject_single (hps : ∀ qs, qs <:+: ps → Settled typeOf l qs)
    (hunkeyed : ∀ x, Piece.literal x ∈ ps → Unkeyed x) {isConst : Bool}
    (h : Squeezed (ofObject typeOf (render l ps) isConst).text) :
    ofObject typeOf (render single ps) isConst = ofObject typeOf (render l ps) isConst := by
  obtain ⟨pss, hl, hs, hpss⟩ := exists_splitCommas l ps
  have hentries : ∀ t ∈ (pss.map (render l)).filterMap (entryOf? typeOf isConst), Squeezed t := by
    intro t ht
    simp only [ofObject, hl] at h
    split at h
    · rename_i hempty
      rw [List.isEmpty_iff.1 hempty] at ht
      cases ht
    · exact h.inner.of_join ht
  have hsame : (pss.map (render single)).filterMap (entryOf? typeOf isConst) =
      (pss.map (render l)).filterMap (entryOf? typeOf isConst) := by
    rw [List.filterMap_map, List.filterMap_map]
    refine List.filterMap_congr fun qs hqs => ?_
    obtain ⟨hin, htight⟩ := hpss qs hqs
    refine entryOf?_single (fun rs hrs => hps rs (hrs.trans hin)) htight
      (unkeyed_of_isInfix hunkeyed hin) fun t ht => hentries t ?_
    exact List.mem_filterMap.2 ⟨_, List.mem_map_of_mem hqs, ht⟩
  simp only [ofObject, hl, hs, hsame]

/-! ## Functions -/

/-- What is read of an arrow function in front of its arrow: its parameters, and the pieces behind
them. -/
def arrowAt (l : Layout) (p : List (List Piece) × List Piece) : List Text × Text :=
  (p.1.map (render l), render l p.2)

/-- **The parameters of an arrow function are read alike.** -/
theorem exists_arrowParameters? (l m : Layout) (ps : List Piece) (n : Nat) :
    ∃ o : Option (List (List Piece) × List Piece),
      arrowParameters? (render l ps) (offset l ps n) = o.map (arrowAt l) ∧
        arrowParameters? (render m ps) (offset m ps n) = o.map (arrowAt m) ∧
          ∀ p ∈ o, p.2 <:+: ps := by
  have hround : Visible '(' := by decide
  simp only [arrowParameters?, getElem?_render_beq hround]
  cases hhead : (lead (ps.drop n)).head? == some '(' with
  | true =>
    have hopen := beq_iff_eq.1 hhead
    obtain ⟨o, hl, hm, ho⟩ := exists_matching?_bracket (b := .round) hopen l m
    simp only [if_true, hl, hm]
    cases o with
    | none => exact ⟨none, rfl, rfl, by simp⟩
    | some k =>
      have hclose := ho k rfl
      have hsep : ∀ c, (c == ',') = true → Visible c := fun c hc => by
        rw [beq_iff_eq.1 hc]
        decide
      obtain ⟨pss, hpl, hpm, -⟩ := exists_splitOutermost hsep l m ((ps.take k).drop (n + 1)) true
      refine ⟨some (pss, ps.drop (k + 1)), ?_, ?_, fun p hp => ?_⟩
      · simp only [Option.map_some, ← offset_succ hopen, ← offset_succ hclose, slice_offset,
          drop_offset, splitTypedCommas, hpl]
        rfl
      · simp only [Option.map_some, ← offset_succ hopen, ← offset_succ hclose, slice_offset,
          drop_offset, splitTypedCommas, hpm]
        rfl
      · rw [← Option.some.inj hp]
        exact (List.drop_suffix _ _).isInfix
  | false =>
    simp only [Bool.false_eq_true, if_false, readIdentifier_render, drop_offset]
    cases hname : (readName ps n).1.isEmpty with
    | true => exact ⟨none, rfl, rfl, by simp⟩
    | false =>
      have hwritten : ∀ l : Layout, render l ((ps.drop (skipGaps ps n)).take
          (readName ps n).1.length) = (readName ps n).1 := by
        intro l
        have hpre := List.takeWhile_prefix Text.isIdentChar (l := lead (ps.drop (skipGaps ps n)))
        rw [readName, render_take_lead l hpre.length_le]
        exact (List.prefix_iff_eq_take.1 hpre).symm
      refine ⟨some ([(ps.drop (skipGaps ps n)).take (readName ps n).1.length],
        ps.drop (readName ps n).2), ?_, ?_, fun p hp => ?_⟩
      · simp [arrowAt, hwritten]
      · simp [arrowAt, hwritten]
      · rw [← Option.some.inj hp]
        exact (List.drop_suffix _ _).isInfix

theorem squeezed_of_writtenOrUnknown {t : Text} (h : Squeezed (writtenOrUnknown (some t))) :
    Squeezed t := by
  cases t with
  | nil => decide
  | cons c t => exact h

/-- **The return type of an arrow function.** -/
theorem arrowReturn_single {head body : List Piece} (hbody : Settled typeOf l body)
    {isAsync : Bool}
    (h : Squeezed (arrowReturn typeOf (render l head) (render l body) isAsync)) :
    arrowReturn typeOf (render single head) (render single body) isAsync =
      arrowReturn typeOf (render l head) (render l body) isAsync := by
  have hbrace : Visible '{' := by decide
  have hwritten : ∀ m : Layout, ((render m head).head? == some ':' &&
      !(Text.strip ((render m head).drop 1)).isEmpty) =
        ((lead head).head? == some ':' && !(strip (head.drop 1)).isEmpty) := by
    intro m
    rw [head?_render_beq (by decide)]
    cases hhead : (lead head).head? == some ':' with
    | false => rfl
    | true =>
      rw [drop_lead m (length_lead_pos (beq_iff_eq.1 hhead)), strip_render, isEmpty_render]
  simp only [arrowReturn, hwritten, head?_render_beq hbrace] at h ⊢
  split
  · rename_i htyped
    obtain ⟨hhead, -⟩ := Bool.and_eq_true_iff.1 htyped
    have hlead := length_lead_pos (beq_iff_eq.1 hhead)
    rw [drop_lead _ hlead, drop_lead _ hlead, strip_render, strip_render, collapse_render single l]
  · rename_i hbare
    rw [if_neg hbare] at h
    split
    · rfl
    · rename_i hvalue
      rw [if_neg hvalue] at h
      have htext : Squeezed (typeOf (render l body) false).text := by
        split at h
        · exact squeezed_of_writtenOrUnknown h.inner
        · exact squeezed_of_writtenOrUnknown h
      rw [hbody false htext]

/-- **The type of an arrow function.** -/
theorem ofArrow_single
    (hps : ∀ qs, qs <:+: ps → qs.length < ps.length → Settled typeOf l qs) {isAsync : Bool}
    (h : Squeezed (ofArrow typeOf (render l ps) isAsync).text) :
    ofArrow typeOf (render single ps) isAsync = ofArrow typeOf (render l ps) isAsync := by
  have harrow : ∀ c ∈ "=>".toList, Visible c := by decide
  obtain ⟨generics, k, hl, hs⟩ := exists_readGenerics l single ps 0
  obtain ⟨o, hol, hos, ho⟩ := exists_arrowParameters? l single ps (skipGaps ps k)
  rw [offset_zero] at hl hs
  simp only [ofArrow, hl, hs, skipBlank_render, hol, hos] at h ⊢
  cases o with
  | none => rfl
  | some p =>
    obtain ⟨pss, after⟩ := p
    have hafter : after <:+: ps := ho _ rfl
    obtain ⟨o, hl, hs, ho⟩ := exists_findOutermost? harrow l single after true
    have hl : findOutermost? (render l after) "=>".toList 0 true = _ := hl
    have hs : findOutermost? (render single after) "=>".toList 0 true = _ := hs
    simp only [Option.map_some, arrowAt, hl, hs] at h ⊢
    cases o with
    | none => rfl
    | some n =>
      have hprefix := ho n rfl
      have hlead : 2 ≤ (lead (after.drop n)).length := hprefix.length_le
      have hbehind : ∀ m : Layout, (render m after).drop (offset m after n + 2) =
          render m (after.drop (n + 2)) := by
        intro m
        rw [← List.drop_drop, drop_offset, drop_lead m hlead, List.drop_drop]
      have hlength : (strip (after.drop (n + 2))).length < ps.length := by
        have hstrip := (strip_isInfix (after.drop (n + 2))).length_le
        have hle := hafter.length_le
        have hlt := lt_length_of_prefix hprefix
        rw [List.length_drop] at hstrip
        omega
      have hin := (strip_isInfix (after.drop (n + 2))).trans
        ((List.drop_suffix _ _).isInfix.trans hafter)
      simp only [Option.map_some, take_offset, hbehind, strip_render] at h ⊢
      rw [renderParameters_render _ single l, arrowReturn_single (hps _ hin hlength) h.back]

/-- **The type of a function.** -/
theorem ofFunction_single
    (hps : ∀ qs, qs <:+: ps → qs.length < ps.length → Settled typeOf l qs)
    (h : Squeezed (ofFunction typeOf (render l ps)).text) :
    ofFunction typeOf (render single ps) = ofFunction typeOf (render l ps) := by
  have hfunction : ∀ c ∈ "function".toList, Visible c := by decide
  have hasync : ∀ m : Layout, (afterAsync? (render m ps)).isSome =
      (restAfter? "async".toList ps).isSome := by
    intro m
    rw [(afterAsync?_render m ps).1, Option.isSome_map]
  simp only [ofFunction, hasync, (afterAsync?_render _ ps).2, isPrefixOf_render hfunction] at h ⊢
  split
  · rename_i hkeyword
    rw [if_pos hkeyword] at h
    have hread := exists_parseFunction? l single (behindAsync ps)
    generalize Signature.parseFunction? (render l (behindAsync ps)) = a at h hread ⊢
    generalize Signature.parseFunction? (render single (behindAsync ps)) = b at hread ⊢
    cases hread with
    | none => rfl
    | some hst => exact ofSignature_single hst h
  · rename_i hkeyword
    rw [if_neg hkeyword] at h
    have hin := behindAsync_isInfix ps
    exact ofArrow_single (fun qs hqs hlt => hps qs (hqs.trans hin)
      (Nat.lt_of_lt_of_le hlt hin.length_le)) h

/-! ## Constructors and calls -/

theorem ofConstructor_single (l : Layout) (ps : List Piece) :
    ofConstructor (render single ps) = ofConstructor (render l ps) := by
  obtain ⟨name, k, hl, hs⟩ := exists_readDotted l single ps 0
  obtain ⟨generics, n, hgl, hgs⟩ := exists_readGenerics l single ps k
  rw [offset_zero] at hl hs
  simp only [ofConstructor, hl, hs, hgl, hgs]

/-- **The type of a promise.** -/
theorem ofPromise_single
    (hps : ∀ qs, qs <:+: ps → qs.length < ps.length → Settled typeOf l qs)
    (h : Squeezed (ofPromise typeOf (render l ps)).text) :
    ofPromise typeOf (render single ps) = ofPromise typeOf (render l ps) := by
  have hresolve : ∀ c ∈ "Promise.resolve".toList, Visible c := by decide
  have hreject : ∀ c ∈ "Promise.reject".toList, Visible c := by decide
  have hall : ∀ c ∈ "Promise.all".toList, Visible c := by decide
  obtain ⟨resolved, hl, hs, hresolved⟩ := callArguments?_render hresolve l single ps
  obtain ⟨rejected, hrl, hrs, -⟩ := callArguments?_render hreject l single ps
  obtain ⟨all, hal, has, hall⟩ := callArguments?_render hall l single ps
  simp only [ofPromise, hl, hs, hrl, hrs, hal, has, Option.isSome_map] at h ⊢
  cases resolved with
  | some value =>
    obtain ⟨hin, hlt⟩ := hresolved _ rfl
    simp only [Option.map_some, isBlankText_render] at h ⊢
    split
    · rfl
    · rename_i hvalue
      rw [if_neg hvalue] at h
      rw [hps value hin hlt false h.inner]
  | none =>
    simp only [Option.map_none] at h ⊢
    split
    · rfl
    · rename_i hrejected
      rw [if_neg hrejected] at h
      cases all with
      | none => rfl
      | some values =>
        obtain ⟨hin, hlt⟩ := hall _ rfl
        simp only [Option.map_some, strip_render] at h ⊢
        have hstrip := strip_isInfix values
        generalize strip values = list at h hstrip ⊢
        have hbracketed := isBracketed_congr l single list .square
        have hopener : Bracket.square.opener = '[' := rfl
        rw [hopener] at hbracketed
        rw [← hbracketed]
        split
        · rename_i hlist
          rw [if_pos hlist] at h
          rw [inner_render (b := .square) hlist] at h ⊢
          rw [inner_render (b := .square) hlist]
          rw [map_splitCommas_single ?_ h.inner.inner]
          intro qs hqs
          have hinner : (list.drop 1).dropLast <:+: list :=
            (List.dropLast_prefix _).isInfix.trans (List.drop_suffix _ _).isInfix
          have hvalues := (hqs.trans hinner).trans hstrip
          exact hps qs (hvalues.trans hin) (Nat.lt_of_le_of_lt hvalues.length_le hlt)
        · rfl

/-! ## All rules -/

/-- The pieces inside brackets. -/
theorem isInfix_inner {b : Bracket} (h : isBracketed (render l ps) b.opener = true) :
    (ps.drop 1).dropLast <:+: ps ∧ (ps.drop 1).dropLast.length < ps.length := by
  obtain ⟨hlead, -⟩ := isSome_of_isBracketed h
  refine ⟨(List.dropLast_prefix _).isInfix.trans (List.drop_suffix _ _).isInfix, ?_⟩
  have hne : ps ≠ [] := by
    rintro rfl
    simp [lead] at hlead
  have hpos := List.length_pos_iff.2 hne
  rw [List.length_dropLast, List.length_drop]
  omega

/-- A rule for the text inside brackets. -/
theorem bracketed_single {b : Bracket} (hb : isBracketed (render l ps) b.opener = true)
    {f : Text → InferredType} (h : Squeezed (f ((render l ps).drop 1).dropLast).text)
    (hf : Squeezed (f (render l (ps.drop 1).dropLast)).text →
      f (render single (ps.drop 1).dropLast) = f (render l (ps.drop 1).dropLast)) :
    f ((render single ps).drop 1).dropLast = f ((render l ps).drop 1).dropLast := by
  rw [inner_render hb] at h ⊢
  rw [inner_render hb, hf h]

/-- **The type of what is neither a function, an assertion nor a literal.** -/
theorem ofPrimary_single
    (hps : ∀ qs, qs <:+: ps → qs.length < ps.length → Settled typeOf l qs)
    (hunkeyed : ∀ x, Piece.literal x ∈ ps → Unkeyed x) {isConst : Bool}
    (h : Squeezed (ofPrimary typeOf (render l ps) isConst).text) :
    ofPrimary typeOf (render single ps) isConst = ofPrimary typeOf (render l ps) isConst := by
  have hnew : ∀ c ∈ "new".toList, Visible c := by decide
  have hpromise : ∀ c ∈ "Promise.".toList, Visible c := by decide
  have hsymbol : ∀ c ∈ "Symbol(".toList, Visible c := by decide
  have hfor : ∀ c ∈ "Symbol.for(".toList, Visible c := by decide
  have hsquare := isBracketed_congr single l ps .square
  have hbrace := isBracketed_congr single l ps .brace
  have hround := isBracketed_congr single l ps .round
  have hlast : ∀ m : Layout, ((render m ps).getLast? == some ')') =
      (ps.getLast?.bind Piece.char?).any (· == ')') := by
    intro m
    rw [← any_getLast?_render (p := (· == ')')) (fun c hc => by rw [beq_iff_eq.1 hc]; decide) m ps]
    cases (render m ps).getLast? <;> rfl
  have hinner : ∀ {b : Bracket}, isBracketed (render l ps) b.opener = true →
      ∀ qs, qs <:+: (ps.drop 1).dropLast → Settled typeOf l qs := by
    intro b hb qs hqs
    obtain ⟨hin, hlt⟩ := isInfix_inner hb
    exact hps qs (hqs.trans hin) (Nat.lt_of_le_of_lt hqs.length_le hlt)
  simp only [Bracket.opener] at hsquare hbrace hround
  simp only [ofPrimary, hsquare, hbrace, hround, afterWord?_render hnew,
    isPrefixOf_render hpromise, Text.startsWithAny, List.any_cons, List.any_nil,
    isPrefixOf_render hsymbol, isPrefixOf_render hfor, hlast] at h ⊢
  by_cases hb : isBracketed (render l ps) '[' = true
  · simp only [if_pos hb] at h ⊢
    exact bracketed_single (b := .square) (f := fun t => ofArray typeOf t isConst) hb h
      (ofArray_single (hinner (b := .square) hb))
  simp only [if_neg hb] at h ⊢
  by_cases hb : isBracketed (render l ps) '{' = true
  · simp only [if_pos hb] at h ⊢
    exact bracketed_single (b := .brace) (f := fun t => ofObject typeOf t isConst) hb h
      (ofObject_single (hinner (b := .brace) hb)
        (unkeyed_of_isInfix hunkeyed (isInfix_inner (b := .brace) hb).1))
  simp only [if_neg hb] at h ⊢
  by_cases hb : isBracketed (render l ps) '(' = true
  · simp only [if_pos hb] at h ⊢
    exact bracketed_single (b := .round) (f := fun t => typeOf t isConst) hb h
      (hinner (b := .round) hb _ (List.infix_refl _) isConst)
  simp only [if_neg hb] at h ⊢
  cases hrest : restAfter? "new".toList ps with
  | some rest => exact ofConstructor_single l rest
  | none =>
    simp only [hrest, Option.map_none] at h ⊢
    split
    · rename_i hmember
      rw [if_pos hmember] at h
      exact ofPromise_single hps h
    · rfl

/-- **The type of an expression.** -/
theorem ofExpression_single (hregular : Regular l ps) (htight : Tight ps)
    (hps : ∀ qs, qs <:+: ps → qs.length < ps.length → Settled typeOf l qs) {isConst : Bool}
    (h : Squeezed (ofExpression typeOf (render l ps) isConst).text) :
    ofExpression typeOf (render single ps) isConst = ofExpression typeOf (render l ps) isConst := by
  simp only [ofExpression, isFunctionExpression_single hregular] at h ⊢
  split
  · rename_i hfunction
    rw [if_pos hfunction] at h
    exact ofFunction_single hps h
  rename_i hfunction
  rw [if_neg hfunction] at h
  rcases exists_assertion? l single ps with ⟨hl, hs⟩ | ⟨vs, word, target, hl, hs, hin, hlt⟩
  · simp only [hl, hs, ofLiteral?_render htight single l] at h ⊢
    cases hliteral : ofLiteral? (render l ps) isConst with
    | some t => rfl
    | none =>
      rw [hliteral] at h
      exact ofPrimary_single hps hregular.quotes h
  · simp only [hl, hs] at h ⊢
    split
    · rename_i hconst
      rw [if_pos hconst] at h
      exact hps vs hin hlt true h
    · rfl

/-- **The layout with single spaces has the same type**, if that is a text with single spaces. -/
theorem infer_single (hregular : Regular l ps) (isConst : Bool)
    (h : Squeezed (infer (render l ps) isConst).text) :
    infer (render single ps) isConst = infer (render l ps) isConst := by
  induction hn : ps.length using Nat.strong_induction_on generalizing ps isConst with
  | _ n ih =>
    have hin := stripSemicolon_isInfix ps
    simp only [infer_eq, layer, stripComments_render, stripSemicolon_render, isEmpty_render] at h ⊢
    split
    · rfl
    · rename_i hne
      rw [if_neg hne] at h
      refine ofExpression_single (hregular.of_isInfix hin) (tight_stripSemicolon ps) ?_ h
      intro qs hqs hlt isConst hsqueezed
      exact ih qs.length (hn ▸ Nat.lt_of_lt_of_le hlt hin.length_le)
        (hregular.of_isInfix (hqs.trans hin)) isConst hsqueezed rfl

/-! ## Values with comments -/

theorem infer_of_stripComments {t u : Text} (h : stripComments t = u) (hu : stripComments u = u)
    (isConst : Bool) : infer t isConst = infer u isConst := by
  simp only [infer_eq, layer, h, hu]

/-- **Collapsing the white space of a value keeps its type**, if that is a text with single spaces:
newlines and block comments between the pieces of the value make no difference. -/
theorem infer_collapse {fs : List Fragment} (hfs : Neat fs) (hregular : Regular id (pieces fs))
    (isConst : Bool) (h : Squeezed (infer (source fs) isConst).text) :
    infer (Text.collapse (source fs)) isConst = infer (source fs) isConst := by
  have hstrip := stripComments_render id (pieces fs)
  rw [infer_of_stripComments (stripComments_source fs) hstrip] at h ⊢
  rw [infer_of_stripComments (stripComments_collapse hfs) (stripComments_render single _)]
  exact infer_single hregular isConst h

end Spacing

end ModuleSurface
