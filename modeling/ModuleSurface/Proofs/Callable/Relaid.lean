import ModuleSurface.Callable.Parameter
import ModuleSurface.Callable.Signature
import ModuleSurface.Proofs.Lexing.Relaid

/-!
# Headers in two layouts

A reader that begins at a place between pieces reads the same in every layout and ends at the same
place.  White space inside what is read is collapsed, or it is kept: a return type without a body
behind it is kept as it is written (`Akin`), and so are parameters until they are parsed.

* `readIdentifier_render`, `exists_readDotted`, `exists_readGenerics` — the parts of a header;
* `exists_readAt`, `exists_parseFunction?` — signatures (`SignatureAlike`);
* `parse_render` — a parameter, of which the layout is lost.
-/

namespace ModuleSurface.Spacing

open ModuleSurface.Lexing
open ModuleSurface.Callable

variable {l m : Layout} {ps qs : List Piece}

/-! ## White space and words -/

/-- The place behind the gaps at a place. -/
def skipGaps (ps : List Piece) (n : Nat) : Nat :=
  n + ((ps.drop n).takeWhile Piece.isGap).length

theorem skipBlank_render (l : Layout) (ps : List Piece) (n : Nat) :
    skipBlank (render l ps) (offset l ps n) = offset l ps (skipGaps ps n) := by
  have htake := List.prefix_iff_eq_take.1 (List.takeWhile_prefix Piece.isGap (l := ps.drop n))
  rw [skipBlank, drop_offset, (dropWhile_render l _).2, skipGaps, offset_add, offset, offset,
    ← htake]

/-- The identifier at a place, behind gaps, and the place behind it. -/
def readName (ps : List Piece) (n : Nat) : Text × Nat :=
  let name := (lead (ps.drop (skipGaps ps n))).takeWhile Text.isIdentChar
  (name, skipGaps ps n + name.length)

theorem readIdentifier_render (l : Layout) (ps : List Piece) (n : Nat) :
    readIdentifier (render l ps) (offset l ps n) =
      ((readName ps n).1, offset l ps (readName ps n).2) := by
  have htake := takeWhile_render (p := Text.isIdentChar) (fun _ => visible_of_isIdentChar) l
    (ps.drop (skipGaps ps n))
  have hle := (List.takeWhile_prefix Text.isIdentChar
    (l := lead (ps.drop (skipGaps ps n)))).length_le
  simp only [readIdentifier, readName, skipBlank_render, drop_offset, htake, offset_add,
    offset_lead l hle]

theorem le_readName (ps : List Piece) (n : Nat) : n ≤ (readName ps n).2 := by
  simp only [readName, skipGaps]
  omega

/-- A visible character stands at a place, or it does not, in every layout. -/
theorem getElem?_render_beq {c : Char} (hc : Visible c) (l : Layout) (ps : List Piece) (n : Nat) :
    ((render l ps)[offset l ps n]? == some c) = ((lead (ps.drop n)).head? == some c) := by
  rw [getElem?_offset, head?_render_beq hc]

/-- **The members of a dotted name are read alike.** -/
theorem exists_readMembers (l m : Layout) (ps : List Piece) (n : Nat) :
    ∃ name k, readMembers (render l ps) (offset l ps n) = (name, offset l ps k) ∧
      readMembers (render m ps) (offset m ps n) = (name, offset m ps k) := by
  induction hd : ps.length - n using Nat.strong_induction_on generalizing n with
  | _ d ih =>
    have hdot : Visible '.' := by decide
    have hat : ∀ l : Layout, (render l ps)[offset l ps n]? = some '.' ↔
        (lead (ps.drop n)).head? = some '.' := by
      intro l
      rw [← beq_iff_eq, getElem?_render_beq hdot, beq_iff_eq]
    by_cases hhead : (lead (ps.drop n)).head? = some '.'
    · have hlt := lt_length_of_lead hhead
      have hle := le_readName ps (n + 1)
      obtain ⟨name, k, hl, hm⟩ := ih (ps.length - (readName ps (n + 1)).2) (by omega)
        (readName ps (n + 1)).2 rfl
      refine ⟨'.' :: (readName ps (n + 1)).1 ++ name, k, ?_, ?_⟩
      · rw [readMembers, dif_pos ((hat l).2 hhead), ← offset_succ hhead, readIdentifier_render]
        simp only [hl]
      · rw [readMembers, dif_pos ((hat m).2 hhead), ← offset_succ hhead, readIdentifier_render]
        simp only [hm]
    · refine ⟨[], n, ?_, ?_⟩
      · rw [readMembers, dif_neg (mt (hat l).1 hhead)]
      · rw [readMembers, dif_neg (mt (hat m).1 hhead)]

theorem exists_readDotted (l m : Layout) (ps : List Piece) (n : Nat) :
    ∃ name k, readDotted (render l ps) (offset l ps n) = (name, offset l ps k) ∧
      readDotted (render m ps) (offset m ps n) = (name, offset m ps k) := by
  obtain ⟨name, k, hl, hm⟩ := exists_readMembers l m ps (readName ps n).2
  refine ⟨(readName ps n).1 ++ name, k, ?_, ?_⟩
  · rw [readDotted, readIdentifier_render, hl]
  · rw [readDotted, readIdentifier_render, hm]

/-- **Type parameters are read alike.**  Their white space is collapsed. -/
theorem exists_readGenerics (l m : Layout) (ps : List Piece) (n : Nat) :
    ∃ generics k, readGenerics (render l ps) (offset l ps n) = (generics, offset l ps k) ∧
      readGenerics (render m ps) (offset m ps n) = (generics, offset m ps k) := by
  have hangle : Visible '<' := by decide
  simp only [readGenerics, skipBlank_render, getElem?_render_beq hangle]
  cases hhead : (lead (ps.drop (skipGaps ps n))).head? == some '<' with
  | false => exact ⟨none, skipGaps ps n, rfl, rfl⟩
  | true =>
    obtain ⟨o, hl, hm, ho⟩ := exists_matching?_angle (beq_iff_eq.1 hhead) l m
    simp only [hl, hm, if_true]
    cases o with
    | none => exact ⟨none, skipGaps ps n, rfl, rfl⟩
    | some k =>
      have hclose := ho k rfl
      refine ⟨some (Text.collapse (render l ((ps.take (k + 1)).drop (skipGaps ps n)))), k + 1, ?_,
        ?_⟩
      · simp only [Option.map_some, ← offset_succ hclose, slice_offset]
      · simp only [Option.map_some, ← offset_succ hclose, slice_offset,
          collapse_render m l ((ps.take (k + 1)).drop _)]

/-- The pieces behind a word and a gap. -/
def restAfter? (word : Text) (ps : List Piece) : Option (List Piece) :=
  if word.isPrefixOf (lead ps) && (ps.drop word.length).head?.any Piece.isGap then
    some ((ps.drop word.length).dropWhile Piece.isGap)
  else none

theorem afterWord?_render {word : Text} (hword : ∀ c ∈ word, Visible c) (l : Layout)
    (ps : List Piece) : afterWord? word (render l ps) = (restAfter? word ps).map (render l) := by
  rw [afterWord?, Text.after?, isPrefixOf_render hword, restAfter?]
  cases hprefix : word.isPrefixOf (lead ps) with
  | false => rfl
  | true =>
    have hle := (List.isPrefixOf_iff_prefix.1 hprefix).length_le
    rw [if_pos rfl, drop_lead l hle, Bool.true_and]
    cases hback : ps.drop word.length with
    | nil => rfl
    | cons x back =>
      obtain ⟨c, r, d, s, htext, -, ⟨hblank, -⟩, -⟩ := x.exists_ends l
      have hstrip := stripLeft_render l (x :: back)
      rw [render_cons, htext, List.cons_append] at hstrip ⊢
      by_cases hx : x.isGap = true
      · have hblank : Text.isBlank c = true := hblank.trans hx
        rw [Text.stripLeft, List.dropWhile_cons_of_pos hblank] at hstrip
        rw [if_pos (show (x :: back).head?.any Piece.isGap = true from hx), Option.map_some,
          ← hstrip]
        exact if_pos hblank
      · rw [if_neg (show ¬ (x :: back).head?.any Piece.isGap = true from hx)]
        exact if_neg (by rwa [hblank])

theorem restAfter?_eq_some {word : Text} (hne : word ≠ []) (h : restAfter? word ps = some qs) :
    qs <:+: ps ∧ qs.length < ps.length := by
  rw [restAfter?] at h
  split at h
  · rename_i hword
    cases h
    have hsuffix := List.dropWhile_suffix Piece.isGap (l := ps.drop word.length)
    have hlength := hsuffix.length_le
    have hpos := List.length_pos_iff.2 hne
    have hnonempty : ps.drop word.length ≠ [] := by
      intro hnil
      rw [hnil] at hword
      simp at hword
    have hlt := List.length_pos_iff.2 hnonempty
    rw [List.length_drop] at hlength hlt
    exact ⟨(hsuffix.trans (List.drop_suffix _ _)).isInfix, by omega⟩
  · cases h

/-! ## Parameters -/

/-- **The layout is lost when a parameter is parsed.** -/
theorem parse_render (l m : Layout) (ps : List Piece) :
    Parameter.parse (render l ps) = Parameter.parse (render m ps) := by
  rw [Parameter.parse, Parameter.parse, stripComments_render, stripComments_render,
    collapse_render l m]

theorem renderParameters_render (typeOf : Text → Text) (l m : Layout)
    (pss : List (List Piece)) :
    renderParameters typeOf (pss.map (render l)) =
      renderParameters typeOf (pss.map (render m)) := by
  rw [renderParameters, renderParameters, List.map_map, List.map_map]
  congr 1
  refine List.map_congr_left fun ps _ => ?_
  rw [Function.comp_apply, Function.comp_apply, parse_render l m]

/-! ## Signatures -/

/-- The texts are one text, or the same pieces in the two layouts. -/
def Akin (l m : Layout) (a b : Text) : Prop :=
  a = b ∨ ∃ qs, a = render l qs ∧ b = render m qs

/-- The signatures are the same but for the layout of what they keep as written. -/
structure SignatureAlike (l m : Layout) (s t : Signature) : Prop where
  /-- The type parameters. -/
  generics : s.generics = t.generics
  /-- The parameters. -/
  parameters : ∃ pss : List (List Piece), s.parameters = pss.map (render l) ∧
    t.parameters = pss.map (render m)
  /-- The return type. -/
  returnType : Option.Rel (Akin l m) s.returnType t.returnType

theorem exists_lastBlock? (l m : Layout) (ps : List Piece) :
    FoundAt (fun n => (lead (ps.drop n)).head? = some '{') l m ps
      (Signature.lastBlock? (render l ps)) (Signature.lastBlock? (render m ps)) := by
  have hlast : ∀ l : Layout, ((render l ps).getLast? == some '}') =
      (ps.getLast?.bind Piece.char?).any (· == '}') := by
    intro l
    have hany := any_getLast?_render (p := (· == '}'))
      (fun c hc => by rw [beq_iff_eq.1 hc]; decide) l ps
    rw [← hany]
    cases (render l ps).getLast? <;> rfl
  rw [Signature.lastBlock?, Signature.lastBlock?, hlast, hlast]
  cases (ps.getLast?.bind Piece.char?).any (· == '}') with
  | false => exact ⟨none, rfl, rfl, by simp⟩
  | true =>
    refine foundAt_getLast? (forall₂_outermost (fun v hv => ?_) (fun v w h => ?_) false)
      fun v hv n hshows => ?_
    · rw [beq_iff_eq.1 hv]
      decide
    · rw [h.char_eq]
    · rw [hshows.char, beq_iff_eq.1 (List.mem_filter.1 hv).2]

/-- What follows a colon that the pieces begin with. -/
theorem exists_behind_colon (ps : List Piece) :
    (∃ back, ∀ l, render l ps = ':' :: render l back) ∨
      ∀ l, ((render l ps).head? == some ':') = false := by
  have hcolon : Visible ':' := by decide
  by_cases hhead : (lead ps).head? = some ':'
  · cases ps with
    | nil => cases hhead
    | cons x back =>
      cases x with
      | sign c =>
        refine .inl ⟨back, fun l => ?_⟩
        rw [render_cons, Piece.text, Option.some.inj hhead]
        rfl
      | _ => cases hhead
  · exact .inr fun l => by rw [head?_render_beq hcolon]; simpa using hhead

/-- **The return type and the body behind a parameter list are told apart alike.** -/
theorem splitBody_render (l m : Layout) (ps : List Piece) :
    Option.Rel (Akin l m) (Signature.splitBody (render l ps)).1
        (Signature.splitBody (render m ps)).1 ∧
      (Signature.splitBody (render l ps)).2.isSome =
        (Signature.splitBody (render m ps)).2.isSome := by
  simp only [Signature.splitBody, stripSemicolon_render]
  generalize stripSemicolon ps = ps
  -- the type that is read if no body is found
  have htype : Option.Rel (Akin l m)
      (if (render l ps).head? == some ':' then some (Text.strip ((render l ps).drop 1)) else none)
      (if (render m ps).head? == some ':' then some (Text.strip ((render m ps).drop 1))
        else none) := by
    rcases exists_behind_colon ps with ⟨back, hback⟩ | hnone
    · rw [hback, hback]
      exact .some (.inr ⟨strip back, strip_render l back, strip_render m back⟩)
    · rw [hnone, hnone]
      exact .none
  obtain ⟨o, hl, hm, -⟩ := exists_lastBlock? l m ps
  rw [hl, hm]
  cases o with
  | none => exact ⟨htype, rfl⟩
  | some n =>
    simp only [Option.map_some, take_offset, strip_render]
    cases hfront : strip (ps.take n) with
    | nil => exact ⟨.none, rfl⟩
    | cons x back =>
      have hcons : ∀ l : Layout, ∃ c head, render l (x :: back) = c :: head := fun l =>
        List.exists_cons_of_ne_nil (mt render_eq_nil_iff.1 (List.cons_ne_nil x back))
      obtain ⟨c, head, hc⟩ := hcons l
      obtain ⟨d, head', hd⟩ := hcons m
      simp only [hc, hd]
      rcases exists_behind_colon (x :: back) with ⟨rest, hrest⟩ | hnone
      · obtain ⟨rfl, rfl⟩ := List.cons.inj (hc.symm.trans (hrest l))
        obtain ⟨rfl, rfl⟩ := List.cons.inj (hd.symm.trans (hrest m))
        simp only [strip_render, isEmpty_render, beq_self_eq_true, Bool.true_and]
        split
        · exact ⟨.some (.inl (collapse_render l m _)), rfl⟩
        · exact ⟨htype, rfl⟩
      · have hne : ∀ {l : Layout} {c head}, render l (x :: back) = c :: head →
            (c == ':') = false := by
          intro l c head hc
          have := hnone l
          rw [hc] at this
          simpa using this
        simp only [hne hc, hne hd, Bool.false_and]
        exact ⟨htype, rfl⟩

/-- **A signature is read alike.** -/
theorem exists_readAt (l m : Layout) (ps : List Piece) (n : Nat) :
    Option.Rel (SignatureAlike l m) (Signature.readAt (render l ps) (offset l ps n))
      (Signature.readAt (render m ps) (offset m ps n)) := by
  have hround : Visible '(' := by decide
  obtain ⟨generics, k, hl, hm⟩ := exists_readGenerics l m ps n
  simp only [Signature.readAt, hl, hm, skipBlank_render, getElem?_render_beq hround]
  cases hhead : (lead (ps.drop (skipGaps ps k))).head? == some '(' with
  | false => exact .none
  | true =>
    have hopen := beq_iff_eq.1 hhead
    obtain ⟨o, hl, hm, ho⟩ := exists_matching?_bracket (b := .round) hopen l m
    rw [hl, hm]
    cases o with
    | none => exact .none
    | some stop =>
      have hclose := ho stop rfl
      have hsep : ∀ c, (c == ',') = true → Visible c := fun c hc => by
        rw [beq_iff_eq.1 hc]
        decide
      obtain ⟨pss, hpl, hpm, -⟩ := exists_splitOutermost hsep l m
        ((ps.take stop).drop (skipGaps ps k + 1)) true
      obtain ⟨hreturn, -⟩ := splitBody_render l m (ps.drop (stop + 1))
      simp only [if_true, Option.map_some, ← offset_succ hopen, ← offset_succ hclose, slice_offset,
        drop_offset]
      exact .some ⟨rfl, ⟨pss, hpl, hpm⟩, hreturn⟩

/-- **A function with its keyword is read alike.** -/
theorem exists_parseFunction? (l m : Layout) (ps : List Piece) :
    Option.Rel (fun a b : Text × Signature => SignatureAlike l m a.2 b.2)
      (Signature.parseFunction? (render l ps)) (Signature.parseFunction? (render m ps)) := by
  have hasync : ∀ c ∈ "async".toList, Visible c := by decide
  have hfunction : ∀ c ∈ "function".toList, Visible c := by decide
  have hstar : Visible '*' := by decide
  have hrest : ∀ l : Layout, (afterAsync? (render l (strip ps))).getD (render l (strip ps)) =
      render l ((restAfter? "async".toList (strip ps)).getD (strip ps)) := by
    intro l
    rw [afterAsync?, afterWord?_render hasync]
    cases restAfter? "async".toList (strip ps) <;> rfl
  simp only [Signature.parseFunction?, strip_render, hrest, isPrefixOf_render hfunction]
  generalize (restAfter? "async".toList (strip ps)).getD (strip ps) = rest
  cases hprefix : "function".toList.isPrefixOf (lead rest) with
  | false => exact .none
  | true =>
    have hle := (List.isPrefixOf_iff_prefix.1 hprefix).length_le
    have hskip : ∀ l : Layout, skipBlank (render l rest) "function".toList.length =
        offset l rest (skipGaps rest "function".toList.length) := by
      intro l
      have hskip := skipBlank_render l rest "function".toList.length
      rwa [offset_lead l hle] at hskip
    generalize skipGaps rest "function".toList.length = k at hskip
    -- the place of the name, behind the star of a generator
    obtain ⟨n, hn⟩ : ∃ n, ∀ l : Layout,
        (if (lead (rest.drop k)).head? == some '*' then offset l rest k + 1 else offset l rest k) =
          offset l rest n := by
      cases hhead : (lead (rest.drop k)).head? == some '*' with
      | false => exact ⟨k, fun l => rfl⟩
      | true => exact ⟨k + 1, fun l => (offset_succ (beq_iff_eq.1 hhead) l).symm⟩
    simp only [if_true, hskip, getElem?_render_beq hstar, hn, readIdentifier_render]
    have hread := exists_readAt l m rest (readName rest n).2
    generalize Signature.readAt (render l rest) (offset l rest (readName rest n).2) = a at hread ⊢
    generalize Signature.readAt (render m rest) (offset m rest (readName rest n).2) = b at hread ⊢
    cases hread with
    | none => exact .none
    | some h => exact .some ⟨h.generics, h.parameters, h.returnType⟩

end ModuleSurface.Spacing
