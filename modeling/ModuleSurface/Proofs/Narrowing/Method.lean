import ModuleSurface.Proofs.Narrowing.Arrow

/-!
# A method is read like a function

What follows the key of a method is a signature, and the inference reads it where it stands.  It is
the signature of the function that has the marks of the method and the keyword `function` in front
of it.

* `Signature.readAt_behind` — plain characters in front of a signature do not change it;
* `ObjectMethod.parseFunction?_functionText` — so the function reads what the method does.
-/

namespace ModuleSurface

open Lexing
open Callable

/-! ## Signatures behind plain characters -/

theorem Text.slice_behind (front t : Text) (i j : Nat) :
    slice (front ++ t) (front.length + i) (front.length + j) = slice t i j := by
  rw [slice, List.take_length_add_append, List.drop_length_add_append, slice]

theorem Text.getElem?_behind (front t : Text) (i : Nat) :
    (front ++ t)[front.length + i]? = t[i]? := by
  rw [List.getElem?_append_right (Nat.le_add_right _ _), Nat.add_sub_cancel_left]

theorem Callable.skipBlank_behind (front t : Text) (i : Nat) :
    skipBlank (front ++ t) (front.length + i) = front.length + skipBlank t i := by
  rw [skipBlank, List.drop_length_add_append, Nat.add_assoc, skipBlank]

namespace Signature

variable {mark r : Text} {c : Char}

theorem readGenerics_behind (hmark : Bypassed mark) (hgap : RegexLiteral.isGap c = false)
    (hc : c ≠ '/') (hangle : c ≠ '>') (i : Nat) :
    readGenerics (mark ++ c :: r) (mark.length + i) =
      ((readGenerics (c :: r) i).1, mark.length + (readGenerics (c :: r) i).2) := by
  simp only [readGenerics, skipBlank_behind, Text.getElem?_behind,
    matching?_behind hmark hgap hc hangle]
  split
  · cases matching? (c :: r) (skipBlank (c :: r) i) with
    | none => rfl
    | some stop => simp only [Option.map_some, Nat.add_assoc, Text.slice_behind]
  · rfl

/-- **Plain characters in front of a signature do not change it.** -/
theorem readAt_behind (hmark : Bypassed mark) (hgap : RegexLiteral.isGap c = false)
    (hc : c ≠ '/') (hangle : c ≠ '>') (i : Nat) :
    readAt (mark ++ c :: r) (mark.length + i) = readAt (c :: r) i := by
  simp only [readAt, readGenerics_behind hmark hgap hc hangle, skipBlank_behind,
    Text.getElem?_behind, matching?_behind hmark hgap hc hangle]
  split
  · cases matching? (c :: r) (skipBlank (c :: r) (readGenerics (c :: r) i).2) with
    | none => rfl
    | some stop =>
      simp only [Option.map_some, Nat.add_assoc, Text.slice_behind, List.drop_length_add_append]
  · rfl

/-- The name of a function is read behind its star, and there may be none. -/
theorem readIdentifier_unnamed (front r : Text) {blanks : Text}
    (hblank : ∀ d ∈ blanks, Text.isBlank d = true) (hgap : Text.isBlank c = false)
    (hc : Text.isIdentChar c = false) :
    readIdentifier (front ++ (blanks ++ c :: r)) front.length =
      ([], (front ++ blanks).length) := by
  have hskip : skipBlank (front ++ (blanks ++ c :: r)) front.length = (front ++ blanks).length :=
    Narrowing.skipBlank_gap hblank hgap
  rw [readIdentifier, hskip, ← List.append_assoc, List.drop_left,
    List.takeWhile_cons_of_neg (by simp [hc])]
  rfl

end Signature

/-- The pieces of a text that is split do not end with white space. -/
theorem Lexing.exists_getLast?_of_mem_splitOutermost {text piece : Text} {isSeparator : Char → Bool}
    {angles : Bool} (h : piece ∈ splitOutermost text isSeparator angles) :
    ∃ c ∈ piece.getLast?, Text.isBlank c = false := by
  simp only [splitOutermost, List.mem_filter, List.mem_map] at h
  obtain ⟨⟨raw, -, rfl⟩, hne⟩ := h
  have hne : Text.strip raw ≠ [] := by simpa using hne
  exact ⟨_, List.getLast?_eq_some_getLast hne,
    Text.isBlank_getLast_strip (List.getLast?_eq_some_getLast hne)⟩

/-! ## The function of a method -/

namespace Narrowing.ObjectMethod

/-- What may be written between the keyword and the name of a function: nothing, or a star with
white space behind it. -/
inductive Star : Text → Bool → Prop
  | none : Star [] false
  | star {gap : Text} : (∀ c ∈ gap, Text.isBlank c = true) → Star ('*' :: gap) true

/-- The keyword with the star and the space behind it. -/
def keywordText (star : Text) : Text :=
  "function".toList ++ star ++ [' ']

/-- The function that a method is: its marks and the keyword in front of what follows the key. -/
def functionText (m : ObjectMethod) (star : Text) : Text :=
  (if m.isAsync then "async ".toList else []) ++ (keywordText star ++ m.rest)

/-- Behind the key and white space stands what opens the signature. -/
theorem exists_opening {property : Text} {m : ObjectMethod} (h : parse? property = some m) :
    ∃ blanks c r, m.rest = blanks ++ c :: r ∧ (∀ d ∈ blanks, Text.isBlank d = true) ∧
      (c = '<' ∨ c = '(') ∧ c :: r <:+ property := by
  obtain ⟨isAsync, accessor, u, hu, hm⟩ := exists_keyed?_of_parse? h
  obtain ⟨rfl, -⟩ := eq_append_of_keyed? hm
  simp only [keyed?] at hm
  split at hm
  · cases hm
  · rename_i key rest _
    split at hm
    · rename_i hopens
      cases hm
      have hsplit : rest.takeWhile Text.isBlank ++ Text.stripLeft rest = rest :=
        List.takeWhile_append_dropWhile
      cases hleft : Text.stripLeft rest with
      | nil =>
        rw [hleft] at hopens
        cases hopens
      | cons c r =>
        rw [hleft] at hopens hsplit
        refine ⟨rest.takeWhile Text.isBlank, c, r, hsplit.symm, ?_, by simpa using hopens, ?_⟩
        · intro d hd
          exact List.mem_takeWhile_imp hd
        · rw [← hsplit] at hu
          exact ((List.suffix_append _ _).trans (List.suffix_append _ _)).trans hu
    · cases hm

section

variable {star blanks r : Text} {isGenerator : Bool} {c : Char}

/-- The characters in front of a signature are plain. -/
theorem Star.bypassed (h : Star star isGenerator)
    (hblank : ∀ d ∈ blanks, Text.isBlank d = true) : Bypassed (keywordText star ++ blanks) := by
  have hword : ∀ c ∈ "function".toList, Plain c ∧ c ∉ ['=', '<', '>'] := by decide
  have hstar : ∀ c ∈ star, Plain c ∧ c ∉ ['=', '<', '>'] := by
    cases h with
    | none => simp
    | star hgap =>
      exact List.forall_mem_cons.2 ⟨by decide, fun c hc => unsigned_of_isBlank (hgap c hc)⟩
  unfold keywordText
  rw [List.append_assoc]
  refine .words (fun c hc => (List.mem_append.1 hc).elim (hword c) (hstar c)) (by simp) ?_
  exact List.forall_mem_cons.2 ⟨by decide, hblank⟩

/-- Behind the keyword, the star and white space there is no name. -/
theorem Star.read (h : Star star isGenerator) (hblank : ∀ d ∈ blanks, Text.isBlank d = true)
    (hc : Text.isBlank c = false) (hident : Text.isIdentChar c = false) (hstar : c ≠ '*') :
    ((keywordText star ++ blanks ++ c :: r)[
        skipBlank (keywordText star ++ blanks ++ c :: r) 8]? == some '*') = isGenerator ∧
      readIdentifier (keywordText star ++ blanks ++ c :: r)
          (if isGenerator then skipBlank (keywordText star ++ blanks ++ c :: r) 8 + 1
            else skipBlank (keywordText star ++ blanks ++ c :: r) 8) =
        ([], (keywordText star ++ blanks).length) := by
  have hspace : ∀ d ∈ ' ' :: blanks, Text.isBlank d = true :=
    List.forall_mem_cons.2 ⟨by decide, hblank⟩
  cases h with
  | none =>
    have htext : keywordText [] ++ blanks = "function".toList ++ ' ' :: blanks := by
      unfold keywordText
      rw [List.append_nil, List.append_assoc]
      rfl
    have hskip : skipBlank (keywordText [] ++ blanks ++ c :: r) 8 =
        (keywordText [] ++ blanks).length := by
      rw [htext, List.append_assoc]
      exact skipBlank_gap hspace hc
    have hname : readIdentifier (keywordText [] ++ blanks ++ ([] ++ c :: r)) _ = _ :=
      Signature.readIdentifier_unnamed (keywordText [] ++ blanks) r (by simp) hc hident
    rw [List.append_nil] at hname
    rw [hskip]
    exact ⟨by simpa using hstar, hname⟩
  | @star gap hgap =>
    have hskip : skipBlank (keywordText ('*' :: gap) ++ blanks ++ c :: r) 8 = 8 := by
      unfold keywordText
      rw [List.append_assoc, List.append_assoc, List.append_assoc]
      exact @skipBlank_gap "function".toList [] _ (by simp) rfl
    have hgap : ∀ d ∈ gap ++ ' ' :: blanks, Text.isBlank d = true :=
      fun d hd => (List.mem_append.1 hd).elim (hgap d) (hspace d)
    have hname := Signature.readIdentifier_unnamed "function*".toList r hgap hc hident
    have htext : keywordText ('*' :: gap) ++ blanks =
        "function*".toList ++ (gap ++ ' ' :: blanks) := by
      unfold keywordText
      simp
    rw [hskip, htext, List.append_assoc]
    exact ⟨rfl, hname⟩

end

/-- **A method is read like a function.** -/
theorem parseFunction?_functionText {property star : Text} {m : ObjectMethod} {isGenerator : Bool}
    (hm : parse? property = some m) (hlast : ∃ c ∈ property.getLast?, Text.isBlank c = false)
    (hstar : Star star isGenerator) :
    Signature.parseFunction? (m.functionText star) =
      (Signature.readAt (Text.stripLeft m.rest) 0).map fun s =>
        ([], { s with isAsync := m.isAsync, isGenerator := isGenerator }) := by
  obtain ⟨blanks, c, r, hrest, hblank, hopens, hsuffix⟩ := exists_opening hm
  have hc : Text.isBlank c = false ∧ Text.isIdentChar c = false ∧ RegexLiteral.isGap c = false ∧
      c ≠ '*' ∧ c ≠ '/' ∧ c ≠ '>' := by
    rcases hopens with rfl | rfl <;> decide
  obtain ⟨hcblank, hident, hgap, hcstar, hslash, hangle⟩ := hc
  have hleft : Text.stripLeft m.rest = c :: r := by
    rw [hrest, Text.stripLeft, List.dropWhile_append_of_pos hblank,
      List.dropWhile_cons_of_neg (by simp [hcblank])]
  have hend : ∃ d ∈ (c :: r).getLast?, Text.isBlank d = false := by
    obtain ⟨front, rfl⟩ := hsuffix
    rwa [List.getLast?_append_of_ne_nil _ (List.cons_ne_nil _ _)] at hlast
  have htext : m.functionText star = (if m.isAsync then "async ".toList else []) ++
      (keywordText star ++ blanks ++ c :: r) := by
    rw [functionText, hrest, List.append_assoc]
  have hstrip : Text.strip (m.functionText star) = m.functionText star := by
    refine Text.Trimmed.strip_eq ⟨?_, ?_⟩
    · rw [functionText]
      cases m.isAsync
      · exact ⟨'f', rfl, by decide⟩
      · exact ⟨'a', rfl, by decide⟩
    · rw [htext, ← List.append_assoc]
      exact Text.exists_getLast?_append hend _
  have hasync : afterAsync? (m.functionText star) =
      if m.isAsync then some (keywordText star ++ blanks ++ c :: r) else none := by
    rw [htext]
    cases m.isAsync
    · rfl
    · exact @afterAsync?_async [' '] _ _ (by simp) (by decide) (by decide)
  have hbehind : (afterAsync? (m.functionText star)).getD (m.functionText star) =
      keywordText star ++ blanks ++ c :: r := by
    rw [hasync, htext]
    cases m.isAsync <;> rfl
  have hmarked : (afterAsync? (m.functionText star)).isSome = m.isAsync := by
    rw [hasync]
    cases m.isAsync <;> rfl
  have hkeyword : "function".toList.isPrefixOf (keywordText star ++ blanks ++ c :: r) = true := rfl
  obtain ⟨hgenerator, hname⟩ := hstar.read (r := r) hblank hcblank hident hcstar
  have hread := Signature.readAt_behind (r := r) (hstar.bypassed hblank) hgap hslash hangle 0
  rw [Nat.add_zero] at hread
  rw [Signature.parseFunction?]
  simp only [hstrip, hbehind, hmarked, hkeyword, if_true]
  rw [show "function".toList.length = 8 from rfl]
  simp only [hgenerator, hname, hread, hleft]

example : functionText ⟨true, none, "f".toList, "(x = 1)".toList⟩ ['*'] =
    "async function* (x = 1)".toList := rfl

end Narrowing.ObjectMethod

end ModuleSurface
