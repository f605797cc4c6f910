import Mathlib.Data.List.Induction
import Mathlib.Data.List.TakeWhile
import ModuleSurface.Text.Identifier

/-!
# Stripping and collapsing

Stripping stops at characters that are not white space, and takes away nothing that collapsing would
keep.
-/

namespace ModuleSurface.Text

/-- A condition on the characters of a text is tried on these, and not on all characters. -/
instance (priority := high) (p : Char → Prop) [DecidablePred p] (t : Text) :
    Decidable (∀ c ∈ t, p c) :=
  List.decidableBAll p t

instance (priority := high) (p : Char → Prop) [DecidablePred p] (c? : Option Char) :
    Decidable (∀ c ∈ c?, p c) :=
  Option.decidableForallMem c?

/-- A condition on white space is tried on each character of it. -/
theorem eq_false_of_isBlank {p : Char → Bool}
    (hpoints : ∀ n ∈ blankRanges.flatMap fun r => List.range' r.1 (r.2 + 1 - r.1),
      p (Char.ofNat n) = false) {c : Char} (h : isBlank c = true) : p c = false := by
  simp only [isBlank, inRanges, List.any_eq_true, Bool.and_eq_true, decide_eq_true_eq] at h
  obtain ⟨r, hr, hle, hge⟩ := h
  have hmem : c.toNat ∈ blankRanges.flatMap fun r => List.range' r.1 (r.2 + 1 - r.1) := by
    rw [List.mem_flatMap]
    refine ⟨r, hr, ?_⟩
    rw [List.mem_range'_1]
    omega
  have hfalse := hpoints _ hmem
  rwa [Char.ofNat_toNat] at hfalse

theorem isIdentChar_of_isBlank {c : Char} (h : isBlank c = true) : isIdentChar c = false :=
  eq_false_of_isBlank (by decide +kernel) h

/-- No identifier character is white space. -/
theorem isBlank_of_isIdentChar {c : Char} (h : isIdentChar c = true) : isBlank c = false := by
  rw [Bool.eq_false_iff]
  intro hblank
  rw [isIdentChar_of_isBlank hblank] at h
  cases h

/-- The identifier characters at the start of a text end with a name that something else follows. -/
theorem takeWhile_isIdentChar {t more : Text} (ht : ∀ c ∈ t, isIdentChar c = true)
    (hmore : more.head?.any isIdentChar = false) : (t ++ more).takeWhile isIdentChar = t := by
  have hnone : more.takeWhile isIdentChar = [] := by
    cases more with
    | nil => rfl
    | cons d more => exact List.takeWhile_cons_of_neg (by simpa using hmore)
  rw [List.takeWhile_append_of_pos ht, hnone, List.append_nil]

/-! ## Stripping -/

theorem dropRightWhile_cons {p : Char → Bool} {c : Char} (hc : p c = false) (t : Text) :
    dropRightWhile p (c :: t) = c :: dropRightWhile p t := by
  simp only [dropRightWhile, List.reverse_cons]
  by_cases hall : ∀ d ∈ t, p d = true
  · have hrev : ∀ d ∈ t.reverse, p d = true := by
      intro d hd
      exact hall d (List.mem_reverse.1 hd)
    simp [List.dropWhile_append_of_pos hrev, List.dropWhile_eq_nil_iff.2 hrev, hc]
  · have hne : t.reverse.dropWhile p ≠ [] := by
      intro hnil
      apply hall
      intro d hd
      exact List.dropWhile_eq_nil_iff.1 hnil d (List.mem_reverse.2 hd)
    rw [List.dropWhile_append, if_neg (by simpa using hne)]
    simp

theorem dropRightWhile_concat {p : Char → Bool} {c : Char} (hc : p c = false) (t : Text) :
    dropRightWhile p (t ++ [c]) = t ++ [c] := by
  simp [dropRightWhile, hc]

/-- What stands in front of a text of which something is left stays. -/
theorem dropRightWhile_append_left {p : Char → Bool} {t : Text} (ht : dropRightWhile p t ≠ [])
    (a : Text) : dropRightWhile p (a ++ t) = a ++ dropRightWhile p t := by
  have hne : t.reverse.dropWhile p ≠ [] := by
    intro hnil
    exact ht (by rw [dropRightWhile, hnil, List.reverse_nil])
  rw [dropRightWhile, List.reverse_append, List.dropWhile_append, if_neg (by simpa using hne)]
  simp [dropRightWhile]

theorem stripLeft_cons {c : Char} (hc : isBlank c = false) (t : Text) :
    stripLeft (c :: t) = c :: t := by
  simp [stripLeft, hc]

theorem stripRight_concat {c : Char} (hc : isBlank c = false) (t : Text) :
    stripRight (t ++ [c]) = t ++ [c] :=
  dropRightWhile_concat hc t

/-- A text without white space at its ends is stripped. -/
theorem strip_eq_self {c d : Char} (hc : isBlank c = false) (hd : isBlank d = false) (t : Text) :
    strip (c :: t ++ [d]) = c :: t ++ [d] := by
  rw [strip, List.cons_append, stripLeft_cons hc, ← List.cons_append, stripRight_concat hd]

theorem mem_stripLeft {c : Char} (hc : isBlank c = false) {t : Text} (h : c ∈ t) :
    c ∈ stripLeft t := by
  induction t with
  | nil => cases h
  | cons d t ih =>
    rw [stripLeft, List.dropWhile_cons]
    split
    · rename_i hd
      rcases List.mem_cons.1 h with rfl | h
      · rw [hc] at hd
        cases hd
      · exact ih h
    · exact h

theorem mem_stripRight {c : Char} (hc : isBlank c = false) {t : Text} (h : c ∈ t) :
    c ∈ stripRight t := by
  rw [stripRight, dropRightWhile, List.mem_reverse]
  exact mem_stripLeft hc (List.mem_reverse.2 h)

/-- What is stripped does not end with white space. -/
theorem isBlank_getLast_strip {t : Text} {c : Char} (hc : (strip t).getLast? = some c) :
    isBlank c = false := by
  rw [strip, stripRight, dropRightWhile, List.getLast?_reverse] at hc
  have hhead := List.head?_dropWhile_not isBlank (stripLeft t).reverse
  rw [hc] at hhead
  simpa using hhead

theorem isBlank_getLast_of_strip {t : Text} (h : strip t = t) {c : Char}
    (hc : t.getLast? = some c) : isBlank c = false :=
  isBlank_getLast_strip (h.symm ▸ hc)

theorem strip_ne_nil {c : Char} (hc : isBlank c = false) {t : Text} (h : c ∈ t) : strip t ≠ [] :=
  List.ne_nil_of_mem (mem_stripRight hc (mem_stripLeft hc h))

theorem dropRightWhile_isPrefix (p : Char → Bool) (t : Text) : dropRightWhile p t <+: t := by
  have hsuffix := List.dropWhile_suffix p (l := t.reverse)
  rw [← List.reverse_prefix] at hsuffix
  simpa [dropRightWhile] using hsuffix

theorem stripLeft_suffix (t : Text) : stripLeft t <:+ t :=
  List.dropWhile_suffix _

theorem strip_isInfix (t : Text) : strip t <:+: t :=
  (dropRightWhile_isPrefix _ _).isInfix.trans (stripLeft_suffix t).isInfix

theorem stripSemicolon_isInfix (t : Text) : stripSemicolon t <:+: t :=
  (dropRightWhile_isPrefix _ _).isInfix.trans (stripLeft_suffix t).isInfix

/-- White space around a text is stripped with that of the text. -/
theorem strip_between (front t back : Text) (hfront : ∀ c ∈ front, isBlank c = true)
    (hback : ∀ c ∈ back, isBlank c = true) : strip (front ++ t ++ back) = strip t := by
  have hleft : stripLeft (front ++ t ++ back) = stripLeft (t ++ back) := by
    rw [List.append_assoc, stripLeft, List.dropWhile_append_of_pos hfront, ← stripLeft]
  have hright : ∀ u : Text, stripRight (u ++ back) = stripRight u := by
    intro u
    rw [stripRight, dropRightWhile, List.reverse_append,
      List.dropWhile_append_of_pos fun c hc => hback c (List.mem_reverse.1 hc), ← dropRightWhile,
      ← stripRight]
  rw [strip, hleft, strip, stripLeft, List.dropWhile_append]
  split
  · rename_i hnil
    rw [List.isEmpty_iff] at hnil
    rw [stripLeft, hnil, List.dropWhile_eq_nil_iff.2 hback]
  · exact hright _

/-- What is stripped from the end of a text leaves its first character, if anything. -/
theorem eq_of_mem_head?_stripRight_cons {c d : Char} {t : Text}
    (h : d ∈ (stripRight (c :: t)).head?) : d = c := by
  obtain ⟨more, hmore⟩ := dropRightWhile_isPrefix isBlank (c :: t)
  obtain ⟨rest, hrest⟩ := List.head?_eq_some_iff.1 h
  rw [← stripRight, hrest] at hmore
  exact (List.cons.inj hmore).1

/-! ## Texts with nothing to strip -/

theorem exists_head?_append {P : Char → Prop} {t : Text} (h : ∃ c ∈ t.head?, P c) (more : Text) :
    ∃ c ∈ (t ++ more).head?, P c := by
  obtain ⟨c, hc, hP⟩ := h
  refine ⟨c, ?_, hP⟩
  rw [List.head?_append, Option.mem_def.1 hc]
  rfl

theorem exists_getLast?_append {P : Char → Prop} {t : Text} (h : ∃ c ∈ t.getLast?, P c)
    (front : Text) : ∃ c ∈ (front ++ t).getLast?, P c := by
  obtain ⟨c, hc, hP⟩ := h
  refine ⟨c, ?_, hP⟩
  rw [List.getLast?_append, Option.mem_def.1 hc]
  rfl

/-- What does not satisfy `p` stops the stripping at the end. -/
theorem dropRightWhile_append_of_last {p : Char → Bool} {t back : Text} {c : Char}
    (hc : t.getLast? = some c) (hpc : p c = false) (hback : ∀ d ∈ back, p d = true) :
    dropRightWhile p (t ++ back) = t := by
  obtain ⟨r, rfl⟩ : ∃ r, t = r ++ [c] := List.getLast?_eq_some_iff.1 hc
  rw [dropRightWhile, List.reverse_append,
    List.dropWhile_append_of_pos fun d hd => hback d (List.mem_reverse.1 hd),
    List.reverse_append, List.reverse_singleton, List.singleton_append,
    List.dropWhile_cons_of_neg (by simp [hpc])]
  simp

/-- A text without white space at its ends, and not empty. -/
structure Trimmed (t : Text) : Prop where
  /-- It begins with something else than white space. -/
  head : ∃ c ∈ t.head?, isBlank c = false
  /-- It ends with something else than white space. -/
  last : ∃ c ∈ t.getLast?, isBlank c = false

namespace Trimmed

variable {t : Text}

theorem ne_nil (h : Trimmed t) : t ≠ [] := by
  rintro rfl
  obtain ⟨c, hc, -⟩ := h.head
  cases hc

theorem stripLeft_append (h : Trimmed t) (front more : Text)
    (hfront : ∀ c ∈ front, isBlank c = true) : stripLeft (front ++ t ++ more) = t ++ more := by
  obtain ⟨c, hc, hblank⟩ := h.head
  obtain ⟨r, rfl⟩ : ∃ r, t = c :: r := List.head?_eq_some_iff.1 hc
  rw [List.append_assoc, stripLeft, List.dropWhile_append_of_pos hfront, List.cons_append,
    List.dropWhile_cons_of_neg (by simp [hblank])]

/-- White space around a text is stripped, and nothing else is. -/
theorem strip_between (h : Trimmed t) (front back : Text)
    (hfront : ∀ c ∈ front, isBlank c = true) (hback : ∀ c ∈ back, isBlank c = true) :
    strip (front ++ t ++ back) = t := by
  obtain ⟨c, hc, hblank⟩ := h.last
  rw [strip, h.stripLeft_append front back hfront]
  exact dropRightWhile_append_of_last hc hblank hback

theorem strip_eq (h : Trimmed t) : strip t = t := by
  have hstrip := h.strip_between [] [] (by simp) (by simp)
  rwa [List.nil_append, List.append_nil] at hstrip

/-- The start of one text and the end of another. -/
theorem join {u : Text} (ht : Trimmed t) (hu : Trimmed u) (between : Text) :
    Trimmed (t ++ (between ++ u)) := by
  refine ⟨exists_head?_append ht.head _, ?_⟩
  rw [← List.append_assoc]
  exact exists_getLast?_append hu.last _

/-- An equals sign behind a text stays, whatever stands behind it. -/
theorem strip_equals (h : Trimmed t) (more : Text) :
    strip (t ++ ' ' :: '=' :: more) = t ++ ' ' :: '=' :: stripRight more := by
  have hleft := h.stripLeft_append [] (' ' :: '=' :: more) (by simp)
  have hequals : stripRight ('=' :: more) = '=' :: stripRight more :=
    dropRightWhile_cons (by decide) more
  have hright : stripRight (t ++ [' '] ++ '=' :: more) = t ++ [' '] ++ '=' :: stripRight more := by
    rw [stripRight, dropRightWhile_append_left, ← stripRight, hequals]
    rw [← stripRight, hequals]
    exact List.cons_ne_nil _ _
  rw [List.nil_append] at hleft
  rw [strip, hleft]
  simpa using hright

/-- What is left of a text when it is stripped is trimmed, if anything is left. -/
theorem of_strip (h : strip t = t) (hne : t ≠ []) : Trimmed t := by
  refine ⟨⟨_, List.head?_eq_some_head hne, ?_⟩,
    ⟨_, List.getLast?_eq_some_getLast hne,
      isBlank_getLast_of_strip h (List.getLast?_eq_some_getLast hne)⟩⟩
  obtain ⟨more, hmore⟩ := dropRightWhile_isPrefix isBlank (stripLeft t)
  have hfront : t ++ more = stripLeft t := by
    rw [← hmore]
    congr 1
    exact h.symm
  have hhead := List.head?_dropWhile_not isBlank t
  rw [← stripLeft, ← hfront, List.head?_append, List.head?_eq_some_head hne] at hhead
  simpa using hhead

end Trimmed

/-- A text without white space at its ends and without a semicolon at its end. -/
structure Tight (t : Text) : Prop where
  /-- It begins with something else than white space. -/
  head : ∃ c ∈ t.head?, isBlank c = false
  /-- It ends with something else than white space and semicolons. -/
  last : ∃ c ∈ t.getLast?, isBlank c = false ∧ c ≠ ';'

namespace Tight

variable {t u : Text}

theorem ne_nil (h : Tight t) : t ≠ [] := by
  rintro rfl
  obtain ⟨c, hc, -⟩ := h.head
  cases hc

/-- The start of one text and the end of another. -/
theorem join (ht : Tight t) (hu : Tight u) (between : Text) : Tight (t ++ (between ++ u)) := by
  refine ⟨exists_head?_append ht.head _, ?_⟩
  rw [← List.append_assoc]
  exact exists_getLast?_append hu.last _

theorem trimmed (h : Tight t) : Trimmed t where
  head := h.head
  last := by
    obtain ⟨c, hc, hblank, -⟩ := h.last
    exact ⟨c, hc, hblank⟩

theorem dropRightWhile_append (h : Tight t) (p : Char → Bool) (back : Text)
    (hp : ∀ c, isBlank c = false → c ≠ ';' → p c = false)
    (hback : ∀ c ∈ back, p c = true) : dropRightWhile p (t ++ back) = t := by
  obtain ⟨c, hc, hblank, hsemicolon⟩ := h.last
  exact dropRightWhile_append_of_last hc (hp c hblank hsemicolon) hback

/-- White space around a text is stripped, and nothing else is. -/
theorem strip_between (h : Tight t) (front back : Text)
    (hfront : ∀ c ∈ front, isBlank c = true) (hback : ∀ c ∈ back, isBlank c = true) :
    strip (front ++ t ++ back) = t :=
  h.trimmed.strip_between front back hfront hback

theorem strip_eq (h : Tight t) : strip t = t :=
  h.trimmed.strip_eq

theorem stripRight_eq (h : Tight t) : stripRight t = t := by
  have hstrip := h.dropRightWhile_append isBlank [] (fun _ hblank _ => hblank) (by simp)
  rwa [List.append_nil] at hstrip

/-- No semicolon is taken from the end. -/
theorem stripSemicolon_append (h : Tight t) (front : Text)
    (hfront : ∀ c ∈ front, isBlank c = true) : stripSemicolon (front ++ t) = t := by
  have hleft := h.trimmed.stripLeft_append front [] hfront
  have hright := h.dropRightWhile_append (fun c => isBlank c || c == ';') []
    (fun c hblank hsemicolon => by simp [hblank, hsemicolon]) (by simp)
  rw [List.append_nil, List.append_nil] at hleft
  rw [List.append_nil] at hright
  rw [stripSemicolon, hleft, hright]

theorem stripSemicolon_eq (h : Tight t) : stripSemicolon t = t :=
  h.stripSemicolon_append [] (by simp)

end Tight

/-! ## Collapsing -/

theorem words_cons_blank {c : Char} (hc : isBlank c = true) (t : Text) :
    words (c :: t) = words t := by
  simp [words, wordsFrom, hc]

theorem wordsFrom_append_blank {c : Char} (hc : isBlank c = true) (current t : Text) :
    wordsFrom current (t ++ [c]) = wordsFrom current t := by
  induction t generalizing current with
  | nil => simp [wordsFrom, hc]
  | cons d t ih => simp [wordsFrom, ih]

theorem words_stripLeft (t : Text) : words (stripLeft t) = words t := by
  induction t with
  | nil => rfl
  | cons c t ih =>
    by_cases hc : isBlank c = true
    · rw [words_cons_blank hc, ← ih, stripLeft, List.dropWhile_cons_of_pos hc, ← stripLeft]
    · rw [stripLeft_cons (by simpa using hc)]

theorem words_stripRight (t : Text) : words (stripRight t) = words t := by
  induction t using List.reverseRecOn with
  | nil => rfl
  | append_singleton t c ih =>
    by_cases hc : isBlank c = true
    · have hstrip : stripRight (t ++ [c]) = stripRight t := by
        simp [stripRight, dropRightWhile, hc]
      rw [hstrip, ih, words, words, wordsFrom_append_blank hc]
    · rw [stripRight_concat (by simpa using hc)]

theorem collapse_stripRight (t : Text) : collapse (stripRight t) = collapse t := by
  rw [collapse, words_stripRight, ← collapse]

theorem collapse_strip (t : Text) : collapse (strip t) = collapse t := by
  rw [strip, collapse_stripRight, collapse, words_stripLeft, ← collapse]

/-- White space at the ends does not matter. -/
theorem collapse_between {c d : Char} (hc : isBlank c = true) (hd : isBlank d = true) (t : Text) :
    collapse (c :: t ++ [d]) = collapse t := by
  rw [collapse, List.cons_append, words_cons_blank hc, words, wordsFrom_append_blank hd, ← words,
    ← collapse]

end ModuleSurface.Text
