import Mathlib.Data.List.DropRight
import ModuleSurface.Proofs.Text.Search
import ModuleSurface.Proofs.Text.Strip

/-!
# Collapsing white space

Collapsing reads a text from left to right and writes one space for a run of white space, unless
nothing is in front of the run or behind it (`collapse_eq_squeeze`).  Between other characters it
does not look at anything else, so what stands between white space stays (`isInfix_of_runs`).
A text with no other white space than single spaces is `Squeezed`.
-/

namespace ModuleSurface.Text

/-! ## Run by run -/

/-- The text with one space for every run of white space that something follows.  `inGap` says that
a run is going on, or that nothing stands in front of the text. -/
def squeeze (inGap : Bool) : Text → Text
  | [] => []
  | c :: t =>
    if isBlank c then
      if inGap || (squeeze true t).isEmpty then squeeze true t else ' ' :: squeeze true t
    else c :: squeeze false t

/-- The text with one space for every run of white space. -/
def runs (inGap : Bool) : Text → Text
  | [] => []
  | c :: t =>
    if isBlank c then if inGap then runs true t else ' ' :: runs true t
    else c :: runs false t

theorem wordsFrom_ne_nil {current : Text} (h : current ≠ []) (t : Text) :
    wordsFrom current t ≠ [] := by
  induction t generalizing current with
  | nil => simp [wordsFrom, h]
  | cons c t ih =>
    rw [wordsFrom]
    split
    · simp [h]
    · exact ih (by simp)

theorem words_eq_nil_iff (t : Text) : words t = [] ↔ squeeze true t = [] := by
  induction t with
  | nil => exact ⟨fun _ => rfl, fun _ => rfl⟩
  | cons c t ih =>
    by_cases hc : isBlank c = true
    · simpa [words, wordsFrom, squeeze, hc] using ih
    · simp [words, wordsFrom, squeeze, hc, wordsFrom_ne_nil]

/-- What the words become that are read behind the characters `current`. -/
theorem join_wordsFrom (t : Text) :
    (∀ current, current ≠ [] →
      join [' '] (wordsFrom current t) = current.reverse ++ squeeze false t) ∧
      collapse t = squeeze true t := by
  induction t with
  | nil =>
    refine ⟨fun current h => ?_, rfl⟩
    simp [wordsFrom, h, join, squeeze, List.intercalate_singleton]
  | cons c t ih =>
    obtain ⟨hword, hgap⟩ := ih
    by_cases hc : isBlank c = true
    · refine ⟨fun current h => ?_, ?_⟩
      · rw [wordsFrom, if_pos hc, if_neg (by simpa using h), squeeze, if_pos hc, Bool.false_or]
        cases hwords : wordsFrom [] t with
        | nil =>
          have hnil := (words_eq_nil_iff t).1 hwords
          simp [hnil, join, List.intercalate_singleton]
        | cons w ws =>
          have hne : squeeze true t ≠ [] := by
            rw [Ne, ← words_eq_nil_iff, words, hwords]
            simp
          rw [collapse, words, hwords] at hgap
          rw [join, List.intercalate_cons_cons, ← join, hgap, if_neg (by simpa using hne)]
          simp
      · rw [squeeze, if_pos hc, Bool.true_or, if_pos rfl, ← hgap, collapse, collapse, words,
          wordsFrom, if_pos hc]
        rfl
    · refine ⟨fun current h => ?_, ?_⟩
      · rw [wordsFrom, if_neg hc, squeeze, if_neg hc, hword _ (by simp)]
        simp
      · rw [collapse, words, wordsFrom, if_neg hc, squeeze, if_neg hc, hword _ (by simp)]
        rfl

/-- **Collapsing writes one space for every run of white space between other characters.** -/
theorem collapse_eq_squeeze (t : Text) : collapse t = squeeze true t :=
  (join_wordsFrom t).2

/-! ## In front of something else -/

/-- In front of another character every run becomes a space. -/
theorem squeeze_append {c : Char} (hc : isBlank c = false) (inGap : Bool) (t more : Text) :
    squeeze inGap (t ++ c :: more) = runs inGap t ++ c :: squeeze false more := by
  induction t generalizing inGap with
  | nil => simp [squeeze, runs, hc]
  | cons d t ih =>
    have hne : squeeze true (t ++ c :: more) ≠ [] := by simp [ih]
    by_cases hd : isBlank d = true
    · cases inGap <;> simp [squeeze, runs, hd, ih]
    · simp [squeeze, runs, hd, ih]

/-- Nothing is left of white space at the end. -/
theorem squeeze_blanks {back : Text} (hback : ∀ c ∈ back, isBlank c = true) (inGap : Bool) :
    squeeze inGap back = [] := by
  induction back generalizing inGap with
  | nil => rfl
  | cons c back ih =>
    obtain ⟨hc, hback⟩ := List.forall_mem_cons.1 hback
    simp [squeeze, hc, ih hback]

theorem squeeze_append_blanks {back : Text} (hback : ∀ c ∈ back, isBlank c = true) (inGap : Bool)
    (t : Text) : squeeze inGap (t ++ back) = squeeze inGap t := by
  induction t generalizing inGap with
  | nil => rw [List.nil_append, squeeze_blanks hback, squeeze]
  | cons c t ih => simp only [List.cons_append, squeeze, ih]

/-- White space at the end makes no difference. -/
theorem collapse_append_blanks {back : Text} (hback : ∀ c ∈ back, isBlank c = true) (t : Text) :
    collapse (t ++ back) = collapse t := by
  rw [collapse_eq_squeeze, squeeze_append_blanks hback, ← collapse_eq_squeeze]

/-! ## Piece by piece -/

/-- Does a run of white space go on behind the text?  `inGap` says so of the place in front of
it. -/
def gapAfter (inGap : Bool) (t : Text) : Bool :=
  t.foldl (fun _ c => isBlank c) inGap

theorem gapAfter_append (inGap : Bool) (t u : Text) :
    gapAfter inGap (t ++ u) = gapAfter (gapAfter inGap t) u :=
  List.foldl_append

/-- What the text ends with goes on behind it. -/
theorem gapAfter_of_getLast? {t : Text} {c : Char} (h : t.getLast? = some c) (inGap : Bool) :
    gapAfter inGap t = isBlank c := by
  obtain ⟨front, rfl⟩ := List.getLast?_eq_some_iff.1 h
  rw [gapAfter_append]
  rfl

theorem runs_append (inGap : Bool) (t u : Text) :
    runs inGap (t ++ u) = runs inGap t ++ runs (gapAfter inGap t) u := by
  induction t generalizing inGap with
  | nil => rfl
  | cons c t ih =>
    have hgap : gapAfter inGap (c :: t) = gapAfter (isBlank c) t := rfl
    rw [List.cons_append, runs, runs, hgap, ih, ih]
    cases isBlank c <;> cases inGap <;> rfl

/-- Something is left of a text that is not only white space. -/
theorem squeeze_ne_nil {c : Char} (hc : isBlank c = false) {t : Text} (h : c ∈ t) (inGap : Bool) :
    squeeze inGap t ≠ [] := by
  obtain ⟨front, back, rfl⟩ := List.append_of_mem h
  rw [squeeze_append hc]
  simp

/-- In front of something else a piece becomes what it is run by run. -/
theorem squeeze_append_of_mem {c : Char} (hc : isBlank c = false) {more : Text} (h : c ∈ more)
    (inGap : Bool) (t : Text) :
    squeeze inGap (t ++ more) = runs inGap t ++ squeeze (gapAfter inGap t) more := by
  induction t generalizing inGap with
  | nil => rfl
  | cons d t ih =>
    have hne : (squeeze true (t ++ more)).isEmpty = false := by
      simpa using squeeze_ne_nil hc (List.mem_append_right t h) true
    have hgap : gapAfter inGap (d :: t) = gapAfter (isBlank d) t := rfl
    rw [List.cons_append, squeeze, runs, hgap, hne, Bool.or_false, ih, ih]
    cases isBlank d <;> cases inGap <;> rfl

/-- A character that is no white space comes first where it did. -/
theorem head?_squeeze {c : Char} (hc : isBlank c = false) (t : Text) :
    (squeeze false t).head? = some c ↔ t.head? = some c := by
  cases t with
  | nil => rfl
  | cons d t =>
    by_cases hd : isBlank d = true
    · have hne : d ≠ c := by
        rintro rfl
        rw [hc] at hd
        cases hd
      have hspace : ' ' ≠ c := by
        rintro rfl
        exact absurd hc (by decide)
      rw [squeeze, if_pos hd, Bool.false_or, List.head?_cons, Option.some_inj]
      split
      · rename_i hnil
        rw [List.isEmpty_iff.1 hnil]
        simp [hne]
      · simp [hne, hspace]
    · rw [squeeze, if_neg hd, List.head?_cons, List.head?_cons]

/-- A character that is no white space comes last where it did. -/
theorem getLast?_runs {c : Char} (hc : isBlank c = false) (t : Text) :
    (runs true t).getLast? = some c ↔ t.getLast? = some c := by
  induction t using List.reverseRecOn with
  | nil => rfl
  | append_singleton t d ih =>
    rw [runs_append, runs, List.getLast?_concat]
    by_cases hd : isBlank d = true
    · have hne : d ≠ c := by
        rintro rfl
        rw [hc] at hd
        cases hd
      have hspace : ' ' ≠ c := by
        rintro rfl
        exact absurd hc (by decide)
      rw [if_pos hd]
      split
      · -- the run goes on, so the character is not in front of it either
        rename_i hgap
        have hlast : t.getLast? ≠ some c := by
          intro h
          rw [gapAfter_of_getLast? h, hc] at hgap
          cases hgap
        rw [runs, List.append_nil, ih, Option.some_inj]
        exact iff_of_false hlast hne
      · simp [runs, hne, hspace]
    · rw [if_neg hd, runs, List.getLast?_concat]

/-- Without white space every character stays. -/
theorem runs_eq_self {t : Text} (h : ∀ c ∈ t, isBlank c = false) :
    runs false t = t := by
  induction t with
  | nil => rfl
  | cons c t ih =>
    obtain ⟨hc, ht⟩ := List.forall_mem_cons.1 h
    rw [runs, if_neg (by simp [hc]), ih ht]

/-! ## Stripping -/

/-- What is left at the end of the runs is the space that nothing follows. -/
theorem stripRight_runs (inGap : Bool) (t : Text) :
    stripRight (runs inGap t) = squeeze inGap t := by
  have hspace : ∀ u : Text, stripRight (' ' :: u) =
      if (stripRight u).isEmpty then stripRight u else ' ' :: stripRight u := by
    intro u
    have hhead : (' ' :: u).reverse = u.reverse ++ [' '] := by simp
    rw [stripRight, dropRightWhile, hhead, List.dropWhile_append]
    cases hu : u.reverse.dropWhile isBlank with
    | nil =>
      have hnil : stripRight u = [] := by rw [stripRight, dropRightWhile, hu, List.reverse_nil]
      rw [hnil]
      rfl
    | cons c back =>
      have hback : stripRight u = back.reverse ++ [c] := by
        rw [stripRight, dropRightWhile, hu, List.reverse_cons]
      rw [hback]
      simp
  induction t generalizing inGap with
  | nil => rfl
  | cons c t ih =>
    rw [runs, squeeze]
    cases hc : isBlank c with
    | true =>
      cases inGap with
      | true => exact ih true
      | false =>
        rw [if_pos rfl, if_neg (by simp), hspace, ih]
        rfl
    | false =>
      rw [if_neg (by simp), stripRight, dropRightWhile_cons hc, ← stripRight, ih]
      rfl

theorem stripLeft_squeeze (t : Text) : stripLeft (squeeze true t) = squeeze true t := by
  induction t with
  | nil => rfl
  | cons c t ih =>
    rw [squeeze]
    cases hc : isBlank c with
    | true => exact ih
    | false =>
      rw [if_neg (by simp)]
      exact stripLeft_cons hc _

/-- Only a space in front is left to be cut. -/
theorem strip_squeeze (inGap : Bool) (t : Text) : strip (squeeze inGap t) = collapse t := by
  have hcollapsed : ∀ t, strip (squeeze true t) = squeeze true t := by
    intro t
    rw [strip, stripLeft_squeeze, ← stripRight_runs, stripRight, stripRight]
    simp [dropRightWhile, List.dropWhile_idempotent]
  have hspace : ∀ u : Text, strip (' ' :: u) = strip u := by
    intro u
    rw [strip, stripLeft, List.dropWhile_cons_of_pos (by decide), ← stripLeft, ← strip]
  rw [collapse_eq_squeeze, ← hcollapsed]
  cases inGap with
  | true => rfl
  | false =>
    cases t with
    | nil => rfl
    | cons c t =>
      rw [squeeze, squeeze]
      cases isBlank c with
      | true =>
        rw [if_pos rfl, if_pos rfl, Bool.false_or, Bool.true_or, if_pos rfl]
        split
        · rfl
        · exact hspace _
      | false => rfl

/-! ## Names -/

theorem takeWhile_eq_nil {p : Char → Bool} {t : Text} (h : ∀ c, t.head? = some c → p c = false) :
    t.takeWhile p = [] := by
  cases t with
  | nil => rfl
  | cons c t => exact List.takeWhile_cons_of_neg (by simp [h c rfl])

/-- A name at the end stays. -/
theorem takeWhile_runs (t : Text) :
    (runs true t).reverse.takeWhile isIdentChar =
      t.reverse.takeWhile isIdentChar := by
  induction t using List.reverseRecOn with
  | nil => rfl
  | append_singleton t d ih =>
    have hconcat : (t ++ [d]).reverse = d :: t.reverse := by simp
    rw [runs_append, runs, hconcat]
    cases hd : isBlank d with
    | true =>
      have hident : ¬ isIdentChar d = true := by simp [isIdentChar_of_isBlank hd]
      rw [List.takeWhile_cons_of_neg hident, if_pos rfl]
      cases hgap : gapAfter true t with
      | false => simp [runs, (by decide : isIdentChar ' ' = false)]
      | true =>
        rw [if_pos rfl, runs, List.append_nil, ih]
        refine takeWhile_eq_nil fun c hc => isIdentChar_of_isBlank ?_
        rw [List.head?_reverse] at hc
        rw [← gapAfter_of_getLast? hc true, hgap]
    | false =>
      rw [if_neg (by simp)]
      simp [runs, List.takeWhile_cons, ih]

/-- A name at the start stays. -/
theorem takeWhile_squeeze (t : Text) :
    (squeeze false t).takeWhile isIdentChar = t.takeWhile isIdentChar := by
  induction t with
  | nil => rfl
  | cons c t ih =>
    by_cases hc : isIdentChar c = true
    · rw [squeeze, if_neg (by simp [isBlank_of_isIdentChar hc]),
        List.takeWhile_cons_of_pos hc, List.takeWhile_cons_of_pos hc, ih]
    · rw [List.takeWhile_cons_of_neg hc]
      refine takeWhile_eq_nil fun d hd => ?_
      rw [Bool.eq_false_iff]
      intro hident
      rw [head?_squeeze (isBlank_of_isIdentChar hident), List.head?_cons] at hd
      exact hc (Option.some.inj hd ▸ hident)

/-! ## Pairs of characters -/

theorem head?_runs {c : Char} (hc : isBlank c = false) {t : Text}
    (h : (runs false t).head? = some c) : t.head? = some c := by
  cases t with
  | nil => cases h
  | cons d t =>
    rw [runs] at h
    split at h
    · cases h
      exact absurd hc (by decide)
    · exact h

/-- Two characters that are not white space stand next to each other only where they did. -/
theorem isInfix_of_runs {c d : Char} (hc : isBlank c = false) (hd : isBlank d = false)
    {inGap : Bool} {t : Text} (h : [c, d] <:+: runs inGap t) : [c, d] <:+: t := by
  induction t generalizing inGap with
  | nil => exact absurd h (by simp [runs])
  | cons e t ih =>
    rw [runs] at h
    split at h
    · split at h
      · exact (ih h).trans (List.suffix_cons e t).isInfix
      · rcases List.infix_cons_iff.1 h with hpre | hin
        · have hspace : c = ' ' := (List.cons_prefix_cons.1 hpre).1
          rw [hspace] at hc
          exact absurd hc (by decide)
        · exact (ih hin).trans (List.suffix_cons e t).isInfix
    · rcases List.infix_cons_iff.1 h with hpre | hin
      · obtain ⟨rfl, u, hu⟩ := List.cons_prefix_cons.1 hpre
        have hhead := head?_runs hd (t := t) (by rw [← hu]; rfl)
        obtain ⟨r, rfl⟩ := List.head?_eq_some_iff.1 hhead
        exact ⟨[], r, rfl⟩
      · exact (ih hin).trans (List.suffix_cons e t).isInfix

/-! ## Texts with single spaces -/

/-- All white space in the text is single spaces. -/
def Squeezed (t : Text) : Prop :=
  (∀ c ∈ t, isBlank c = true → c = ' ') ∧ ¬ [' ', ' '] <:+: t

instance : DecidablePred Squeezed :=
  fun t => inferInstanceAs
    (Decidable ((∀ c ∈ t, isBlank c = true → c = ' ') ∧ ¬ [' ', ' '] <:+: t))

theorem Squeezed.of_isInfix {t u : Text} (h : Squeezed t) (hu : u <:+: t) : Squeezed u :=
  ⟨fun c hc => h.1 c (hu.subset hc), fun hin => h.2 (hin.trans hu)⟩

/-- A squeezed text stays as it is. -/
theorem Squeezed.runs_eq {t : Text} (h : Squeezed t) : runs false t = t := by
  have hrun : ∀ t : Text, (∀ c ∈ t.head?, isBlank c = false) → runs true t = runs false t := by
    intro t hhead
    cases t with
    | nil => rfl
    | cons c t => simp [runs, hhead c rfl]
  induction t with
  | nil => rfl
  | cons c t ih =>
    have hback := h.of_isInfix (List.suffix_cons c t).isInfix
    by_cases hc : isBlank c = true
    · obtain rfl := h.1 c List.mem_cons_self hc
      have hhead : ∀ d ∈ t.head?, isBlank d = false := by
        intro d hd
        obtain ⟨r, rfl⟩ := List.head?_eq_some_iff.1 hd
        rw [Bool.eq_false_iff]
        intro hblank
        obtain rfl := h.1 d (by simp) hblank
        exact h.2 ⟨[], r, rfl⟩
      rw [runs, if_pos hc, if_neg (by simp), hrun t hhead, ih hback]
    · rw [runs, if_neg hc, ih hback]

/-- Squeezed white space is one space. -/
theorem Squeezed.eq_singleton {t : Text} (h : Squeezed t) (hne : t ≠ [])
    (hblank : ∀ c ∈ t, isBlank c = true) : t = [' '] := by
  have hspace : ∀ c ∈ t, c = ' ' := fun c hc => h.1 c hc (hblank c hc)
  cases t with
  | nil => exact absurd rfl hne
  | cons c t =>
    obtain ⟨rfl, ht⟩ := List.forall_mem_cons.1 hspace
    cases t with
    | nil => rfl
    | cons d t =>
      obtain ⟨rfl, -⟩ := List.forall_mem_cons.1 ht
      exact absurd ⟨[], t, rfl⟩ h.2

end ModuleSurface.Text
