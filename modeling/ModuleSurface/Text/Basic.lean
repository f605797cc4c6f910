import ModuleSurface.Text.Alphanumeric

/-!
# Cutting and joining texts

Stripping, slicing, searching and joining.  The lemmas beside them say that cutting never makes a
text longer, which is what the recursions of the library rest on.
-/

namespace ModuleSurface.Text

/-! ## Stripping -/

/-- The text without its leading white space. -/
def stripLeft (t : Text) : Text :=
  t.dropWhile isBlank

/-- The text without its trailing characters that satisfy `p`. -/
def dropRightWhile (p : Char → Bool) (t : Text) : Text :=
  (t.reverse.dropWhile p).reverse

/-- The text without its trailing white space. -/
def stripRight (t : Text) : Text :=
  dropRightWhile isBlank t

/-- The text without white space at either end. -/
def strip (t : Text) : Text :=
  stripRight (stripLeft t)

/-- Is the text empty or white space only? -/
def isBlankText (t : Text) : Bool :=
  t.all isBlank

theorem length_stripLeft_le (t : Text) : (stripLeft t).length ≤ t.length :=
  (List.dropWhile_suffix isBlank).length_le

theorem length_dropRightWhile_le (p : Char → Bool) (t : Text) :
    (dropRightWhile p t).length ≤ t.length := by
  simpa [dropRightWhile] using (List.dropWhile_suffix p (l := t.reverse)).length_le

theorem length_stripRight_le (t : Text) : (stripRight t).length ≤ t.length :=
  length_dropRightWhile_le isBlank t

theorem length_strip_le (t : Text) : (strip t).length ≤ t.length :=
  Nat.le_trans (length_stripRight_le _) (length_stripLeft_le t)

/-! ## Slices -/

/-- The characters from index `i` up to, and without, index `j`. -/
def slice (t : Text) (i j : Nat) : Text :=
  (t.take j).drop i

/-- The text without its last character. -/
def dropLast (t : Text) : Text :=
  List.dropLast t

theorem length_slice_le (t : Text) (i j : Nat) : (slice t i j).length ≤ t.length := by
  simp only [slice, List.length_drop, List.length_take]
  omega

/-! ## Searching -/

/-- The text `t` at index `start` of the whole, searched for the first place that begins with
`needle`. -/
def findFrom (needle : Text) (start : Nat) : Text → Option Nat
  | [] => if needle.isEmpty then some start else none
  | c :: t =>
    if needle.isPrefixOf (c :: t) then some start else findFrom needle (start + 1) t

/-- The index of the first place where `needle` stands in `t`. -/
def find? (t needle : Text) : Option Nat :=
  findFrom needle 0 t

/-- Does `needle` stand somewhere in `t`? -/
def containsText (t needle : Text) : Bool :=
  (find? t needle).isSome

/-- Does the text begin with one of the given texts? -/
def startsWithAny (t : Text) (heads : List Text) : Bool :=
  heads.any fun h => h.isPrefixOf t

/-- The text behind `head`, if the text begins with it. -/
def after? (head t : Text) : Option Text :=
  if head.isPrefixOf t then some (t.drop head.length) else none

theorem length_after?_le {head t r : Text} (h : after? head t = some r) :
    r.length + head.length ≤ t.length := by
  simp only [after?] at h
  split at h
  · rename_i hp
    cases h
    have := (List.isPrefixOf_iff_prefix.1 hp).length_le
    simp only [List.length_drop]
    omega
  · cases h

/-! ## Joining and words -/

/-- The parts one after the other with `sep` between them. -/
def join (sep : Text) (parts : List Text) : Text :=
  sep.intercalate parts

/-- The words of a text, from the characters of the word being read (in reverse) on. -/
def wordsFrom (current : Text) : Text → List Text
  | [] => if current.isEmpty then [] else [current.reverse]
  | c :: t =>
    if isBlank c then
      if current.isEmpty then wordsFrom [] t else current.reverse :: wordsFrom [] t
    else wordsFrom (c :: current) t

/-- The maximal runs of characters that are not white space. -/
def words (t : Text) : List Text :=
  wordsFrom [] t

/-- Every run of white space becomes one space, and the ends are stripped. -/
def collapse (t : Text) : Text :=
  join [' '] (words t)

theorem length_join_wordsFrom_le (t : Text) (current : Text) :
    (join [' '] (wordsFrom current t)).length ≤ current.length + t.length := by
  induction t generalizing current with
  | nil =>
    cases current with
    | nil => simp [wordsFrom, join, List.intercalate]
    | cons d current => simp [wordsFrom, join, List.intercalate]
  | cons c t ih =>
    simp only [wordsFrom]
    split
    · have h0 := ih []
      cases current with
      | nil =>
        simp only [List.isEmpty_nil, if_true, List.length_cons, List.length_nil] at h0 ⊢
        omega
      | cons d current =>
        simp only [List.isEmpty_cons, Bool.false_eq_true, if_false]
        revert h0
        cases wordsFrom [] t with
        | nil => intro h0; simp [join, List.intercalate]
        | cons w ws =>
          intro h0
          simp only [join, List.intercalate, List.intersperse_cons_cons, List.flatten_cons,
            List.length_append, List.length_reverse, List.length_cons, List.length_nil] at h0 ⊢
          omega
    · have := ih (c :: current)
      simp only [List.length_cons] at this ⊢
      omega

theorem length_collapse_le (t : Text) : (collapse t).length ≤ t.length := by
  simpa [collapse, words] using length_join_wordsFrom_le t []

/-! ## Semicolons -/

/-- The text without white space at either end and without the semicolons at its end, however
they are spaced. -/
def stripSemicolon (t : Text) : Text :=
  dropRightWhile (fun c => isBlank c || c == ';') (stripLeft t)

theorem length_stripSemicolon_le (t : Text) : (stripSemicolon t).length ≤ t.length :=
  Nat.le_trans (length_dropRightWhile_le _ _) (length_stripLeft_le t)

end ModuleSurface.Text
