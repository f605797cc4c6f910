import ModuleSurface.Lexing.TopLevel

/-!
# Reading the pieces of a header

Readers that begin at an offset of a text and answer what they read together with the offset
behind it: white space, an identifier, a dotted name, and a list of type parameters.
-/

namespace ModuleSurface.Callable

open ModuleSurface.Lexing

/-- The offset behind the white space at `i`. -/
def skipBlank (text : Text) (i : Nat) : Nat :=
  i + ((text.drop i).takeWhile Text.isBlank).length

/-- The identifier at `i`, behind white space, and the offset behind it.  It is empty if no
identifier character stands there. -/
def readIdentifier (text : Text) (i : Nat) : Text × Nat :=
  let start := skipBlank text i
  let name := (text.drop start).takeWhile Text.isIdentChar
  (name, start + name.length)

theorem le_readIdentifier (text : Text) (i : Nat) : i ≤ (readIdentifier text i).2 := by
  simp only [readIdentifier, skipBlank]
  omega

/-- The parts of a dotted name that follow at `i`, each with its dot, and the offset behind
them. -/
def readMembers (text : Text) (i : Nat) : Text × Nat :=
  if _h : text[i]? = some '.' then
    let part := readIdentifier text (i + 1)
    let others := readMembers text part.2
    ('.' :: part.1 ++ others.1, others.2)
  else ([], i)
termination_by text.length - i
decreasing_by
  have hi := (List.getElem?_eq_some_iff.1 _h).1
  have := le_readIdentifier text (i + 1)
  omega

theorem le_readMembers (text : Text) (i : Nat) : i ≤ (readMembers text i).2 := by
  fun_induction readMembers text i with
  | case1 i h part others ih =>
    have := le_readIdentifier text (i + 1)
    simp only [others, part] at ih ⊢
    omega
  | case2 => simp

/-- A dotted name at `i` and the offset behind it. -/
def readDotted (text : Text) (i : Nat) : Text × Nat :=
  let first := readIdentifier text i
  let others := readMembers text first.2
  (first.1 ++ others.1, others.2)

theorem le_readDotted (text : Text) (i : Nat) : i ≤ (readDotted text i).2 :=
  Nat.le_trans (le_readIdentifier text i) (le_readMembers text _)

/-- The list of type parameters in angle brackets at `i`, behind white space, with its white space
collapsed, and the offset behind it.  Without a closed list that is the offset of what stands
there. -/
def readGenerics (text : Text) (i : Nat) : Option Text × Nat :=
  let start := skipBlank text i
  if text[start]? == some '<' then
    match matching? text start with
    | some stop => (some (Text.collapse (Text.slice text start (stop + 1))), stop + 1)
    | none => (none, start)
  else (none, start)

/-- What follows a word and at least one blank, if the text begins so. -/
def afterWord? (word text : Text) : Option Text :=
  match Text.after? word text with
  | some (c :: rest) => if Text.isBlank c then some (Text.stripLeft rest) else none
  | _ => none

/-- What follows the keyword `async` and at least one blank, if the text begins so. -/
def afterAsync? (text : Text) : Option Text :=
  afterWord? "async".toList text

theorem afterWord?_suffix {word text rest : Text} (h : afterWord? word text = some rest) :
    rest <:+ text := by
  simp only [afterWord?, Text.after?] at h
  split at h
  · rename_i c r hr
    split at hr
    · have hdrop : c :: r <:+ text := by
        rw [← Option.some.inj hr]
        exact List.drop_suffix _ _
      split at h
      · cases h
        exact (List.dropWhile_suffix _).trans ((List.suffix_cons _ _).trans hdrop)
      · cases h
    · cases hr
  · cases h

theorem length_afterWord?_lt {word text rest : Text} (h : afterWord? word text = some rest) :
    rest.length < text.length := by
  simp only [afterWord?] at h
  split at h
  · rename_i c r hr
    have h₁ := Text.length_after?_le hr
    split at h
    · cases h
      have h₂ := Text.length_stripLeft_le r
      simp only [List.length_cons] at h₁
      omega
    · cases h
  · cases h

end ModuleSurface.Callable
