import ModuleSurface.Proofs.Lexing.Separated
import ModuleSurface.Proofs.Narrowing.Value

/-!
# Arrays of any elements

An array has one type for each of its elements, whatever these are: a constant one is the tuple of
their types, and a variable one is an array of the types that occur, each once, in the order of
their first occurrence (`infer_elements`).  An element has to be told apart from the others by the
commas: no comma of its code is outside brackets, and no slash of it begins a literal that ends in
another element.
-/

namespace ModuleSurface.Narrowing

open ModuleSurface.Lexing

/-- An array in a source, with its elements as written. -/
def arrayText (elements : List Text) : Text :=
  '[' :: Text.join ", ".toList elements ++ [']']

/-- Between brackets there is nothing to strip. -/
theorem tight_bracket (b : Bracket) (t : Text) : Text.Tight (b.opener :: t ++ [b.closer]) :=
  ⟨⟨b.opener, rfl, by cases b <;> decide⟩,
    ⟨b.closer, List.getLast?_concat, by cases b <;> decide, by cases b <;> decide⟩⟩

section

variable {es : List Text}

/-- The elements in their brackets. -/
theorem inertAt_elements (hes : ∀ e ∈ es, Element e) (hslash : SlashesApart [']'] es) :
    InertAt (fun _ => True) (State.openBracket {} .square 0) ['['] (Text.join ", ".toList es) [']']
      (0 + 1) := by
  by_cases hne : es = []
  · subst hne
    exact Inert.nil.enclosed .square
  · have hb : (State.openBracket {} .square 0).Coherent := State.Coherent.fresh.openBracket _ 0
    have hrow : Row (State.openBracket {} .square 0) [']'] ['['] (0 + 1) [] es :=
      row_of_elements hb rfl (by decide) hne hes hslash (.inl rfl) ⟨rfl, rfl⟩ _
    exact hrow.inertAt hb rfl

/-- The elements are what stands between the commas. -/
theorem splitCommas_elements (hes : ∀ e ∈ es, Element e) (hslash : SlashesApart [']'] es) :
    splitCommas (Text.join ", ".toList es) = es := by
  by_cases hne : es = []
  · subst hne
    decide +kernel
  · have hslash' : SlashesApart [] es :=
      SlashesApart.of_append (show SlashesApart ([] ++ [']']) es from hslash)
    have hrow : Row {} [] [] 0 [] es :=
      row_of_elements .fresh rfl (by decide) hne hes hslash' (.inl rfl) ⟨rfl, rfl⟩ 0
    simpa using hrow.splitCommas_eq (by simp) (by simp)

theorem infer_arrayText (hes : ∀ e ∈ es, Element e) (hslash : SlashesApart [']'] es)
    (isConst : Bool) :
    infer (arrayText es) isConst = ofArray infer (Text.join ", ".toList es) isConst := by
  have hinner := inertAt_elements hes hslash
  have hwhole : InertAt (· = '[') {} [] (arrayText es) [] 0 := hinner.bracket .fresh rfl
  have hstrip : Text.stripSemicolon (arrayText es) = arrayText es :=
    (tight_bracket .square _).stripSemicolon_eq
  rw [infer_eq, layer, hwhole.stripComments, hstrip]
  exact ofExpression_array hinner isConst

/-- **An array has one type for each of its elements**: a constant is the tuple of their types, and
a variable is an array of the types that occur, without repetition and in the order of their first
occurrence. -/
theorem infer_elements (hes : ∀ e ∈ es, Element e) (hslash : SlashesApart [']'] es) :
    infer (arrayText es) true =
        ⟨"readonly [".toList ++ Text.join ", ".toList (es.map fun e => (infer e true).text) ++
          "]".toList, .tuple⟩ ∧
      infer (arrayText es) false =
        ⟨if es = [] then "never[]".toList
          else "Array<".toList ++
            Text.join " | ".toList (es.map fun e => (infer e false).inUnion).eraseDups ++
              ">".toList, .array⟩ := by
  have hsplit := splitCommas_elements hes hslash
  refine ⟨?_, ?_⟩
  · rw [infer_arrayText hes hslash, ofArray, hsplit]
    rfl
  · rw [infer_arrayText hes hslash, ofArray, hsplit]
    cases es <;> rfl

end

/-- Commas in brackets, strings and literals, and slashes that divide or that are in a literal of
one element. -/
theorem infer_elements_apart :
    let es := ["f(a / b, c)".toList, "'x, y'".toList, "\x7b a: 1, b: 2 \x7d".toList,
      "/[,]/g".toList, "1".toList, "f(a / b, c)".toList]
    (∀ e ∈ es, Element e) ∧ SlashesApart [']'] es ∧
      infer (arrayText es) true =
        ⟨"readonly [unknown, 'x, y', \x7b a: 1; b: 2 \x7d, unknown, 1, unknown]".toList, .tuple⟩ ∧
      infer (arrayText es) false =
        ⟨"Array<unknown | 'x, y' | \x7b a: number; b: number \x7d | number>".toList, .array⟩ := by
  intro es
  have hes : ∀ e ∈ es, Element e := by decide +kernel
  have hslash : SlashesApart [']'] es := by decide +kernel
  obtain ⟨hconst, hmutable⟩ := infer_elements hes hslash
  refine ⟨hes, hslash, hconst.trans ?_, hmutable.trans ?_⟩
  · decide +kernel
  · decide +kernel

/-- A comma between the type arguments of a constructor parts its element, and so does a slash that
begins a literal together with one of the next element. -/
theorem infer_elements_torn :
    (Closed "new Map<string, number>()".toList ∧
      stripComments "new Map<string, number>()".toList = "new Map<string, number>()".toList ∧
      (infer "new Map<string, number>()".toList true).text = "Map<string, number>".toList ∧
      infer (arrayText ["new Map<string, number>()".toList]) true =
        ⟨"readonly [Map<any, any>, unknown]".toList, .tuple⟩) ∧
    (∀ e ∈ ["i++ / 2".toList, "j++ / 2".toList], Element e) ∧
      infer (arrayText ["i++ / 2".toList, "j++ / 2".toList]) true =
        ⟨"readonly [unknown]".toList, .tuple⟩ := by
  decide +kernel

end ModuleSurface.Narrowing
