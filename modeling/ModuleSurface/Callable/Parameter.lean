import ModuleSurface.Callable.Binding

/-!
# Parameters

`Parameter.parse` takes a raw parameter apart: decorators and comments go, and what is left is a
name or binding pattern, the marks, the annotation and the default value.  `Parameter.render` writes
it for a declaration: the default is dropped and makes the parameter optional, and a missing
annotation is filled in from the type of the default or with `unknown`.
-/

namespace ModuleSurface.Callable

open ModuleSurface.Lexing

/-- The offset behind the decorator at the start of the text: its dotted name and its arguments. -/
def decoratorEnd (text : Text) : Nat :=
  let i := skipBlank text (readDotted text 1).2
  if text[i]? == some '(' then
    match matching? text i with
    | some close => close + 1
    | none => text.length
  else i

theorem one_le_decoratorEnd (text : Text) : 1 ≤ decoratorEnd text := by
  have h₁ : 1 ≤ skipBlank text (readDotted text 1).2 :=
    Nat.le_trans (le_readDotted text 1) (Nat.le_add_right _ _)
  unfold decoratorEnd
  simp only
  split
  · rename_i h
    rw [beq_iff_eq] at h
    have h₂ := (List.getElem?_eq_some_iff.1 h).1
    split <;> omega
  · exact h₁

/-- The text without the decorators in front of it. -/
def stripDecorators (text : Text) : Text :=
  match _h : Text.stripLeft text with
  | [] => []
  | c :: rest =>
    if c == '@' then stripDecorators ((c :: rest).drop (decoratorEnd (c :: rest)))
    else c :: rest
termination_by text.length
decreasing_by
  have h₁ := Text.length_stripLeft_le text
  have h₂ := one_le_decoratorEnd (c :: rest)
  rw [_h] at h₁
  simp only [List.length_drop, List.length_cons] at h₁ ⊢
  omega

theorem length_stripDecorators_le (text : Text) : (stripDecorators text).length ≤ text.length := by
  fun_induction stripDecorators text with
  | case1 => simp
  | case2 text c rest h _ ih =>
    have h₁ := Text.length_stripLeft_le text
    rw [h] at h₁
    simp only [List.length_drop] at ih
    omega
  | case3 text c rest h _ =>
    have h₁ := Text.length_stripLeft_le text
    rwa [h] at h₁

/-- A parameter of a function. -/
structure Parameter where
  /-- Does it collect the remaining arguments? -/
  isRest : Bool
  /-- Is it marked as optional? -/
  isOptional : Bool
  /-- The name or the binding pattern, without default values. -/
  binding : Text
  /-- The type as written. -/
  declaredType : Option Text
  /-- The default value as written. -/
  fallback : Option Text
  deriving DecidableEq, Repr

namespace Parameter

/-- The text in front of an offset, and the text behind the character there, both stripped. -/
def cut (text : Text) (i : Option Nat) : Text × Option Text :=
  match i with
  | some i => (Text.strip (text.take i), some (Text.strip (text.drop (i + 1))))
  | none => (text, none)

/-- The parts of a raw parameter. -/
def parse (raw : Text) : Parameter :=
  let bare := stripDecorators (Text.collapse (stripComments raw))
  let (declared, fallback) := cut bare (findAssignment? bare)
  let (marked, declaredType) := cut declared (findOutermost? declared ":".toList 0 true)
  let isRest := "...".toList.isPrefixOf marked
  let target := if isRest then Text.strip (marked.drop 3) else marked
  let isOptional := target.getLast? == some '?'
  let binding := if isOptional then Text.stripRight target.dropLast else target
  { isRest := isRest
    isOptional := isOptional
    binding :=
      if binding.head? == some '{' || binding.head? == some '[' then
        Binding.withoutDefaults binding
      else binding
    declaredType := declaredType
    fallback := fallback }

/-- The type written for a parameter, where `typeOf` gives the type of a default value. -/
def typeText (p : Parameter) (typeOf : Text → Text) : Text :=
  match p.declaredType with
  | some written => written
  | none =>
    if p.isRest then "unknown[]".toList
    else
      match p.fallback with
      | some (c :: value) => typeOf (c :: value)
      | _ => "unknown".toList

/-- The parameter as written in a declaration. -/
def render (p : Parameter) (typeOf : Text → Text) : Text :=
  let rest := if p.isRest then "...".toList else []
  let marker := if p.isOptional || (p.fallback.isSome && !p.isRest) then "?".toList else []
  rest ++ p.binding ++ marker ++ ": ".toList ++ p.typeText typeOf

/-- A default value is shorter than the parameter it was read from. -/
theorem length_fallback_lt {raw value : Text} (h : (parse raw).fallback = some value) :
    value.length < raw.length := by
  have h₁ := length_stripDecorators_le (Text.collapse (stripComments raw))
  have h₂ := Text.length_collapse_le (stripComments raw)
  have h₃ := length_stripComments_le raw
  simp only [parse, cut] at h
  revert h
  cases he : findAssignment? (stripDecorators (Text.collapse (stripComments raw))) with
  | none => intro h; simp at h
  | some eq =>
    intro h
    simp only [Option.some.injEq] at h
    subst h
    have h₄ := Text.length_strip_le
      ((stripDecorators (Text.collapse (stripComments raw))).drop (eq + 1))
    have h₅ : stripDecorators (Text.collapse (stripComments raw)) ≠ [] := by
      intro h0
      rw [h0] at he
      simp [findAssignment?, outermost, visits, visitsFrom, outermostFrom] at he
    have h₆ := List.length_pos_iff.2 h₅
    simp only [List.length_drop] at h₄
    omega

/-- The default value whose type the rendering asks for.  A written type and the type of a rest
parameter need none, and neither does an empty default. -/
def asked? (p : Parameter) : Option Text :=
  if p.declaredType.isNone && !p.isRest then p.fallback.filter (!·.isEmpty) else none

/-- The rendering depends on the type of the default value it asks for only. -/
theorem render_congr {p : Parameter} {f g : Text → Text}
    (h : ∀ value ∈ p.asked?, f value = g value) : p.render f = p.render g := by
  have : p.typeText f = p.typeText g := by
    unfold typeText
    split
    · rfl
    · rename_i hdeclared
      split
      · rfl
      · rename_i hrest
        split
        · rename_i c value hfallback
          exact h _ (by simp [asked?, hdeclared, hrest, hfallback])
        · rfl
  simp only [render, this]

/-- The default value that is asked for is shorter than the parameter. -/
theorem length_asked?_lt {raw value : Text} (h : (parse raw).asked? = some value) :
    value.length < raw.length := by
  unfold asked? at h
  split at h
  · exact length_fallback_lt (Option.filter_eq_some_iff.1 h).1
  · cases h

end Parameter

/-- The parameters as written in a declaration. -/
def renderParameters (typeOf : Text → Text) (raw : List Text) : Text :=
  Text.join ", ".toList (raw.map fun p => (Parameter.parse p).render typeOf)

theorem renderParameters_congr {f g : Text → Text} {raw : List Text}
    (h : ∀ p ∈ raw, ∀ value ∈ (Parameter.parse p).asked?, f value = g value) :
    renderParameters f raw = renderParameters g raw := by
  have : (raw.map fun p => (Parameter.parse p).render f) =
      raw.map fun p => (Parameter.parse p).render g :=
    List.map_congr_left fun p hp => Parameter.render_congr (h p hp)
  simp only [renderParameters, this]

end ModuleSurface.Callable
