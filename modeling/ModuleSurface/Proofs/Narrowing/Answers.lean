import ModuleSurface.Proofs.Narrowing.Value

/-!
# What a level of the inference answers

Whatever the types inside a value are, its own type has a text (`text_infer_ne_nil`), and it is a
function type only by one of three rules: the value is a function, a function in brackets, or a
function that is asserted to be constant (`function_of_kind`).
-/

namespace ModuleSurface.Narrowing

open ModuleSurface.Lexing
open ModuleSurface.Callable

/-! ## Every type has a text -/

theorem text_unknown_ne_nil : InferredType.unknown.text ≠ [] := by
  decide

theorem promised_ne_nil (t : Text) : promised t ≠ [] :=
  List.append_ne_nil_of_right_ne_nil _ (by decide)

theorem text_functionType_ne_nil (generics : Option Text) (parameters returned : Text) :
    (functionType generics parameters returned).text ≠ [] := by
  have harrow : ") => ".toList ≠ [] := by decide
  exact List.append_ne_nil_of_left_ne_nil (List.append_ne_nil_of_right_ne_nil _ harrow) _

theorem target_ne_nil_of_assertion? {expr : Text} {a : Assertion} (h : assertion? expr = some a) :
    a.target ≠ [] := by
  unfold assertion? at h
  split at h
  · cases h
  · dsimp only at h
    split at h
    · cases h
    · rename_i hne
      cases h
      simp only [Bool.or_eq_true, List.isEmpty_iff, not_or] at hne
      exact hne.2

theorem text_ofConstructor_ne_nil (rest : Text) : (ofConstructor rest).text ≠ [] := by
  have htypes : ∀ p ∈ constructedTypes, p.2 ≠ [] := by decide
  unfold ofConstructor
  generalize readDotted rest 0 = read
  obtain ⟨name, behind⟩ := read
  dsimp only
  split
  · exact text_unknown_ne_nil
  rename_i hname
  have hname : name ≠ [] := by simpa using hname
  split
  · exact List.append_ne_nil_of_left_ne_nil hname _
  · cases hl : constructedTypes.lookup name with
    | none => exact hname
    | some type =>
      obtain ⟨before, after, hsplit, -⟩ := List.lookup_eq_some_iff.1 hl
      exact htypes (name, type) (by simp [hsplit])

section

variable {typeOf : Typing}

theorem text_ofPromise_ne_nil (expr : Text) : (ofPromise typeOf expr).text ≠ [] := by
  unfold ofPromise
  generalize callArguments? expr "Promise.resolve".toList = resolved
  generalize (callArguments? expr "Promise.reject".toList).isSome = isRejected
  generalize callArguments? expr "Promise.all".toList = all
  cases resolved with
  | some value => exact promised_ne_nil _
  | none =>
    cases isRejected with
    | true => exact promised_ne_nil _
    | false =>
      cases all with
      | none => exact text_unknown_ne_nil
      | some values =>
        dsimp only
        generalize isBracketed (Text.strip values) '[' = listed
        cases listed <;> exact promised_ne_nil _

theorem text_ofArray_ne_nil (content : Text) (isConst : Bool) :
    (ofArray typeOf content isConst).text ≠ [] := by
  have hends : "]".toList ≠ [] ∧ ">".toList ≠ [] ∧ "never[]".toList ≠ [] := by decide
  unfold ofArray
  dsimp only
  split
  · exact List.append_ne_nil_of_right_ne_nil _ hends.1
  · split
    · exact hends.2.2
    · exact List.append_ne_nil_of_right_ne_nil _ hends.2.1

theorem text_ofObject_ne_nil (content : Text) (isConst : Bool) :
    (ofObject typeOf content isConst).text ≠ [] := by
  have hends : " \x7d".toList ≠ [] ∧ "\x7b\x7d".toList ≠ [] := by decide
  unfold ofObject
  dsimp only
  split
  · exact hends.2
  · exact List.append_ne_nil_of_right_ne_nil _ hends.1

theorem text_ofPrimary_ne_nil (h : ∀ t c, (typeOf t c).text ≠ []) (expr : Text) (isConst : Bool) :
    (ofPrimary typeOf expr isConst).text ≠ [] := by
  unfold ofPrimary
  dsimp only
  split
  · exact text_ofArray_ne_nil _ isConst
  split
  · exact text_ofObject_ne_nil _ isConst
  split
  · exact h _ _
  split
  · exact text_ofConstructor_ne_nil _
  split
  · exact text_ofPromise_ne_nil _
  split
  · exact (by decide : "symbol".toList ≠ [])
  · exact text_unknown_ne_nil

theorem text_ofFunction_ne_nil (expr : Text) : (ofFunction typeOf expr).text ≠ [] := by
  unfold ofFunction
  dsimp only
  split
  · split
    · exact text_functionType_ne_nil _ _ _
    · exact text_unknown_ne_nil
  · unfold ofArrow
    dsimp only
    split
    · exact text_unknown_ne_nil
    · split
      · exact text_unknown_ne_nil
      · exact text_functionType_ne_nil _ _ _

/-- A literal has its own text as its type, or a primitive type. -/
theorem ofLiteral?_eq_some {expr : Text} {isConst : Bool} {t : InferredType}
    (h : ofLiteral? expr isConst = some t) :
    t = .literal expr ∨ ∃ primitive ∈ ["string", "number", "bigint", "boolean"],
      t = .reference primitive.toList := by
  have hkept : ∀ primitive : String, primitive ∈ ["string", "number", "bigint", "boolean"] →
      (if isConst then InferredType.literal expr else .reference primitive.toList) = t →
        t = .literal expr ∨ ∃ primitive ∈ ["string", "number", "bigint", "boolean"],
          t = .reference primitive.toList := by
    rintro primitive hmem rfl
    split
    · exact .inl rfl
    · exact .inr ⟨primitive, hmem, rfl⟩
  unfold ofLiteral? at h
  dsimp only at h
  split at h
  · exact .inl (Option.some.inj h).symm
  split at h
  · split at h
    · exact hkept "string" (by simp) (Option.some.inj h)
    · exact .inl (Option.some.inj h).symm
  split at h
  · exact hkept "number" (by simp) (Option.some.inj h)
  split at h
  · exact hkept "bigint" (by simp) (Option.some.inj h)
  split at h
  · exact hkept "boolean" (by simp) (Option.some.inj h)
  split at h
  · exact .inl (Option.some.inj h).symm
  · cases h

/-- A level of the inference gives a type with a text, if the types inside have one. -/
theorem text_layer_ne_nil (h : ∀ t c, (typeOf t c).text ≠ []) (value : Text) (isConst : Bool) :
    (layer typeOf value isConst).text ≠ [] := by
  unfold layer
  generalize Text.stripSemicolon (stripComments value) = expr
  dsimp only
  split
  · exact text_unknown_ne_nil
  rename_i hne
  have hne : expr ≠ [] := by simpa using hne
  unfold ofExpression
  split
  · exact text_ofFunction_ne_nil expr
  cases ha : assertion? expr with
  | some a =>
    dsimp only
    split
    · exact h _ _
    · exact target_ne_nil_of_assertion? ha
  | none =>
    cases hl : ofLiteral? expr isConst with
    | none => exact text_ofPrimary_ne_nil h expr isConst
    | some t =>
      obtain rfl | ⟨primitive, hmem, rfl⟩ := ofLiteral?_eq_some hl
      · exact hne
      · have hnames : ∀ p ∈ ["string", "number", "bigint", "boolean"], p.toList ≠ [] := by decide
        exact hnames primitive hmem

end

/-- Every value has a type with a text. -/
theorem text_infer_ne_nil (value : Text) (isConst : Bool) : (infer value isConst).text ≠ [] := by
  induction hn : value.length using Nat.strong_induction_on generalizing value isConst with
  | _ n ih =>
    rw [infer]
    refine text_layer_ne_nil (fun t c => ?_) value isConst
    split
    · rename_i hlt
      exact ih t.length (by omega) t c rfl
    · exact text_unknown_ne_nil

/-! ## Function types -/

theorem kind_ofConstructor (rest : Text) : (ofConstructor rest).kind ≠ .function := by
  unfold ofConstructor
  generalize readDotted rest 0 = read
  obtain ⟨name, behind⟩ := read
  dsimp only
  split
  · nofun
  · split <;> nofun

theorem kind_ofPromise (typeOf : Typing) (expr : Text) :
    (ofPromise typeOf expr).kind ≠ .function := by
  unfold ofPromise
  generalize callArguments? expr "Promise.resolve".toList = resolved
  generalize (callArguments? expr "Promise.reject".toList).isSome = isRejected
  generalize callArguments? expr "Promise.all".toList = all
  cases resolved with
  | some value => nofun
  | none =>
    cases isRejected with
    | true => nofun
    | false =>
      cases all with
      | none => nofun
      | some values =>
        dsimp only
        generalize isBracketed (Text.strip values) '[' = listed
        cases listed <;> nofun

/-- **What is no function itself has a function type** only if a function stands in its brackets, or
if a function is asserted to be constant. -/
theorem function_of_kind {expr : Text} {isConst : Bool} (hnone : isFunctionExpression expr = false)
    (h : (ofExpression infer expr isConst).kind = .function) :
    (isBracketed expr '(' = true ∧ (infer (expr.drop 1).dropLast isConst).kind = .function) ∨
      ∃ value, assertion? expr = some ⟨value, .cast, "const".toList⟩ ∧
        (infer value true).kind = .function := by
  unfold ofExpression at h
  rw [hnone, if_neg Bool.false_ne_true] at h
  cases ha : assertion? expr with
  | some a =>
    rw [ha] at h
    dsimp only at h
    split at h
    · rename_i hconst
      obtain ⟨value, word, target⟩ := a
      obtain ⟨rfl, rfl⟩ := hconst
      exact .inr ⟨value, rfl, h⟩
    · cases h
  | none =>
    rw [ha] at h
    cases hl : ofLiteral? expr isConst with
    | some t =>
      rw [hl, Option.getD_some] at h
      obtain rfl | ⟨primitive, -, rfl⟩ := ofLiteral?_eq_some hl <;> cases h
    | none =>
      rw [hl, Option.getD_none] at h
      unfold ofPrimary at h
      dsimp only at h
      split at h
      · exact absurd h (kind_ofArray _ _ _)
      split at h
      · exact absurd h (kind_ofObject _ _ _)
      split at h
      · rename_i hbracketed
        exact .inl ⟨hbracketed, h⟩
      split at h
      · exact absurd h (kind_ofConstructor _)
      split at h
      · exact absurd h (kind_ofPromise _ _)
      split at h <;> cases h

end ModuleSurface.Narrowing
