import ModuleSurface.Narrowing.Infer

/-!
# The inference goes to shorter texts only

`questions` lists the values whose types a level of the inference asks for, rule by rule and in the
order in which the rules ask.  A level depends on the answers to these questions and on nothing else
(`layer_eq_of_agree`), and each of them is about a shorter text, whatever pieces the rules cut it
from (`length_lt_of_mem_questions`).  So `infer` is its own level (`infer_eq`).
-/

namespace ModuleSurface.Narrowing

open ModuleSurface.Lexing
open ModuleSurface.Callable

/-- A value whose type is asked for, and whether it is constant. -/
abbrev Question := Text × Bool

/-- Two typings that answer the questions alike. -/
def Agree (f g : Typing) (asked : List Question) : Prop :=
  ∀ q ∈ asked, f q.1 q.2 = g q.1 q.2

/-- Two typings that agree on texts shorter than `n`. -/
def AgreeBelow (n : Nat) (f g : Typing) : Prop :=
  ∀ (t : Text) (c : Bool), t.length < n → f t c = g t c

variable {f g : Typing}

/-- Keeping and mapping depends on the values at the members only. -/
theorem filterMap_congr_mem {α β : Type} {p q : α → Option β} {l : List α}
    (h : ∀ a ∈ l, p a = q a) : l.filterMap p = l.filterMap q := by
  induction l with
  | nil => rfl
  | cons a l ih =>
    have ih := ih fun b hb => h b (List.mem_cons_of_mem a hb)
    simp only [List.filterMap_cons, h a List.mem_cons_self, ih]

/-- The text inside the brackets at both ends is shorter. -/
theorem length_inner_lt {expr : Text} {c : Char} (h : isBracketed expr c = true) :
    ((expr.drop 1).dropLast).length < expr.length := by
  cases expr with
  | nil => simp [isBracketed] at h
  | cons d t =>
    simp only [List.drop_one, List.tail_cons, List.length_dropLast, List.length_cons]
    omega

/-! ## Parameters -/

/-- The questions about the default values of parameters. -/
def parameterQuestions (parameters : List Text) : List Question :=
  parameters.filterMap fun p => (Parameter.parse p).asked?.map fun value => (value, false)

theorem renderParameters_eq_of_agree {parameters : List Text}
    (h : Agree f g (parameterQuestions parameters)) :
    renderParameters (widenedText f) parameters = renderParameters (widenedText g) parameters := by
  refine renderParameters_congr fun p hp value hvalue => ?_
  have hq := h (value, false)
    (List.mem_filterMap.2 ⟨p, hp, Option.map_eq_some_iff.2 ⟨value, hvalue, rfl⟩⟩)
  simp only [widenedText, hq]

/-- A default value is shorter than the parameter it stands in. -/
theorem exists_length_lt_of_mem_parameterQuestions {parameters : List Text} {q : Question}
    (h : q ∈ parameterQuestions parameters) : ∃ p ∈ parameters, q.1.length < p.length := by
  obtain ⟨p, hp, hq⟩ := List.mem_filterMap.1 h
  obtain ⟨value, hvalue, rfl⟩ := Option.map_eq_some_iff.1 hq
  exact ⟨p, hp, Parameter.length_asked?_lt hvalue⟩

theorem ofSignature_eq_of_agree {s : Signature} (h : Agree f g (parameterQuestions s.parameters))
    (isAsync : Bool) : ofSignature f s isAsync = ofSignature g s isAsync := by
  simp only [ofSignature, renderParameters_eq_of_agree h]

/-! ## Arrays and objects -/

/-- The questions about the elements of an array. -/
def arrayQuestions (content : Text) (isConst : Bool) : List Question :=
  (splitCommas content).map fun e => (e, isConst)

theorem ofArray_eq_of_agree {content : Text} {isConst : Bool}
    (h : Agree f g (arrayQuestions content isConst)) :
    ofArray f content isConst = ofArray g content isConst := by
  have hmem : ∀ e ∈ splitCommas content, f e isConst = g e isConst := fun e he =>
    h (e, isConst) (List.mem_map.2 ⟨e, he, rfl⟩)
  cases isConst with
  | true =>
    have htypes : ((splitCommas content).map fun e => (f e true).text) =
        (splitCommas content).map fun e => (g e true).text :=
      List.map_congr_left fun e he => by rw [hmem e he]
    simp only [ofArray, htypes, if_true]
  | false =>
    have hmembers : ((splitCommas content).map fun e => (f e false).inUnion) =
        (splitCommas content).map fun e => (g e false).inUnion :=
      List.map_congr_left fun e he => by rw [hmem e he]
    simp only [ofArray, hmembers, Bool.false_eq_true, if_false]

theorem length_le_of_mem_arrayQuestions {content : Text} {isConst : Bool} {q : Question}
    (h : q ∈ arrayQuestions content isConst) : q.1.length ≤ content.length := by
  obtain ⟨e, he, rfl⟩ := List.mem_map.1 h
  exact length_le_of_mem_splitOutermost he

/-- The questions about the default values of a method.  An accessor is typed by what is written at
it. -/
def methodQuestions (m : ObjectMethod) : List Question :=
  match Signature.readAt (Text.stripLeft m.rest) 0, m.accessor with
  | some s, none => parameterQuestions s.parameters
  | _, _ => []

theorem methodType?_eq_of_agree {m : ObjectMethod} (h : Agree f g (methodQuestions m)) :
    methodType? f m = methodType? g m := by
  unfold methodType?
  unfold methodQuestions at h
  cases hs : Signature.readAt (Text.stripLeft m.rest) 0 with
  | none => rfl
  | some s =>
    cases ha : m.accessor with
    | some a => cases a <;> rfl
    | none =>
      simp only [hs, ha] at h
      simp only [ofSignature_eq_of_agree h]

theorem length_lt_of_mem_methodQuestions {m : ObjectMethod} {q : Question}
    (h : q ∈ methodQuestions m) : q.1.length < m.rest.length := by
  unfold methodQuestions at h
  split at h
  · rename_i s hs _
    obtain ⟨p, hp, hq⟩ := exists_length_lt_of_mem_parameterQuestions h
    have h₁ := Signature.length_lt_of_mem_readAt hs hp
    have h₂ := Text.length_stripLeft_le m.rest
    omega
  · cases h

/-- The questions about a property: its value, if its key has a type at all, or the default values
of a method. -/
def entryQuestions (isConst : Bool) (property : Text) : List Question :=
  if "...".toList.isPrefixOf property then []
  else
    match ObjectMethod.parse? property with
    | some m => methodQuestions m
    | none =>
      match findOutermost? property ":".toList 0 false with
      | none => []
      | some colon =>
        if (propertyKey? (property.take colon)).isSome then [(property.drop (colon + 1), isConst)]
        else []

theorem entryOf?_eq_of_agree {property : Text} {isConst : Bool}
    (h : Agree f g (entryQuestions isConst property)) :
    entryOf? f isConst property = entryOf? g isConst property := by
  unfold entryOf?
  unfold entryQuestions at h
  split
  · rfl
  · rename_i hspread
    rw [if_neg hspread] at h
    cases hm : ObjectMethod.parse? property with
    | some m =>
      simp only [hm] at h
      simp only [methodType?_eq_of_agree h]
    | none =>
      cases hcolon : findOutermost? property ":".toList 0 false with
      | none => rfl
      | some colon =>
        simp only [hm, hcolon] at h
        cases hkey : propertyKey? (property.take colon) with
        | none => simp only [hkey, Option.map_none]
        | some key =>
          simp only [hkey, Option.isSome_some, if_true] at h
          simp only [h _ List.mem_cons_self]

/-- A text in which something is found is not empty. -/
theorem length_pos_of_findOutermost? {text target : Text} {start i : Nat} {angles : Bool}
    (h : findOutermost? text target start angles = some i) : 0 < text.length := by
  refine List.length_pos_iff.2 ?_
  rintro rfl
  simp [findOutermost?, outermost, visits, visitsFrom, outermostFrom] at h

theorem length_lt_of_mem_entryQuestions {property : Text} {isConst : Bool} {q : Question}
    (h : q ∈ entryQuestions isConst property) : q.1.length < property.length := by
  unfold entryQuestions at h
  split at h
  · cases h
  split at h
  · rename_i m hm
    exact Nat.lt_trans (length_lt_of_mem_methodQuestions h) (ObjectMethod.length_rest_parse?_lt hm)
  split at h
  · cases h
  · rename_i colon hcolon
    have hpos := length_pos_of_findOutermost? hcolon
    split at h
    · obtain rfl := List.mem_singleton.1 h
      simp only [List.length_drop]
      omega
    · cases h

/-- The questions about the properties of an object. -/
def objectQuestions (content : Text) (isConst : Bool) : List Question :=
  (splitCommas content).flatMap (entryQuestions isConst)

theorem ofObject_eq_of_agree {content : Text} {isConst : Bool}
    (h : Agree f g (objectQuestions content isConst)) :
    ofObject f content isConst = ofObject g content isConst := by
  have : (splitCommas content).filterMap (entryOf? f isConst) =
      (splitCommas content).filterMap (entryOf? g isConst) :=
    filterMap_congr_mem fun p hp =>
      entryOf?_eq_of_agree fun q hq => h q (List.mem_flatMap.2 ⟨p, hp, hq⟩)
  simp only [ofObject, this]

theorem length_lt_of_mem_objectQuestions {content : Text} {isConst : Bool} {q : Question}
    (h : q ∈ objectQuestions content isConst) : q.1.length < content.length := by
  obtain ⟨p, hp, hq⟩ := List.mem_flatMap.1 h
  have h₁ := length_lt_of_mem_entryQuestions hq
  have h₂ := length_le_of_mem_splitOutermost hp
  omega

/-! ## Functions -/

/-- The question about the body of an arrow function, if its type is not written and the body is no
block. -/
def bodyQuestions (head body : Text) : List Question :=
  if head.head? == some ':' && !(Text.strip (head.drop 1)).isEmpty then []
  else if body.head? == some '{' then []
  else [(body, false)]

theorem arrowReturn_eq_of_agree {head body : Text} (h : Agree f g (bodyQuestions head body))
    (isAsync : Bool) : arrowReturn f head body isAsync = arrowReturn g head body isAsync := by
  unfold arrowReturn
  unfold bodyQuestions at h
  dsimp only
  split
  · rfl
  · rename_i hwritten
    rw [if_neg hwritten] at h
    split
    · rfl
    · rename_i hblock
      rw [if_neg hblock] at h
      simp only [h _ List.mem_cons_self]

/-- The questions about an arrow function. -/
def arrowQuestions (text : Text) : List Question :=
  match arrowParameters? text (skipBlank text (readGenerics text 0).2) with
  | none => []
  | some (parameters, after) =>
    match findOutermost? after "=>".toList 0 true with
    | none => []
    | some arrow =>
      parameterQuestions parameters ++
        bodyQuestions (Text.strip (after.take arrow)) (Text.strip (after.drop (arrow + 2)))

theorem ofArrow_eq_of_agree {text : Text} (h : Agree f g (arrowQuestions text)) (isAsync : Bool) :
    ofArrow f text isAsync = ofArrow g text isAsync := by
  unfold ofArrow
  unfold arrowQuestions at h
  dsimp only
  split
  · rfl
  · rename_i parameters after hparameters
    simp only [hparameters] at h
    split
    · rfl
    · rename_i arrow harrow
      simp only [harrow] at h
      rw [renderParameters_eq_of_agree fun q hq => h q (List.mem_append_left _ hq),
        arrowReturn_eq_of_agree fun q hq => h q (List.mem_append_right _ hq)]

theorem arrowParameters?_length {text : Text} {i : Nat} {parameters : List Text} {after : Text}
    (h : arrowParameters? text i = some (parameters, after)) :
    (∀ p ∈ parameters, p.length ≤ text.length) ∧ after.length ≤ text.length := by
  simp only [arrowParameters?] at h
  split at h
  · obtain ⟨close, _, hc⟩ := Option.map_eq_some_iff.1 h
    cases hc
    refine ⟨fun p hp => Nat.le_trans (length_le_of_mem_splitOutermost hp)
      (Text.length_slice_le _ _ _), ?_⟩
    simp only [List.length_drop]
    omega
  · split at h
    · cases h
    · cases h
      refine ⟨fun p hp => ?_, ?_⟩
      · simp only [List.mem_singleton] at hp
        subst hp
        have h₁ := (List.takeWhile_prefix Text.isIdentChar
          (l := text.drop (skipBlank text i))).length_le
        simp only [List.length_drop] at h₁
        simp only [readIdentifier]
        omega
      · simp only [List.length_drop]
        omega

theorem length_lt_of_mem_arrowQuestions {text : Text} {q : Question}
    (h : q ∈ arrowQuestions text) : q.1.length < text.length := by
  unfold arrowQuestions at h
  split at h
  · cases h
  · rename_i parameters after hparameters
    obtain ⟨hlist, hafter⟩ := arrowParameters?_length hparameters
    split at h
    · cases h
    · rename_i arrow harrow
      rcases List.mem_append.1 h with h | h
      · obtain ⟨p, hp, hq⟩ := exists_length_lt_of_mem_parameterQuestions h
        exact Nat.lt_of_lt_of_le hq (hlist p hp)
      · have hpos := length_pos_of_findOutermost? harrow
        have hbody := Text.length_strip_le (after.drop (arrow + 2))
        simp only [List.length_drop] at hbody
        unfold bodyQuestions at h
        split at h
        · cases h
        split at h
        · cases h
        · obtain rfl := List.mem_singleton.1 h
          dsimp only
          omega

/-- The questions about a function expression. -/
def functionQuestions (expr : Text) : List Question :=
  let rest := (afterAsync? expr).getD expr
  if "function".toList.isPrefixOf rest then
    match Signature.parseFunction? rest with
    | some (_, s) => parameterQuestions s.parameters
    | none => []
  else arrowQuestions rest

theorem ofFunction_eq_of_agree {expr : Text} (h : Agree f g (functionQuestions expr)) :
    ofFunction f expr = ofFunction g expr := by
  unfold ofFunction
  unfold functionQuestions at h
  dsimp only at h ⊢
  split
  · rename_i hkeyword
    rw [if_pos hkeyword] at h
    split
    · rename_i name s hs
      simp only [hs] at h
      exact ofSignature_eq_of_agree h _
    · rfl
  · rename_i hkeyword
    rw [if_neg hkeyword] at h
    exact ofArrow_eq_of_agree h _

theorem length_le_of_mem_parseFunction? {text name p : Text} {s : Signature}
    (h : Signature.parseFunction? text = some (name, s)) (hp : p ∈ s.parameters) :
    p.length ≤ text.length := by
  simp only [Signature.parseFunction?] at h
  split at h
  · obtain ⟨r, hr, hs⟩ := Option.map_eq_some_iff.1 h
    cases hs
    have h₁ := Signature.length_lt_of_mem_readAt hr hp
    have h₂ := Text.length_strip_le text
    cases ha : afterAsync? (Text.strip text) with
    | none =>
      simp only [ha, Option.getD_none] at h₁
      omega
    | some rest =>
      have h₃ := length_afterWord?_lt ha
      simp only [ha, Option.getD_some] at h₁
      omega
  · cases h

theorem length_lt_of_mem_functionQuestions {expr : Text} {q : Question}
    (h : q ∈ functionQuestions expr) : q.1.length < expr.length := by
  have hrest : ((afterAsync? expr).getD expr).length ≤ expr.length := by
    cases ha : afterAsync? expr with
    | none => exact Nat.le_refl _
    | some rest => exact Nat.le_of_lt (length_afterWord?_lt ha)
  unfold functionQuestions at h
  dsimp only at h
  split at h
  · split at h
    · rename_i name s hs
      obtain ⟨p, hp, hq⟩ := exists_length_lt_of_mem_parameterQuestions h
      have := length_le_of_mem_parseFunction? hs hp
      omega
    · cases h
  · exact Nat.lt_of_lt_of_le (length_lt_of_mem_arrowQuestions h) hrest

/-! ## Calls -/

/-- The questions about a call that makes a promise. -/
def promiseQuestions (expr : Text) : List Question :=
  match callArguments? expr "Promise.resolve".toList with
  | some value => if Text.isBlankText value then [] else [(value, false)]
  | none =>
    if (callArguments? expr "Promise.reject".toList).isSome then []
    else
      match callArguments? expr "Promise.all".toList with
      | none => []
      | some values =>
        if isBracketed (Text.strip values) '[' then
          arrayQuestions ((Text.strip values).drop 1).dropLast false
        else []

theorem ofPromise_eq_of_agree {expr : Text} (h : Agree f g (promiseQuestions expr)) :
    ofPromise f expr = ofPromise g expr := by
  unfold ofPromise
  unfold promiseQuestions at h
  split
  · rename_i value hvalue
    simp only [hvalue] at h
    by_cases hblank : Text.isBlankText value = true
    · simp only [hblank, if_true]
    · simp only [hblank, Bool.false_eq_true, if_false] at h ⊢
      simp only [h _ List.mem_cons_self]
  · rename_i hresolve
    simp only [hresolve] at h
    split
    · rfl
    · rename_i hreject
      rw [if_neg hreject] at h
      split
      · rfl
      · rename_i values hvalues
        simp only [hvalues] at h
        dsimp only
        split
        · rename_i hlist
          rw [if_pos hlist] at h
          have : ((splitCommas ((Text.strip values).drop 1).dropLast).map
                fun e => (f e false).text) =
              (splitCommas ((Text.strip values).drop 1).dropLast).map
                fun e => (g e false).text :=
            List.map_congr_left fun e he => by
              rw [h (e, false) (List.mem_map.2 ⟨e, he, rfl⟩)]
          rw [this]
        · rfl

theorem length_callArguments?_lt {expr callee value : Text}
    (h : callArguments? expr callee = some value) : value.length < expr.length := by
  simp only [callArguments?] at h
  split at h
  · rename_i hc
    cases h
    have hp := (Bool.and_eq_true_iff.1 hc).1
    have := (List.isPrefixOf_iff_prefix.1 hp).length_le
    simp only [List.length_append, List.length_dropLast, List.length_drop] at this ⊢
    simp at this
    omega
  · cases h

theorem length_lt_of_mem_promiseQuestions {expr : Text} {q : Question}
    (h : q ∈ promiseQuestions expr) : q.1.length < expr.length := by
  unfold promiseQuestions at h
  split at h
  · rename_i value hvalue
    split at h
    · cases h
    · obtain rfl := List.mem_singleton.1 h
      exact length_callArguments?_lt hvalue
  split at h
  · cases h
  split at h
  · cases h
  · rename_i values hvalues
    split at h
    · rename_i hlist
      have h₁ := length_callArguments?_lt hvalues
      have h₂ := Text.length_strip_le values
      have h₃ := length_inner_lt hlist
      have h₄ := length_le_of_mem_arrayQuestions h
      omega
    · cases h

/-! ## All rules -/

/-- The questions about an expression that is neither a function, an assertion nor a literal. -/
def primaryQuestions (expr : Text) (isConst : Bool) : List Question :=
  let inner := (expr.drop 1).dropLast
  if isBracketed expr '[' then arrayQuestions inner isConst
  else if isBracketed expr '{' then objectQuestions inner isConst
  else if isBracketed expr '(' then [(inner, isConst)]
  else
    match afterWord? "new".toList expr with
    | some _ => []
    | none => if "Promise.".toList.isPrefixOf expr then promiseQuestions expr else []

theorem ofPrimary_eq_of_agree {expr : Text} {isConst : Bool}
    (h : Agree f g (primaryQuestions expr isConst)) :
    ofPrimary f expr isConst = ofPrimary g expr isConst := by
  unfold ofPrimary
  unfold primaryQuestions at h
  dsimp only at h ⊢
  split
  · rename_i hsquare
    rw [if_pos hsquare] at h
    exact ofArray_eq_of_agree h
  rename_i hsquare
  rw [if_neg hsquare] at h
  split
  · rename_i hbrace
    rw [if_pos hbrace] at h
    exact ofObject_eq_of_agree h
  rename_i hbrace
  rw [if_neg hbrace] at h
  split
  · rename_i hround
    rw [if_pos hround] at h
    exact h _ List.mem_cons_self
  rename_i hround
  rw [if_neg hround] at h
  split
  · rfl
  · rename_i hnew
    simp only [hnew] at h
    split
    · rename_i hpromise
      rw [if_pos hpromise] at h
      exact ofPromise_eq_of_agree h
    · rfl

theorem length_lt_of_mem_primaryQuestions {expr : Text} {isConst : Bool} {q : Question}
    (h : q ∈ primaryQuestions expr isConst) : q.1.length < expr.length := by
  unfold primaryQuestions at h
  dsimp only at h
  split at h
  · rename_i hsquare
    exact Nat.lt_of_le_of_lt (length_le_of_mem_arrayQuestions h) (length_inner_lt hsquare)
  split at h
  · rename_i hbrace
    exact Nat.lt_trans (length_lt_of_mem_objectQuestions h) (length_inner_lt hbrace)
  split at h
  · rename_i hround
    obtain rfl := List.mem_singleton.1 h
    exact length_inner_lt hround
  split at h
  · cases h
  split at h
  · exact length_lt_of_mem_promiseQuestions h
  · cases h

/-- The questions about an expression without comments and surrounding blanks. -/
def expressionQuestions (expr : Text) (isConst : Bool) : List Question :=
  if isFunctionExpression expr then functionQuestions expr
  else
    match assertion? expr with
    | some a => if a.word = .cast ∧ a.target = "const".toList then [(a.value, true)] else []
    | none =>
      if (ofLiteral? expr isConst).isSome then [] else primaryQuestions expr isConst

theorem ofExpression_eq_of_agree {expr : Text} {isConst : Bool}
    (h : Agree f g (expressionQuestions expr isConst)) :
    ofExpression f expr isConst = ofExpression g expr isConst := by
  unfold ofExpression
  unfold expressionQuestions at h
  split
  · rename_i hfunction
    rw [if_pos hfunction] at h
    exact ofFunction_eq_of_agree h
  rename_i hfunction
  rw [if_neg hfunction] at h
  split
  · rename_i a ha
    simp only [ha] at h
    split
    · rename_i hconst
      rw [if_pos hconst] at h
      exact h _ List.mem_cons_self
    · rfl
  · rename_i ha
    simp only [ha] at h
    cases hliteral : ofLiteral? expr isConst with
    | some t => rfl
    | none =>
      simp only [hliteral, Option.isSome_none, Bool.false_eq_true, if_false] at h
      exact ofPrimary_eq_of_agree h

theorem length_lt_of_mem_expressionQuestions {expr : Text} {isConst : Bool} {q : Question}
    (h : q ∈ expressionQuestions expr isConst) : q.1.length < expr.length := by
  unfold expressionQuestions at h
  split at h
  · exact length_lt_of_mem_functionQuestions h
  split at h
  · rename_i a ha
    split at h
    · obtain rfl := List.mem_singleton.1 h
      exact length_value_lt ha
    · cases h
  split at h
  · cases h
  · exact length_lt_of_mem_primaryQuestions h

/-- The questions that a level of the inference asks about a value. -/
def questions (value : Text) (isConst : Bool) : List Question :=
  let expr := Text.stripSemicolon (stripComments value)
  if expr.isEmpty then [] else expressionQuestions expr isConst

/-- A level of the inference depends on the answers to its questions only. -/
theorem layer_eq_of_agree {value : Text} {isConst : Bool}
    (h : Agree f g (questions value isConst)) : layer f value isConst = layer g value isConst := by
  unfold layer
  unfold questions at h
  dsimp only at h ⊢
  split
  · rfl
  · rename_i hexpr
    rw [if_neg hexpr] at h
    exact ofExpression_eq_of_agree h

/-- Every question is about a shorter text. -/
theorem length_lt_of_mem_questions {value : Text} {isConst : Bool} {q : Question}
    (h : q ∈ questions value isConst) : q.1.length < value.length := by
  unfold questions at h
  dsimp only at h
  split at h
  · cases h
  · have h₁ := length_lt_of_mem_expressionQuestions h
    have h₂ := Text.length_stripSemicolon_le (stripComments value)
    have h₃ := length_stripComments_le value
    omega

/-- A level of the inference depends on the types of shorter texts only. -/
theorem layer_congr {value : Text} (h : AgreeBelow value.length f g) (isConst : Bool) :
    layer f value isConst = layer g value isConst :=
  layer_eq_of_agree fun q hq => h q.1 q.2 (length_lt_of_mem_questions hq)

/-- The inference is its own level: the values inside a value are typed by the inference itself. -/
theorem infer_eq (value : Text) (isConst : Bool) :
    infer value isConst = layer infer value isConst := by
  rw [infer]
  exact layer_congr (fun t c ht => by simp [ht]) isConst

end ModuleSurface.Narrowing
