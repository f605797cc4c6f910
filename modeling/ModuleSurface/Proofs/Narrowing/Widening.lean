import ModuleSurface.Narrowing.Descent
import ModuleSurface.Proofs.Narrowing.Literal

/-!
# Constants and variables

A constant keeps the literals that a variable widens.  The two types of a value are the same up to
that, unless the value is listed part by part: `infer_upToWidening`.

* `ofLiteral?_upToWidening` — widening a literal gives the primitive type that the variable has;
* `ofExpression_upToWidening` — every other rule gives both the same type, or types the text inside
  its brackets.
-/

namespace ModuleSurface

/-! ## The characters of numbers -/

namespace Narrowing.Literal

/-- Without its minus sign and its newline a text has all its other characters. -/
theorem mem_dropped {t : Text} {c : Char} (hc : c ∈ t) (hminus : c ≠ '-') (hnewline : c ≠ '\n') :
    c ∈ dropMinus (dropNewline t) := by
  have hkept : c ∈ dropNewline t := by
    unfold dropNewline
    split
    · rename_i hlast
      obtain ⟨u, rfl⟩ := List.getLast?_eq_some_iff.1 (beq_iff_eq.1 hlast)
      rw [Text.dropLast, List.dropLast_concat]
      simpa [hnewline] using hc
    · exact hc
  unfold dropMinus
  split
  · rename_i u hu
    rw [hu] at hkept
    exact (List.mem_cons.1 hkept).resolve_left hminus
  · exact hkept

/-- A number has no other characters than a numeral and a newline. -/
theorem isNumberChar_of_isNumber {t : Text} (h : isNumber t = true) {c : Char}
    (hc : c ∈ dropMinus (dropNewline t)) : isNumberChar c = true := by
  rw [isNumber, Bool.or_eq_true] at h
  exact (h.elim numeral_of_isRadixNumber numeral_of_isDecimalNumber).chars c hc

theorem isNumberChar_of_isBigInt {t : Text} (h : isBigInt t = true) {c : Char}
    (hc : c ∈ dropMinus (dropNewline t)) : isNumberChar c = true ∨ c = 'n' := by
  rw [isBigInt, Bool.and_eq_true, beq_iff_eq] at h
  obtain ⟨digits, hdigits⟩ := List.getLast?_eq_some_iff.1 h.1
  rw [hdigits, Text.dropLast, List.dropLast_concat] at h
  rw [hdigits, List.mem_append, List.mem_singleton] at hc
  exact hc.imp_left ((numeral_of_isDigits h.2).chars c)

/-- The letter of a big integer is in no number. -/
theorem isBigInt_of_isNumber {t : Text} (h : isNumber t = true) : isBigInt t = false := by
  rw [Bool.eq_false_iff]
  intro hbig
  rw [isBigInt, Bool.and_eq_true, beq_iff_eq] at hbig
  exact absurd (isNumberChar_of_isNumber h (List.mem_of_getLast? hbig.1)) (by decide)

/-- A number does not begin like a string. -/
theorem unquoted_of_isNumber {t : Text} (h : isNumber t = true ∨ isBigInt t = true) :
    (t.head?.any fun c => c == '\'' || c == '"' || c == '\x60') = false := by
  have hquotes : ∀ c ∈ ['\'', '"', '\x60'],
      isNumberChar c = false ∧ c ≠ 'n' ∧ c ≠ '-' ∧ c ≠ '\n' := by
    decide
  cases t with
  | nil => rfl
  | cons c t =>
    rw [Bool.eq_false_iff]
    intro hquote
    have hmem : c ∈ ['\'', '"', '\x60'] := by
      simpa [or_assoc] using hquote
    obtain ⟨hchar, hn, hminus, hnewline⟩ := hquotes c hmem
    have hc := mem_dropped (t := c :: t) List.mem_cons_self hminus hnewline
    rcases h with h | h
    · rw [isNumberChar_of_isNumber h hc] at hchar
      cases hchar
    · rcases isNumberChar_of_isBigInt h hc with h | h
      · rw [h] at hchar
        cases hchar
      · exact hn h

end Narrowing.Literal

/-! ## Widening -/

namespace InferredType

open Narrowing

theorem widen_of_kind {t : InferredType} (h : t.kind ≠ .literal) : t.widen = t :=
  if_pos h

theorem widen_string {t : Text}
    (h : (t.head?.any fun c => c == '\'' || c == '"' || c == '\x60') = true) :
    (literal t).widen = reference "string".toList := by
  simp [widen, literal, h]

theorem widen_boolean {t : Text} (h : t = "true".toList ∨ t = "false".toList) :
    (literal t).widen = reference "boolean".toList := by
  rcases h with rfl | rfl <;> decide

theorem widen_number {t : Text} (h : Literal.isNumber t = true) :
    (literal t).widen = reference "number".toList := by
  have hword : ¬ (t = "true".toList ∨ t = "false".toList) := by
    rintro (rfl | rfl) <;> exact absurd h (by decide)
  simp only [widen, literal, ne_eq, not_true_eq_false, if_false,
    Literal.unquoted_of_isNumber (.inl h), Bool.false_eq_true, hword,
    Literal.isBigInt_of_isNumber h, h, if_true]

theorem widen_bigInt {t : Text} (h : Literal.isBigInt t = true) :
    (literal t).widen = reference "bigint".toList := by
  have hword : ¬ (t = "true".toList ∨ t = "false".toList) := by
    rintro (rfl | rfl) <;> exact absurd h (by decide)
  simp only [widen, literal, ne_eq, not_true_eq_false, if_false,
    Literal.unquoted_of_isNumber (.inr h), Bool.false_eq_true, hword, h, if_true]

/-- The types of one value as a constant and as a variable: a literal type widens to what the
variable's type widens to, and any other type that is not listed part by part is the variable's
too. -/
structure UpToWidening (constant mutable : InferredType) : Prop where
  /-- A literal. -/
  literal : constant.kind = .literal → constant.widen = mutable.widen
  /-- Neither a literal nor a list of parts. -/
  other : constant.kind ∉ [.literal, .tuple, .object] → mutable = constant

namespace UpToWidening

theorem refl (t : InferredType) : UpToWidening t t :=
  ⟨fun _ => rfl, fun _ => rfl⟩

/-- Nothing is said of types that are listed part by part. -/
theorem of_parts {constant : InferredType} (h : constant.kind ∈ [.tuple, .object])
    (mutable : InferredType) : UpToWidening constant mutable := by
  simp only [List.mem_cons, List.not_mem_nil, or_false] at h
  constructor
  · rintro hliteral
    rw [hliteral] at h
    rcases h with h | h <;> cases h
  · intro hother
    exact absurd (List.mem_cons_of_mem _ (by simpa using h)) hother

/-- The constant keeps what the variable widens. -/
theorem of_widen {text primitive : Text}
    (h : (InferredType.literal text).widen = reference primitive) :
    UpToWidening (.literal text) (.reference primitive) where
  literal _ := h.trans (widen_of_kind (by simp [reference])).symm
  other hother := absurd List.mem_cons_self hother

end UpToWidening

end InferredType

/-! ## The rules -/

namespace Narrowing

open Lexing InferredType

/-- Both literals, or neither. -/
theorem ofLiteral?_upToWidening (expr : Text) :
    (ofLiteral? expr true = none ∧ ofLiteral? expr false = none) ∨
      ∃ constant mutable, ofLiteral? expr true = some constant ∧
        ofLiteral? expr false = some mutable ∧ UpToWidening constant mutable := by
  unfold ofLiteral?
  simp only [if_true, Bool.false_eq_true, if_false]
  split_ifs with hstring htemplate hsubstitution hnumber hbigInt hboolean hempty
  · exact .inr ⟨_, _, rfl, rfl, .refl _⟩
  · refine .inr ⟨_, _, rfl, rfl, .of_widen (widen_string ?_)⟩
    rw [Bool.and_eq_true, beq_iff_eq] at htemplate
    rw [htemplate.1]
    rfl
  · exact .inr ⟨_, _, rfl, rfl, .refl _⟩
  · exact .inr ⟨_, _, rfl, rfl, .of_widen (widen_number hnumber)⟩
  · exact .inr ⟨_, _, rfl, rfl, .of_widen (widen_bigInt hbigInt)⟩
  · exact .inr ⟨_, _, rfl, rfl, .of_widen (widen_boolean hboolean)⟩
  · exact .inr ⟨_, _, rfl, rfl, .refl _⟩
  · exact .inl ⟨rfl, rfl⟩

variable {typeOf : Typing} {expr : Text}

/-- An array and an object are listed, brackets pass the question on, and calls do not ask. -/
theorem ofPrimary_upToWidening
    (h : ∀ t, t.length < expr.length → UpToWidening (typeOf t true) (typeOf t false)) :
    UpToWidening (ofPrimary typeOf expr true) (ofPrimary typeOf expr false) := by
  unfold ofPrimary
  dsimp only
  split
  · exact .of_parts List.mem_cons_self _
  split
  · refine .of_parts (List.mem_cons_of_mem _ ?_) _
    unfold ofObject
    dsimp only
    split <;> exact List.mem_cons_self
  split
  · rename_i hround
    exact h _ (length_inner_lt hround)
  · exact .refl _

/-- **A level of the inference gives types that are the same up to widening**, if it finds such
types inside the value. -/
theorem ofExpression_upToWidening
    (h : ∀ t, t.length < expr.length → UpToWidening (typeOf t true) (typeOf t false)) :
    UpToWidening (ofExpression typeOf expr true) (ofExpression typeOf expr false) := by
  unfold ofExpression
  split
  · exact .refl _
  split
  · -- what is asserted of the value does not depend on where the value is used
    exact .refl _
  · rcases ofLiteral?_upToWidening expr with ⟨hconst, hmutable⟩ | ⟨_, _, hconst, hmutable, hagree⟩
    · rw [hconst, hmutable]
      exact ofPrimary_upToWidening h
    · rw [hconst, hmutable]
      exact hagree

/-- **A constant and a variable have the same type up to widening.**  If the type of the constant is
a literal, both types widen to the same one; if it is neither a literal, a tuple nor an object type,
the variable has it too. -/
theorem infer_upToWidening (value : Text) :
    ((infer value true).kind = .literal → (infer value true).widen = (infer value false).widen) ∧
      ((infer value true).kind ∉ [.literal, .tuple, .object] →
        infer value false = infer value true) := by
  suffices h : UpToWidening (infer value true) (infer value false) from ⟨h.literal, h.other⟩
  induction hn : value.length using Nat.strong_induction_on generalizing value with
  | _ n ih =>
    rw [infer_eq, infer_eq value false, layer, layer]
    split
    · exact .refl _
    · refine ofExpression_upToWidening fun t ht => ih t.length ?_ t rfl
      have hstripped := Text.length_stripSemicolon_le (stripComments value)
      have huncommented := length_stripComments_le value
      omega

/-- A template with a substitution in brackets, and a promise of values that are listed. -/
theorem infer_upToWidening_nested :
    let template := "(\x60a$\x7bb\x7d\x60 /* c */);".toList
    let promise := "Promise.all([1, ['x'], (-2n)])".toList
    ((infer template true).kind = .literal ∧
        (infer template true).widen = (infer template false).widen) ∧
      (infer promise true).kind ∉ [.literal, .tuple, .object] ∧
        infer promise false = infer promise true := by
  intro template promise
  have hliteral : (infer template true).kind = .literal := by decide +kernel
  have hother : (infer promise true).kind ∉ [.literal, .tuple, .object] := by decide +kernel
  exact ⟨⟨hliteral, (infer_upToWidening template).1 hliteral⟩, hother,
    (infer_upToWidening promise).2 hother⟩

end Narrowing

end ModuleSurface
