import Mathlib.Logic.Relation
import ModuleSurface.Narrowing.Descent
import ModuleSurface.Proofs.Narrowing.Method

/-!
# The inference returns on every text

The inference calls itself for the values inside a value, through arrays, objects, functions,
parameters and promises.  Every such call is about a shorter text, so the calls of the inference are
well-founded by the length of the text, and the recursion returns whatever it is given.

* `length_flatten_splitOutermost_le` — splitting never makes a text longer, all pieces taken
  together;
* `ObjectMethod.length_lt_of_mem_functionText` — the default values of a method are shorter than its
  property, though the function it is read like may be longer;
* `Returns` — the recursion as it runs, without a measure or a limit;
* `infer_wellFounded` — the calls go to shorter texts, and the recursion returns what `infer` gives.
-/

namespace ModuleSurface

namespace Lexing

/-! ## Splitting -/

/-- The pieces of a text that is cut are together not longer than the text. -/
theorem length_flatten_cutAt_le (position : Nat) (text : Text) (cuts : List Nat) :
    (cutAt position text cuts).flatten.length ≤ text.length := by
  induction cuts generalizing position text with
  | nil => simp [cutAt]
  | cons cut cuts ih =>
    have hothers := ih (cut + 1) (text.drop (cut + 1 - position))
    simp only [List.length_drop] at hothers
    simp only [cutAt, List.flatten_cons, List.length_append, List.length_take]
    omega

/-- Stripping the pieces and dropping the empty ones makes them no longer. -/
theorem length_flatten_strip_le (pieces : List Text) :
    ((pieces.map Text.strip).filter (!·.isEmpty)).flatten.length ≤ pieces.flatten.length := by
  induction pieces with
  | nil => exact Nat.le_refl _
  | cons piece pieces ih =>
    have hstrip := Text.length_strip_le piece
    simp only [List.map_cons, List.flatten_cons, List.length_append, List.filter_cons]
    split
    · simp only [List.flatten_cons, List.length_append]
      omega
    · omega

/-- The pieces of a text that is split are together not longer than the text. -/
theorem length_flatten_splitOutermost_le (text : Text) (isSeparator : Char → Bool)
    (angles : Bool) : (splitOutermost text isSeparator angles).flatten.length ≤ text.length :=
  Nat.le_trans (length_flatten_strip_le _) (length_flatten_cutAt_le 0 text _)

end Lexing

namespace Narrowing

open Lexing
open Callable

/-- The default values of a method are shorter than its property, also where the method is read like
a function, whose text may be longer than the property. -/
theorem ObjectMethod.length_lt_of_mem_functionText {property star name : Text} {m : ObjectMethod}
    {isGenerator : Bool} {s : Signature} (hm : ObjectMethod.parse? property = some m)
    (hlast : ∃ c ∈ property.getLast?, Text.isBlank c = false)
    (hstar : ObjectMethod.Star star isGenerator)
    (hs : Signature.parseFunction? (m.functionText star) = some (name, s)) {q : Question}
    (hq : q ∈ parameterQuestions s.parameters) : q.1.length < property.length := by
  rw [ObjectMethod.parseFunction?_functionText hm hlast hstar] at hs
  obtain ⟨r, hr, heq⟩ := Option.map_eq_some_iff.1 hs
  cases heq
  obtain ⟨p, hp, hlt⟩ := exists_length_lt_of_mem_parameterQuestions hq
  have hparameter := Signature.length_lt_of_mem_readAt hr hp
  have hleft := Text.length_stripLeft_le m.rest
  have hrest := ObjectMethod.length_rest_parse?_lt hm
  omega

/-! ## The recursion -/

/-- The inference calls itself for `q` while it types `p`. -/
def Calls (p q : Question) : Prop :=
  q ∈ questions p.1 p.2

/-- A call of the inference returns when all the calls that it makes have returned, and it is the
level of the inference over their answers. -/
inductive Returns : Text → Bool → InferredType → Prop
  | level {value : Text} {isConst : Bool} (answers : Typing) :
      (∀ q ∈ questions value isConst, Returns q.1 q.2 (answers q.1 q.2)) →
        Returns value isConst (layer answers value isConst)

/-- The recursion returns on every text. -/
theorem returns_infer (value : Text) (isConst : Bool) :
    Returns value isConst (infer value isConst) := by
  induction hn : value.length using Nat.strong_induction_on generalizing value isConst with
  | _ n ih =>
    rw [infer_eq]
    exact .level infer fun q hq => ih q.1.length (hn ▸ length_lt_of_mem_questions hq) q.1 q.2 rfl

/-- The recursion returns nothing else. -/
theorem Returns.eq_infer {value : Text} {isConst : Bool} {t : InferredType}
    (h : Returns value isConst t) : t = infer value isConst := by
  induction h with
  | level answers _ ih =>
    rw [infer_eq]
    exact layer_eq_of_agree ih

/-- The calls of calls are about shorter texts, too. -/
theorem length_lt_of_calls {p q : Question} (h : Relation.TransGen Calls p q) :
    q.1.length < p.1.length := by
  induction h with
  | single hcall => exact length_lt_of_mem_questions hcall
  | tail _ hcall ih => exact Nat.lt_trans (length_lt_of_mem_questions hcall) ih

/-- **The inference is well-founded by the length of the text.**  Removing comments and semicolons,
collapsing white space and splitting never lengthen a text; a method of an object is read like the
function that has a header in front of what follows the key, and its default values are shorter than
the property all the same; a level of the inference depends on the calls it makes only, and every
call made on the way to the type of a text, directly or by other calls, is about a shorter text.  So
the recursion returns on every text, with no limit to its depth, and it returns what `infer`
gives. -/
theorem infer_wellFounded :
    (∀ t : Text, (stripComments t).length ≤ t.length ∧ (Text.stripSemicolon t).length ≤ t.length ∧
        (Text.collapse t).length ≤ t.length ∧ ∀ (isSeparator : Char → Bool) (angles : Bool),
          (splitOutermost t isSeparator angles).flatten.length ≤ t.length) ∧
      (∀ content : Text, ∀ property ∈ splitCommas content, ∀ m : ObjectMethod,
        ObjectMethod.parse? property = some m →
          ∀ (star : Text) (isGenerator : Bool), ObjectMethod.Star star isGenerator →
            Signature.parseFunction? (m.functionText star) =
                (Signature.readAt (Text.stripLeft m.rest) 0).map (fun s =>
                  ([], { s with isAsync := m.isAsync, isGenerator := isGenerator })) ∧
              ∀ (name : Text) (s : Signature),
                Signature.parseFunction? (m.functionText star) = some (name, s) →
                  ∀ q ∈ parameterQuestions s.parameters, q.1.length < property.length) ∧
      (∀ (f g : Typing) (value : Text) (isConst : Bool), Agree f g (questions value isConst) →
        layer f value isConst = layer g value isConst) ∧
      (∀ p q : Question, Relation.TransGen Calls p q → q.1.length < p.1.length) ∧
      (WellFounded fun q p : Question => Calls p q) ∧
      ∀ (value : Text) (isConst : Bool) (t : InferredType),
        Returns value isConst t ↔ t = infer value isConst := by
  refine ⟨fun t => ⟨length_stripComments_le t, Text.length_stripSemicolon_le t,
    Text.length_collapse_le t, length_flatten_splitOutermost_le t⟩, ?_,
    fun _ _ _ _ h => layer_eq_of_agree h, fun _ _ h => length_lt_of_calls h, ?_, ?_⟩
  · intro content property hproperty m hm star isGenerator hstar
    have hlast := exists_getLast?_of_mem_splitOutermost hproperty
    exact ⟨ObjectMethod.parseFunction?_functionText hm hlast hstar, fun name s hs q hq =>
      ObjectMethod.length_lt_of_mem_functionText hm hlast hstar hs hq⟩
  · exact Subrelation.wf (fun h => length_lt_of_mem_questions h)
      (measure fun q : Question => q.1.length).wf
  · intro value isConst t
    constructor
    · exact Returns.eq_infer
    · rintro rfl
      exact returns_infer value isConst

example : questions "\x7b a: [1, 2], f(x, y = 'z') \x7b\x7d, get b() \x7b\x7d \x7d".toList true =
    [(" [1, 2]".toList, true), ("'z'".toList, false)] := by
  decide +kernel

end Narrowing

end ModuleSurface
