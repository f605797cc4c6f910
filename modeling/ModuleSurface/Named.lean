import ModuleSurface.Text.Blank

/-!
# Things by name

Lists of things with a name each: the entries of a directory, the fields of a configuration.
-/

namespace ModuleSurface

/-- Things by name, in an order of their own. -/
abbrev Named (β : Type _) := List (Text × β)

namespace Named

variable {β : Type _}

/-- The list with a thing of the given name; one that has the name already is replaced in its
place. -/
def put (name : Text) (b : β) : Named β → Named β
  | [] => [(name, b)]
  | e :: es => if e.1 == name then (name, b) :: es else e :: put name b es

/-- Is there a thing of the name? -/
def has (es : Named β) (name : Text) : Bool :=
  es.any fun e => e.1 == name

/-- What is put under a name is found there, and every other name keeps its thing. -/
theorem lookup_put (name other : Text) (b : β) (es : Named β) :
    (put name b es).lookup other = if other == name then some b else es.lookup other := by
  induction es with
  | nil => simp only [put, List.lookup_cons, List.lookup_nil]; split <;> simp_all
  | cons e es ih =>
    obtain ⟨k, v⟩ := e
    by_cases hk : k = name
    · subst hk
      simp only [put, beq_self_eq_true, if_true, List.lookup_cons]
      split <;> simp_all
    · have : (k == name) = false := by simpa using hk
      simp only [put, this, Bool.false_eq_true, if_false, List.lookup_cons, ih]
      by_cases ho : other = name
      · subst ho
        have : (other == k) = false := by simpa using fun h => hk h.symm
        simp [this]
      · have : (other == name) = false := by simpa using ho
        simp [this]

end Named

end ModuleSurface
