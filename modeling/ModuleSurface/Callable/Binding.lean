import ModuleSurface.Callable.Reading

/-!
# Binding patterns

A parameter may be a pattern that takes a value apart.  `withoutDefaults` keeps the shape of such a
pattern and drops the default values at every depth.
-/

namespace ModuleSurface.Callable.Binding

open ModuleSurface.Lexing

/-- An entry of a pattern without its default, where `shape` is applied to a nested pattern. -/
def entry (shape : Text → Text) (element : Text) : Text :=
  let target :=
    match findAssignment? element with
    | some eq => Text.strip (element.take eq)
    | none => element
  match findOutermost? target ":".toList 0 false with
  | some colon =>
    Text.strip (target.take colon) ++ ": ".toList ++ shape (Text.strip (target.drop (colon + 1)))
  | none =>
    if target.head? == some '{' || target.head? == some '[' then shape target else target

/-- A pattern without its defaults, where `shape` is applied to the patterns nested in it.  Anything
but a pattern in curly or square brackets is only stripped. -/
def layer (shape : Text → Text) (text : Text) : Text :=
  match Text.strip text with
  | c :: d :: rest =>
    if c == '{' || c == '[' then
      let entries := (splitCommas (d :: rest).dropLast).map (entry shape)
      let inner := Text.join ", ".toList entries
      if c == '{' then
        if entries.isEmpty then "\x7b\x7d".toList else "\x7b ".toList ++ inner ++ " \x7d".toList
      else "[".toList ++ inner ++ "]".toList
    else c :: d :: rest
  | short => short

/-- A pattern without the default values at any depth. -/
def withoutDefaults (text : Text) : Text :=
  layer (fun nested => if nested.length < text.length then withoutDefaults nested else nested) text
termination_by text.length

/-! ## The recursion goes to shorter patterns only -/

theorem entry_congr {f g : Text → Text} {element : Text}
    (h : ∀ t : Text, t.length ≤ element.length → f t = g t) :
    entry f element = entry g element := by
  have hcut : ∀ t : Text, t.length ≤ element.length → ∀ colon,
      (Text.strip (t.drop (colon + 1))).length ≤ element.length := by
    intro t ht colon
    have := Text.length_strip_le (t.drop (colon + 1))
    simp only [List.length_drop] at this
    omega
  have hstrip : ∀ eq, (Text.strip (element.take eq)).length ≤ element.length := by
    intro eq
    have := Text.length_strip_le (element.take eq)
    simp only [List.length_take] at this
    omega
  unfold entry
  split
  · rename_i eq _
    simp only
    split
    · rw [h _ (hcut _ (hstrip eq) _)]
    · rw [h _ (hstrip eq)]
  · simp only
    split
    · rw [h _ (hcut _ (Nat.le_refl _) _)]
    · rw [h _ (Nat.le_refl _)]

theorem layer_congr {f g : Text → Text} {text : Text}
    (h : ∀ t : Text, t.length < text.length → f t = g t) : layer f text = layer g text := by
  have hs := Text.length_strip_le text
  unfold layer
  split
  · rename_i c d rest hstrip
    rw [hstrip] at hs
    split
    · have : (splitCommas (d :: rest).dropLast).map (entry f) =
          (splitCommas (d :: rest).dropLast).map (entry g) := by
        refine List.map_congr_left fun e he => entry_congr fun t ht => h t ?_
        have := length_le_of_mem_splitOutermost he
        simp only [List.length_dropLast, List.length_cons] at this hs
        omega
      simp only [this]
    · rfl
  · rfl

/-- A pattern is its own layer around the patterns nested in it. -/
theorem withoutDefaults_eq (text : Text) : withoutDefaults text = layer withoutDefaults text := by
  rw [withoutDefaults]
  exact layer_congr fun t ht => by simp [ht]

end ModuleSurface.Callable.Binding
