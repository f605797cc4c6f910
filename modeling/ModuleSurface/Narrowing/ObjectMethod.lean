import ModuleSurface.Callable.Signature

/-!
# Methods of object literals

A property of an object literal may be a method, a getter or a setter.  `ObjectMethod.parse?` reads
its marks, its key and what follows the key.
-/

namespace ModuleSurface.Narrowing

open ModuleSurface.Callable

/-- How a property is accessed. -/
inductive Accessor where
  /-- Read through a function. -/
  | getter
  /-- Written through a function. -/
  | setter
  deriving DecidableEq, Repr

/-- A method of an object literal. -/
structure ObjectMethod where
  /-- Is it marked `async`? -/
  isAsync : Bool
  /-- Is it a getter or a setter? -/
  accessor : Option Accessor
  /-- The key as written. -/
  key : Text
  /-- What follows the key: white space, then type parameters or the parameter list. -/
  rest : Text
  deriving DecidableEq, Repr

namespace ObjectMethod

/-- The key at the start of a text, and what follows it: an identifier, a quoted name or a row of
digits. -/
def key? : Text → Option (Text × Text)
  | [] => none
  | c :: t =>
    if Text.isIdentStart c then
      some (c :: t.takeWhile Text.isIdentChar, t.dropWhile Text.isIdentChar)
    else if c == '\'' || c == '"' then
      match t.dropWhile (· != c) with
      | quote :: rest => some (c :: t.takeWhile (· != c) ++ [quote], rest)
      | [] => none
    else if Text.isDecimal c then
      some (c :: t.takeWhile Text.isDecimal, t.dropWhile Text.isDecimal)
    else none

/-- A key in front of type parameters or a parameter list. -/
def keyed? (isAsync : Bool) (accessor : Option Accessor) (t : Text) : Option ObjectMethod :=
  match key? t with
  | none => none
  | some (key, rest) =>
    if (Text.stripLeft rest).head?.any fun c => c == '<' || c == '(' then
      some { isAsync := isAsync, accessor := accessor, key := key, rest := rest }
    else none

/-- A key behind an optional accessor word.  The word is the key itself where no key follows it. -/
def accessed? (isAsync : Bool) (t : Text) : Option ObjectMethod :=
  ((afterWord? "get".toList t).bind (keyed? isAsync (some .getter))).or
    (((afterWord? "set".toList t).bind (keyed? isAsync (some .setter))).or (keyed? isAsync none t))

/-- A method behind an optional star. -/
def starred? (isAsync : Bool) (t : Text) : Option ObjectMethod :=
  match t with
  | '*' :: rest => accessed? isAsync (Text.stripLeft rest)
  | _ => accessed? isAsync t

/-- The method that a property is, if it is one. -/
def parse? (property : Text) : Option ObjectMethod :=
  ((afterAsync? property).bind (starred? true)).or (starred? false property)

/-! ## Where the key stands -/

theorem eq_append_of_key? {t key rest : Text} (h : key? t = some (key, rest)) :
    t = key ++ rest ∧ key ≠ [] := by
  cases t with
  | nil => simp [key?] at h
  | cons c t =>
    simp only [key?] at h
    split at h
    · cases h
      simp
    split at h
    · split at h
      · rename_i quote r hr
        cases h
        have hsplit := List.takeWhile_append_dropWhile (p := (· != c)) (l := t)
        rw [hr] at hsplit
        simp [hsplit]
      · cases h
    split at h
    · cases h
      simp
    · cases h

theorem eq_append_of_keyed? {isAsync : Bool} {accessor : Option Accessor} {t : Text}
    {m : ObjectMethod} (h : keyed? isAsync accessor t = some m) :
    t = m.key ++ m.rest ∧ m.key ≠ [] := by
  simp only [keyed?] at h
  split at h
  · cases h
  · rename_i key rest hk
    split at h
    · cases h
      exact eq_append_of_key? hk
    · cases h

theorem exists_keyed?_of_accessed? {isAsync : Bool} {t : Text} {m : ObjectMethod}
    (h : accessed? isAsync t = some m) :
    ∃ accessor u, u <:+ t ∧ keyed? isAsync accessor u = some m := by
  simp only [accessed?, Option.or_eq_some_iff] at h
  rcases h with h | ⟨_, h | ⟨_, h⟩⟩
  · obtain ⟨r, hr, hm⟩ := Option.bind_eq_some_iff.1 h
    exact ⟨_, r, afterWord?_suffix hr, hm⟩
  · obtain ⟨r, hr, hm⟩ := Option.bind_eq_some_iff.1 h
    exact ⟨_, r, afterWord?_suffix hr, hm⟩
  · exact ⟨_, t, List.suffix_rfl, h⟩

theorem exists_keyed?_of_starred? {isAsync : Bool} {t : Text} {m : ObjectMethod}
    (h : starred? isAsync t = some m) :
    ∃ accessor u, u <:+ t ∧ keyed? isAsync accessor u = some m := by
  unfold starred? at h
  split at h
  · obtain ⟨accessor, u, hu, hm⟩ := exists_keyed?_of_accessed? h
    exact ⟨accessor, u,
      hu.trans ((List.dropWhile_suffix _).trans (List.suffix_cons _ _)), hm⟩
  · exact exists_keyed?_of_accessed? h

/-- The key of a method stands behind its marks. -/
theorem exists_keyed?_of_parse? {property : Text} {m : ObjectMethod}
    (h : parse? property = some m) :
    ∃ isAsync accessor u, u <:+ property ∧ keyed? isAsync accessor u = some m := by
  simp only [parse?, Option.or_eq_some_iff] at h
  rcases h with h | ⟨_, h⟩
  · obtain ⟨r, hr, hm⟩ := Option.bind_eq_some_iff.1 h
    obtain ⟨accessor, u, hu, hm⟩ := exists_keyed?_of_starred? hm
    exact ⟨true, accessor, u, hu.trans (afterWord?_suffix hr), hm⟩
  · obtain ⟨accessor, u, hu, hm⟩ := exists_keyed?_of_starred? h
    exact ⟨false, accessor, u, hu, hm⟩

/-- What follows the key is shorter than the property. -/
theorem length_rest_parse?_lt {property : Text} {m : ObjectMethod}
    (h : parse? property = some m) : m.rest.length < property.length := by
  obtain ⟨_, _, u, hu, hm⟩ := exists_keyed?_of_parse? h
  obtain ⟨rfl, hkey⟩ := eq_append_of_keyed? hm
  have hpos := List.length_pos_iff.2 hkey
  have hle := hu.length_le
  rw [List.length_append] at hle
  omega

end ObjectMethod

end ModuleSurface.Narrowing
