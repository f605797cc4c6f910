import ModuleSurface.Text.Basic

/-!
# Finding a text in another one

What is found stands where it is found, and nothing of it stands further to the front.  Pieces that
were cut out of a text one after the other are found again in that order (`InOrder`).
-/

namespace ModuleSurface.Text

/-! ## Searching -/

/-- What is found stands there. -/
theorem eq_of_findFrom {needle t : Text} {start n : Nat} (h : findFrom needle start t = some n) :
    ∃ a b, t = a ++ (needle ++ b) ∧ n = start + a.length := by
  induction t generalizing start with
  | nil =>
    simp only [findFrom] at h
    split at h
    · rename_i hempty
      cases h
      rw [List.isEmpty_iff.1 hempty]
      exact ⟨[], [], rfl, rfl⟩
    · cases h
  | cons c t ih =>
    simp only [findFrom] at h
    split at h
    · rename_i hprefix
      cases h
      obtain ⟨b, hb⟩ := List.isPrefixOf_iff_prefix.1 hprefix
      exact ⟨[], b, hb.symm, rfl⟩
    · obtain ⟨a, b, rfl, rfl⟩ := ih h
      exact ⟨c :: a, b, rfl, by simp; omega⟩

/-- What stands somewhere is found there or further to the front. -/
theorem findFrom_le (needle a b : Text) (start : Nat) :
    ∃ n ≤ start + a.length, findFrom needle start (a ++ (needle ++ b)) = some n := by
  induction a generalizing start with
  | nil =>
    refine ⟨start, Nat.le_refl _, ?_⟩
    cases needle with
    | nil => cases b <;> simp [findFrom]
    | cons c needle => simp [findFrom]
  | cons c a ih =>
    rw [List.cons_append, findFrom]
    split
    · exact ⟨start, Nat.le_add_right _ _, rfl⟩
    · obtain ⟨n, hn, hfind⟩ := ih (start + 1)
      exact ⟨n, by simp only [List.length_cons]; omega, hfind⟩

/-- A text is searched from the front on. -/
theorem findFrom_append_of_not_mem (needle : Text) {d : Char} {t : Text} (hd : d ∉ t)
    (hneedle : needle.head? = some d) (start : Nat) (rest : Text) :
    findFrom needle start (t ++ rest) = findFrom needle (start + t.length) rest := by
  obtain ⟨n, rfl⟩ := List.head?_eq_some_iff.1 hneedle
  induction t generalizing start with
  | nil => rfl
  | cons c t ih =>
    rw [List.mem_cons, not_or] at hd
    rw [List.cons_append, findFrom, if_neg (by simp [hd.1]), ih hd.2, List.length_cons]
    congr 1
    omega

/-- The characters up to the first one that does not satisfy `p` are determined. -/
theorem eq_of_append_cons {p : Char → Bool} {w v r r' : Text} {c d : Char}
    (hw : ∀ a ∈ w, p a = true) (hv : ∀ a ∈ v, p a = true) (hc : p c = false) (hd : p d = false)
    (h : w ++ c :: r = v ++ d :: r') : w = v := by
  have htake := congrArg (List.takeWhile p) h
  rw [List.takeWhile_append_of_pos hw, List.takeWhile_append_of_pos hv,
    List.takeWhile_cons_of_neg (by simp [hc]), List.takeWhile_cons_of_neg (by simp [hd]),
    List.append_nil, List.append_nil] at htake
  exact htake

/-- A text that is not found stands nowhere. -/
theorem containsText_eq_false_iff {t needle : Text} :
    containsText t needle = false ↔ ¬ needle <:+: t := by
  rw [containsText, Option.isSome_eq_false_iff, Option.isNone_iff_eq_none]
  refine ⟨?_, fun h => ?_⟩
  · rintro hnone ⟨a, b, rfl⟩
    obtain ⟨n, -, hfind⟩ := findFrom_le needle a b 0
    rw [find?, List.append_assoc, hfind] at hnone
    cases hnone
  · cases hfind : find? t needle with
    | none => rfl
    | some n =>
      obtain ⟨a, b, rfl, -⟩ := eq_of_findFrom hfind
      exact absurd ⟨a, b, List.append_assoc a needle b⟩ h

/-! ## Pieces in order -/

/-- The pieces stand in the text one behind the other. -/
def InOrder : Text → List Text → Prop
  | _, [] => True
  | t, d :: ds => ∃ a b, t = a ++ (d ++ b) ∧ InOrder b ds

namespace InOrder

variable {t d : Text} {ds : List Text}

theorem append_left (a : Text) (h : InOrder t ds) : InOrder (a ++ t) ds := by
  cases ds with
  | nil => trivial
  | cons d ds =>
    obtain ⟨x, b, rfl, hb⟩ := h
    exact ⟨a ++ x, b, by simp, hb⟩

theorem append_right (h : InOrder t ds) (b : Text) : InOrder (t ++ b) ds := by
  induction ds generalizing t with
  | nil => trivial
  | cons d ds ih =>
    obtain ⟨a, t', rfl, ht'⟩ := h
    exact ⟨a, t' ++ b, by simp, ih ht'⟩

theorem of_isInfix {u : Text} (h : InOrder u ds) (hu : u <:+: t) : InOrder t ds := by
  obtain ⟨a, b, rfl⟩ := hu
  rw [List.append_assoc]
  exact (h.append_right b).append_left a

theorem map {f : Text → Text} (hf : ∀ u, f u <:+: u) (h : InOrder t ds) :
    InOrder t (ds.map f) := by
  induction ds generalizing t with
  | nil => trivial
  | cons d ds ih =>
    obtain ⟨a, b, rfl, hb⟩ := h
    obtain ⟨x, y, hd⟩ := hf d
    refine ⟨a ++ x, y ++ b, ?_, (ih hb).append_left y⟩
    have hsplit : a ++ (d ++ b) = a ++ ((x ++ f d ++ y) ++ b) := by
      rw [hd]
    rw [hsplit]
    simp only [List.append_assoc]

theorem filter (p : Text → Bool) (h : InOrder t ds) : InOrder t (ds.filter p) := by
  induction ds generalizing t with
  | nil => trivial
  | cons d ds ih =>
    obtain ⟨a, b, rfl, hb⟩ := h
    rw [List.filter_cons]
    split
    · exact ⟨a, b, rfl, ih hb⟩
    · rw [← List.append_assoc]
      exact (ih hb).append_left (a ++ d)

/-- The first piece is found, and the others stand behind it. -/
theorem exists_find? (h : InOrder t (d :: ds)) :
    ∃ a b, t = a ++ (d ++ b) ∧ find? t d = some a.length ∧ InOrder b ds := by
  obtain ⟨a, b, rfl, hb⟩ := h
  obtain ⟨n, hn, hfind⟩ := findFrom_le d a b 0
  obtain ⟨a', b', heq, rfl⟩ := eq_of_findFrom hfind
  refine ⟨a', b', heq, by rwa [Nat.zero_add] at hfind, ?_⟩
  -- behind the first occurrence there is at least what is behind any other one
  have hsuffix : b <:+ b' := by
    have hown : b <:+ a ++ (d ++ b) := (List.suffix_append d b).trans (List.suffix_append a _)
    have hfound : b' <:+ a ++ (d ++ b) := by
      rw [heq]
      exact (List.suffix_append d b').trans (List.suffix_append a' _)
    refine List.suffix_of_suffix_length_le hown hfound ?_
    · have hlength := congrArg List.length heq
      simp only [List.length_append] at hlength
      omega
  obtain ⟨x, rfl⟩ := hsuffix
  exact hb.append_left x

end InOrder

end ModuleSurface.Text
