import Mathlib.Data.List.Lex
import Mathlib.Data.Prod.Lex
import Mathlib.Data.Char
import ModuleSurface.Import.Usage

/-!
# The import section

The import section depends only on which imports there are and which names the code mentions, not on
the order of either: `map_text_ofUsage`.  The imports are sorted by a key (`RetainedImport.key`)
that ends with their text, so imports which the order cannot tell apart are written alike.
-/

namespace ModuleSurface

open ModuleSurface.Lexing

/-- The order of texts is the lexicographic order. -/
theorem Text.le_iff {s t : Text} : Text.le s t = true ↔ s ≤ t := by
  induction s generalizing t with
  | nil => cases t <;> simp [Text.le, le_iff_lt_or_eq]
  | cons a s ih =>
    cases t with
    | nil => simp [Text.le, le_iff_lt_or_eq]
    | cons b t =>
      simp only [Text.le, Bool.or_eq_true, decide_eq_true_eq, Bool.and_eq_true, beq_iff_eq, ih,
        le_iff_lt_or_eq, List.cons_lt_cons_iff, List.cons.injEq]
      tauto

namespace RetainedImport

variable {preferred : List Text}

/-- What an import is sorted by: the rank of its source, then its text. -/
def key (preferred : List Text) (r : RetainedImport) : Nat ×ₗ Text :=
  toLex (priority r.statement.source preferred, r.text)

theorem precedes_iff {a b : RetainedImport} :
    precedes preferred a b = true ↔ a.key preferred ≤ b.key preferred := by
  simp [precedes, key, Prod.Lex.toLex_le_toLex, Text.le_iff]

theorem pairwise_sort (imports : List RetainedImport) :
    ((sort imports preferred).map (key preferred)).Pairwise (· ≤ ·) := by
  rw [List.pairwise_map]
  refine (List.pairwise_mergeSort ?_ ?_ imports).imp precedes_iff.1
  · intro a b c hab hbc
    exact precedes_iff.2 ((precedes_iff.1 hab).trans (precedes_iff.1 hbc))
  · intro a b
    rcases le_total (a.key preferred) (b.key preferred) with h | h
    · simp [precedes_iff.2 h]
    · simp [precedes_iff.2 h]

/-- Sorting forgets the order in which the imports came. -/
theorem map_text_sort {imports imports' : List RetainedImport} (h : imports.Perm imports') :
    (sort imports preferred).map (·.text) = (sort imports' preferred).map (·.text) := by
  have hperm : (sort imports preferred).Perm (sort imports' preferred) :=
    ((List.mergeSort_perm imports _).trans h).trans (List.mergeSort_perm imports' _).symm
  have hkeys : (sort imports preferred).map (key preferred) =
      (sort imports' preferred).map (key preferred) :=
    (hperm.map _).eq_of_pairwise (fun _ _ _ _ => le_antisymm) (pairwise_sort imports)
      (pairwise_sort imports')
  -- Equal keys do not make equal imports, but the text is part of the key.
  have htexts := congrArg (List.map fun k => (ofLex k).2) hkeys
  rwa [List.map_map, List.map_map] at htexts

/-- **The import section depends only on the imports and on the names that are used**, not on the
order of either. -/
theorem map_text_ofUsage {statements statements' : List ImportStatement} {t t' : Text}
    (h : statements.Perm statements') (hused : ∀ name, name ∈ identifiers t ↔ name ∈ identifiers t')
    (preferred : List Text) :
    (ofUsage statements t preferred).map (·.text) =
      (ofUsage statements' t' preferred).map (·.text) := by
  have hcontains : (identifiers t).contains = (identifiers t').contains := by
    funext name
    rw [Bool.eq_iff_iff, List.contains_iff_mem, List.contains_iff_mem]
    exact hused name
  simp only [ofUsage, hcontains]
  exact map_text_sort (h.filterMap _)

end RetainedImport

end ModuleSurface
