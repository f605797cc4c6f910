import ModuleSurface.Proofs.Import.Usage

/-!
# What is kept of the imports

An import stays exactly if it is there for its effects or the code mentions a name that it binds,
and it stays with the bindings that are mentioned and no others: `ofUsage_exact`.  The reduction of
one statement decides this (`guard_reduce?`, `ImportStatement.Reduced`); sorting only moves what is
kept.
-/

namespace ModuleSurface

open ModuleSurface.Lexing

/-! ## The names that code mentions -/

theorem Text.ne_nil_of_mem_identifierTokens {t token : Text} (h : token ∈ identifierTokens t) :
    token ≠ [] := by
  fun_induction identifierTokens t with
  | case1 => cases h
  | case2 c t _ ih =>
    rcases List.mem_cons.1 h with rfl | h
    · exact List.cons_ne_nil _ _
    · exact ih h
  | case3 c t _ ih => exact ih h

/-- The empty text is no name that code could mention. -/
theorem contains_identifiers_nil (text : Text) : (identifiers text).contains [] = false := by
  rw [Bool.eq_false_iff, Ne, List.contains_iff_mem]
  intro h
  exact Text.ne_nil_of_mem_identifierTokens h rfl

namespace ImportStatement

variable {s : ImportStatement} {used : Text → Bool}

/-! ## One statement -/

/-- Among the bindings that are used, those that are empty do not count, as none of them is used. -/
theorem isPresent_filter (hused : used [] = false) (name : Option Text) :
    Text.isPresent (name.filter used) = (name.toList.filter (!·.isEmpty)).any used := by
  cases name with
  | none => rfl
  | some name =>
    cases name with
    | nil => simp [Text.isPresent, Option.filter, hused]
    | cons c t => by_cases h : used (c :: t) = true <;> simp [Text.isPresent, Option.filter, h]

/-- Something of a statement is used exactly if one of its local names is. -/
theorem any_localNames (hused : used [] = false) (s : ImportStatement) :
    s.localNames.any used = (Text.isPresent (s.defaultBinding.filter used) ||
      Text.isPresent (s.namespaceBinding.filter used) ||
      !(s.namedBindings.filter fun b => used b.localName).isEmpty) := by
  have hnamed : (s.namedBindings.map (·.localName)).any used =
      !(s.namedBindings.filter fun b => used b.localName).isEmpty := by
    rw [Bool.eq_iff_iff]
    simp
  rw [isPresent_filter hused, isPresent_filter hused, localNames, List.any_append,
    List.filter_append, List.any_append, hnamed]

/-- The import carries exactly the used bindings of its statement, and its text is the statement
written with them. -/
structure Reduced (used : Text → Bool) (r : RetainedImport) : Prop where
  /-- The default binding is carried if it is used. -/
  defaultBinding : r.statement.isSideEffect = false →
    r.defaultBinding = r.statement.defaultBinding.filter used
  /-- The namespace binding is carried if it is used. -/
  namespaceBinding : r.statement.isSideEffect = false →
    r.namespaceBinding = r.statement.namespaceBinding.filter used
  /-- The named bindings that are used are carried in their order. -/
  namedBindings : r.statement.isSideEffect = false →
    r.namedBindings = r.statement.namedBindings.filter fun b => used b.localName
  /-- The text is the statement with these bindings. -/
  text : r.text = r.statement.render r.defaultBinding r.namespaceBinding r.namedBindings

theorem reduced_reduce? {r : RetainedImport} (h : s.reduce? used = some r) :
    r.statement = s ∧ Reduced used r := by
  unfold reduce? at h
  split at h
  · rename_i heffect
    cases h
    have hno : s.isSideEffect ≠ false := by simp [heffect]
    exact ⟨rfl, fun h => absurd h hno, fun h => absurd h hno, fun h => absurd h hno, rfl⟩
  · simp only at h
    split at h
    · cases h
    · cases h
      exact ⟨rfl, fun _ => rfl, fun _ => rfl, fun _ => rfl, rfl⟩

/-- A statement is kept exactly if it is there for its effects or one of its names is used. -/
theorem guard_reduce? (hused : used [] = false) (s : ImportStatement) :
    (s.reduce? used).map (·.statement) =
      Option.guard (fun s => s.isSideEffect || s.localNames.any used) s := by
  unfold reduce?
  by_cases heffect : s.isSideEffect = true
  · simp [Option.guard, heffect]
  · simp only [Option.guard, heffect, any_localNames hused, Bool.false_or]
    cases Text.isPresent (s.defaultBinding.filter used) <;>
      cases Text.isPresent (s.namespaceBinding.filter used) <;>
      cases (s.namedBindings.filter fun b => used b.localName).isEmpty <;> rfl

end ImportStatement

namespace RetainedImport

open ImportStatement

/-! ## The import section -/

/-- No statement is lost or doubled by keeping what is used and sorting it. -/
theorem map_statement_ofUsage (statements : List ImportStatement) (text : Text)
    (preferred : List Text) :
    ((ofUsage statements text preferred).map (·.statement)).Perm
      (statements.filter fun s => s.isSideEffect ||
        s.localNames.any (identifiers text).contains) := by
  have hkept : (statements.filterMap (·.reduce? (identifiers text).contains)).map (·.statement) =
      statements.filter fun s => s.isSideEffect ||
        s.localNames.any (identifiers text).contains := by
    rw [List.map_filterMap, ← List.filterMap_eq_filter]
    exact List.filterMap_congr fun s _ => guard_reduce? (contains_identifiers_nil text) s
  rw [← hkept]
  exact (List.mergeSort_perm _ _).map _

theorem reduced_of_mem_ofUsage {statements : List ImportStatement} {text : Text}
    {preferred : List Text} {r : RetainedImport} (h : r ∈ ofUsage statements text preferred) :
    Reduced (identifiers text).contains r := by
  have hmem := (List.mergeSort_perm _ (precedes preferred)).mem_iff.1 h
  obtain ⟨s, -, hs⟩ := List.mem_filterMap.1 hmem
  exact (reduced_reduce? hs).2

/-- **The import section keeps exactly what is used.**  Every import in it carries the used bindings
of its statement and no others, written out as its text.  A statement is missing exactly if it is
not there for its effects and the code mentions none of its local names; apart from these every
statement occurs as often as before.  The imports come by the rank of their source and then by their
text, and the texts are the same whatever the order of the statements. -/
theorem ofUsage_exact (statements : List ImportStatement) (text : Text) (preferred : List Text) :
    (∀ r ∈ ofUsage statements text preferred, Reduced (identifiers text).contains r) ∧
      (∀ s ∈ statements, (∀ r ∈ ofUsage statements text preferred, r.statement ≠ s) ↔
        s.isSideEffect = false ∧ ∀ name ∈ s.localNames, name ∉ identifiers text) ∧
      ((ofUsage statements text preferred).map (·.statement)).Perm
        (statements.filter fun s => s.isSideEffect ||
          s.localNames.any (identifiers text).contains) ∧
      ((ofUsage statements text preferred).map (key preferred)).Pairwise (· ≤ ·) ∧
      ∀ statements' : List ImportStatement, statements'.Perm statements →
        (ofUsage statements' text preferred).map (·.text) =
          (ofUsage statements text preferred).map (·.text) := by
  have hperm := map_statement_ofUsage statements text preferred
  refine ⟨fun r => reduced_of_mem_ofUsage, ?_, hperm, pairwise_sort _, ?_⟩
  · intro s hs
    have hmem : s ∈ (ofUsage statements text preferred).map (·.statement) ↔
        (s.isSideEffect || s.localNames.any (identifiers text).contains) = true := by
      rw [hperm.mem_iff, List.mem_filter]
      exact and_iff_right hs
    have habsent : (∀ r ∈ ofUsage statements text preferred, r.statement ≠ s) ↔
        s ∉ (ofUsage statements text preferred).map (·.statement) := by
      simp
    rw [habsent, hmem]
    simp
  · intro statements' h
    exact map_text_ofUsage h (fun _ => Iff.rfl) preferred

/-- Of three imports the one for its effects stays, the one whose alias is mentioned stays with that
binding and in front, as its source is preferred, and the one of which only a string speaks goes. -/
example :
    (ofUsage
        [{ source := "a".toList, isSideEffect := true },
          { source := "b".toList, defaultBinding := some "d".toList },
          { source := "bun".toList, namedBindings := [{ name := "x".toList },
            { name := "y".toList, rename := some "z".toList }] }]
        "declare let v: z | 'd' | x1;".toList ["bun".toList]).map (·.text) =
      ["import \x7b y as z \x7d from 'bun';".toList, "import 'a';".toList] := by
  cbv

end RetainedImport

end ModuleSurface
