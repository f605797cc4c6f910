import ModuleSurface.Outline

/-!
# What declarations are made of

Whatever a statement says, the declarations that are read off it have a certain shape: the body of a
class, an interface or an enumeration is a block that was cut out of the statement, and the comments
are those that stood in front of statements.  `shaped_classify` is the only place that goes through
all the forms of a statement for this; `shaped_ofSource` has it for a whole module.
-/

namespace ModuleSurface

open ModuleSurface.Lexing
open ModuleSurface.Statement

/-- Is it declared with a block of its own? -/
def DeclarationKind.hasBlock : DeclarationKind → Bool
  | .classType | .interface | .enum => true
  | _ => false

namespace Declaration

/-- The shape of a declaration, if `P` holds of the comments in front of statements. -/
structure Shaped (P : Text → Prop) (d : Declaration) : Prop where
  /-- Its comment stood in front of a statement. -/
  doc : ∀ t, d.doc = some t → P t
  /-- So did the comment of its signature. -/
  signature : ∀ s, d.signature = some s → ∀ t, s.doc = some t → P t
  /-- And those of its overloads. -/
  overloads : ∀ s ∈ d.overloads, ∀ t, s.doc = some t → P t
  /-- The body of a class, an interface or an enumeration is a block, if there is one. -/
  block : d.kind.hasBlock = true →
    ∃ rest, d.body = some ((splitBlock rest).2.getD "\x7b\x7d".toList)
  /-- So is the body of a module, which may do without. -/
  scope : d.kind = .scope → ∃ rest, d.body = (splitBlock rest).2

/-- What is common to the declarations of a statement, before any of them is read. -/
structure Bare (P : Text → Prop) (base : Declaration) : Prop where
  /-- The comment stood in front of the statement. -/
  doc : ∀ t, base.doc = some t → P t
  /-- There is no signature. -/
  signature : base.signature = none
  /-- There are no overloads. -/
  overloads : base.overloads = []

/-- Every declaration of the finding has the shape. -/
def AllShaped (P : Text → Prop) (f : Finding) : Prop :=
  ∀ d ∈ f.declarations, d.Shaped P

variable {P : Text → Prop} {base : Declaration}

/-! ## Findings -/

namespace AllShaped

theorem empty : AllShaped P {} := by
  intro d hd
  cases hd

theorem notices (notices : List Notice) : AllShaped P { notices } := by
  intro d hd
  cases hd

theorem one {d : Declaration} (h : d.Shaped P) : AllShaped P (.one d) := by
  intro d' hd'
  rw [List.mem_singleton.1 hd']
  exact h

theorem append {f g : Finding} (hf : AllShaped P f) (hg : AllShaped P g) :
    AllShaped P (f ++ g) := by
  intro d hd
  rcases List.mem_append.1 hd with h | h
  · exact hf d h
  · exact hg d h

theorem ite {c : Prop} [Decidable c] {f g : Finding} (hf : AllShaped P f) (hg : AllShaped P g) :
    AllShaped P (if c then f else g) := by
  split
  · exact hf
  · exact hg

end AllShaped

/-! ## The forms of a statement -/

/-- A declaration without a body of its own. -/
theorem Bare.plain (h : base.Bare P) {d : Declaration} (hdoc : d.doc = base.doc)
    (hsignature : d.signature = base.signature) (hoverloads : d.overloads = base.overloads)
    (hblock : d.kind.hasBlock = false) (hscope : d.kind ≠ .scope) : d.Shaped P where
  doc t ht := h.doc t (hdoc ▸ ht)
  signature s hs := by
    rw [hsignature, h.signature] at hs
    cases hs
  overloads s hs := by
    rw [hoverloads, h.overloads] at hs
    cases hs
  block hd := by
    rw [hblock] at hd
    cases hd
  scope hd := absurd hd hscope

theorem shaped_ofBlock (h : base.Bare P) {kind : DeclarationKind} (hkind : kind.hasBlock = true)
    (rest : Text) (modifiers : List Text) : AllShaped P (ofBlock kind rest modifiers base) := by
  have hplain : base.signature = none ∧ base.overloads = [] := ⟨h.signature, h.overloads⟩
  simp only [ofBlock]
  refine .ite (.notices _) (.one ⟨h.doc, ?_, ?_, fun _ => ⟨_, rfl⟩, ?_⟩)
  · simp [hplain.1]
  · simp [hplain.2]
  · rintro rfl
    cases hkind

theorem shaped_ofModule (h : base.Bare P) (keyword rest : Text) :
    AllShaped P (ofModule keyword rest base) := by
  have hplain : base.signature = none ∧ base.overloads = [] := ⟨h.signature, h.overloads⟩
  simp only [ofModule]
  refine .ite .empty (.one ⟨h.doc, ?_, ?_, ?_, fun _ => ⟨_, rfl⟩⟩)
  · simp [hplain.1]
  · simp [hplain.2]
  · rintro ⟨⟩

theorem shaped_ofTypeAlias (h : base.Bare P) (rest : Text) :
    AllShaped P (ofTypeAlias rest base) := by
  simp only [ofTypeAlias]
  split
  · exact .one (h.plain rfl rfl rfl rfl (by simp))
  · exact .empty

theorem shaped_ofFunction (h : base.Bare P) (body : Text) : AllShaped P (ofFunction body base) := by
  have hplain : base.overloads = [] := h.overloads
  unfold ofFunction
  split
  · exact .notices _
  · refine .one ⟨h.doc, ?_, ?_, ?_, ?_⟩
    · rintro s ⟨⟩
      exact h.doc
    · simp [hplain]
    · rintro ⟨⟩
    · simp

theorem shaped_ofDeclarator? (h : base.Bare P) {keyword declarator : Text} {d : Declaration}
    (hd : ofDeclarator? keyword declarator base = some d) : d.Shaped P := by
  simp only [ofDeclarator?] at hd
  split at hd
  · cases hd
  · cases hd
    exact h.plain rfl rfl rfl rfl (by simp)

theorem shaped_ofDeclarators (h : base.Bare P) (keyword : Text) (cursor : Nat)
    (declarators : List Text) : AllShaped P (ofDeclarators keyword base cursor declarators) := by
  induction declarators generalizing base cursor with
  | nil => exact .empty
  | cons declarator others ih =>
    have hown : ∀ offset : Option Nat,
        ((offset.map (movedTo base declarator)).getD base).Bare P := by
      intro offset
      cases offset with
      | none => exact h
      | some o => exact ⟨h.doc, h.signature, h.overloads⟩
    rw [ofDeclarators]
    split
    · exact (AllShaped.notices _).append (ih h _)
    · rename_i d hd
      have hothers : Bare P { base with doc := none } := ⟨by simp, h.signature, h.overloads⟩
      exact (AllShaped.one (shaped_ofDeclarator? (hown _) hd)).append (ih hothers _)

theorem shaped_ofVariables (h : base.Bare P) (keyword rest : Text) :
    AllShaped P (ofVariables keyword rest base) := by
  unfold ofVariables
  split
  · split
    · exact .notices _
    · rename_i hd
      exact .one (shaped_ofDeclarator? h hd)
  · exact shaped_ofDeclarators h _ _ _

theorem shaped_ofImport (h : base.Bare P) (rest : Text) : AllShaped P (ofImport rest base) := by
  unfold ofImport
  refine .ite .empty ?_
  split
  · exact .notices _
  · intro d hd
    rw [List.mem_singleton.1 hd]
    exact h.plain rfl rfl rfl rfl (by simp)

theorem shaped_ofKeyword (h : base.Bare P) (body : Text) :
    AllShaped P (ofKeyword body base) := by
  simp only [ofKeyword]
  refine .ite (shaped_ofImport h _) (.ite (.one (h.plain rfl rfl rfl rfl (by simp))) ?_)
  refine .ite (shaped_ofBlock h rfl _ _) (.ite (shaped_ofVariables h _ _) ?_)
  refine .ite (shaped_ofFunction h _) (.ite (shaped_ofBlock h rfl _ _) ?_)
  refine .ite (shaped_ofTypeAlias h _) (.ite (shaped_ofBlock h rfl _ _) ?_)
  refine .ite (shaped_ofBlock h rfl _ _) (.ite (shaped_ofBlock h rfl _ _) ?_)
  exact .ite (shaped_ofModule h _ _) (.notices _)

theorem shaped_ofAmbient (h : base.Bare P) (body : Text) :
    AllShaped P (ofAmbient body base) := by
  have hambient : Bare P { base with isAmbient := true } := ⟨h.doc, h.signature, h.overloads⟩
  unfold ofAmbient
  split
  · exact shaped_ofKeyword hambient _
  · exact shaped_ofKeyword h _

/-- **Every declaration of a statement has the shape.** -/
theorem shaped_classify (raw : Text) (start : Nat) {doc : Option Text}
    (h : ∀ t, doc = some t → P t) : AllShaped P (classify raw start doc) := by
  simp only [classify]
  refine .ite ?_ (shaped_ofAmbient ⟨h, rfl, rfl⟩ _)
  split
  · rename_i d hd
    unfold ofPassthrough? at hd
    simp only [Option.ite_none_right_eq_some, Option.some.injEq] at hd
    rw [← hd.2]
    exact .one ⟨h, by simp, by simp, by rintro ⟨⟩, by simp⟩
  · split <;> exact shaped_ofAmbient ⟨h, rfl, rfl⟩ _

/-! ## Grouping -/

/-- The declaration is one of several with others of them as its overloads. -/
def Stands (d : Declaration) (ds : List Declaration) : Prop :=
  ∃ d' ∈ ds, ∃ run, run ⊆ ds ∧ d = withOverloads run d'

theorem Stands.mono {d : Declaration} {ds ds' : List Declaration} (h : d.Stands ds)
    (hsub : ds ⊆ ds') : d.Stands ds' := by
  obtain ⟨d', hd', run, hrun, rfl⟩ := h
  exact ⟨d', hsub hd', run, fun r hr => hsub (hrun hr), rfl⟩

/-- The kind and the body are those of the declaration itself. -/
theorem Stands.exists_same {d : Declaration} {ds : List Declaration} (h : d.Stands ds) :
    ∃ d' ∈ ds, d.kind = d'.kind ∧ d.body = d'.body := by
  obtain ⟨d', hd', run, -, rfl⟩ := h
  exact ⟨d', hd', by cases run <;> rfl, by cases run <;> rfl⟩

theorem Stands.shaped {d : Declaration} {ds : List Declaration} (h : d.Stands ds)
    (hds : ∀ d ∈ ds, d.Shaped P) : d.Shaped P := by
  obtain ⟨d', hd', run, hrun, rfl⟩ := h
  have hd := hds d' hd'
  cases run with
  | nil => exact hd
  | cons first others =>
    refine ⟨hd.doc, hd.signature, ?_, hd.block, hd.scope⟩
    intro s hs
    obtain ⟨r, hr, hsignature⟩ := List.mem_filterMap.1 hs
    exact (hds r (hrun hr)).signature s hsignature

theorem stands_ofRun {run : List Declaration} {d : Declaration} (h : d ∈ ofRun run) :
    d.Stands run := by
  unfold ofRun at h
  split at h
  · cases h
  · rename_i primary hlast
    rw [List.mem_singleton.1 h]
    exact ⟨primary, List.mem_of_getLast? hlast, _, List.dropLast_subset run, rfl⟩

/-- What grouping does with one declaration: the functions in front of it are closed or not, and it
closes the run it belongs to or joins it. -/
theorem groupFrom_cons (run : List Declaration) (d : Declaration) (ds : List Declaration) :
    ∃ closed run', (closed = [] ∧ run' = run ∨ closed = ofRun run ∧ run' = []) ∧
      (groupFrom run (d :: ds) = closed ++ withOverloads run' d :: groupFrom [] ds ∨
        groupFrom run (d :: ds) = closed ++ groupFrom (run' ++ [d]) ds) := by
  rw [groupFrom]
  split
  · rename_i signature _ _
    by_cases hname : run.head?.all (·.name == d.name) = true
    · refine ⟨[], run, .inl ⟨rfl, rfl⟩, ?_⟩
      by_cases hbody : signature.hasBody = true <;> simp [hname, hbody]
    · refine ⟨ofRun run, [], .inr ⟨rfl, rfl⟩, ?_⟩
      by_cases hbody : signature.hasBody = true <;> simp [hname, hbody]
  · exact ⟨ofRun run, [], .inr ⟨rfl, rfl⟩, .inl rfl⟩

/-- Grouping overloads invents no declaration. -/
theorem stands_groupFrom {run ds : List Declaration} {d : Declaration}
    (h : d ∈ groupFrom run ds) : d.Stands (run ++ ds) := by
  induction ds generalizing run with
  | nil =>
    rw [List.append_nil]
    exact stands_ofRun h
  | cons e ds ih =>
    obtain ⟨closed, run', hrun, hgroup⟩ := groupFrom_cons run e ds
    have hclosed : d ∈ closed → d.Stands (run ++ e :: ds) := by
      intro hd
      rcases hrun with ⟨rfl, -⟩ | ⟨rfl, -⟩
      · cases hd
      · exact (stands_ofRun hd).mono (List.subset_append_left _ _)
    -- Closed or not, what is left of the run was in front of `e`.
    have hsub : run' ⊆ run := by
      rcases hrun with ⟨-, rfl⟩ | ⟨-, rfl⟩
      · exact List.Subset.refl _
      · exact List.nil_subset _
    rcases hgroup with hgroup | hgroup <;> rw [hgroup] at h <;>
      rcases List.mem_append.1 h with h | h
    · exact hclosed h
    · rcases List.mem_cons.1 h with rfl | h
      · exact ⟨e, by simp, run', fun r hr => List.mem_append_left _ (hsub hr), rfl⟩
      · refine (ih h).mono ?_
        intro x hx
        simp only [List.nil_append] at hx
        simp [hx]
    · exact hclosed h
    · refine (ih h).mono ?_
      intro x hx
      simp only [List.append_assoc, List.singleton_append, List.mem_append, List.mem_cons] at hx ⊢
      rcases hx with hx | hx
      · exact .inl (hsub hx)
      · exact .inr hx

end Declaration

namespace Outline

open Declaration

theorem shaped_findings {P : Text → Prop} (text : Text) (skipping : Bool) {ss : List Segment}
    (h : ∀ s ∈ ss, ∀ t, s.doc = some t → P t) : AllShaped P (findings text skipping ss) := by
  induction ss generalizing skipping with
  | nil => exact .empty
  | cons s ss ih =>
    rw [findings]
    refine ((AllShaped.notices _).append ?_).append
      (ih _ fun s' hs' => h s' (List.mem_cons_of_mem _ hs'))
    by_cases hskip : skipping = true
    · rw [if_pos hskip]
      exact .notices _
    · rw [if_neg hskip]
      split
      · exact .empty
      · exact shaped_classify _ _ (h s List.mem_cons_self)

/-- **Every declaration of an outline has the shape.** -/
theorem shaped_ofSource {P : Text → Prop} {text : Text} {o : Outline} (h : ofSource text = .ok o)
    (hdoc : ∀ s, .segment s ∈ (segments .module text).pieces → ∀ t, s.doc = some t → P t) :
    ∀ d ∈ o.declarations, d.Shaped P := by
  have hsegments : ∀ s ∈ segmentsOf (segments .module text).pieces, ∀ t, s.doc = some t → P t := by
    intro s hs
    obtain ⟨piece, hpiece, heq⟩ := List.mem_filterMap.1 hs
    cases piece with
    | header line => cases heq
    | segment s' =>
      cases heq
      exact hdoc s hpiece
  intro d hd
  simp only [ofSource] at h
  split at h
  · cases h
  · cases h
    exact (stands_groupFrom hd).shaped (shaped_findings text false hsegments)

end Outline

end ModuleSurface
