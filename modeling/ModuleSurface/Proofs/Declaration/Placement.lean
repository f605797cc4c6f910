import ModuleSurface.Declaration.Classify
import ModuleSurface.Declaration.Overload

/-!
# Where a statement stands

What a statement declares does not depend on where the statement stands: at another offset it
declares the same, with the offsets of its declarations moved along.  Each reader of declarations
has its own lemma here, and `Declaration.moved_classify` puts them together.  Overloads are grouped
alike wherever they stand: `Declaration.groupFrom_relocate`.
-/

namespace ModuleSurface

open ModuleSurface.Statement

/-- The declaration at an offset moved by `n`. -/
def Declaration.moved (n : Nat) (d : Declaration) : Declaration :=
  { d with start := n + d.start, stop := n + d.stop }

/-- The finding `there` has the declarations of `here`, moved by `n`, and its imports. -/
structure Finding.Moved (n : Nat) (here there : Finding) : Prop where
  /-- The declarations. -/
  declarations : there.declarations = here.declarations.map (Declaration.moved n)
  /-- The imports. -/
  imports : there.imports = here.imports

namespace Finding.Moved

variable {n : Nat}

theorem empty : Finding.Moved n {} {} :=
  ⟨rfl, rfl⟩

theorem notices (a b : List Notice) : Finding.Moved n { notices := a } { notices := b } :=
  ⟨rfl, rfl⟩

theorem notice (a b : Notice) : Finding.Moved n (.notice a) (.notice b) :=
  notices [a] [b]

theorem one (d : Declaration) : Finding.Moved n (.one d) (.one (d.moved n)) :=
  ⟨rfl, rfl⟩

theorem append {f f' g g' : Finding} (hf : Finding.Moved n f f') (hg : Finding.Moved n g g') :
    Finding.Moved n (f ++ g) (f' ++ g') where
  declarations := by
    show f'.declarations ++ g'.declarations = (f.declarations ++ g.declarations).map _
    rw [hf.declarations, hg.declarations, List.map_append]
  imports := by
    show f'.imports ++ g'.imports = f.imports ++ g.imports
    rw [hf.imports, hg.imports]

theorem trans {m : Nat} {f g h : Finding} (hfg : Finding.Moved m f g)
    (hgh : Finding.Moved n g h) : Finding.Moved (n + m) f h where
  declarations := by
    rw [hgh.declarations, hfg.declarations, List.map_map]
    refine List.map_congr_left fun d _ => ?_
    simp [Declaration.moved, Nat.add_assoc]
  imports := hgh.imports.trans hfg.imports

theorem ite {c : Prop} [Decidable c] {f f' g g' : Finding} (hf : Finding.Moved n f f')
    (hg : Finding.Moved n g g') :
    Finding.Moved n (if c then f else g) (if c then f' else g') := by
  split
  · exact hf
  · exact hg

end Finding.Moved

namespace Declaration

variable {n : Nat}

/-! ## Blocks and functions -/

theorem moved_ofBlock (kind : DeclarationKind) (rest : Text) (modifiers : List Text)
    (base : Declaration) :
    Finding.Moved n (ofBlock kind rest modifiers base)
      (ofBlock kind rest modifiers (base.moved n)) :=
  .ite (.notice _ _) (.one _)

theorem moved_ofModule (keyword rest : Text) (base : Declaration) :
    Finding.Moved n (ofModule keyword rest base) (ofModule keyword rest (base.moved n)) :=
  .ite .empty (.one _)

theorem moved_ofTypeAlias (rest : Text) (base : Declaration) :
    Finding.Moved n (ofTypeAlias rest base) (ofTypeAlias rest (base.moved n)) := by
  simp only [ofTypeAlias]
  split
  · exact .one _
  · exact .empty

theorem moved_ofFunction (body : Text) (base : Declaration) :
    Finding.Moved n (ofFunction body base) (ofFunction body (base.moved n)) := by
  unfold ofFunction
  split
  · exact .notice _ _
  · exact .one _

/-! ## Variables -/

theorem ofDeclarator?_moved (keyword declarator : Text) (base : Declaration) :
    ofDeclarator? keyword declarator (base.moved n) =
      (ofDeclarator? keyword declarator base).map (Declaration.moved n) := by
  simp only [ofDeclarator?]
  split <;> rfl

theorem movedTo_moved (base : Declaration) (declarator : Text) (offset : Nat) :
    (base.moved n).movedTo declarator offset = (base.movedTo declarator offset).moved n := by
  simp [movedTo, Declaration.moved, Nat.add_assoc]

theorem moved_ofDeclarators (keyword : Text) (base : Declaration) (cursor : Nat)
    (declarators : List Text) :
    Finding.Moved n (ofDeclarators keyword base cursor declarators)
      (ofDeclarators keyword (base.moved n) cursor declarators) := by
  induction declarators generalizing base cursor with
  | nil => exact .empty
  | cons declarator others ih =>
    have hraw : (base.moved n).raw = base.raw := rfl
    have hown : ∀ o : Option Nat, (o.map (movedTo (base.moved n) declarator)).getD (base.moved n) =
        ((o.map (movedTo base declarator)).getD base).moved n := by
      intro o
      cases o with
      | none => rfl
      | some offset => exact movedTo_moved base declarator offset
    simp only [ofDeclarators, hraw, hown, ofDeclarator?_moved]
    cases ofDeclarator? keyword declarator
        (((Text.find? (base.raw.drop cursor) declarator).map (cursor + ·)).map
          (movedTo base declarator) |>.getD base) with
    | none => exact (Finding.Moved.notice _ _).append (ih base _)
    | some d => exact (Finding.Moved.one d).append (ih { base with doc := none } _)

theorem moved_ofVariables (keyword rest : Text) (base : Declaration) :
    Finding.Moved n (ofVariables keyword rest base) (ofVariables keyword rest (base.moved n)) := by
  unfold ofVariables
  split
  · rename_i declarator _
    rw [ofDeclarator?_moved]
    cases ofDeclarator? keyword declarator base with
    | none => exact .notice _ _
    | some d => exact .one d
  · exact moved_ofDeclarators keyword base 0 _

/-! ## Imports and exports -/

theorem moved_ofImport (rest : Text) (base : Declaration) :
    Finding.Moved n (ofImport rest base) (ofImport rest (base.moved n)) := by
  have hraw : (base.moved n).raw = base.raw := rfl
  unfold ofImport
  refine .ite .empty ?_
  rw [hraw]
  split
  · exact .notice _ _
  · exact ⟨rfl, rfl⟩

theorem ofPassthrough?_moved (body : Text) (base : Declaration) :
    ofPassthrough? body (base.moved n) =
      (ofPassthrough? body base).map (Declaration.moved n) := by
  simp only [ofPassthrough?]
  rw [apply_ite (Option.map (Declaration.moved n))]
  rfl

/-! ## Statements -/

theorem moved_ofKeyword (body : Text) (base : Declaration) :
    Finding.Moved n (ofKeyword body base) (ofKeyword body (base.moved n)) := by
  refine .ite (moved_ofImport _ _) (.ite (.one _) ?_)
  refine .ite (moved_ofBlock _ _ _ _) (.ite (moved_ofVariables _ _ _) ?_)
  refine .ite (moved_ofFunction _ _) (.ite (moved_ofBlock _ _ _ _) ?_)
  refine .ite (moved_ofTypeAlias _ _) (.ite (moved_ofBlock _ _ _ _) ?_)
  refine .ite (moved_ofBlock _ _ _ _) (.ite (moved_ofBlock _ _ _ _) ?_)
  exact .ite (moved_ofModule _ _ _) (.notice _ _)

theorem moved_ofAmbient (body : Text) (base : Declaration) :
    Finding.Moved n (ofAmbient body base) (ofAmbient body (base.moved n)) := by
  unfold ofAmbient
  split
  · exact moved_ofKeyword _ { base with isAmbient := true }
  · exact moved_ofKeyword _ base

/-- **A statement declares the same at every offset.** -/
theorem moved_classify (raw : Text) (start : Nat) (doc : Option Text) :
    Finding.Moved n (classify raw start doc) (classify raw (n + start) doc) := by
  have hbase : ∀ exported default : Bool,
      ({ kind := .exports, raw := raw, doc := doc, start := n + start,
         stop := n + start + raw.length, isExported := exported, isDefault := default } :
            Declaration) =
        Declaration.moved n
          { kind := .exports, raw := raw, doc := doc, start := start, stop := start + raw.length,
            isExported := exported, isDefault := default } := by
    intro exported default
    simp [Declaration.moved, Nat.add_assoc]
  simp only [classify, hbase]
  refine .ite ?_ (moved_ofAmbient _ _)
  rw [ofPassthrough?_moved]
  cases ofPassthrough? (Callable.stripDecorators ((Callable.stripDecorators raw).drop 6))
      { kind := .exports, raw := raw, doc := doc, start := start, stop := start + raw.length,
        isExported := true } with
  | some d => exact .one d
  | none =>
    simp only [Option.map_none]
    split <;> exact moved_ofAmbient _ _

/-! ## Overloads -/

/-- The declaration at the offsets that `g` makes of its own. -/
def relocate (g : Nat → Nat) (d : Declaration) : Declaration :=
  { d with start := g d.start, stop := g d.stop }

theorem withOverloads_relocate (g : Nat → Nat) (overloads : List Declaration) (d : Declaration) :
    withOverloads (overloads.map (relocate g)) (d.relocate g) =
      (withOverloads overloads d).relocate g := by
  cases overloads with
  | nil => rfl
  | cons first others =>
    have hsignatures : ((first :: others).map (relocate g)).filterMap (·.signature) =
        (first :: others).filterMap (·.signature) := by
      rw [List.filterMap_map]
      rfl
    simp only [withOverloads, List.map_cons] at hsignatures ⊢
    rw [hsignatures]
    rfl

theorem ofRun_relocate (g : Nat → Nat) (run : List Declaration) :
    ofRun (run.map (relocate g)) = (ofRun run).map (relocate g) := by
  rw [ofRun, ofRun, List.getLast?_map]
  cases run.getLast? with
  | none => rfl
  | some primary =>
    simp only [Option.map_some, List.map_cons, List.map_nil, ← List.map_dropLast,
      withOverloads_relocate]

/-- Overloads are grouped without a look at offsets. -/
theorem groupFrom_relocate (g : Nat → Nat) (run ds : List Declaration) :
    groupFrom (run.map (relocate g)) (ds.map (relocate g)) =
      (groupFrom run ds).map (relocate g) := by
  induction ds generalizing run with
  | nil => exact ofRun_relocate g run
  | cons d ds ih =>
    have hkind : (d.relocate g).kind = d.kind := rfl
    have hsignature : (d.relocate g).signature = d.signature := rfl
    have hname : (run.map (relocate g)).head?.all (·.name == (d.relocate g).name) =
        run.head?.all (·.name == d.name) := by
      cases run <;> rfl
    have hjoined : groupFrom (run.map (relocate g) ++ [d.relocate g]) (ds.map (relocate g)) =
        (groupFrom (run ++ [d]) ds).map (relocate g) := by
      rw [← ih, List.map_append]
      rfl
    have hfresh : groupFrom [] (ds.map (relocate g)) = (groupFrom [] ds).map (relocate g) := ih []
    have halone : groupFrom [d.relocate g] (ds.map (relocate g)) =
        (groupFrom [d] ds).map (relocate g) := ih [d]
    have hbare : withOverloads [] (d.relocate g) = (withOverloads [] d).relocate g := rfl
    rw [List.map_cons, groupFrom, groupFrom, hkind, hsignature]
    split
    · by_cases hsame : run.head?.all (·.name == d.name) = true
      · simp only [hname, hsame, if_true]
        split <;> simp [withOverloads_relocate, hjoined, hfresh]
      · simp only [hname, hsame]
        split <;> simp [ofRun_relocate, hbare, halone, hfresh]
    · simp [ofRun_relocate, hfresh]

theorem groupOverloads_moved (n : Nat) (ds : List Declaration) :
    groupOverloads (ds.map (moved n)) = (groupOverloads ds).map (moved n) :=
  groupFrom_relocate (n + ·) [] ds

end Declaration

end ModuleSurface
