import ModuleSurface.Proofs.Surface.Chunks

/-!
# When a module has a declaration file

The plain pass over a source decides alone whether the source has an outline and a declaration file:
`surface_verdict`.  Behind it stand `readable_ofSource`, by which every class of an outline has a
body that can be read again, and `exists_build`, by which nothing else can go wrong when a
declaration file is written.
-/

namespace ModuleSurface

open ModuleSurface.Lexing
open ModuleSurface.Statement

/-- Declarations that can be read have a document. -/
theorem Document.exists_build {ds : List Declaration} (h : ∀ d ∈ ds, d.Readable)
    (imports : List ImportStatement) (keepComments : Bool) (preferred directives : List Text) :
    ∃ document, build ds imports keepComments preferred directives = .ok document :=
  ⟨_, build_eq h imports keepComments preferred directives⟩

/-- **The plain pass decides.**  If it finds something wrong with a source, the outline and the
declaration file fail with that at that place, whatever the options; if not, the source has an
outline, all its classes can be read, and it has a declaration file. -/
theorem surface_verdict (text : Text) :
    match (pass text).verdict with
    | some f =>
      Outline.ofSource text = .error (f.locate text) ∧
        ∀ options file, surface options file text = .error ⟨f.locate text, some file⟩
    | none =>
      ∃ outline, Outline.ofSource text = .ok outline ∧
        (∀ d ∈ outline.declarations, d.kind = .classType →
          ∃ members, ClassBody.splitMembers d.bodyOrEmpty = .ok members) ∧
        ∀ options file, ∃ out, surface options file text = .ok out := by
  have hverdict := (ending_segments (l := .module) (by decide) text).1
  cases hv : (pass text).verdict with
  | some f =>
    rw [hv] at hverdict
    have hsource : Outline.ofSource text = .error (f.locate text) := by
      simp only [Outline.ofSource, hverdict]
    refine ⟨hsource, ?_⟩
    intro options file
    rw [surface, hsource]
  | none =>
    rw [hv] at hverdict
    obtain ⟨outline, hsource⟩ : ∃ outline, Outline.ofSource text = .ok outline := by
      simp only [Outline.ofSource, hverdict]
      exact ⟨_, rfl⟩
    refine ⟨outline, hsource, Outline.readable_ofSource hsource, ?_⟩
    intro options file
    obtain ⟨document, hbuild⟩ := Document.exists_build (Outline.readable_ofSource hsource)
      outline.imports options.keepComments options.preferred outline.directives
    rw [surface, hsource]
    simp only [hbuild]
    exact ⟨_, rfl⟩

end ModuleSurface
