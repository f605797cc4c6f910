import ModuleSurface.Proofs.Declaration.Placement
import ModuleSurface.Proofs.Statement.Concatenation

/-!
# The outline of two texts one after the other

Where a text ends with a complete statement, what follows it has its own outline, and the outline of
both is put together from the two: `Outline.ofSource_append`.
-/

namespace ModuleSurface

open ModuleSurface.Lexing
open ModuleSurface.Statement

theorem Declaration.moved_zero (d : Declaration) : d.moved 0 = d := by
  simp [Declaration.moved]

theorem Statement.Segment.moved_zero (s : Segment) : s.moved 0 = s := by
  simp [Segment.moved]

namespace Outline

/-! ## Findings -/

/-- Is a control header left without its body behind the segments?  `skipping` says whether one was
in front of them. -/
def awaits (skipping : Bool) : List Segment → Bool
  | [] => skipping
  | s :: ss => awaits (!skipping && isControlHeader (Text.stripRight s.text)) ss

/-- What is found in one segment and what is found behind it. -/
theorem findings_cons (text : Text) (skipping : Bool) (s : Segment) (ss : List Segment) :
    findings text skipping (s :: ss) =
      findings text skipping [s] ++
        findings text (!skipping && isControlHeader (Text.stripRight s.text)) ss := by
  have hnil : ∀ f : Finding, f ++ ({} : Finding) = f := by
    intro f
    show Finding.append f {} = f
    simp [Finding.append]
  cases skipping with
  | true => simp [findings, hnil]
  | false =>
    by_cases hheader : isControlHeader (Text.stripRight s.text) = true
    · simp [findings, hnil, hheader]
    · simp [findings, hnil, hheader]

theorem findings_append (text : Text) (skipping : Bool) (ss ts : List Segment) :
    findings text skipping (ss ++ ts) =
      findings text skipping ss ++ findings text (awaits skipping ss) ts := by
  have hassoc : ∀ f g h : Finding, f ++ g ++ h = f ++ (g ++ h) := by
    intro f g h
    show Finding.append (Finding.append f g) h = Finding.append f (Finding.append g h)
    simp [Finding.append]
  induction ss generalizing skipping with
  | nil => rfl
  | cons s ss ih =>
    rw [List.cons_append, findings_cons, ih, findings_cons text skipping s ss, hassoc]
    rfl

/-- Segments at other offsets, of whatever text, declare the same. -/
theorem moved_findings (n : Nat) (text text' : Text) (skipping : Bool) (ss : List Segment) :
    Finding.Moved n (findings text skipping ss)
      (findings text' skipping (ss.map (Segment.moved n))) := by
  induction ss generalizing skipping with
  | nil => exact .empty
  | cons s ss ih =>
    rw [List.map_cons, findings, findings]
    cases skipping with
    | true => exact ((Finding.Moved.notices _ _).append (.notice _ _)).append (ih false)
    | false =>
      have htext : (s.moved n).text = s.text := rfl
      simp only [Bool.false_eq_true, if_false, htext]
      split
      · exact ((Finding.Moved.notices _ _).append .empty).append (ih true)
      · exact ((Finding.Moved.notices _ _).append (Declaration.moved_classify _ _ _)).append
          (ih false)

/-- What segments declare does not depend on the text around them. -/
theorem findings_text (text text' : Text) (skipping : Bool) (ss : List Segment) :
    (findings text' skipping ss).declarations = (findings text skipping ss).declarations ∧
      (findings text' skipping ss).imports = (findings text skipping ss).imports := by
  have hmoved := moved_findings 0 text text' skipping ss
  have hss : ss.map (Segment.moved 0) = ss :=
    List.map_id'' Segment.moved_zero ss
  have hds : ∀ ds : List Declaration, ds.map (Declaration.moved 0) = ds :=
    List.map_id'' Declaration.moved_zero
  rw [hss] at hmoved
  exact ⟨hmoved.declarations.trans (hds _), hmoved.imports⟩

/-! ## Texts -/

/-- The segments of a text. -/
def segmentsIn (text : Text) : List Segment :=
  segmentsOf (segments .module text).pieces

/-- The declarations of a text in order, before overloads are grouped. -/
def ungrouped (text : Text) : List Declaration :=
  (findings text false (segmentsIn text)).declarations

/-- The imports of a text in order. -/
def importsIn (text : Text) : List ImportStatement :=
  (findings text false (segmentsIn text)).imports

/-- The directives of a text in order. -/
def directivesIn (text : Text) : List Text :=
  directivesOf (segments .module text).pieces

/-- What is wrong with a text, if anything is. -/
def fault? (text : Text) : Option Fault :=
  (segments .module text).ending.fault?

theorem ofSource_of_fault {text : Text} {f : Fault} (h : fault? text = some f) :
    ofSource text = .error (f.locate text) := by
  rw [fault?] at h
  simp only [ofSource, h]

theorem ofSource_of_ok {text : Text} (h : fault? text = none) :
    ∃ o, ofSource text = .ok o ∧ o.declarations = Declaration.groupOverloads (ungrouped text) ∧
      o.imports = importsIn text ∧ o.directives = directivesIn text := by
  rw [fault?] at h
  simp only [ofSource, h]
  exact ⟨_, rfl, rfl, rfl, rfl⟩

theorem fault?_of_ofSource {text : Text} {o : Outline} (h : ofSource text = .ok o) :
    fault? text = none := by
  cases hf : fault? text with
  | none => rfl
  | some f =>
    rw [ofSource_of_fault hf] at h
    cases h

/-- The text `S` and a newline have an outline, and its last statement is complete: it ends with
`S`, at a semicolon or because of the newline (a statement that goes on would reach the end of the
text), and is no control header that waits for its body. -/
structure Complete (S : Text) : Prop where
  /-- The newline is not escaped. -/
  unescaped : S.getLast? ≠ some '\\'
  /-- The text has an outline. -/
  outlined : ∃ o, ofSource (S ++ ['\n']) = .ok o
  /-- The last statement ends with `S`. -/
  ends : (segments .module (S ++ ['\n'])).EndsAt S.length
  /-- No control header waits for its body. -/
  settled : awaits false (segmentsIn (S ++ ['\n'])) = false

/-- What is known of a text `A` and a text `B` behind it, when they do not affect each other. -/
structure Joins (A B : Text) : Prop where
  /-- Only `B` can have a fault. -/
  fault : fault? (A ++ B) = (fault? B).map (Fault.moved A.length)
  /-- The declarations of both. -/
  declarations : ungrouped (A ++ B) = ungrouped A ++ (ungrouped B).map (Declaration.moved A.length)
  /-- The imports of both. -/
  imports : importsIn (A ++ B) = importsIn A ++ importsIn B
  /-- The directives of `A`; those of `B` are not in front of the first statement. -/
  directives : directivesIn (A ++ B) = directivesIn A

theorem directivesOf_segments (n : Nat) (ss : List Segment) :
    directivesOf (ss.map (.segment ∘ Segment.moved n)) = [] := by
  rw [directivesOf, List.filterMap_map, List.filterMap_eq_nil_iff]
  intro s _
  rfl

theorem segmentsOf_segments (n : Nat) (ss : List Segment) :
    segmentsOf (ss.map (.segment ∘ Segment.moved n)) = ss.map (Segment.moved n) := by
  rw [segmentsOf, List.filterMap_map]
  exact congrFun List.filterMap_eq_map ss

/-- A text that ends with a complete statement and a text that does not continue it do not affect
each other. -/
theorem Complete.joins {S B : Text} (h : Complete S) (hB : continues B = false) :
    Joins (S ++ ['\n']) B := by
  obtain ⟨o, ho⟩ := h.outlined
  obtain ⟨there, hmoved, hcut⟩ :=
    segments_append rfl h.unescaped hB (fault?_of_ofSource ho) h.ends
  have hsegments : segmentsIn (S ++ ['\n'] ++ B) =
      segmentsIn (S ++ ['\n']) ++ (segmentsIn B).map (Segment.moved (S ++ ['\n']).length) := by
    show segmentsOf (segments .module (S ++ ['\n'] ++ B)).pieces = _
    rw [hcut, Segmentation.prepend, segmentsOf, List.filterMap_append, ← segmentsOf, ← segmentsOf,
      hmoved.pieces, segmentsOf_segments]
    rfl
  have hfound : findings (S ++ ['\n'] ++ B) false (segmentsIn (S ++ ['\n'] ++ B)) =
      findings (S ++ ['\n'] ++ B) false (segmentsIn (S ++ ['\n'])) ++
        findings (S ++ ['\n'] ++ B) false
          ((segmentsIn B).map (Segment.moved (S ++ ['\n']).length)) := by
    rw [hsegments, findings_append, h.settled]
  have hfront := findings_text (S ++ ['\n']) (S ++ ['\n'] ++ B) false (segmentsIn (S ++ ['\n']))
  have hbehind := moved_findings (S ++ ['\n']).length B (S ++ ['\n'] ++ B) false (segmentsIn B)
  refine ⟨?_, ?_, ?_, ?_⟩
  · rw [fault?, hcut]
    exact hmoved.fault
  · rw [ungrouped, hfound]
    exact congrArg₂ (· ++ ·) hfront.1 hbehind.declarations
  · rw [importsIn, hfound]
    exact congrArg₂ (· ++ ·) hfront.2 hbehind.imports
  · rw [directivesIn, hcut, Segmentation.prepend, directivesOf, List.filterMap_append,
      ← directivesOf, ← directivesOf, hmoved.pieces, directivesOf_segments, List.append_nil]
    rfl

theorem position_locate_moved (A B : Text) (f : Fault) :
    ((Fault.moved A.length f).locate (A ++ B)).reason = (f.locate B).reason ∧
      ((Fault.moved A.length f).locate (A ++ B)).position =
        A.length + (f.locate B).position := by
  refine ⟨rfl, ?_⟩
  simp only [Fault.moved, Fault.locate, Located.locate, Located.clamp, List.length_append]
  omega

/-- **Outlines are put together at the end of a statement.**  If a text ends with a complete
statement and another text does not continue it, then both together have an outline exactly if the
other text has one: with the imports of both, the directives of the first, and the declarations of
both, those of the second one moved, grouped anew.  Else the fault is that of the second text, moved
along. -/
theorem ofSource_append {S B : Text} {a : Outline} (hS : Complete S)
    (ha : ofSource (S ++ ['\n']) = .ok a) (hB : continues B = false) :
    match ofSource B with
    | .ok b =>
      ∃ o, ofSource (S ++ ['\n'] ++ B) = .ok o ∧
        o.declarations = Declaration.groupOverloads
          (ungrouped (S ++ ['\n']) ++
            (ungrouped B).map (Declaration.moved (S ++ ['\n']).length)) ∧
        o.imports = a.imports ++ b.imports ∧ o.directives = a.directives
    | .error e =>
      ∃ e', ofSource (S ++ ['\n'] ++ B) = .error e' ∧ e'.reason = e.reason ∧
        e'.position = (S ++ ['\n']).length + e.position := by
  have hjoins := hS.joins hB
  obtain ⟨a', ha', -, haimports, hadirectives⟩ := ofSource_of_ok (fault?_of_ofSource ha)
  cases ha.symm.trans ha'
  cases hf : fault? B with
  | some f =>
    rw [ofSource_of_fault hf]
    have hboth := hjoins.fault
    rw [hf] at hboth
    exact ⟨_, ofSource_of_fault hboth, position_locate_moved _ B f⟩
  | none =>
    obtain ⟨b, hb, -, hbimports, -⟩ := ofSource_of_ok hf
    have hboth := hjoins.fault
    rw [hf] at hboth
    obtain ⟨o, ho, hdeclarations, himports, hdirectives⟩ := ofSource_of_ok hboth
    rw [hb]
    refine ⟨o, ho, ?_, ?_, ?_⟩
    · rw [hdeclarations, hjoins.declarations]
    · rw [himports, hjoins.imports, haimports, hbimports]
    · rw [hdirectives, hjoins.directives, hadirectives]

theorem ofSource_append_variables :
    ∃ o, ofSource ("let a: A".toList ++ ['\n'] ++ "let b: B".toList) = .ok o ∧
      o.declarations.map (fun d => (d.name, d.start, d.stop)) =
        [("a".toList, 0, 8), ("b".toList, 9, 17)] := by
  obtain ⟨a, ha, -⟩ := ofSource_of_ok (by decide +kernel : fault? "let a: A\n".toList = none)
  obtain ⟨b, hb, -⟩ := ofSource_of_ok (by decide +kernel : fault? "let b: B".toList = none)
  have hS : Complete "let a: A".toList :=
    ⟨by decide, ⟨a, ha⟩, ⟨⟨0, "let a: A".toList, none, []⟩, by decide +kernel, rfl⟩,
      by decide +kernel⟩
  have happend := ofSource_append hS ha (by decide : continues "let b: B".toList = false)
  rw [hb] at happend
  obtain ⟨o, ho, hdeclarations, -⟩ := happend
  refine ⟨o, ho, ?_⟩
  rw [hdeclarations]
  decide +kernel

end Outline

end ModuleSurface
