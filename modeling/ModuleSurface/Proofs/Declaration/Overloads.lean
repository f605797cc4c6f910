import Mathlib.Data.List.Chain
import Mathlib.Data.List.Induction
import ModuleSurface.Declaration.Overload
import ModuleSurface.Surface.Render

/-!
# What overload grouping keeps

`Grouped` says what grouping is without saying how it is done: a declaration that is no function
stays, and a function takes in the functions of its name without bodies that stand directly in front
of it, as long as there is one that goes on.

* `grouped_groupOverloads` — `groupOverloads` groups so, with a step for one declaration and an
  induction over the list;
* `Grouped.signatures_eq`, `Grouped.filter_eq` — nothing is lost, repeated or moved;
* `Grouped.settled`, `groupOverloads_of_settled` — what is grouped is not grouped any further;
* `functionText_of_isSigned` — a function is written with one line for each of its signatures.
-/

namespace ModuleSurface.Declaration

/-- Is it a function whose header was read? -/
def isSigned (d : Declaration) : Bool :=
  d.kind == .function && d.signature.isSome

/-- Is it such a function, without a body? -/
def isBodiless (d : Declaration) : Bool :=
  d.isSigned && !d.signature.any (·.hasBody)

/-- The signature of a function. -/
def functionSignature? (d : Declaration) : Option Signature :=
  if d.isSigned then d.signature else none

/-- The signatures of a function: those in front of its own, and its own. -/
def signatures (d : Declaration) : List Signature :=
  d.functionSignature?.toList.flatMap fun s => d.overloads ++ [s]

/-- Does the second declaration go on with the overloads that the first one belongs to? -/
def Joins (d e : Declaration) : Prop :=
  d.isBodiless = true ∧ e.isSigned = true ∧ d.name = e.name

/-- The function with the signatures of the functions in front of it, from the first of them on. -/
def leading (run : List Declaration) (primary : Declaration) : Declaration :=
  { primary with
    overloads := run.filterMap functionSignature?
    start := (run.head?.getD primary).start }

/-- The second list is the first one with the overloads of each function grouped. -/
inductive Grouped : List Declaration → List Declaration → Prop
  | nil : Grouped [] []
  /-- Anything but a function stays as it is. -/
  | other {d : Declaration} {ds gs : List Declaration} :
      d.isSigned = false → Grouped ds gs → Grouped (d :: ds) (d :: gs)
  /-- A function stands for those without bodies in front of it, and none follows that goes on. -/
  | function {run : List Declaration} {primary : Declaration} {ds gs : List Declaration} :
      primary.isSigned = true → (∀ d ∈ run, Joins d primary) → (∀ d ∈ ds.head?, ¬ Joins primary d) →
        Grouped ds gs → Grouped (run ++ primary :: ds) (leading run primary :: gs)

/-! ## One declaration -/

theorem isSigned_of_isBodiless {d : Declaration} (h : d.isBodiless = true) : d.isSigned = true :=
  (Bool.and_eq_true_iff.1 h).1

theorem exists_signature {d : Declaration} (h : d.isSigned = true) :
    d.kind = .function ∧ ∃ s, d.signature = some s := by
  obtain ⟨hkind, hsome⟩ := Bool.and_eq_true_iff.1 h
  exact ⟨beq_iff_eq.1 hkind, Option.isSome_iff_exists.1 hsome⟩

theorem functionSignature?_of_isSigned {d : Declaration} (h : d.isSigned = true) :
    d.functionSignature? = d.signature :=
  if_pos h

/-- Without signatures of its own in front, a function leads what it is given. -/
theorem withOverloads_eq_leading {run : List Declaration} {primary : Declaration}
    (hrun : ∀ d ∈ run, d.isSigned = true) (hprimary : primary.overloads = []) :
    withOverloads run primary = leading run primary := by
  cases run with
  | nil =>
    cases primary
    subst hprimary
    rfl
  | cons first others =>
    have hsignatures : (first :: others).filterMap (·.signature) =
        (first :: others).filterMap functionSignature? :=
      List.filterMap_congr fun d hd => (functionSignature?_of_isSigned (hrun d hd)).symm
    rw [withOverloads, leading, hsignatures]
    rfl

/-- A declaration that does not go on with a run closes it. -/
theorem groupFrom_of_not_joins {run : List Declaration} {d : Declaration}
    (h : d.isSigned = false ∨ run.head?.all (·.name == d.name) = false) (ds : List Declaration) :
    groupFrom run (d :: ds) = ofRun run ++ groupFrom [] (d :: ds) := by
  have hnone : ofRun [] = [] := rfl
  rw [groupFrom, groupFrom]
  split
  · rename_i s hkind hsignature
    have hsigned : d.isSigned = true := by
      rw [isSigned, hkind, hsignature]
      rfl
    have hname : run.head?.all (·.name == d.name) = false := by
      simpa [hsigned] using h
    by_cases hbody : s.hasBody = true
    · simp [hname, hbody]
    · simp [hname, hbody]
  · rw [hnone, List.nil_append]

theorem groupFrom_of_not_isSigned {d : Declaration} (h : d.isSigned = false)
    (ds : List Declaration) : groupFrom [] (d :: ds) = d :: groupFrom [] ds := by
  rw [groupFrom]
  split
  · rename_i s hkind hsignature
    rw [isSigned, hkind, hsignature] at h
    cases h
  · rfl

/-- A function with a body closes the run that it belongs to. -/
theorem groupFrom_of_hasBody {run : List Declaration} {d : Declaration}
    (hsigned : d.isSigned = true)
    (hbody : d.isBodiless = false) (hname : run.head?.all (·.name == d.name) = true)
    (ds : List Declaration) :
    groupFrom run (d :: ds) = withOverloads run d :: groupFrom [] ds := by
  obtain ⟨hkind, s, hs⟩ := exists_signature hsigned
  have hhas : s.hasBody = true := by
    simpa [isBodiless, hsigned, hs] using hbody
  rw [groupFrom, hkind, hs]
  simp [hname, hhas]

/-- A function without a body joins the run that it belongs to. -/
theorem groupFrom_of_isBodiless {run : List Declaration} {d : Declaration}
    (hbody : d.isBodiless = true) (hname : run.head?.all (·.name == d.name) = true)
    (ds : List Declaration) : groupFrom run (d :: ds) = groupFrom (run ++ [d]) ds := by
  obtain ⟨hkind, s, hs⟩ := exists_signature (isSigned_of_isBodiless hbody)
  have hhas : s.hasBody = false := by
    simpa [isBodiless, isSigned_of_isBodiless hbody, hs] using hbody
  rw [groupFrom, hkind, hs]
  simp [hname, hhas]

/-! ## The whole list -/

/-- The functions of a run that waits for its end: any of them goes on with any other. -/
def Waiting (run : List Declaration) : Prop :=
  ∀ d ∈ run, ∀ e ∈ run, Joins d e

theorem Waiting.isSigned {run : List Declaration} (h : Waiting run) :
    ∀ d ∈ run, d.isSigned = true :=
  fun d hd => (h d hd d hd).2.1

/-- All functions of a run have the name that its first one has. -/
theorem Waiting.joins {run : List Declaration} (h : Waiting run) {e : Declaration}
    (hsigned : e.isSigned = true) (hname : run.head?.all (·.name == e.name) = true) :
    ∀ d ∈ run, Joins d e := by
  intro d hd
  cases run with
  | nil => cases hd
  | cons first others =>
    have hfirst : first.name = e.name := by simpa using hname
    obtain ⟨hbody, -, hsame⟩ := h d hd first List.mem_cons_self
    exact ⟨hbody, hsigned, hsame.trans hfirst⟩

theorem Waiting.concat {run : List Declaration} (h : Waiting run) {e : Declaration}
    (hbody : e.isBodiless = true) (hname : run.head?.all (·.name == e.name) = true) :
    Waiting (run ++ [e]) := by
  have hsigned := isSigned_of_isBodiless hbody
  have hjoins := h.joins hsigned hname
  intro a ha b hb
  rcases List.mem_append.1 ha with ha | ha <;> rcases List.mem_append.1 hb with hb | hb
  · exact h a ha b hb
  · rw [List.mem_singleton.1 hb]
    exact hjoins a ha
  · rw [List.mem_singleton.1 ha]
    exact ⟨hbody, h.isSigned b hb, (hjoins b hb).2.2.symm⟩
  · rw [List.mem_singleton.1 ha, List.mem_singleton.1 hb]
    exact ⟨hbody, hsigned, rfl⟩

/-- A run is closed in front of what does not go on with it. -/
theorem Grouped.ofRun_append {run ds gs : List Declaration} (hrun : Waiting run)
    (hbare : ∀ d ∈ run, d.overloads = []) (hnext : ∀ d ∈ run, ∀ e ∈ ds.head?, ¬ Joins d e)
    (h : Grouped ds gs) : Grouped (run ++ ds) (ofRun run ++ gs) := by
  cases run using List.reverseRecOn with
  | nil => exact h
  | append_singleton front primary =>
    have hprimary : primary ∈ front ++ [primary] := by simp
    have hfront : ∀ d ∈ front, Joins d primary := fun d hd =>
      hrun d (List.mem_append_left _ hd) primary hprimary
    have hofRun : ofRun (front ++ [primary]) = [leading front primary] := by
      rw [ofRun, List.getLast?_concat, List.dropLast_concat]
      refine congrArg ([·]) (withOverloads_eq_leading (fun d hd => ?_) (hbare primary hprimary))
      exact isSigned_of_isBodiless (hfront d hd).1
    rw [hofRun, List.append_assoc, List.singleton_append, List.singleton_append]
    exact .function (hrun.isSigned primary hprimary) hfront (hnext primary hprimary) h

/-- What is done with the declarations behind a run.  The induction goes over these; `run` are the
functions that were read and not written yet. -/
theorem grouped_groupFrom {run ds : List Declaration} (hrun : Waiting run)
    (hbare : ∀ d ∈ run ++ ds, d.overloads = []) : Grouped (run ++ ds) (groupFrom run ds) := by
  induction ds generalizing run with
  | nil =>
    have hclosed := Grouped.nil.ofRun_append hrun (fun d hd => hbare d (by simp [hd])) (by simp)
    rwa [List.append_nil (ofRun run)] at hclosed
  | cons d ds ih =>
    have hwaiting : Waiting [] := by simp [Waiting]
    have hds : ∀ e ∈ d :: ds, e.overloads = [] := fun e he => hbare e (List.mem_append_right _ he)
    have hlater : Grouped ds (groupFrom [] ds) :=
      ih hwaiting fun e he => hds e (List.mem_cons_of_mem d he)
    -- a function that goes on with a run
    have hjoined : ∀ {run : List Declaration}, Waiting run → (∀ e ∈ run, e.overloads = []) →
        d.isSigned = true → run.head?.all (·.name == d.name) = true →
          Grouped (run ++ d :: ds) (groupFrom run (d :: ds)) := by
      intro run hrun hruns hsigned hname
      have hjoins := hrun.joins hsigned hname
      by_cases hbody : d.isBodiless = true
      · rw [groupFrom_of_isBodiless hbody hname, List.append_cons]
        refine ih (hrun.concat hbody hname) fun e he => ?_
        rw [← List.append_cons] at he
        exact (List.mem_append.1 he).elim (hruns e) (hds e)
      · rw [Bool.not_eq_true] at hbody
        rw [groupFrom_of_hasBody hsigned hbody hname,
          withOverloads_eq_leading hrun.isSigned (hds d List.mem_cons_self)]
        refine .function hsigned hjoins (fun e _ hde => ?_) hlater
        rw [hde.1] at hbody
        cases hbody
    by_cases hgoes : d.isSigned = true ∧ run.head?.all (·.name == d.name) = true
    · exact hjoined hrun (fun e he => hbare e (List.mem_append_left _ he)) hgoes.1 hgoes.2
    · have hstops : d.isSigned = false ∨ run.head?.all (·.name == d.name) = false := by
        rwa [not_and_or, Bool.not_eq_true, Bool.not_eq_true] at hgoes
      have halone : Grouped (d :: ds) (groupFrom [] (d :: ds)) := by
        cases hsigned : d.isSigned with
        | false =>
          rw [groupFrom_of_not_isSigned hsigned]
          exact .other hsigned hlater
        | true => exact hjoined hwaiting (by simp) hsigned rfl
      rw [groupFrom_of_not_joins hstops]
      refine halone.ofRun_append hrun (fun e he => hbare e (List.mem_append_left _ he)) ?_
      rintro a ha e ⟨⟩ ⟨-, hsigned, hname⟩
      rcases hstops with hstops | hstops
      · rw [hsigned] at hstops
        cases hstops
      · cases run with
        | nil => cases ha
        | cons first others =>
          have hfirst := (hrun first List.mem_cons_self a ha).2.2.trans hname
          simp [hfirst] at hstops

/-- **Overloads are grouped** where no declaration comes with any. -/
theorem grouped_groupOverloads {ds : List Declaration} (hds : ∀ d ∈ ds, d.overloads = []) :
    Grouped ds (groupOverloads ds) :=
  have hwaiting : Waiting [] := by simp [Waiting]
  grouped_groupFrom hwaiting hds

/-! ## What a grouping keeps -/

variable {ds gs : List Declaration}

theorem functionSignature?_leading (run : List Declaration) (primary : Declaration) :
    (leading run primary).functionSignature? = primary.functionSignature? := rfl

/-- The signatures are those that were there, in the same order. -/
theorem Grouped.signatures_eq (h : Grouped ds gs) :
    gs.flatMap signatures = ds.filterMap functionSignature? := by
  induction h with
  | nil => rfl
  | @other d ds gs hd _ ih =>
    have hnone : d.functionSignature? = none := by
      rw [functionSignature?, hd]
      rfl
    rw [List.flatMap_cons, ih, List.filterMap_cons_none hnone, signatures, hnone]
    rfl
  | @function run primary ds gs hsigned _ _ _ ih =>
    obtain ⟨-, s, hs⟩ := exists_signature hsigned
    have hown : primary.functionSignature? = some s := by
      rw [functionSignature?_of_isSigned hsigned, hs]
    have hleading : signatures (leading run primary) = run.filterMap functionSignature? ++ [s] := by
      rw [signatures, functionSignature?_leading, hown]
      simp [leading]
    rw [List.flatMap_cons, ih, hleading, List.filterMap_append, List.filterMap_cons_some hown,
      ← List.append_cons]

/-- Everything that is no function stays as it is, in the same order. -/
theorem Grouped.filter_eq (h : Grouped ds gs) :
    gs.filter (!·.isSigned) = ds.filter (!·.isSigned) := by
  induction h with
  | nil => rfl
  | other hd _ ih => simp [hd, ih]
  | @function run primary ds gs hsigned hrun _ _ ih =>
    have hnone : run.filter (!·.isSigned) = [] := by
      rw [List.filter_eq_nil_iff]
      intro d hd
      simp [isSigned_of_isBodiless (hrun d hd).1]
    have hleading : (leading run primary).isSigned = true := hsigned
    simp [hnone, hleading, hsigned, ih]

/-! ## Grouping again -/

/-- No function goes on with the function in front of it. -/
def Settled (ds : List Declaration) : Prop :=
  ds.IsChain fun d e => ¬ Joins d e

/-- What a grouping begins with goes on with a function only if what was there did. -/
theorem Grouped.joins_head (h : Grouped ds gs) {primary e : Declaration} (he : e ∈ gs.head?)
    (hjoins : Joins primary e) : ∃ d ∈ ds.head?, Joins primary d := by
  cases h with
  | nil => cases he
  | @other d ds gs _ _ =>
    obtain rfl := Option.some.inj he
    exact ⟨d, rfl, hjoins⟩
  | @function run own ds gs hsigned hrun _ _ =>
    obtain rfl := Option.some.inj he
    cases run with
    | nil => exact ⟨own, rfl, hjoins⟩
    | cons first others =>
      obtain ⟨hbody, -, hname⟩ := hrun first List.mem_cons_self
      exact ⟨first, rfl, hjoins.1, isSigned_of_isBodiless hbody, hjoins.2.2.trans hname.symm⟩

theorem Grouped.settled (h : Grouped ds gs) : Settled gs := by
  induction h with
  | nil => exact .nil
  | @other d ds gs hd _ ih =>
    refine List.isChain_cons.2 ⟨fun e _ hjoins => ?_, ih⟩
    rw [isSigned_of_isBodiless hjoins.1] at hd
    cases hd
  | function _ _ hnext hgrouped ih =>
    refine List.isChain_cons.2 ⟨fun e he hjoins => ?_, ih⟩
    obtain ⟨d, hd, hprimary⟩ := hgrouped.joins_head he hjoins
    exact hnext d hd hprimary

/-- Where no function goes on with another, there is nothing to group. -/
theorem groupOverloads_of_settled (h : Settled ds) : groupOverloads ds = ds := by
  rw [groupOverloads]
  induction ds with
  | nil => rfl
  | cons d ds ih =>
    obtain ⟨hnext, hds⟩ := List.isChain_cons.1 h
    have hlater := ih hds
    by_cases hsigned : d.isSigned = true
    · by_cases hbody : d.isBodiless = true
      · -- the function waits, and what follows it closes its run
        rw [groupFrom_of_isBodiless hbody rfl, List.nil_append]
        cases ds with
        | nil => rfl
        | cons e es =>
          have hstops : e.isSigned = false ∨ [d].head?.all (·.name == e.name) = false := by
            by_contra hgoes
            rw [not_or, Bool.not_eq_false, Bool.not_eq_false] at hgoes
            exact hnext e rfl ⟨hbody, hgoes.1, by simpa using hgoes.2⟩
          rw [groupFrom_of_not_joins hstops, hlater]
          rfl
      · rw [Bool.not_eq_true] at hbody
        rw [groupFrom_of_hasBody hsigned hbody rfl, hlater]
        rfl
    · rw [Bool.not_eq_true] at hsigned
      rw [groupFrom_of_not_isSigned hsigned, hlater]

/-! ## The lines of a group -/

theorem signatures_of_isSigned {d : Declaration} (h : d.isSigned = true) :
    d.signatures = d.overloads ++ [d.ownSignature] := by
  obtain ⟨-, s, hs⟩ := exists_signature h
  rw [signatures, functionSignature?_of_isSigned h, ownSignature, hs]
  simp

/-- A function is written with one line for each of its signatures, each behind its own
documentation. -/
theorem functionText_of_isSigned {d : Declaration} (h : d.isSigned = true) (keepComments : Bool)
    (keywords : Text) :
    d.functionText keepComments keywords =
      Text.join "\n".toList
        (List.zipWith (fun s doc => withDoc (functionLine keywords d.name s) doc keepComments)
          d.signatures (d.overloads.map (·.doc) ++ [d.doc])) := by
  have hlength : d.overloads.length = (d.overloads.map (·.doc)).length := by simp
  rw [signatures_of_isSigned h, List.zipWith_append hlength, List.zipWith_map_right,
    List.zipWith_self]
  rfl

/-- **Grouping overloads conserves signatures.**

* Each group is a row of functions of one name, of which only the last can have a body, and that one
  stands for the row with nothing changed but its overloads and its start (`Grouped`).
* The signatures are those of the functions that were there, in their order.
* All other declarations stay as they are, in their order.
* Grouping again changes nothing.
* A group is written with one line for each signature, in that order. -/
theorem groupOverloads_conserves (hds : ∀ d ∈ ds, d.overloads = []) :
    Grouped ds (groupOverloads ds) ∧
    (groupOverloads ds).flatMap signatures = ds.filterMap functionSignature? ∧
    (groupOverloads ds).filter (!·.isSigned) = ds.filter (!·.isSigned) ∧
    groupOverloads (groupOverloads ds) = groupOverloads ds ∧
    ∀ d ∈ groupOverloads ds, d.isSigned = true →
      d.signatures.length = d.overloads.length + 1 ∧
      ∀ (keepComments : Bool) (keywords : Text), d.functionText keepComments keywords =
        Text.join "\n".toList
          (List.zipWith (fun s doc => withDoc (functionLine keywords d.name s) doc keepComments)
            d.signatures (d.overloads.map (·.doc) ++ [d.doc])) := by
  have hgrouped := grouped_groupOverloads hds
  refine ⟨hgrouped, hgrouped.signatures_eq, hgrouped.filter_eq,
    groupOverloads_of_settled hgrouped.settled, fun d _ hsigned => ⟨?_, ?_⟩⟩
  · rw [signatures_of_isSigned hsigned, List.length_append, List.length_singleton]
  · exact functionText_of_isSigned hsigned

/-- A row with an implementation, a function of the same name behind another declaration, and a row
without an implementation. -/
theorem groupOverloads_conserves_rows :
    let f (name parameter : String) (hasBody : Bool) : Declaration :=
      { kind := .function, name := name.toList, raw := [],
        signature := some { parameters := [parameter.toList], hasBody := hasBody } }
    let ds := [f "f" "a" false, f "f" "b" false, f "f" "c" true, f "f" "d" false,
      { kind := .binding, raw := "let f".toList }, f "f" "e" false, f "g" "a" false,
      f "g" "b" false]
    (∀ d ∈ ds, d.overloads = []) ∧
    (groupOverloads ds).map (fun d => (d.name, d.overloads.length)) =
      [("f".toList, 2), ("f".toList, 0), ([], 0), ("f".toList, 0), ("g".toList, 1)] ∧
    (groupOverloads ds).flatMap signatures = ds.filterMap functionSignature? ∧
    groupOverloads (groupOverloads ds) = groupOverloads ds := by
  intro f ds
  have hds : ∀ d ∈ ds, d.overloads = [] := by decide
  obtain ⟨-, hsignatures, -, hagain, -⟩ := groupOverloads_conserves hds
  exact ⟨hds, by decide, hsignatures, hagain⟩

end ModuleSurface.Declaration
