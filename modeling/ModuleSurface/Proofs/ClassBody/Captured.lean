import ModuleSurface.ClassBody.Split
import ModuleSurface.Declaration.Classify
import ModuleSurface.Proofs.Lexing.Closed
import ModuleSurface.Proofs.Lexing.Visits
import ModuleSurface.Proofs.Statement.Lockstep
import ModuleSurface.Proofs.Text.Strip

/-!
# Captured blocks

A block that was cut out of a statement is read a second time when it is a class body, from a fresh
state and with offsets of its own.  The second reading goes through the same units as the first one,
so it does not fail either: `exists_splitMembers`.
-/

namespace ModuleSurface.Lexing

open Cursor

/-! ## The inside of a block -/

/-- What is known where a walk has just gone behind an opening curly bracket. -/
structure BehindBrace (base : State) (outer : Text) : Prop where
  /-- The parts of the state agree. -/
  coherent : base.Coherent
  /-- The block stands in code. -/
  inCode : base.inCode = true
  /-- No other brackets are open. -/
  squares : base.squares = 0
  rounds : base.rounds = 0
  /-- The block began after the substitution around it, if there is one. -/
  head_exprDepths : ∀ d, base.exprDepths.head? = some d → d < base.braces
  /-- A slash begins a regular expression literal there. -/
  opens : RegexLiteral.Opens outer

/-- A curly bracket of the inside is either one that the inside opened or closes the block. -/
theorem BehindBrace.keepsWithin {base : State} {outer : Text} (hbase : BehindBrace base outer)
    {s : State} (hs : s.Coherent) {offset : Nat} {past : Text} {c : Char} {rest : Text}
    {position : Nat}
    (hvisit : ∀ v, visit? ⟨base.within offset s, past, c :: rest, position⟩ = some v →
      ¬ (v.char = '}' ∧ v.state.braces = base.braces)) :
    State.KeepsWithin base s c := by
  intro b hb hcode hx hd
  cases b with
  | square => exact ⟨hbase.squares, fun h => by cases h⟩
  | round => exact ⟨hbase.rounds, fun h => by cases h⟩
  | brace =>
    obtain rfl := State.ofCloser?_eq_brace hb
    have hz : s.braces = 0 := hd
    have hclose : (base.within offset s).closesExpr '}' = false := by
      cases hctx : s.context with
      | normal =>
        -- the substitution around the block, if any, began with fewer curly brackets
        have hhead : base.exprDepths.head? ≠ some base.braces :=
          fun h => Nat.lt_irrefl _ (hbase.head_exprDepths _ h)
        simp [State.closesExpr, State.within, hs.exprDepths_eq_nil hctx, hz, hhead]
      | templateExpr =>
        obtain ⟨d, ds, hds⟩ := List.exists_cons_of_ne_nil (hs.exprDepths_ne_nil hctx)
        rw [State.closesExpr, hctx, hds] at hx
        simp [State.closesExpr, State.within, hds] at hx ⊢
        omega
      | _ => rw [State.inCode, hctx] at hcode; cases hcode
    have hreads : (base.within offset s).readsCode '}' rest = true := by
      rw [readsCode_iff, State.inCode_within hbase.inCode hs]
      exact ⟨hcode, fun h => absurd h (by decide), rfl, hclose⟩
    refine absurd ⟨rfl, ?_⟩ (hvisit _ (visit?_of_readsCode hreads rfl position))
    simp [State.within, hz]

/-- **The inside of a block is read as it was read in its place**: if a walk gets from behind the
opening bracket to the closing one without a visit that closes the block, a pass over the inside
alone does not fail. -/
theorem BehindBrace.pass_fault {base : State} {outer : Text} (hbase : BehindBrace base outer)
    (offset : Nat) {more : Text} {p q : Cursor} {ps : List Cursor} (hrun : Run p ps q)
    (hq : q.rest = '}' :: more)
    (hvisits : ∀ r ∈ ps, ∀ v, r.visit? = some v →
      ¬ (v.char = '}' ∧ v.state.braces = base.braces))
    {s : State} {past rest : Text} {position : Nat} (hs : s.Coherent)
    (hp : p = lift base offset outer ('}' :: more) ⟨s, past, rest, position⟩) :
    (passFrom s past rest position).fault = none := by
  induction hrun generalizing s past rest position with
  | refl p =>
    rw [hp] at hq
    have hnil : rest = [] := List.append_left_eq_self.1 hq
    rw [hnil, passFrom]
  | @cons p p' q ps hnext hrun ih =>
    cases rest with
    | nil => rw [passFrom]
    | cons c r =>
      subst hp
      cases hnext with
      | @step S S' _ _ _ _ k hstep =>
        have hlen : (q.rest).length ≤ ((c :: r ++ '}' :: more).drop k).length :=
          hrun.suffix.length_le
        rw [hq, List.length_drop] at hlen
        simp only [List.length_append, List.length_cons] at hlen
        have hk : k ≤ r.length + 1 := by omega
        have hkeep : State.KeepsWithin base s c :=
          hbase.keepsWithin hs (hvisits _ List.mem_cons_self)
        have hshort : (base.within offset s).step (past ++ outer) c r (offset + position) =
            .ok (k, S') := State.step_of_append hstep hk
        rw [State.step_within hbase.coherent hbase.inCode hs hkeep fun _ _ =>
          RegexLiteral.beginsAfter_append_of_opens hbase.opens] at hshort
        cases hinner : s.step past c r position with
        | error f =>
          rw [hinner] at hshort
          cases hshort
        | ok inner =>
          obtain ⟨k', s'⟩ := inner
          rw [hinner] at hshort
          cases hshort
          have hnext := Next.step hinner
          have hothers := fun r hr => hvisits r (List.mem_cons_of_mem _ hr)
          exact hnext.pass_eq.1.trans (ih hq hothers (hs.step hinner) (advance_lift hk s'))

/-- Behind an opening curly bracket outside every other one. -/
theorem behindBrace_of_visit {s : State} (hs : s.Coherent) (hcode : s.inCode = true)
    (hd : s.depth = 0) (past : Text) (position : Nat) :
    BehindBrace (s.openBracket .brace position) ('{' :: past) where
  coherent := hs.openBracket _ _
  inCode := hcode
  squares := by
    have : s.squares = 0 := by simp only [State.depth] at hd; omega
    exact this
  rounds := by
    have : s.rounds = 0 := by simp only [State.depth] at hd; omega
    exact this
  head_exprDepths d h := Nat.lt_succ_of_le (hs.head_exprDepths_le d h)
  opens := opens_opener .brace past

/-- A block that a walk finds closed has an inside that a pass goes through. -/
theorem exists_inside {text : Text} {v : Visit} (hv : v ∈ visits text) (hchar : v.char = '{')
    (hdepth : v.state.depth = 0) {close : Nat} (hclose : matching? text v.index = some close) :
    ∃ inside, Text.slice text v.index (close + 1) = '{' :: inside ++ ['}'] ∧
      (pass inside).fault = none := by
  obtain ⟨vs₁, vs₂, hsplit⟩ := List.append_of_mem hv
  rw [matching?_of_opener (b := .brace) hv hchar, visitsAt_of_visits hsplit] at hclose
  obtain ⟨w, hw, rfl⟩ := Option.map_eq_some_iff.1 hclose
  obtain ⟨hwclose, ws₁, ws₂, hws, hbefore⟩ := List.find?_eq_some_iff_append.1 hw
  rw [Bool.and_eq_true, beq_iff_eq, beq_iff_eq] at hwclose
  obtain ⟨htext, hindex⟩ := placed_of_mem_visits hv
  have hw : w ∈ visits text := by simp [hsplit, hws]
  obtain ⟨htext', hindex'⟩ := placed_of_mem_visits hw
  obtain ⟨ps₀, q₀, hrun₀, -, hq₀, hvs⟩ := exists_run_of_visits (p := ⟨{}, [], text, 0⟩) hsplit
  obtain ⟨rfl, hreads, -⟩ := visit?_eq_some hq₀
  have hs : v.state.Coherent := hrun₀.coherent .fresh
  have hcode := (readsCode_iff.1 hreads).1
  have hbase := behindBrace_of_visit hs hcode hdepth v.past v.index
  -- behind the opening bracket the walk makes the visits behind it
  have hnext := Next.step (State.step_opener hcode .brace v.past v.rest v.index)
  have hvisits := hnext.visits_eq
  have hvis := hq₀
  rw [hchar] at hvs hvis
  rw [show Bracket.brace.opener = '{' from rfl, hvis, hvs, hws] at hvisits
  obtain ⟨ps, q, hrun, hps, hq, -⟩ := exists_run_of_visits (List.cons.inj hvisits).2.symm
  obtain ⟨rfl, -⟩ := visit?_eq_some hq
  rw [hwclose.1] at hrun
  obtain ⟨inside, hinside⟩ := hrun.suffix
  have hrest : inside ++ '}' :: w.rest = v.rest := hinside
  refine ⟨inside, ?_, ?_⟩
  · have hcut : text = v.past.reverse ++ (('{' :: inside ++ ['}']) ++ w.rest) := by
      rw [← htext, hchar, ← hrest]
      simp
    have hlen := congrArg List.length hcut
    rw [← htext'] at hlen
    simp only [List.length_append, List.length_reverse, List.length_cons, List.length_nil] at hlen
    rw [hcut]
    refine Text.slice_append _ _ _ ?_ ?_
    · rw [hindex, List.length_reverse]
    · simp only [List.length_append, List.length_cons, List.length_nil]
      omega
  · refine hbase.pass_fault (v.index + 1) hrun rfl ?_ .fresh ?_
    · intro r hr u hu hclosing
      have hmem : u ∈ ws₁ := by
        rw [← hps]
        exact List.mem_filterMap.2 ⟨r, hr, hu⟩
      have hnot := hbefore u hmem
      rw [hclosing.1] at hnot
      simp [Bracket.closer, State.depthOf, hclosing.2, State.openBracket] at hnot
    · rw [lift, State.within_neutral .fresh rfl rfl rfl]
      simp [advance, advancePast, hrest]

end ModuleSurface.Lexing

namespace ModuleSurface.ClassBody

open ModuleSurface.Lexing
open ModuleSurface.Statement

/-- A block in curly brackets has its inside as its interior. -/
theorem interior_block (inside : Text) : interior ('{' :: inside ++ ['}']) = inside := by
  have hstrip : Text.strip ('{' :: inside ++ ['}']) = '{' :: inside ++ ['}'] :=
    Text.strip_eq_self (by decide) (by decide) inside
  have hlast : ('{' :: inside ++ ['}']).getLast? = some '}' := List.getLast?_concat
  simp only [interior, hstrip, hlast]
  simp

/-- A body whose interior a pass goes through has members. -/
theorem exists_splitMembers_of_pass {body : Text} (h : (pass (interior body)).fault = none) :
    ∃ members, splitMembers body = .ok members := by
  have hagrees := ending_segments (l := .classBody) (by decide) (interior body)
  simp only [splitMembers]
  split
  · rename_i f hf
    rw [hagrees.2 f hf] at h
    cases h
  · exact ⟨_, rfl⟩

/-- A captured block is in curly brackets, and what is inside it can be read. -/
theorem exists_block {text block : Text} (h : (Declaration.splitBlock text).2 = some block) :
    ∃ inside, block = '{' :: inside ++ ['}'] ∧ (pass inside).fault = none := by
  unfold Declaration.splitBlock at h
  split at h
  · cases h
  · rename_i brace hbrace
    obtain ⟨v, hv, hdepth, hbegins, rfl⟩ := exists_visit_of_findOutermost? hbrace
    have hchar : v.char = '{' := by
      obtain ⟨t, ht⟩ := List.isPrefixOf_iff_prefix.1 (Bool.and_eq_true_iff.1 hbegins).1
      exact (List.cons.inj ht).1.symm
    simp only at h
    split at h
    · cases h
    · rename_i close hclose
      obtain ⟨inside, hslice, hpass⟩ := exists_inside hv hchar hdepth hclose
      cases h
      exact ⟨inside, hslice, hpass⟩

/-- **A captured block can be read a second time.** -/
theorem exists_splitMembers {text block : Text}
    (h : (Declaration.splitBlock text).2 = some block) :
    ∃ members, splitMembers block = .ok members := by
  obtain ⟨inside, rfl, hpass⟩ := exists_block h
  exact exists_splitMembers_of_pass (by rwa [interior_block])

end ModuleSurface.ClassBody
