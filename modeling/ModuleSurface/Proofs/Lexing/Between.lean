import ModuleSurface.Proofs.Lexing.Openings
import ModuleSurface.Proofs.Lexing.Typed

/-!
# Inside brackets nothing is outermost

What stands between a bracket and the one that `matching?` answers for it is in the bracket,
whatever is open around it, and the same holds of angle brackets.  So a search outside brackets does
not stop there: `outermost_of_matching?_bracket` and `outermost_of_matching?_angle`.

A text behind plain characters is walked as on its own (`visits_behind`), so a search in it goes on
as if they were not there (`findOutermost?_behind`), and its brackets close where they close without
them (`matching?_behind`).
-/

namespace ModuleSurface.Lexing

open Cursor

/-! ## Behind plain characters -/

/-- Outside every bracket a walk over a piece goes on in its place as on its own. -/
theorem visitsFrom_lift {base : State} {outer : Text} (hb : base.Coherent)
    (htop : base.atTopLevel = true) {s : State} (hs : s.Coherent) {past rest : Text}
    (hslash : KeepsSlashes outer past rest []) (offset position : Nat) :
    visitsFrom (base.within offset s) (past ++ outer) rest (offset + position) =
      (visitsFrom s past rest position).map (Visit.lift base offset outer []) := by
  have hbase : base.inCode = true := by
    rw [State.atTopLevel, Bool.and_eq_true, beq_iff_eq] at htop
    rw [State.inCode, htop.1]
    rfl
  induction s, past, rest, position using passFrom.induct with
  | case1 s past position => simp [visitsFrom]
  | case2 s past position c r f hstep =>
    have hlong : (base.within offset s).step (past ++ outer) c r (offset + position) = _ :=
      State.step_within hb hbase hs (State.keepsWithin_of_atTopLevel htop s c)
        fun hc _ => hslash.beginsAfter_append hc
    rw [hstep] at hlong
    rw [visitsFrom_of_error hstep, visitsFrom_of_error hlong]
    rfl
  | case3 s past position c r k s' hstep ih =>
    have hlong : (base.within offset s).step (past ++ outer) c r (offset + position) = _ :=
      State.step_within hb hbase hs (State.keepsWithin_of_atTopLevel htop s c)
        fun hc _ => hslash.beginsAfter_append hc
    rw [hstep] at hlong
    have hvisit : (lift base offset outer [] ⟨s, past, c :: r, position⟩).visit? = _ :=
      visit?_lift hb hbase hs (State.keepsWithin_of_atTopLevel htop s c) hslash
    simp only [lift, List.append_nil] at hvisit
    have hpast : advancePast (past ++ outer) (c :: r) k = advancePast past (c :: r) k ++ outer := by
      simp [advancePast]
    rw [visitsFrom_cons hstep, visitsFrom_cons hlong, hvisit, hpast, Nat.add_assoc,
      ih (hs.step hstep) (hslash.drop k), List.map_append]
    cases visit? ⟨s, past, c :: r, position⟩ <;> rfl

/-- Characters that no search for an arrow looks at, the last of which ends no name. -/
structure Bypassed (mark : Text) : Prop where
  /-- They change nothing, and none is part of an arrow or an angle bracket. -/
  chars : ∀ c ∈ mark, Plain c ∧ c ∉ ['=', '<', '>']
  /-- No name ends with them. -/
  last : mark.getLast?.any Text.isIdentChar = false

theorem unsigned_of_isBlank {c : Char} (h : Text.isBlank c = true) :
    Plain c ∧ c ∉ ['=', '<', '>'] := by
  refine ⟨plain_of_isBlank h, fun hsign => ?_⟩
  have hsigns : ∀ d ∈ ['=', '<', '>'], Text.isBlank d = false := by decide
  rw [hsigns c hsign] at h
  cases h

/-- White space may stand behind words. -/
theorem Bypassed.words {words blanks : Text}
    (hwords : ∀ c ∈ words, Plain c ∧ c ∉ ['=', '<', '>']) (hne : blanks ≠ [])
    (hblank : ∀ c ∈ blanks, Text.isBlank c = true) : Bypassed (words ++ blanks) := by
  refine ⟨fun c hc => (List.mem_append.1 hc).elim (hwords c) fun hc => ?_, ?_⟩
  · exact unsigned_of_isBlank (hblank c hc)
  · rw [List.getLast?_append_of_ne_nil _ hne, List.getLast?_eq_some_getLast hne, Option.any_some]
    exact Text.isIdentChar_of_isBlank (hblank _ (List.getLast_mem hne))

/-- What is visited behind such characters is what is visited in the text alone. -/
theorem visits_behind {mark r : Text} {c : Char} (hmark : Bypassed mark)
    (hgap : RegexLiteral.isGap c = false) (hc : c ≠ '/') :
    ∃ vs, (∀ v ∈ vs, v.char ∈ mark ∧ v.index < mark.length) ∧
      visits (mark ++ c :: r) =
        vs ++ (visits (c :: r)).map (Visit.lift {} mark.length mark.reverse []) := by
  have hcode : State.inCode {} = true := rfl
  obtain ⟨vs, hreads, hvs⟩ := Reads.of_plain hcode (fun d hd => (hmark.chars d hd).1) [] (c :: r) 0
  have hlast : mark.reverse.head?.any Text.isIdentChar = false := by
    rw [List.head?_reverse]
    exact hmark.last
  have hslash : KeepsSlashes mark.reverse [] (c :: r) [] :=
    keepsSlashes_of_head hgap hc hlast (by simp) ⟨fun _ => rfl, fun _ _ => rfl, rfl⟩
  have hlift := visitsFrom_lift .fresh rfl .fresh hslash mark.length 0
  rw [State.within_neutral .fresh rfl rfl rfl, List.nil_append, Nat.add_zero] at hlift
  have hvisits : visits (mark ++ c :: r) = _ := hreads.visits_eq
  refine ⟨vs, fun v hv => ?_, ?_⟩
  · obtain ⟨-, a, b, hsplit, hpast, -⟩ := hvs v hv
    have hindex := (placed_of_mem_visits (hvisits ▸ List.mem_append_left _ hv)).2
    rw [hindex, hpast, hsplit]
    simp
  · rw [hvisits, Nat.zero_add, List.append_nil, hlift, visits]

theorem Visit.begins_lift {c : Char} (hc : Text.isIdentChar c = false) (target : Text)
    (base : State) (offset : Nat) (outer : Text) (v : Visit) :
    (v.lift base offset outer []).begins (c :: target) = v.begins (c :: target) := by
  simp [Visit.begins, Visit.lift, hc]

/-- A search for an arrow behind such characters is a search in the text alone. -/
theorem findOutermost?_behind {mark r : Text} {c : Char} (hmark : Bypassed mark)
    (hgap : RegexLiteral.isGap c = false) (hc : c ≠ '/') :
    findOutermost? (mark ++ c :: r) "=>".toList 0 true =
      (findOutermost? (c :: r) "=>".toList 0 true).map (mark.length + ·) := by
  obtain ⟨vs, hvs, hvisits⟩ := visits_behind (r := r) hmark hgap hc
  have hangles : anglesAfter 0 vs = 0 := by
    refine anglesAfter_eq_self (fun v hv => ?_) 0
    have hchar := (hmark.chars _ (hvs v hv).1).2
    simp only [List.mem_cons, List.not_mem_nil, or_false, not_or] at hchar
    exact ⟨hchar.2.1, hchar.2.2⟩
  have houter : mark.reverse.head? ≠ some '=' := by
    intro h
    have hmem := List.mem_reverse.1 (List.mem_of_mem_head? h)
    exact (hmark.chars _ hmem).2 (by simp)
  have hnone : (outermostFrom true 0 vs).find?
      (fun v => decide (0 ≤ v.index) && v.begins "=>".toList) = none := by
    refine List.find?_eq_none.2 fun v hv hbegins => ?_
    have hchar : v.char = '=' := Visit.char_of_begins ['>'] (Bool.and_eq_true_iff.1 hbegins).2
    have hmem := (hvs v (mem_of_mem_outermostFrom hv).1).1
    rw [hchar] at hmem
    exact (hmark.chars _ hmem).2 (by simp)
  have hbegins : (fun v : Visit => decide (0 ≤ v.index) && v.begins "=>".toList) ∘
      Visit.lift {} mark.length mark.reverse [] =
        fun v => decide (0 ≤ v.index) && v.begins "=>".toList := by
    funext v
    have hsame := Visit.begins_lift (by decide : Text.isIdentChar '=' = false) ['>'] {} mark.length
      mark.reverse v
    simpa using hsame
  rw [findOutermost?, outermost, hvisits, outermostFrom_append, hangles,
    outermostFrom_lift rfl houter, List.find?_append, hnone, Option.none_or, List.find?_map,
    hbegins, Option.map_map, findOutermost?, outermost, Option.map_map]
  rfl

theorem visitsAt_behind {mark r : Text} {c : Char} (hmark : Bypassed mark)
    (hgap : RegexLiteral.isGap c = false) (hc : c ≠ '/') (i : Nat) :
    visitsAt (mark ++ c :: r) (mark.length + i) =
      (visitsAt (c :: r) i).map (Visit.lift {} mark.length mark.reverse []) := by
  obtain ⟨vs, hvs, hvisits⟩ := visits_behind (r := r) hmark hgap hc
  have hfront : vs.filter (fun v => decide (mark.length + i ≤ v.index)) = [] := by
    refine List.filter_eq_nil_iff.2 fun v hv => ?_
    have hlt := (hvs v hv).2
    simp only [decide_eq_true_eq]
    omega
  have hindex : (fun v : Visit => decide (mark.length + i ≤ v.index)) ∘
      Visit.lift {} mark.length mark.reverse [] = fun v => decide (i ≤ v.index) := by
    funext v
    simp [Visit.lift]
  rw [visitsAt, hvisits, List.filter_append, hfront, List.nil_append, List.filter_map, hindex,
    visitsAt]

/-- A bracket closes in a larger text where it closes in a piece. -/
theorem closingBracket?_lift (b : Bracket) (vs : List Visit) (base : State) (offset : Nat)
    (outer more : Text) :
    closingBracket? b (vs.map (Visit.lift base offset outer more)) =
      (closingBracket? b vs).map (offset + ·) := by
  cases vs with
  | nil => rfl
  | cons first vs =>
    have hcloses : (fun v : Visit => v.char == b.closer &&
          v.state.depthOf b == (first.lift base offset outer more).state.depthOf b + 1) ∘
        Visit.lift base offset outer more =
          fun v => v.char == b.closer && v.state.depthOf b == first.state.depthOf b + 1 := by
      funext v
      rw [Bool.eq_iff_iff]
      simp [Visit.lift, State.depthOf_within, Nat.add_assoc]
    simp only [List.map_cons, closingBracket?, List.find?_map, hcloses, Option.map_map]
    rfl

/-- **A bracket closes behind such characters where it closes in the text alone.** -/
theorem matching?_behind {mark r : Text} {c : Char} (hmark : Bypassed mark)
    (hgap : RegexLiteral.isGap c = false) (hc : c ≠ '/') (hangle : c ≠ '>') (i : Nat) :
    matching? (mark ++ c :: r) (mark.length + i) =
      (matching? (c :: r) i).map (mark.length + ·) := by
  have hat := visitsAt_behind (r := r) hmark hgap hc i
  have hfirst : ∀ v ∈ visitsAt (c :: r) i, v.past = [] → v.char ≠ '>' := by
    intro v hv hnil
    obtain ⟨htext, -⟩ := placed_of_mem_visits (List.mem_filter.1 hv).1
    rw [hnil] at htext
    rwa [(List.cons.inj htext).1]
  have hclosing : ∀ d, closingOf (mark ++ c :: r) d (mark.length + i) =
      (closingOf (c :: r) d i).map (Option.map (mark.length + ·)) := by
    intro d
    simp only [closingOf, hat, closingAngle?_lift hfirst, closingBracket?_lift]
    split
    · rfl
    · cases Bracket.ofOpener? d <;> rfl
  have hplace : (mark ++ c :: r)[mark.length + i]? = (c :: r)[i]? := by
    rw [List.getElem?_append_right (Nat.le_add_right _ _), Nat.add_sub_cancel_left]
  rw [matching?, matching?, matching_natCast, matching_natCast, hplace]
  cases (c :: r)[i]? with
  | none => rfl
  | some d =>
    dsimp only
    rw [hclosing]
    cases closingOf (c :: r) d i <;> rfl

/-! ## Between brackets -/

/-- A step at which nothing is visited leaves the brackets as they are. -/
theorem depthOf_of_unvisited {s s' : State} {past : Text} {c : Char} {rest : Text}
    {position k : Nat} (hstep : s.step past c rest position = .ok (k, s'))
    (hv : visit? ⟨s, past, c :: rest, position⟩ = none) (b : Bracket) :
    s'.depthOf b = s.depthOf b := by
  have hleave : ∀ s : State, s.leave.depthOf b = s.depthOf b := by
    intro s
    unfold State.leave
    split <;> cases b <;> rfl
  have hclosed : ∀ b' : Bracket, ¬ (s.inCode = true ∧ c = b'.opener ∨
      s.inCode = true ∧ c = b'.closer ∧ s.closesExpr c = false) := by
    rintro b' (⟨hcode, hc⟩ | ⟨hcode, hc, hx⟩)
    · have hx : s.closesExpr c = false := by
        rw [hc]
        cases b' <;> rfl
      rw [visit?_bracket hcode (.inl hc) hx] at hv
      cases hv
    · rw [visit?_bracket hcode (.inr hc) hx] at hv
      cases hv
  have hmove := State.move_of_step hstep
  by_cases hcode : s.inCode = true
  · rw [State.step_of_inCode hcode, Except.ok.injEq] at hstep
    unfold State.stepCode at hstep
    split at hstep
    · cases hstep
      cases b <;> rfl
    split at hstep
    · cases hstep
      cases b <;> rfl
    split at hstep
    · cases hstep
      cases b <;> rfl
    split at hstep
    · cases hstep
      rfl
    split at hstep
    · rename_i b' hopener
      exact absurd (.inl ⟨hcode, (Bracket.opener_of_ofOpener? hopener).symm⟩) (hclosed b')
    split at hstep
    · cases hstep
      exact (hleave _).trans (by cases b <;> rfl)
    split at hstep
    · rename_i hx _ b' hcloser
      exact absurd (.inr ⟨hcode, State.eq_closer_of_ofCloser? hcloser, Bool.eq_false_iff.2 hx⟩)
        (hclosed b')
    · cases hstep
      rfl
  · cases hmove with
    | stay => rfl
    | substitute _ => cases b <;> rfl
    | leave _ => exact hleave s
    | resume hcontext _ =>
      rw [State.inCode, hcontext] at hcode
      exact absurd rfl hcode
    | enter hs _ | openBracket hs | closeBracket hs => exact absurd hs hcode

/-- At least as many brackets of a kind are open at a visit as behind it, unless the visit closes
one. -/
theorem le_depthOf_of_visited {s s' : State} {past : Text} {c : Char} {rest : Text}
    {position k : Nat} (hstep : s.step past c rest position = .ok (k, s')) {v : Visit}
    (hv : visit? ⟨s, past, c :: rest, position⟩ = some v) {b : Bracket} {n : Nat}
    (hn : n ≤ s.depthOf b) (hclose : ¬ (c = b.closer ∧ s.depthOf b = n)) : n ≤ s'.depthOf b := by
  obtain ⟨hp, hreads, hwidth⟩ := visit?_eq_some hv
  cases hp
  rw [step_of_readsCode hreads, hwidth, Except.ok.injEq] at hstep
  dsimp only at hstep
  split at hstep
  · rename_i b' _
    cases hstep
    rw [State.depthOf_openBracket]
    omega
  · split at hstep
    · rename_i b' hcloser
      cases hstep
      obtain rfl | hb := eq_or_ne b' b
      · have hne : v.state.depthOf b' ≠ n := fun h =>
          hclose ⟨State.eq_closer_of_ofCloser? hcloser, h⟩
        rw [State.depthOf_closeBracket (by omega), if_pos rfl]
        omega
      · by_cases hzero : v.state.depthOf b' = 0
        · rw [State.closeBracket_of_depthOf hzero]
          cases b <;> exact hn
        · rw [State.depthOf_closeBracket hzero, if_neg hb]
          exact hn
    · cases hstep
      exact hn

/-- Up to the closer that goes below `n` open brackets of a kind there are so many. -/
theorem le_depthOf_of_mem_visitsFrom {b : Bracket} {n : Nat} {s : State} {past rest : Text}
    {position : Nat} (hn : n ≤ s.depthOf b) {w : Visit}
    (hw : w ∈ visitsFrom s past rest position)
    (hfirst : ∀ u, (visitsFrom s past rest position).find?
      (fun v => v.char == b.closer && v.state.depthOf b == n) = some u → w.index ≤ u.index) :
    n ≤ w.state.depthOf b := by
  have horder := pairwise_visitsFrom s past rest position
  induction s, past, rest, position using passFrom.induct with
  | case1 s past position => simp [visitsFrom] at hw
  | case2 s past position c r f hstep => simp [visitsFrom_of_error hstep] at hw
  | case3 s past position c r k s' hstep ih =>
    rw [visitsFrom_cons hstep] at hw hfirst horder
    have horder' := pairwise_visitsFrom s' (advancePast past (c :: r) k) ((c :: r).drop k)
      (position + k)
    cases hv : visit? ⟨s, past, c :: r, position⟩ with
    | none =>
      rw [hv] at hw hfirst
      exact ih (by rwa [depthOf_of_unvisited hstep hv]) hw hfirst horder'
    | some v =>
      rw [hv] at hw hfirst horder
      have hstate : v.state = s ∧ v.char = c := by
        obtain ⟨hp, -⟩ := visit?_eq_some hv
        cases hp
        exact ⟨rfl, rfl⟩
      rcases List.mem_cons.1 hw with rfl | hw
      · rw [hstate.1]
        exact hn
      · have hbehind : v.index < w.index := (List.pairwise_cons.1 horder.2).1 w hw
        by_cases hclose : c = b.closer ∧ s.depthOf b = n
        · have hle := hfirst v (by simp [hstate, hclose])
          omega
        · refine ih (le_depthOf_of_visited hstep hv hn hclose) hw (fun u hu => hfirst u ?_) horder'
          rw [Option.toList_some, List.singleton_append, List.find?_cons_of_neg, hu]
          simpa [hstate] using hclose

/-- **Between a bracket and the one that closes it nothing is outside brackets.** -/
theorem outermost_of_matching?_bracket {text : Text} {vs ws : List Visit} {first : Visit}
    {b : Bracket} (hvisits : visits text = vs ++ first :: ws) (hopen : first.char = b.opener)
    {close : Nat} (hmatch : matching? text first.index = some close) :
    first.index < close ∧
      ∀ v ∈ visits text, v.state.depth = 0 → v.index ≤ first.index ∨ close < v.index := by
  have hmem : first ∈ visits text := by
    rw [hvisits]
    exact List.mem_append_right _ List.mem_cons_self
  rw [matching?_of_opener hmem hopen, visitsAt_of_visits hvisits, closingBracket?] at hmatch
  obtain ⟨u, hu, rfl⟩ := Option.map_eq_some_iff.1 hmatch
  have horder := (pairwise_visitsFrom {} [] text 0).2
  rw [← visits, hvisits, List.pairwise_append, List.pairwise_cons] at horder
  obtain ⟨-, ⟨hbehind, -⟩, hfront⟩ := horder
  refine ⟨hbehind u (List.mem_of_find?_eq_some hu), fun v hv hdepth => ?_⟩
  rw [hvisits] at hv
  rcases List.mem_append.1 hv with hv | hv
  · exact .inl (Nat.le_of_lt (hfront v hv first List.mem_cons_self))
  rcases List.mem_cons.1 hv with rfl | hv
  · exact .inl (Nat.le_refl _)
  -- behind the opener one more bracket is open, up to the closer
  right
  by_contra hle
  obtain ⟨ps, q, -, -, hq, hqs⟩ := exists_run_of_visits (p := ⟨{}, [], text, 0⟩) hvisits
  obtain ⟨rfl, hreads, -⟩ := visit?_eq_some hq
  rw [hopen] at hq hqs hreads
  have hcode := (readsCode_iff.1 hreads).1
  have hcons := visitsFrom_cons (State.step_opener hcode b first.past first.rest first.index)
  rw [hq, Option.toList_some, List.singleton_append] at hcons
  have hws := (List.cons.inj (hcons.symm.trans hqs)).2
  have hn : first.state.depthOf b + 1 ≤
      (first.state.openBracket b first.index).depthOf b := by
    rw [State.depthOf_openBracket, if_pos rfl]
  rw [← hws] at hv hu
  have hge := le_depthOf_of_mem_visitsFrom hn hv fun w hw => by
    rw [hu] at hw
    cases hw
    exact Nat.le_of_not_lt hle
  have hle : v.state.depthOf b ≤ v.state.depth := by
    cases b <;> simp only [State.depthOf, State.depth] <;> omega
  omega

/-- A bracket opens behind plain characters as it does in front of them. -/
theorem exists_opener_behind {text : Text} {w : Visit} (hw : w ∈ visits text)
    (hplain : Plain w.char) {gap r : Text} {b : Bracket} (hrest : w.rest = gap ++ b.opener :: r)
    (hgap : ∀ c ∈ gap, Plain c) :
    ∃ vs first ws, visits text = vs ++ first :: ws ∧ first.char = b.opener ∧
      first.index = w.index + 1 + gap.length := by
  obtain ⟨vs, ws, hsplit⟩ := List.append_of_mem hw
  obtain ⟨ps, q, -, -, hq, hqs⟩ := exists_run_of_visits (p := ⟨{}, [], text, 0⟩) hsplit
  obtain ⟨rfl, hreads, -⟩ := visit?_eq_some hq
  have hcode := (readsCode_iff.1 hreads).1
  have hplains : ∀ c ∈ w.char :: gap, Plain c := List.forall_mem_cons.2 ⟨hplain, hgap⟩
  obtain ⟨us, hus, -⟩ := Reads.of_plain hcode hplains w.past (b.opener :: r) w.index
  have hopener : w.state.closesExpr b.opener = false := by
    cases b <;> rfl
  have hcons := visitsFrom_cons (State.step_opener hcode b ((w.char :: gap).reverse ++ w.past) r
    (w.index + (w.char :: gap).length))
  rw [visit?_bracket hcode (.inl rfl) hopener, Option.toList_some, List.singleton_append] at hcons
  have hwhole := hus.visits_eq
  rw [hcons, List.cons_append, ← hrest] at hwhole
  have hindex : w.index + (w.char :: gap).length = w.index + 1 + gap.length := by
    rw [List.length_cons]
    omega
  rw [Cursor.visits, hwhole] at hqs
  rw [← hqs, ← List.append_assoc] at hsplit
  exact ⟨vs ++ us, _, _, hsplit, rfl, hindex⟩

/-! ## Between angle brackets -/

/-- Up to the closing angle bracket at least one is open. -/
theorem le_of_mem_outermostFrom {vs : List Visit} (hvs : vs.Pairwise (·.index < ·.index)) {n : Nat}
    (hn : 1 ≤ n) {close : Nat} (hclose : closingAngle? n vs = some close) {u : Visit}
    (hu : u ∈ outermostFrom true n vs) : close ≤ u.index := by
  induction vs generalizing n with
  | nil => cases hu
  | cons v vs ih =>
    obtain ⟨hbehind, hvs⟩ := List.pairwise_cons.1 hvs
    rw [closingAngle?] at hclose
    rw [outermostFrom, if_pos rfl] at hu
    by_cases hopens : v.opensAngle = true
    · rw [if_pos hopens] at hclose
      rw [Visit.angleAfter, if_pos hopens, if_neg (by simp)] at hu
      exact ih hvs (Nat.le_add_left 1 n) (by exact_mod_cast hclose) hu
    rw [if_neg hopens] at hclose
    rw [Visit.angleAfter, if_neg hopens] at hu
    by_cases hcloses : v.closesAngle = true
    · rw [if_pos hcloses] at hclose
      rw [if_pos hcloses] at hu
      by_cases hlast : n = 1
      · rw [if_pos (by omega)] at hclose
        cases hclose
        have hmem : u ∈ outermostFrom true n (v :: vs) := by
          rw [outermostFrom, if_pos rfl, Visit.angleAfter, if_neg hopens, if_pos hcloses]
          exact hu
        rcases List.mem_cons.1 (mem_of_mem_outermostFrom hmem).1 with rfl | h
        · exact Nat.le_refl _
        · exact Nat.le_of_lt (hbehind u h)
      · rw [if_neg (by omega)] at hclose
        have hpos : ¬ n - 1 = 0 := by omega
        rw [if_neg (by simp [hpos])] at hu
        have hcast : ((n - 1 : Nat) : Int) = n - 1 := by omega
        exact ih hvs (by omega) (by rwa [hcast]) hu
    · rw [if_neg hcloses] at hclose
      rw [if_neg hcloses, if_neg (by simp; omega)] at hu
      exact ih hvs hn hclose hu

theorem exists_of_closingAngle? {vs : List Visit} {depth : Int} {close : Nat}
    (h : closingAngle? depth vs = some close) : ∃ v ∈ vs, v.index = close ∧ v.char = '>' := by
  induction vs generalizing depth with
  | nil => cases h
  | cons v vs ih =>
    have later : ∀ {d}, closingAngle? d vs = some close →
        ∃ w ∈ v :: vs, w.index = close ∧ w.char = '>' := by
      intro d hd
      obtain ⟨w, hw, hclose⟩ := ih hd
      exact ⟨w, List.mem_cons_of_mem v hw, hclose⟩
    rw [closingAngle?] at h
    split at h
    · exact later h
    split at h
    · rename_i hcloses
      split at h
      · cases h
        have hchar : v.char = '>' := beq_iff_eq.1 (Bool.and_eq_true_iff.1 hcloses).1
        exact ⟨v, List.mem_cons_self, rfl, hchar⟩
      · exact later h
    · exact later h

/-- **Between an angle bracket at the start of a text and the one that closes it nothing is outside
brackets**, and the one that closes it is visited. -/
theorem outermost_of_matching?_angle {t : Text} {close : Nat}
    (hmatch : matching? ('<' :: t) 0 = some close) :
    (∀ v ∈ outermost ('<' :: t) true, close ≤ v.index) ∧
      ∃ v ∈ visits ('<' :: t), v.index = close ∧ v.char = '>' := by
  have hfirst : Reads {} [] ['<'] t 0 _ := Reads.plain rfl (by decide) [] t 0
  have hvisits : visits ('<' :: t) = _ := hfirst.visits_eq
  have hclosing : matching? ('<' :: t) 0 = closingAngle? 0 (visits ('<' :: t)) := by
    rw [← visitsAt_zero]
    exact matching?_of_closingOf rfl rfl
  rw [hclosing] at hmatch
  refine ⟨fun v hv => ?_, exists_of_closingAngle? hmatch⟩
  have horder := (pairwise_visitsFrom {} [] ('<' :: t) 0).2
  rw [← visits, hvisits] at horder
  rw [hvisits] at hmatch
  rw [outermost, hvisits] at hv
  exact le_of_mem_outermostFrom (List.pairwise_cons.1 horder).2 (Nat.le_refl 1) hmatch hv

end ModuleSurface.Lexing
