import Mathlib.Data.List.Forall2
import ModuleSurface.Proofs.Lexing.Comments
import ModuleSurface.Proofs.Lexing.Spacing

/-!
# Searching code in two layouts

The walks over the same pieces in two layouts visit the same visible characters, each with the same
brackets open (`forall₂_visits`).  What else they visit is white space, which no search looks for.
So a search finds the same place, and a text is cut into the same pieces:

* `stripComments_render` — there are no comments to take out;
* `exists_findOutermost?`, `exists_findLastOutermost?` — what stands outside brackets;
* `exists_splitOutermost` — the pieces between separators;
* `exists_matching?_bracket`, `isBracketed_congr` — the bracket that closes another one.
-/

namespace ModuleSurface.Lexing

/-! ## Visits in two walks -/

/-- White space neither opens nor closes an angle bracket. -/
theorem Visit.angleAfter_of_isBlank {v : Visit} (hv : Text.isBlank v.char = true) (angle : Nat) :
    v.angleAfter angle = angle := by
  have hne : v.char ≠ '<' ∧ v.char ≠ '>' := by
    constructor <;> intro h <;> rw [h] at hv <;> exact absurd hv (by decide)
  simp [Visit.angleAfter, Visit.opensAngle, Visit.closesAngle, hne]

/-- Of visits that count the same brackets, the same ones are outside brackets. -/
theorem forall₂_outermostFrom_of {R : Visit → Visit → Prop}
    (hangle : ∀ {v w}, R v w → ∀ angle, v.angleAfter angle = w.angleAfter angle)
    (hdepth : ∀ {v w}, R v w → v.state.depth = w.state.depth) {vs ws : List Visit}
    (h : List.Forall₂ R vs ws) (angles : Bool) (angle : Nat) :
    List.Forall₂ R (outermostFrom angles angle vs) (outermostFrom angles angle ws) := by
  induction h generalizing angle with
  | nil => exact .nil
  | @cons v w vs ws hv _ ih =>
    simp only [outermostFrom, hangle hv, hdepth hv]
    generalize (if angles = true then w.angleAfter angle else 0) = after
    split
    · exact .cons hv (ih after)
    · exact ih after

end ModuleSurface.Lexing

namespace ModuleSurface.Spacing

open ModuleSurface.Lexing
open ModuleSurface.Lexing.Cursor

variable {l m : Layout} {ps qs : List Piece} {p : Char → Bool}

/-! ## Steps -/

/-- The state behind a visible character of code. -/
def behind (s : State) (c : Char) (position : Nat) : State :=
  match Bracket.ofOpener? c with
  | some b => s.openBracket b position
  | none =>
    match Bracket.ofCloser? c with
    | some b => s.closeBracket b
    | none => s

theorem context_behind (s : State) (c : Char) (position : Nat) :
    (behind s c position).context = s.context := by
  unfold behind
  split
  · exact State.context_openBracket ..
  · split
    · exact State.context_closeBracket ..
    · rfl

theorem sameShape_behind {s t : State} (h : SameShape s t) (c : Char) (position position' : Nat) :
    SameShape (behind s c position) (behind t c position') := by
  unfold behind
  split
  · exact h.openBracket _ _ _
  · split
    · exact h.closeBracket _
    · exact h

/-- A visible character is visited and read alone. -/
theorem visit?_of_quiet {s : State} (hs : s.context = .normal) {c : Char} (hc : Quiet c)
    (past rest : Text) (position : Nat) :
    s.step past c rest position = .ok (1, behind s c position) ∧
      visit? ⟨s, past, c :: rest, position⟩ = some ⟨position, past, c, rest, s⟩ := by
  simp only [Quiet, List.mem_cons, List.not_mem_nil, or_false, not_or] at hc
  obtain ⟨hslash, hsingle, hdouble, hbacktick⟩ := hc
  have hreads : s.readsCode c rest = true := by
    refine readsCode_iff.2 ⟨by rw [State.inCode, hs]; rfl, fun h => absurd h hslash, ?_, ?_⟩
    · simp [Context.ofQuote?, hsingle, hdouble, hbacktick]
    · simp [State.closesExpr, hs]
  have hwidth : RegexLiteral.width? past c rest = none := by
    simp [RegexLiteral.width?, hslash]
  refine ⟨?_, visit?_of_readsCode hreads hwidth position⟩
  rw [step_of_readsCode hreads, hwidth, behind]
  cases Bracket.ofOpener? c with
  | some b => rfl
  | none => cases Bracket.ofCloser? c <;> rfl

/-- White space is visited and nothing else is. -/
theorem exists_reads_gap {s : State} (hs : s.context = .normal) (g : Gap) (past more : Text)
    (position : Nat) :
    ∃ vs, Reads s past g.1 more position vs ∧ ∀ v ∈ vs, Text.isBlank v.char = true := by
  have hcode : s.inCode = true := by rw [State.inCode, hs]; rfl
  obtain ⟨vs, hreads, hvs⟩ :=
    Reads.of_plain hcode (fun c hc => plain_of_isBlank (g.2.2 c hc)) past more position
  refine ⟨vs, hreads, fun v hv => ?_⟩
  obtain ⟨-, a, b, htext, -⟩ := hvs v hv
  exact g.2.2 _ (by rw [htext]; simp)

/-- Pieces lead from code to code, through no comment. -/
theorem exists_run (l : Layout) (ps : List Piece) {s : State} (hs : s.context = .normal)
    (past more : Text) (position : Nat) :
    ∃ qs s', Run ⟨s, past, render l ps ++ more, position⟩ qs
        ⟨s', (render l ps).reverse ++ past, more, position + (render l ps).length⟩ ∧
      s'.context = .normal ∧ ∀ q ∈ qs, q.state.context.isComment = false := by
  induction ps generalizing s past position with
  | nil => exact ⟨[], s, .refl _, hs, by simp⟩
  | cons x ps ih =>
    have hfirst : ∃ qs s', Run ⟨s, past, x.text l ++ (render l ps ++ more), position⟩ qs
          ⟨s', (x.text l).reverse ++ past, render l ps ++ more, position + (x.text l).length⟩ ∧
        s'.context = .normal ∧ ∀ q ∈ qs, q.state.context.isComment = false := by
      cases x with
      | sign c => exact Run.quiet (t := [c.1]) (by simpa using c.2.2) hs past _ position
      | gap g =>
        have hquiet : ∀ c ∈ (l g).1, Quiet c := fun c hc =>
          quiet_of_plain (plain_of_isBlank ((l g).2.2 c hc))
        exact Run.quiet hquiet hs past _ position
      | literal x =>
        have hcode : s.inCode = true := by rw [State.inCode, hs]; rfl
        obtain ⟨qs, hrun, hqs⟩ := x.exists_run hcode past (render l ps ++ more) position
        exact ⟨qs, s, hrun, hs, fun q hq => (hqs q hq).1⟩
    obtain ⟨qs, s', hqs, hs', hcomments⟩ := hfirst
    obtain ⟨rs, s'', hrs, hs'', hcomments'⟩ := ih hs' ((x.text l).reverse ++ past)
      (position + (x.text l).length)
    refine ⟨qs ++ rs, s'', ?_, hs'', fun q hq => ?_⟩
    · rw [render_cons, List.append_assoc, List.reverse_append, List.append_assoc,
        List.length_append, ← Nat.add_assoc]
      exact hqs.append hrs
    · exact (List.mem_append.1 hq).elim (hcomments q) (hcomments' q)

/-- **There are no comments among pieces.** -/
theorem stripComments_render (l : Layout) (ps : List Piece) :
    stripComments (render l ps) = render l ps := by
  obtain ⟨qs, s, hrun, hs, hqs⟩ := exists_run l ps (s := {}) rfl [] [] 0
  rw [List.append_nil] at hrun
  exact hrun.stripComments_eq rfl hqs (by rw [hs]; rfl)

/-! ## Visits -/

/-- The visit is made at the place `n`, where a visible character stands. -/
structure Shows (l : Layout) (ps : List Piece) (n : Nat) (v : Visit) : Prop where
  /-- The character. -/
  char : (lead (ps.drop n)).head? = some v.char
  /-- Its offset. -/
  index : v.index = offset l ps n
  /-- What is in front of it. -/
  past : v.past = (render l (ps.take n)).reverse
  /-- What is behind it. -/
  rest : v.char :: v.rest = render l (ps.drop n)

/-- The visits are made at one place, with the same brackets open. -/
def Alike (l m : Layout) (ps : List Piece) (v w : Visit) : Prop :=
  SameShape v.state w.state ∧ ∃ n, Shows l ps n v ∧ Shows m ps n w

/-- The visits of visible characters. -/
def visible (vs : List Visit) : List Visit :=
  vs.filter fun v => !Text.isBlank v.char

theorem visible_append (vs ws : List Visit) : visible (vs ++ ws) = visible vs ++ visible ws :=
  List.filter_append ..

theorem visible_eq_nil {vs : List Visit} (h : ∀ v ∈ vs, Text.isBlank v.char = true) :
    visible vs = [] :=
  List.filter_eq_nil_iff.2 fun v hv => by simp [h v hv]

/-- A sign is shown where it stands. -/
theorem shows_sign (l : Layout) (front back : List Piece) (c : { c : Char // Visible c })
    (s : State) :
    Shows l (front ++ .sign c :: back) front.length
      ⟨(render l front).length, (render l front).reverse, c.1, render l back, s⟩ where
  char := by simp [lead]
  index := by simp [offset]
  past := by simp
  rest := by simp [Piece.text]

/-- Reading a piece shows what the pieces behind it show, when nothing visible is visited in it. -/
theorem visible_visitsFrom_skip {s : State} {x : Piece} {front back : List Piece}
    {vs : List Visit}
    (hvs : Reads s (render l front).reverse (x.text l) (render l back) (render l front).length vs)
    (hvisible : visible vs = []) :
    visible (visitsFrom s (render l front).reverse (render l (x :: back))
        (render l front).length) =
      visible (visitsFrom s (render l (front ++ [x])).reverse (render l back)
        (render l (front ++ [x])).length) := by
  rw [render_cons, hvs.visits_eq, visible_append, hvisible]
  simp only [render_append, render_cons, render_nil, List.append_nil, List.reverse_append,
    List.length_append, List.nil_append]

/-- A sign is visited, and the pieces behind it are read in code again. -/
theorem visible_visitsFrom_sign {s : State} (hs : s.context = .normal)
    (c : { c : Char // Visible c }) (front back : List Piece) :
    visible (visitsFrom s (render l front).reverse (render l (.sign c :: back))
        (render l front).length) =
      ⟨(render l front).length, (render l front).reverse, c.1, render l back, s⟩ ::
        visible (visitsFrom (behind s c.1 (render l front).length)
          (render l (front ++ [.sign c])).reverse (render l back)
          (render l (front ++ [.sign c])).length) := by
  obtain ⟨hstep, hvisit⟩ := visit?_of_quiet hs c.2.2 (render l front).reverse (render l back)
    (render l front).length
  have hvisible : ∀ v : Visit, v.char = c.1 → visible [v] = [v] := by
    rintro v hv
    simp [visible, hv, c.2.1]
  rw [render_cons, Piece.text, List.singleton_append, visitsFrom_cons hstep, hvisit,
    visible_append, Option.toList_some, hvisible _ rfl]
  simp only [render_append, render_cons, render_nil, List.append_nil, List.reverse_append,
    List.length_append, Piece.text]
  rfl

theorem forall₂_visitsFrom {s t : State} (h : SameShape s t) (hs : s.context = .normal)
    (front back : List Piece) :
    List.Forall₂ (Alike l m (front ++ back))
      (visible (visitsFrom s (render l front).reverse (render l back) (render l front).length))
      (visible (visitsFrom t (render m front).reverse (render m back)
        (render m front).length)) := by
  induction back generalizing front s t with
  | nil => simp [visitsFrom, visible]
  | cons x back ih =>
    have ht : t.context = .normal := by rw [← h.context, hs]
    have hcode : ∀ {s : State}, s.context = .normal → s.inCode = true := by
      intro s hs
      rw [State.inCode, hs]
      rfl
    rw [List.append_cons]
    cases x with
    | sign c =>
      rw [visible_visitsFrom_sign hs, visible_visitsFrom_sign ht, ← List.append_cons]
      refine .cons ⟨h, front.length, shows_sign l front back c s, shows_sign m front back c t⟩ ?_
      rw [List.append_cons]
      exact ih (sameShape_behind h c.1 _ _) ((context_behind _ _ _).trans hs) (front ++ [.sign c])
    | gap g =>
      obtain ⟨vs, hvs, hblank⟩ := exists_reads_gap hs (l g) (render l front).reverse
        (render l back) (render l front).length
      obtain ⟨ws, hws, hblank'⟩ := exists_reads_gap ht (m g) (render m front).reverse
        (render m back) (render m front).length
      rw [visible_visitsFrom_skip hvs (visible_eq_nil hblank),
        visible_visitsFrom_skip hws (visible_eq_nil hblank')]
      exact ih h hs (front ++ [.gap g])
    | literal x =>
      rw [visible_visitsFrom_skip (x.reads (hcode hs) _ _ _) rfl,
        visible_visitsFrom_skip (x.reads (hcode ht) _ _ _) rfl]
      exact ih h hs (front ++ [.literal x])

/-- **Two layouts of the same pieces are visited alike.** -/
theorem forall₂_visits (l m : Layout) (ps : List Piece) :
    List.Forall₂ (Alike l m ps) (visible (visits (render l ps))) (visible (visits (render m ps))) :=
  forall₂_visitsFrom (.refl {}) rfl [] ps

namespace Alike

variable {v w : Visit}

theorem char_eq (h : Alike l m ps v w) : v.char = w.char := by
  obtain ⟨-, n, hv, hw⟩ := h
  exact Option.some.inj (hv.char.symm.trans hw.char)

theorem depth_eq (h : Alike l m ps v w) : v.state.depth = w.state.depth := by
  obtain ⟨⟨-, hbraces, hsquares, hrounds, -⟩, -⟩ := h
  rw [State.depth, State.depth, hbraces, hsquares, hrounds]

/-- What can be seen in front of the visits is the same. -/
theorem any_past (hp : ∀ c, p c = true → Visible c) (h : Alike l m ps v w) :
    v.past.head?.any p = w.past.head?.any p := by
  obtain ⟨-, n, hv, hw⟩ := h
  rw [hv.past, hw.past, List.head?_reverse, List.head?_reverse, any_getLast?_render hp,
    any_getLast?_render hp]

theorem opensAngle_eq (h : Alike l m ps v w) : v.opensAngle = w.opensAngle := by
  rw [Visit.opensAngle, Visit.opensAngle, h.char_eq]

theorem closesAngle_eq (h : Alike l m ps v w) : v.closesAngle = w.closesAngle := by
  have hequals : ∀ o : Option Char, (o != some '=') = !o.any (· == '=') := by
    rintro (_ | c) <;> rfl
  have hpast := h.any_past (p := (· == '=')) fun c hc => by rw [beq_iff_eq.1 hc]; decide
  rw [Visit.closesAngle, Visit.closesAngle, h.char_eq, hequals, hequals, hpast]

/-- A target of visible characters begins at both visits or at neither. -/
theorem begins_eq {target : Text} (htarget : ∀ c ∈ target, Visible c) (h : Alike l m ps v w) :
    v.begins target = w.begins target := by
  have hident : ∀ c, Text.isIdentChar c = true → Visible c := fun c => visible_of_isIdentChar
  have hpast := h.any_past hident
  obtain ⟨-, n, hv, hw⟩ := h
  rw [Visit.begins, Visit.begins, hv.rest, hw.rest, isPrefixOf_render htarget,
    isPrefixOf_render htarget, hpast]
  cases hprefix : target.isPrefixOf (lead (ps.drop n)) with
  | false => rfl
  | true =>
    have hle := (List.isPrefixOf_iff_prefix.1 hprefix).length_le
    rw [drop_lead l hle, drop_lead m hle, any_head?_render hident, any_head?_render hident]

end Alike

/-! ## What is outside brackets -/

/-- White space makes no difference to the brackets around the other visits. -/
theorem visible_outermostFrom (angles : Bool) (angle : Nat) (vs : List Visit) :
    visible (outermostFrom angles angle vs) = outermostFrom angles angle (visible vs) := by
  cases angles with
  | false => rw [outermostFrom_false, outermostFrom_false, visible, visible, List.filter_comm]
  | true =>
    induction vs generalizing angle with
    | nil => rfl
    | cons v vs ih =>
      cases hv : Text.isBlank v.char with
      | true =>
        have hcons : ∀ ws, visible (v :: ws) = visible ws := fun ws => by simp [visible, hv]
        rw [hcons, outermostFrom, if_pos rfl, Visit.angleAfter_of_isBlank hv]
        split
        · rw [hcons, ih]
        · exact ih angle
      | false =>
        have hcons : ∀ ws, visible (v :: ws) = v :: visible ws := fun ws => by simp [visible, hv]
        rw [hcons, outermostFrom, outermostFrom, if_pos rfl]
        split
        · rw [hcons, ih]
        · exact ih _

theorem forall₂_outermostFrom {vs ws : List Visit} (h : List.Forall₂ (Alike l m ps) vs ws)
    (angles : Bool) (angle : Nat) :
    List.Forall₂ (Alike l m ps) (outermostFrom angles angle vs)
      (outermostFrom angles angle ws) :=
  forall₂_outermostFrom_of
    (fun hv angle => by
      rw [Visit.angleAfter, Visit.angleAfter, hv.opensAngle_eq, hv.closesAngle_eq])
    (fun hv => hv.depth_eq) h angles angle

/-- **What is looked for outside brackets is found alike**, if it is no white space. -/
theorem forall₂_outermost {q : Visit → Bool} (hq : ∀ v, q v = true → Text.isBlank v.char = false)
    (hqq : ∀ v w, Alike l m ps v w → q v = q w) (angles : Bool) :
    List.Forall₂ (Alike l m ps) ((outermost (render l ps) angles).filter q)
      ((outermost (render m ps) angles).filter q) := by
  have hvisible : ∀ vs : List Visit, vs.filter q = (visible vs).filter q := by
    intro vs
    rw [visible, List.filter_filter]
    refine List.filter_congr fun v _ => ?_
    cases h : q v with
    | false => rfl
    | true => simp [hq v h]
  have hall := forall₂_outermostFrom (forall₂_visits l m ps) angles 0
  rw [← visible_outermostFrom, ← visible_outermostFrom] at hall
  rw [hvisible (outermost (render l ps) angles), hvisible (outermost (render m ps) angles)]
  refine List.rel_filter (fun v w h => ?_) hall
  show q v = true ↔ q w = true
  rw [hqq v w h]

/-- The offsets are those of one place in both layouts, and `P` holds there; or both are missing. -/
def FoundAt (P : Nat → Prop) (l m : Layout) (ps : List Piece) (a b : Option Nat) : Prop :=
  ∃ o : Option Nat, a = o.map (offset l ps) ∧ b = o.map (offset m ps) ∧ ∀ n ∈ o, P n

theorem foundAt_head? {P : Nat → Prop} {vs ws : List Visit}
    (h : List.Forall₂ (Alike l m ps) vs ws) (hP : ∀ v ∈ vs, ∀ n, Shows l ps n v → P n) :
    FoundAt P l m ps (vs.head?.map (·.index)) (ws.head?.map (·.index)) := by
  cases h with
  | nil => exact ⟨none, rfl, rfl, by simp⟩
  | @cons v w vs ws hv _ =>
    obtain ⟨-, n, hshows, hshows'⟩ := hv
    refine ⟨some n, by simp [hshows.index], by simp [hshows'.index], fun k hk => ?_⟩
    obtain rfl : n = k := Option.some.inj hk
    exact hP v List.mem_cons_self n hshows

theorem foundAt_getLast? {P : Nat → Prop} {vs ws : List Visit}
    (h : List.Forall₂ (Alike l m ps) vs ws) (hP : ∀ v ∈ vs, ∀ n, Shows l ps n v → P n) :
    FoundAt P l m ps (vs.getLast?.map (·.index)) (ws.getLast?.map (·.index)) := by
  rw [← List.head?_reverse, ← List.head?_reverse]
  exact foundAt_head? (List.forall₂_reverse_iff.2 h) fun v hv => hP v (List.mem_reverse.1 hv)

section

variable {c : Char} {t : Text} (ht : ∀ d ∈ c :: t, Visible d)

include ht

theorem isBlank_of_begins {v : Visit} (h : v.begins (c :: t) = true) :
    Text.isBlank v.char = false := by
  rw [Visit.char_of_begins t h]
  exact (ht c List.mem_cons_self).1

theorem prefix_of_begins {v : Visit} {n : Nat} (hv : Shows l ps n v)
    (h : v.begins (c :: t) = true) : c :: t <+: lead (ps.drop n) := by
  rw [Visit.begins, hv.rest, Bool.and_eq_true, isPrefixOf_render ht] at h
  exact List.isPrefixOf_iff_prefix.1 h.1

/-- **A target outside brackets is found at the same place.** -/
theorem exists_findOutermost? (l m : Layout) (ps : List Piece) (angles : Bool) :
    FoundAt (fun n => c :: t <+: lead (ps.drop n)) l m ps
      (findOutermost? (render l ps) (c :: t) 0 angles)
      (findOutermost? (render m ps) (c :: t) 0 angles) := by
  have hstart : ∀ text, findOutermost? text (c :: t) 0 angles =
      (((outermost text angles).filter (·.begins (c :: t))).head?).map (·.index) := by
    intro text
    simp only [findOutermost?, Nat.zero_le, decide_true, Bool.true_and, List.head?_filter]
  rw [hstart, hstart]
  refine foundAt_head? (forall₂_outermost (fun _ => isBlank_of_begins ht)
    (fun _ _ h => h.begins_eq ht) angles) fun v hv n hshows => ?_
  exact prefix_of_begins ht hshows (List.mem_filter.1 hv).2

theorem exists_findLastOutermost? (l m : Layout) (ps : List Piece) :
    FoundAt (fun n => c :: t <+: lead (ps.drop n)) l m ps
      (findLastOutermost? (render l ps) (c :: t)) (findLastOutermost? (render m ps) (c :: t)) :=
  foundAt_getLast? (forall₂_outermost (fun _ => isBlank_of_begins ht)
    (fun _ _ h => h.begins_eq ht) false) fun _ hv _ hshows =>
      prefix_of_begins ht hshows (List.mem_filter.1 hv).2

end

/-! ## Splitting -/

/-- The pieces behind the place `n`, cut at the given places.  What stands at a cut belongs to no
part. -/
def cutPieces (ps : List Piece) (n : Nat) : List Nat → List (List Piece)
  | [] => [ps.drop n]
  | k :: ks => (ps.take k).drop n :: cutPieces ps (k + 1) ks

theorem isInfix_of_mem_cutPieces {n : Nat} {ns : List Nat} (h : qs ∈ cutPieces ps n ns) :
    qs <:+: ps := by
  induction ns generalizing n with
  | nil =>
    rw [cutPieces, List.mem_singleton] at h
    rw [h]
    exact (List.drop_suffix n ps).isInfix
  | cons k ks ih =>
    rcases List.mem_cons.1 h with rfl | h
    · exact (List.drop_suffix n _).isInfix.trans (List.take_prefix k ps).isInfix
    · exact ih h

/-- A text is cut where its pieces are. -/
theorem cutAt_render (l : Layout) (ps : List Piece) {n : Nat} {ns : List Nat}
    (hsign : ∀ k ∈ ns, ∃ c, (lead (ps.drop k)).head? = some c) (hle : ∀ k ∈ ns, n ≤ k)
    (hsorted : ns.Pairwise (· < ·)) :
    cutAt (offset l ps n) (render l (ps.drop n)) (ns.map (offset l ps)) =
      (cutPieces ps n ns).map (render l) := by
  induction ns generalizing n with
  | nil => rfl
  | cons k ks ih =>
    obtain ⟨hbehind, hsorted⟩ := List.pairwise_cons.1 hsorted
    obtain ⟨⟨c, hc⟩, hsign⟩ := List.forall_mem_cons.1 hsign
    have hnk : n ≤ k := hle k List.mem_cons_self
    have hsucc := offset_succ hc l
    have htake : (render l (ps.drop n)).take (offset l ps k - offset l ps n) =
        render l ((ps.take k).drop n) := by
      rw [← slice_offset, Text.slice, List.drop_take, drop_offset]
    have hdrop : (render l (ps.drop n)).drop (offset l ps k + 1 - offset l ps n) =
        render l (ps.drop (k + 1)) := by
      have hoffset : offset l ps n ≤ offset l ps k := offset_le l hnk
      rw [← drop_offset, List.drop_drop, ← hsucc, ← drop_offset]
      congr 1
      omega
    rw [List.map_cons, cutAt, htake, hdrop, ← hsucc, ih hsign hbehind hsorted]
    rfl

theorem outermostFrom_sublist (angles : Bool) (angle : Nat) (vs : List Visit) :
    (outermostFrom angles angle vs).Sublist vs := by
  induction vs generalizing angle with
  | nil => exact .slnil
  | cons v vs ih =>
    simp only [outermostFrom]
    generalize (if angles = true then v.angleAfter angle else 0) = after
    split
    · exact (ih after).cons_cons v
    · exact (ih after).cons v

/-- Neither end is a gap. -/
def Tight (ps : List Piece) : Prop :=
  (∀ x ∈ ps.head?, x.isGap = false) ∧ ∀ x ∈ ps.getLast?, x.isGap = false

theorem tight_rdropWhile {q : Piece → Bool} (hq : ∀ x, x.isGap = true → q x = true)
    (ps : List Piece) : Tight ((ps.dropWhile Piece.isGap).rdropWhile q) := by
  refine ⟨fun x hx => ?_, fun x hx => ?_⟩
  · have hpre := List.rdropWhile_prefix q (l := ps.dropWhile Piece.isGap)
    have hhead := List.head?_dropWhile_not Piece.isGap ps
    obtain ⟨r, hr⟩ := List.head?_eq_some_iff.1 hx
    rw [hr] at hpre
    obtain ⟨s, hs⟩ := hpre
    rw [← hs] at hhead
    simpa using hhead
  · have hne : (ps.dropWhile Piece.isGap).rdropWhile q ≠ [] := by
      intro h
      rw [h] at hx
      cases hx
    have hlast := List.rdropWhile_last_not q _ hne
    rw [List.getLast?_eq_some_getLast hne] at hx
    rw [Option.some.inj hx] at hlast
    exact Bool.eq_false_iff.2 fun hgap => hlast (hq x hgap)

theorem tight_strip (ps : List Piece) : Tight (strip ps) :=
  tight_rdropWhile (fun _ h => h) ps

theorem tight_stripSemicolon (ps : List Piece) : Tight (stripSemicolon ps) :=
  tight_rdropWhile (fun x h => by rw [h, Bool.true_or]) ps

theorem strip_isInfix (ps : List Piece) : strip ps <:+: ps :=
  (List.rdropWhile_prefix _ _).isInfix.trans (List.dropWhile_suffix _).isInfix

theorem stripSemicolon_isInfix (ps : List Piece) : stripSemicolon ps <:+: ps :=
  (List.rdropWhile_prefix _ _).isInfix.trans (List.dropWhile_suffix _).isInfix

/-- Visits that are alike are made at the same places. -/
theorem exists_places {vs ws : List Visit} (h : List.Forall₂ (Alike l m ps) vs ws) :
    ∃ ns : List Nat, vs.map (·.index) = ns.map (offset l ps) ∧
      ws.map (·.index) = ns.map (offset m ps) ∧
        ∀ k ∈ ns, ∃ c, (lead (ps.drop k)).head? = some c := by
  induction h with
  | nil => exact ⟨[], rfl, rfl, by simp⟩
  | cons hv _ ih =>
    obtain ⟨-, n, hshows, hshows'⟩ := hv
    obtain ⟨ns, hl, hm, hsign⟩ := ih
    refine ⟨n :: ns, ?_, ?_, List.forall_mem_cons.2 ⟨⟨_, hshows.char⟩, hsign⟩⟩
    · rw [List.map_cons, List.map_cons, hshows.index, hl]
    · rw [List.map_cons, List.map_cons, hshows'.index, hm]

/-- **A text is split into the same pieces in both layouts**, if no separator is white space. -/
theorem exists_splitOutermost {isSeparator : Char → Bool}
    (hsep : ∀ c, isSeparator c = true → Visible c) (l m : Layout) (ps : List Piece)
    (angles : Bool) :
    ∃ pss : List (List Piece),
      splitOutermost (render l ps) isSeparator angles = pss.map (render l) ∧
      splitOutermost (render m ps) isSeparator angles = pss.map (render m) ∧
      ∀ qs ∈ pss, qs <:+: ps ∧ Tight qs := by
  have halike : List.Forall₂ (Alike l m ps)
      ((outermost (render l ps) angles).filter fun v => isSeparator v.char)
      ((outermost (render m ps) angles).filter fun v => isSeparator v.char) :=
    forall₂_outermost (fun v hv => (hsep _ hv).1) (fun v w h => by rw [h.char_eq]) angles
  obtain ⟨ns, hl, hm, hsign⟩ := exists_places halike
  have hsorted : ns.Pairwise (· < ·) := by
    have hvisits := (pairwise_visitsFrom {} [] (render l ps) 0).2
    have hcuts := List.pairwise_map.2 (hvisits.sublist
      (List.filter_sublist.trans (outermostFrom_sublist angles 0 _) :
        ((outermost (render l ps) angles).filter fun v => isSeparator v.char).Sublist _))
    rw [hl] at hcuts
    refine (List.pairwise_map.1 hcuts).imp fun h => ?_
    exact Nat.lt_of_not_le fun hle => Nat.not_le.2 h (offset_le l hle)
  have hsplit : ∀ l : Layout,
      ((outermost (render l ps) angles).filter fun v => isSeparator v.char).map (·.index) =
          ns.map (offset l ps) →
        splitOutermost (render l ps) isSeparator angles =
          (((cutPieces ps 0 ns).map strip).filter (!·.isEmpty)).map (render l) := by
    intro l hl
    have hcut := cutAt_render l ps hsign (fun _ _ => Nat.zero_le _) hsorted
    rw [offset_zero, List.drop_zero] at hcut
    simp only [splitOutermost, hl, hcut, List.map_map, List.filter_map]
    congr 1
    · funext qs
      exact strip_render l qs
    · refine List.filter_congr fun qs _ => ?_
      simp only [Function.comp_apply, strip_render, isEmpty_render]
  refine ⟨_, hsplit l hl, hsplit m hm, fun qs hqs => ?_⟩
  obtain ⟨rs, hrs, rfl⟩ := List.mem_map.1 (List.mem_filter.1 hqs).1
  exact ⟨(strip_isInfix rs).trans (isInfix_of_mem_cutPieces hrs), tight_strip rs⟩

/-! ## Closing brackets -/

theorem lt_length_of_lead {n : Nat} {c : Char} (h : (lead (ps.drop n)).head? = some c) :
    n < ps.length := by
  by_contra hle
  rw [List.drop_eq_nil_of_le (Nat.le_of_not_lt hle)] at h
  cases h

/-- Every visible character is visited. -/
theorem exists_shows {n : Nat} {c : Char} (h : (lead (ps.drop n)).head? = some c) (l : Layout) :
    ∃ vs₁ v vs₂, visits (render l ps) = vs₁ ++ v :: vs₂ ∧ v.char = c ∧ v.index = offset l ps n := by
  cases hdrop : ps.drop n with
  | nil =>
    rw [hdrop] at h
    cases h
  | cons x back =>
    cases x with
    | sign d =>
      rw [hdrop] at h
      obtain rfl : d.1 = c := Option.some.inj h
      have hps : render l ps = render l (ps.take n) ++ (d.1 :: render l back) := by
        conv_lhs => rw [← List.take_append_drop n ps, hdrop]
        simp [Piece.text]
      obtain ⟨qs, s, hrun, hs, -⟩ := exists_run l (ps.take n) (s := {}) rfl []
        (d.1 :: render l back) 0
      obtain ⟨hstep, hvisit⟩ := visit?_of_quiet hs d.2.2 ((render l (ps.take n)).reverse ++ [])
        (render l back) (0 + (render l (ps.take n)).length)
      have hvisits := hrun.visits_eq
      rw [Cursor.visits, Cursor.visits, ← hps, visitsFrom_cons hstep, hvisit] at hvisits
      exact ⟨_, _, _, hvisits, rfl, Nat.zero_add _⟩
    | _ =>
      rw [hdrop] at h
      cases h

/-- Behind a place the walks are alike, too. -/
theorem forall₂_visitsAt (l m : Layout) (ps : List Piece) (n : Nat) :
    List.Forall₂ (Alike l m ps) (visible (visitsAt (render l ps) (offset l ps n)))
      (visible (visitsAt (render m ps) (offset m ps n))) := by
  have hswap : ∀ (text : Text) (i : Nat), visible (visitsAt text i) =
      (visible (visits text)).filter fun v => decide (i ≤ v.index) := by
    intro text i
    rw [visible, visitsAt, List.filter_comm]
    rfl
  rw [hswap, hswap]
  refine List.rel_filter (fun v w h => ?_) (forall₂_visits l m ps)
  obtain ⟨-, k, hv, hw⟩ := h
  have hk := lt_length_of_lead hv.char
  show decide (offset l ps n ≤ v.index) = true ↔ decide (offset m ps n ≤ w.index) = true
  rw [decide_eq_true_iff, decide_eq_true_iff, hv.index, hw.index, ← Nat.not_lt, ← Nat.not_lt,
    offset_lt_iff l hk, offset_lt_iff m hk]

/-- The visits behind a visible character begin with it. -/
theorem exists_visitsAt {n : Nat} {c : Char} (h : (lead (ps.drop n)).head? = some c) (l : Layout) :
    ∃ v vs, visitsAt (render l ps) (offset l ps n) = v :: vs ∧ v.char = c := by
  obtain ⟨vs₁, v, vs₂, hvisits, hchar, hindex⟩ := exists_shows h l
  exact ⟨v, vs₂, hindex ▸ visitsAt_of_visits hvisits, hchar⟩

theorem closingAngle?_visible (depth : Int) (vs : List Visit) :
    closingAngle? depth vs = closingAngle? depth (visible vs) := by
  induction vs generalizing depth with
  | nil => rfl
  | cons v vs ih =>
    cases hv : Text.isBlank v.char with
    | true =>
      have hne : v.char ≠ '<' ∧ v.char ≠ '>' := by
        constructor <;> intro h <;> rw [h] at hv <;> exact absurd hv (by decide)
      have hcons : visible (v :: vs) = visible vs := by simp [visible, hv]
      simp [hcons, closingAngle?, Visit.opensAngle, Visit.closesAngle, hne, ih depth]
    | false =>
      have hcons : visible (v :: vs) = v :: visible vs := by simp [visible, hv]
      simp only [hcons, closingAngle?, ih]

theorem foundAt_closingAngle? {vs ws : List Visit} (h : List.Forall₂ (Alike l m ps) vs ws)
    (depth : Int) :
    FoundAt (fun n => (lead (ps.drop n)).head? = some '>') l m ps (closingAngle? depth vs)
      (closingAngle? depth ws) := by
  induction h generalizing depth with
  | nil => exact ⟨none, rfl, rfl, by simp⟩
  | @cons v w vs ws hv _ ih =>
    simp only [closingAngle?, hv.opensAngle_eq, hv.closesAngle_eq]
    split
    · exact ih _
    split
    · rename_i hcloses
      split
      · obtain ⟨-, n, hshows, hshows'⟩ := hv
        refine ⟨some n, by simp [hshows.index], by simp [hshows'.index], fun k hk => ?_⟩
        obtain rfl : n = k := Option.some.inj hk
        rw [hshows'.char]
        simp only [Visit.closesAngle, Bool.and_eq_true, beq_iff_eq] at hcloses
        rw [hcloses.1]
      · exact ih _
    · exact ih _

/-- **A bracket closes at the same place in both layouts.** -/
theorem exists_matching?_bracket {b : Bracket} {n : Nat}
    (h : (lead (ps.drop n)).head? = some b.opener) (l m : Layout) :
    FoundAt (fun k => (lead (ps.drop k)).head? = some b.closer) l m ps
      (matching? (render l ps) (offset l ps n)) (matching? (render m ps) (offset m ps n)) := by
  have hmatching : ∀ l : Layout, matching? (render l ps) (offset l ps n) =
      closingBracket? b (visitsAt (render l ps) (offset l ps n)) := by
    intro l
    obtain ⟨vs₁, v, vs₂, hvisits, hchar, hindex⟩ := exists_shows h l
    rw [← hindex]
    exact matching?_of_opener (by rw [hvisits]; simp) hchar
  obtain ⟨v, vs, hvs, hv⟩ := exists_visitsAt h l
  obtain ⟨w, ws, hws, hw⟩ := exists_visitsAt h m
  have hopener : Text.isBlank b.opener = false := by cases b <;> decide
  have hcloser : Text.isBlank b.closer = false := by cases b <;> decide
  have hall := forall₂_visitsAt l m ps n
  have hcons : ∀ (v : Visit) vs, v.char = b.opener → visible (v :: vs) = v :: visible vs := by
    intro v vs hv
    simp [visible, hv, hopener]
  rw [hvs, hws, hcons v vs hv, hcons w ws hw] at hall
  obtain ⟨hfirst, hothers⟩ := List.forall₂_cons.1 hall
  have hclosing : ∀ (v : Visit) (vs : List Visit), closingBracket? b (v :: vs) =
      (((visible vs).filter fun u => u.char == b.closer &&
        u.state.depthOf b == v.state.depthOf b + 1).head?).map (·.index) := by
    intro v vs
    rw [closingBracket?, visible, List.filter_filter, ← List.head?_filter]
    congr 2
    refine List.filter_congr fun u _ => ?_
    by_cases hu : u.char = b.closer
    · simp [hu, hcloser]
    · simp [hu]
  rw [hmatching, hmatching, hvs, hws, hclosing, hclosing]
  refine foundAt_head? (List.rel_filter (fun u u' hu => ?_) hothers) fun u hu k hshows => ?_
  · show (_ && _) = true ↔ (_ && _) = true
    rw [hu.char_eq, hu.1.depthOf, hfirst.1.depthOf]
  · have hchar := (Bool.and_eq_true_iff.1 (List.mem_filter.1 hu).2).1
    rw [hshows.char, beq_iff_eq.1 hchar]

theorem exists_matching?_angle {n : Nat} (h : (lead (ps.drop n)).head? = some '<') (l m : Layout) :
    FoundAt (fun k => (lead (ps.drop k)).head? = some '>') l m ps
      (matching? (render l ps) (offset l ps n)) (matching? (render m ps) (offset m ps n)) := by
  have hmatching : ∀ l : Layout, matching? (render l ps) (offset l ps n) =
      closingAngle? 0 (visible (visitsAt (render l ps) (offset l ps n))) := by
    intro l
    obtain ⟨vs₁, v, vs₂, hvisits, hchar, hindex⟩ := exists_shows h l
    have hmem : v ∈ visits (render l ps) := by
      rw [hvisits]
      simp
    have hget := getElem?_of_mem_visits hmem
    rw [hindex, hchar] at hget
    rw [← closingAngle?_visible]
    exact matching?_of_closingOf hget rfl
  rw [hmatching, hmatching]
  exact foundAt_closingAngle? (forall₂_visitsAt l m ps n) 0

/-! ## Brackets around everything -/

/-- The last character is the last piece. -/
theorem offset_eq_length_sub_one {n : Nat} {c : Char} (h : (lead (ps.drop n)).head? = some c)
    (l : Layout) : (offset l ps n == (render l ps).length - 1) = (n + 1 == ps.length) := by
  have hn := lt_length_of_lead h
  have hsucc := offset_succ h l
  have hwhole := offset_of_length_le l (Nat.le_refl ps.length)
  rw [Bool.eq_iff_iff, beq_iff_eq, beq_iff_eq]
  constructor
  · intro heq
    by_contra hne
    have hbefore : n + 1 < ps.length := by omega
    have hlt := offset_lt l hbefore hbefore
    omega
  · intro heq
    rw [heq] at hsucc
    omega

/-- The last piece is a visible character. -/
theorem isSome_getLast?_of_lead {n : Nat} {c : Char} (h : (lead (ps.drop n)).head? = some c)
    (hn : n + 1 = ps.length) : ∀ x ∈ ps.getLast?, x.char?.isSome = true := by
  intro x hx
  have hdrop : ps.getLast? = (ps.drop n).getLast? := by
    rw [List.getLast?_drop, if_neg (by omega)]
  cases hback : ps.drop n with
  | nil =>
    rw [hback] at h
    cases h
  | cons y back =>
    have hlength := congrArg List.length hback
    rw [List.length_drop, List.length_cons] at hlength
    obtain rfl : back = [] := List.length_eq_zero_iff.1 (by omega)
    rw [hdrop, hback, List.getLast?_singleton, Option.mem_some_iff] at hx
    rw [hback, hx] at h
    cases x with
    | sign d => rfl
    | _ => cases h

/-- Of a text that ends with a visible character the last piece is dropped. -/
theorem dropLast_render (l : Layout) (h : ∀ x ∈ ps.getLast?, x.char?.isSome = true) :
    List.dropLast (render l ps) = render l ps.dropLast := by
  induction ps using List.reverseRecOn with
  | nil => rfl
  | append_singleton ps x _ =>
    have hx := h x List.getLast?_concat
    cases x with
    | sign c => simp [Piece.text]
    | _ => cases hx

/-- A text whose last piece is a visible character ends with one wherever it begins. -/
theorem isSome_getLast?_drop (h : ∀ x ∈ ps.getLast?, x.char?.isSome = true) (k : Nat) :
    ∀ x ∈ (ps.drop k).getLast?, x.char?.isSome = true := by
  intro x hx
  rw [List.getLast?_drop] at hx
  split at hx
  · cases hx
  · exact h x hx

theorem isBracketed_congr (l m : Layout) (ps : List Piece) (b : Bracket) :
    isBracketed (render l ps) b.opener = isBracketed (render m ps) b.opener := by
  have hvisible : Visible b.opener := by cases b <;> decide
  rw [isBracketed, isBracketed, head?_render_beq hvisible, head?_render_beq hvisible]
  cases hhead : (lead ps).head? == some b.opener with
  | false => rfl
  | true =>
    obtain ⟨o, hl, hm, ho⟩ := exists_matching?_bracket (n := 0) (beq_iff_eq.1 hhead) l m
    rw [offset_zero] at hl hm
    rw [hl, hm]
    cases o with
    | none => rfl
    | some n =>
      simpa using (offset_eq_length_sub_one (ho n rfl) l).trans
        (offset_eq_length_sub_one (ho n rfl) m).symm

/-- The last piece of a text in brackets is a visible character. -/
theorem isSome_of_isBracketed {b : Bracket} (h : isBracketed (render l ps) b.opener = true) :
    1 ≤ (lead ps).length ∧ ∀ x ∈ ps.getLast?, x.char?.isSome = true := by
  have hvisible : Visible b.opener := by cases b <;> decide
  rw [isBracketed, Bool.and_eq_true, head?_render_beq hvisible, beq_iff_eq, beq_iff_eq] at h
  obtain ⟨hhead, hclose⟩ := h
  obtain ⟨o, hl, -, ho⟩ := exists_matching?_bracket (n := 0) hhead l l
  rw [offset_zero, hclose] at hl
  obtain ⟨n, hn, heq⟩ := Option.map_eq_some_iff.1 hl.symm
  have hlast := offset_eq_length_sub_one (ho n hn) l
  rw [heq, beq_self_eq_true, eq_comm, beq_iff_eq] at hlast
  exact ⟨length_lead_pos hhead, isSome_getLast?_of_lead (ho n hn) hlast⟩

/-- The text inside the brackets is written by the pieces inside them. -/
theorem inner_render {b : Bracket} (h : isBracketed (render l ps) b.opener = true) (m : Layout) :
    ((render m ps).drop 1).dropLast = render m (ps.drop 1).dropLast := by
  obtain ⟨hlead, hlast⟩ := isSome_of_isBracketed h
  rw [drop_lead m hlead, dropLast_render m (isSome_getLast?_drop hlast 1)]

end ModuleSurface.Spacing
