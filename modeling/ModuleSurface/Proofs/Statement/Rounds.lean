import Mathlib.Logic.Relation
import ModuleSurface.Proofs.Lexing.Progress
import ModuleSurface.Proofs.Statement.Cases

/-!
# The rounds of a segmentation

Cutting a text is a loop whose rounds skip what stands between two segments, or take a lexical step
in a segment.  Each round lowers the weight of the place it has come to, and between two segments
each round goes further in the text.

* `ends_cut` — the loop behind `segments` ends;
* `Cutting.position_lt_of_rounds` — whenever it is between two segments again, it has come further;
* `loops_end` — all loops over steps end, on every text.
-/

namespace ModuleSurface.Statement

open ModuleSurface.Lexing

/-- A text that is being cut. -/
structure Cutting where
  /-- The place in the text. -/
  cursor : Cursor
  /-- The segment that is being read, if there is one. -/
  current : Option Reading
  /-- The documentation comment that the next segment gets. -/
  pending : Option Text
  /-- Was no segment read so far? -/
  leading : Bool
  /-- The pieces that were cut off. -/
  pieces : List Piece

namespace Cutting

/-- A text that nothing was cut off from. -/
def start (text : Text) : Cutting :=
  ⟨.start text, none, none, true, []⟩

variable (l : Layout) (text : Text)

/-- One round: a separator or a comment between two segments, or a step in a segment. -/
def round (a : Cutting) : Cutting ⊕ Segmentation :=
  let s := a.cursor.state
  match a.cursor.rest with
  | [] => .inr ⟨a.pieces ++ (a.current.map fun r => r.close text text.length).toList, .finished s⟩
  | c :: r =>
    if a.current.isNone && (Text.isBlank c || l.separators.contains c) then
      .inl { a with cursor := a.cursor.advance 1 s }
    else if a.current.isNone && "//".toList.isPrefixOf (c :: r) then
      let line := c :: r.takeWhile (· != '\n')
      let header : List Piece := if a.leading then [.header (Text.stripRight line)] else []
      .inl { a with
        cursor := a.cursor.advance line.length s
        pending := none
        pieces := a.pieces ++ header }
    else if a.current.isNone && "/*".toList.isPrefixOf (c :: r) then
      match Text.find? (r.drop 1) "*/".toList with
      | none => .inr ⟨a.pieces, .openComment a.cursor.position⟩
      | some n =>
        .inl { a with
          cursor := a.cursor.advance (n + 4) s
          pending := docOf ((c :: r).take (n + 4)) }
    else
      match s.step a.cursor.past c r a.cursor.position with
      | .error f => .inr ⟨a.pieces, .faulty f⟩
      | .ok (k, s') =>
        let reading := readingAt a.current a.pending s s' c a.cursor.position
        match stopAt l text s s' reading.start a.cursor.position k c with
        | some stop =>
          .inl ⟨a.cursor.advance k s', none, none, false, a.pieces ++ [reading.close text stop]⟩
        | none => .inl ⟨a.cursor.advance k s', some reading, none, false, a.pieces⟩

/-- What a cutting comes to. -/
def result (a : Cutting) : Segmentation :=
  (segmentsFrom l text a.cursor.state a.current a.pending a.leading a.cursor.past a.cursor.rest
    a.cursor.position).prepend a.pieces

/-- What holds in every round: the state is one of a pass, and between two segments the pass is in
code outside everything. -/
structure Sound (a : Cutting) : Prop where
  /-- The state is coherent. -/
  coherent : a.cursor.state.Coherent
  /-- Between two segments nothing is open. -/
  normal : a.current = none → a.cursor.state.context = .normal

theorem sound_start : Sound (start text) :=
  ⟨.fresh, fun _ => rfl⟩

/-- What a round does to the place it has come to: between two segments it reads something and
leaves the state as it is, or it takes a step in a segment, which ends the segment only in code
outside everything. -/
inductive Moves (a b : Cutting) : Prop
  | skip {k : Nat} : a.current = none → b.current = none → a.cursor.rest ≠ [] → 1 ≤ k →
      b.cursor = a.cursor.advance k a.cursor.state → Moves a b
  | read {c : Char} {r : Text} {k : Nat} {s' : State} : a.cursor.rest = c :: r →
      a.cursor.state.step a.cursor.past c r a.cursor.position = .ok (k, s') →
      b.cursor = a.cursor.advance k s' → (b.current = none → s'.context = .normal) → Moves a b

variable {l text} {a b : Cutting}

/-- A segment ends in code outside everything. -/
theorem context_of_stopAt {s s' : State} {start position k stop : Nat} {c : Char}
    (h : stopAt l text s s' start position k c = some stop) : s'.context = .normal := by
  unfold stopAt at h
  split at h
  · rename_i htop
    rw [Bool.and_eq_true, State.atTopLevel, Bool.and_eq_true] at htop
    exact beq_iff_eq.1 htop.2.1
  · cases h

/-! ## What a round does -/

/-- What comes out of a round keeps what the cutting comes to: the last round gives it, and any
other one moves on. -/
def Keeps (l : Layout) (text : Text) (a : Cutting) : Cutting ⊕ Segmentation → Prop
  | .inr e => e = a.result l text
  | .inl b => b.result l text = a.result l text ∧ a.Moves b

theorem prepend_prepend (first others : List Piece) (e : Segmentation) :
    (e.prepend others).prepend first = e.prepend (first ++ others) := by
  simp [Segmentation.prepend]

section

variable {s : State} {past : Text} {c : Char} {r : Text} {position : Nat}
  {current : Option Reading} {pending : Option Text} {leading : Bool} {pieces : List Piece}

theorem keeps_skip (hgap : Text.isBlank c = true ∨ c ∈ l.separators) :
    Keeps l text ⟨⟨s, past, c :: r, position⟩, none, pending, leading, pieces⟩
      (round l text ⟨⟨s, past, c :: r, position⟩, none, pending, leading, pieces⟩) := by
  simp only [round]
  rw [if_pos (skips_iff.2 ⟨rfl, hgap⟩)]
  refine ⟨?_, .skip rfl rfl (by simp) (Nat.le_refl 1) rfl⟩
  simp only [result, segmentsFrom_skip hgap]
  rfl

theorem keeps_line (h : Opens l "//".toList c r) :
    Keeps l text ⟨⟨s, past, c :: r, position⟩, none, pending, leading, pieces⟩
      (round l text ⟨⟨s, past, c :: r, position⟩, none, pending, leading, pieces⟩) := by
  have htake : (c :: r).take (c :: r.takeWhile (· != '\n')).length =
      c :: r.takeWhile (· != '\n') :=
    (List.prefix_iff_eq_take.1
      (List.cons_prefix_cons.2 ⟨rfl, List.takeWhile_prefix (· != '\n')⟩)).symm
  simp only [round, Option.isNone_none, Bool.true_and]
  rw [if_neg (Bool.eq_false_iff.1 h.skips_eq_false), if_pos h.stands]
  refine ⟨?_, .skip rfl rfl (by simp) (Nat.le_add_left 1 _) rfl⟩
  simp only [result, segmentsFrom_line h, prepend_prepend, Cursor.advance, advancePast, htake]

theorem keeps_block (h : Opens l "/*".toList c r) :
    Keeps l text ⟨⟨s, past, c :: r, position⟩, none, pending, leading, pieces⟩
      (round l text ⟨⟨s, past, c :: r, position⟩, none, pending, leading, pieces⟩) := by
  have hline : "//".toList.isPrefixOf (c :: r) = false := h.eq_false_of_ne (by decide)
  simp only [round, Option.isNone_none, Bool.true_and]
  rw [if_neg (Bool.eq_false_iff.1 h.skips_eq_false), if_neg (Bool.eq_false_iff.1 hline),
    if_pos h.stands]
  cases hfind : Text.find? (r.drop 1) "*/".toList with
  | none =>
    simp only [Keeps, result, segmentsFrom_openBlock h hfind, Segmentation.prepend,
      List.append_nil]
  | some n =>
    refine ⟨?_, .skip rfl rfl (by simp) (Nat.le_add_left 1 _) rfl⟩
    simp only [result, segmentsFrom_block h hfind]
    rfl

theorem keeps_read (hbegins : Begins l current c r) :
    Keeps l text ⟨⟨s, past, c :: r, position⟩, current, pending, leading, pieces⟩
      (round l text ⟨⟨s, past, c :: r, position⟩, current, pending, leading, pieces⟩) := by
  obtain ⟨hskip, hline, hblock⟩ := begins_iff.1 hbegins
  simp only [round]
  rw [if_neg hskip, if_neg hline, if_neg hblock]
  cases hstep : s.step past c r position with
  | error f =>
    simp only [Keeps, result, segmentsFrom_fault hbegins hstep, Segmentation.prepend,
      List.append_nil]
  | ok next =>
    obtain ⟨k, s'⟩ := next
    have hread : segmentsFrom l text s current pending leading past (c :: r) position = _ :=
      segmentsFrom_read hbegins hstep
    cases hstop : stopAt l text s s' (readingAt current pending s s' c position).start position k
        c with
    | some stop =>
      rw [hstop] at hread
      simp only [hstop]
      refine ⟨?_, .read rfl hstep rfl fun _ => context_of_stopAt hstop⟩
      simp only [result, hread, prepend_prepend]
      rfl
    | none =>
      rw [hstop] at hread
      simp only [hstop]
      refine ⟨?_, .read rfl hstep rfl fun hnone => by cases hnone⟩
      simp only [result, hread]
      rfl

end

/-- **A round keeps what the cutting comes to.** -/
theorem keeps_round (l : Layout) (text : Text) (a : Cutting) :
    Keeps l text a (a.round l text) := by
  obtain ⟨⟨s, past, rest, position⟩, current, pending, leading, pieces⟩ := a
  cases rest with
  | nil => simp only [Keeps, round, result, segmentsFrom_nil, Segmentation.prepend]
  | cons c r =>
    cases current with
    | some reading => exact keeps_read nofun
    | none =>
      by_cases hgap : Text.isBlank c = true ∨ c ∈ l.separators
      · exact keeps_skip hgap
      have hgap : Text.isBlank c = false ∧ c ∉ l.separators := by simpa using hgap
      cases hline : "//".toList.isPrefixOf (c :: r) with
      | true => exact keeps_line ⟨hgap.1, hgap.2, hline⟩
      | false =>
        cases hblock : "/*".toList.isPrefixOf (c :: r) with
        | true => exact keeps_block ⟨hgap.1, hgap.2, hblock⟩
        | false => exact keeps_read fun _ => ⟨hgap.1, hgap.2, hline, hblock⟩

/-! ## What a round preserves -/

/-- A move keeps a cutting sound and lowers its weight. -/
theorem Moves.sound (h : a.Moves b) (ha : a.Sound) :
    b.Sound ∧ b.cursor.weight < a.cursor.weight := by
  cases h with
  | skip hcurrent _ hrest hk hcursor =>
    rw [hcursor]
    refine ⟨⟨?_, fun _ => ?_⟩, Cursor.weight_advance_lt hrest hk _⟩
    · rw [hcursor]
      exact ha.coherent
    · rw [hcursor]
      exact ha.normal hcurrent
  | read hrest hstep hcursor hnormal =>
    obtain ⟨⟨s, past, rest, position⟩, current, pending, leading, pieces⟩ := a
    obtain rfl : rest = _ := hrest
    rw [hcursor]
    refine ⟨⟨?_, fun hnone => ?_⟩, Cursor.weight_step_lt ha.coherent hstep⟩
    · rw [hcursor]
      exact ha.coherent.step hstep
    · rw [hcursor]
      exact hnormal hnone

/-- A move goes back to no earlier place, and between two segments it goes further. -/
theorem Moves.position (h : a.Moves b) (ha : a.Sound) :
    a.cursor.position ≤ b.cursor.position ∧
      (a.current = none → a.cursor.position < b.cursor.position) := by
  cases h with
  | skip _ _ _ hk hcursor =>
    rw [hcursor]
    simp only [Cursor.advance]
    omega
  | read hrest hstep hcursor _ =>
    rw [hcursor]
    refine ⟨Nat.le_add_right _ _, fun hnone => ?_⟩
    rcases ha.coherent.step_progress hstep with ⟨hk, -⟩ | ⟨-, hctx, -⟩
    · simp only [Cursor.advance]
      omega
    · rw [ha.normal hnone] at hctx
      cases hctx

/-- The loop goes on with another round. -/
def Again (l : Layout) (text : Text) (a b : Cutting) : Prop :=
  a.round l text = .inl b

theorem Again.moves (h : Again l text a b) : a.Moves b := by
  have hkeeps := keeps_round l text a
  rw [show a.round l text = .inl b from h] at hkeeps
  exact hkeeps.2

/-- Rounds keep a cutting sound and go back to no earlier place. -/
theorem sound_of_rounds (h : Relation.ReflTransGen (Again l text) a b) (ha : a.Sound) :
    b.Sound ∧ a.cursor.position ≤ b.cursor.position := by
  induction h with
  | refl => exact ⟨ha, Nat.le_refl _⟩
  | tail _ hnext ih =>
    have hmoves := hnext.moves
    exact ⟨(hmoves.sound ih.1).1, Nat.le_trans ih.2 (hmoves.position ih.1).1⟩

/-- **The loop between the segments goes further.**  Rounds that begin between two segments come to
a later place, whether they skip something or read a segment. -/
theorem position_lt_of_rounds (h : Relation.TransGen (Again l text) a b) (ha : a.Sound)
    (hcurrent : a.current = none) : a.cursor.position < b.cursor.position := by
  obtain ⟨next, hfirst, hothers⟩ := Relation.TransGen.head'_iff.1 h
  have hmoves := hfirst.moves
  exact Nat.lt_of_lt_of_le ((hmoves.position ha).2 hcurrent)
    (sound_of_rounds hothers (hmoves.sound ha).1).2

end Cutting

/-- **The loop that cuts a text ends**, with its segmentation. -/
theorem ends_cut (l : Layout) (text : Text) :
    ∃ n, Ends (Cutting.round l text) (fun a => a.cursor.weight) (.start text) n
      (segments l text) := by
  refine exists_ends Cutting.Sound (Cutting.result l text) ?_ ?_
    (s := .start text) (Cutting.sound_start text)
  · intro a e h
    have hkeeps := Cutting.keeps_round l text a
    rwa [h] at hkeeps
  · intro a b ha h
    have hkeeps := Cutting.keeps_round l text a
    rw [h] at hkeeps
    obtain ⟨hresult, hmoves⟩ := hkeeps
    exact ⟨(hmoves.sound ha).1, (hmoves.sound ha).2, hresult⟩

/-- **Every loop over steps ends.**  A step of a reachable state fails, or reads something and goes
at most one character beyond the text, or reads nothing and leaves a line comment for code.  So
twice the characters to read, and one more in a line comment, gets less in every round of a walk, of
the removal of comments and of a segmentation, whatever the text, and each of these loops ends with
what the library says it gives; and the places at which a segmentation is between two segments come
one behind the other. -/
theorem loops_end :
    (∀ s : State, s.Reachable → ∀ (text : Text) (i : Nat) (hi : i < text.length),
      (∃ f, s.step (text.take i).reverse text[i] (text.drop (i + 1)) i = .error f) ∨
        ∃ k s', s.step (text.take i).reverse text[i] (text.drop (i + 1)) i = .ok (k, s') ∧
          ((i < i + k ∧ i + k ≤ text.length + 1) ∨
            (k = 0 ∧ s.context = .lineComment ∧ s'.inCode = true))) ∧
      (∀ p q : Cursor, p.state.Reachable → Cursor.Next p q → q.weight < p.weight) ∧
      ∀ text : Text,
        (∃ n ≤ 2 * text.length,
          Ends walkRound (fun a => a.1.weight) (.start text, []) n (visits text)) ∧
        (∃ n ≤ 2 * text.length,
          Ends stripRound (fun a => a.1.weight) (.start text, []) n (stripComments text)) ∧
        ∀ l : Layout,
          (∃ n ≤ 2 * text.length, Ends (Cutting.round l text) (fun a => a.cursor.weight)
            (.start text) n (segments l text)) ∧
          ∀ a b : Cutting, Relation.ReflTransGen (Cutting.Again l text) (.start text) a →
            a.current = none → Relation.TransGen (Cutting.Again l text) a b →
              a.cursor.position < b.cursor.position := by
  refine ⟨?_, ?_, fun text => ⟨?_, ?_, fun l => ⟨?_, ?_⟩⟩⟩
  · intro s hs text i hi
    cases hstep : s.step (text.take i).reverse text[i] (text.drop (i + 1)) i with
    | error f => exact .inl ⟨f, rfl⟩
    | ok next =>
      obtain ⟨k, s'⟩ := next
      refine .inr ⟨k, s', rfl, ?_⟩
      rcases hs.coherent.step_progress hstep with ⟨hk, hle⟩ | hleft
      · rw [List.length_drop] at hle
        exact .inl ⟨by omega, by omega⟩
      · exact .inr hleft
  · intro p q hp hnext
    cases hnext with
    | step hstep => exact Cursor.weight_step_lt hp.coherent hstep
  · obtain ⟨n, hends⟩ := ends_walk text
    exact ⟨n, hends.le, hends⟩
  · obtain ⟨n, hends⟩ := ends_strip text
    exact ⟨n, hends.le, hends⟩
  · obtain ⟨n, hends⟩ := ends_cut l text
    exact ⟨n, hends.le, hends⟩
  · intro a b ha hcurrent hrounds
    have hsound := (Cutting.sound_of_rounds ha (Cutting.sound_start text)).1
    exact Cutting.position_lt_of_rounds hrounds hsound hcurrent

end ModuleSurface.Statement
