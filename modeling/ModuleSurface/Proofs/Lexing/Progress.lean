import ModuleSurface.Proofs.Lexing.Action
import ModuleSurface.Proofs.Lexing.Reachable
import ModuleSurface.Proofs.Lexing.Visits
import ModuleSurface.Proofs.Statement.Single

/-!
# Loops over a text

A pass, a walk and the removal of comments are loops that take one step after the other, and a step
need not read anything: behind a line comment the newline is handed back.  Such a step leaves the
comment, so that twice the characters to read, and one more in a line comment, always gets less.

* `Coherent.step_progress` — a step reads something and goes at most one character beyond the text,
  or leaves a line comment for code;
* `Ends` — a loop that ends, with the number of its rounds, each of which lowers a weight;
* `ends_walk` and `ends_strip` — the loops behind `visits` and `stripComments` end.
-/

namespace ModuleSurface.Lexing

/-! ## One step -/

namespace State

variable {s s' : State} {past : Text} {c : Char} {rest : Text} {position k : Nat}

theorem Coherent.stepLineComment_progress (hs : s.Coherent) (hctx : s.context = .lineComment)
    (h : s.stepLineComment c rest = (k, s')) :
    (1 ≤ k ∧ k ≤ rest.length + 2) ∨ (k = 0 ∧ s'.inCode = true) := by
  unfold stepLineComment at h
  split at h
  · cases h
    exact .inr ⟨rfl, hs.inCode_leave (by rw [inCode, hctx]; rfl)⟩
  · have hle := (List.takeWhile_prefix (· != '\n') (l := rest)).length_le
    cases h
    exact .inl ⟨by omega, by omega⟩

theorem stepBlockComment_progress (h : s.stepBlockComment c rest = (k, s')) :
    1 ≤ k ∧ k ≤ rest.length + 2 := by
  unfold stepBlockComment at h
  split at h
  · rename_i n hn
    have hle := (Text.findFrom_bounds hn).2
    simp only [String.reduceToList, List.length_cons, List.length_nil] at hle
    cases h
    omega
  · cases h
    omega

theorem stepString_progress {quote : Char} (h : s.stepString quote c = .ok (k, s')) :
    1 ≤ k ∧ k ≤ rest.length + 2 := by
  unfold stepString at h
  split at h
  · cases h; omega
  split at h
  · cases h; omega
  split at h
  · cases h
  · cases h; omega

theorem stepTemplate_progress (h : s.stepTemplate c rest position = (k, s')) :
    1 ≤ k ∧ k ≤ rest.length + 2 := by
  unfold stepTemplate at h
  split at h
  · cases h; omega
  split at h
  · cases h; omega
  split at h <;> (cases h; omega)

/-- **A step makes progress.**  It reads something and goes at most one character beyond the text,
or it reads nothing and leaves a line comment for code. -/
theorem Coherent.step_progress (hs : s.Coherent) (h : s.step past c rest position = .ok (k, s')) :
    (1 ≤ k ∧ k ≤ rest.length + 2) ∨ (k = 0 ∧ s.context = .lineComment ∧ s'.inCode = true) := by
  unfold State.step at h
  split at h
  case h_1 | h_2 =>
    have hcode := Except.ok.inj h
    exact .inl ⟨one_le_of_stepCode hcode, Nat.le_succ_of_le (stepCode_le hcode)⟩
  case h_3 hctx =>
    rcases hs.stepLineComment_progress hctx (Except.ok.inj h) with hk | ⟨hk, hcode⟩
    · exact .inl hk
    · exact .inr ⟨hk, hctx, hcode⟩
  case h_4 => exact .inl (stepBlockComment_progress (Except.ok.inj h))
  case h_5 | h_6 => exact .inl (stepString_progress h)
  case h_7 => exact .inl (stepTemplate_progress (Except.ok.inj h))

/-- The newline behind a line comment is handed back. -/
example : (({} : State).enter .lineComment 0).step ['/', '/'] '\n' [] 2 = .ok (0, {}) := rfl

/-- A backslash at the end of the text goes one character beyond it. -/
example : (({} : State).enter .singleQuote 0).step ['\''] '\\' [] 1 =
    .ok (2, ({} : State).enter .singleQuote 0) := rfl

end State

/-! ## The weight of a cursor -/

namespace Cursor

/-- Twice the characters to read, and one more in a line comment. -/
def weight (p : Cursor) : Nat :=
  2 * p.rest.length + if p.state.context = .lineComment then 1 else 0

/-- The start of a text. -/
def start (text : Text) : Cursor :=
  ⟨{}, [], text, 0⟩

theorem weight_le (p : Cursor) : p.weight ≤ 2 * p.rest.length + 1 := by
  unfold weight
  split <;> omega

theorem le_weight (p : Cursor) : 2 * p.rest.length ≤ p.weight :=
  Nat.le_add_right _ _

/-- Reading something lowers the weight, whatever state it leads to. -/
theorem weight_advance_lt {p : Cursor} {k : Nat} (hrest : p.rest ≠ []) (hk : 1 ≤ k) (s : State) :
    (p.advance k s).weight < p.weight := by
  have hpos := List.length_pos_iff.2 hrest
  have hlength : (p.advance k s).rest.length = p.rest.length - k := List.length_drop
  have hbehind := weight_le (p.advance k s)
  have hfront := le_weight p
  omega

/-- A step lowers the weight. -/
theorem weight_step_lt {s s' : State} {past : Text} {c : Char} {rest : Text} {position k : Nat}
    (hs : s.Coherent) (h : s.step past c rest position = .ok (k, s')) :
    (advance ⟨s, past, c :: rest, position⟩ k s').weight <
      weight ⟨s, past, c :: rest, position⟩ := by
  rcases hs.step_progress h with ⟨hk, -⟩ | ⟨rfl, hctx, hcode⟩
  · exact weight_advance_lt (by simp) hk s'
  · have hout : s'.context ≠ .lineComment := by
      intro hctx'
      rw [State.inCode, hctx'] at hcode
      cases hcode
    simp [weight, advance, hctx, hout]

end Cursor

/-! ## Loops -/

section Loops

variable {σ α : Type}

/-- The loop that takes `round` after `round` from `s` on ends with `a` behind `n` of them that go
on, and each of these lowers the weight. -/
inductive Ends (round : σ → σ ⊕ α) (weight : σ → Nat) : σ → Nat → α → Prop
  | stop {s : σ} {a : α} : round s = .inr a → Ends round weight s 0 a
  | again {s t : σ} {n : Nat} {a : α} :
      round s = .inl t → weight t < weight s → Ends round weight t n a →
        Ends round weight s (n + 1) a

/-- The weight bounds the number of rounds. -/
theorem Ends.le {round : σ → σ ⊕ α} {weight : σ → Nat} {s : σ} {n : Nat} {a : α}
    (h : Ends round weight s n a) : n ≤ weight s := by
  induction h with
  | stop => exact Nat.zero_le _
  | again _ hlt _ ih => omega

/-- A loop ends with the result that its rounds keep, if what they preserve makes them lower the
weight. -/
theorem exists_ends {round : σ → σ ⊕ α} {weight : σ → Nat} (Inv : σ → Prop) (result : σ → α)
    (hstop : ∀ {s : σ} {a : α}, round s = .inr a → a = result s)
    (hagain : ∀ {s t : σ}, Inv s → round s = .inl t →
      Inv t ∧ weight t < weight s ∧ result t = result s)
    {s : σ} (hs : Inv s) : ∃ n, Ends round weight s n (result s) := by
  induction hw : weight s using Nat.strong_induction_on generalizing s with
  | _ w ih =>
    cases hround : round s with
    | inr a => exact ⟨0, .stop (hstop hround ▸ hround)⟩
    | inl t =>
      obtain ⟨ht, hlt, hresult⟩ := hagain hs hround
      obtain ⟨n, hends⟩ := ih (weight t) (hw ▸ hlt) ht rfl
      exact ⟨n + 1, .again hround hlt (hresult ▸ hends)⟩

end Loops

/-! ## Walking -/

/-- One round of a walk that has made the visits `found`: it leaps over a regular expression
literal, or visits a character of code, or passes over what is no code. -/
def walkRound (a : Cursor × List Visit) : (Cursor × List Visit) ⊕ List Visit :=
  let (p, found) := a
  match p.rest with
  | [] => .inr found
  | c :: r =>
    match if p.state.readsCode c r then RegexLiteral.width? p.past c r else none with
    | some k => .inl (p.advance k p.state, found)
    | none =>
      let found :=
        if p.state.readsCode c r then found ++ [⟨p.position, p.past, c, r, p.state⟩] else found
      match p.state.step p.past c r p.position with
      | .error _ => .inr found
      | .ok (k, s') => .inl (p.advance k s', found)

/-- The visits of a walk that has made some of them already. -/
def walked (a : Cursor × List Visit) : List Visit :=
  a.2 ++ a.1.visits

theorem walkRound_stop {a : Cursor × List Visit} {visited : List Visit}
    (h : walkRound a = .inr visited) : visited = walked a := by
  obtain ⟨⟨s, past, rest, position⟩, found⟩ := a
  simp only [walkRound] at h
  split at h
  · cases h
    simp [walked, Cursor.visits, visitsFrom]
  · rename_i c r
    split at h
    · cases h
    · split at h
      · rename_i f hf
        have hcode : s.inCode = false := by
          rcases (State.step_eq_error hf).1 with hctx | hctx <;> rw [State.inCode, hctx] <;> rfl
        have hreads : s.readsCode c r = false := by
          rw [State.readsCode, hcode]
          rfl
        cases h
        simp [walked, Cursor.visits, Cursor.visitsFrom_of_error hf, hreads]
      · cases h

theorem walkRound_again {a b : Cursor × List Visit} (ha : a.1.state.Coherent)
    (h : walkRound a = .inl b) :
    b.1.state.Coherent ∧ b.1.weight < a.1.weight ∧ walked b = walked a := by
  obtain ⟨⟨s, past, rest, position⟩, found⟩ := a
  simp only [walkRound] at h
  split at h
  · cases h
  · rename_i c r
    split at h
    · rename_i k hleap
      split at hleap
      · rename_i hreads
        cases h
        have hstep : s.step past c r position = .ok (k, s) := by
          rw [Cursor.step_of_readsCode hreads, hleap]
        have hvisit : Cursor.visit? ⟨s, past, c :: r, position⟩ = none := by
          simp [Cursor.visit?, hleap]
        refine ⟨ha, Cursor.weight_step_lt ha hstep, ?_⟩
        simp only [walked]
        rw [(Cursor.Next.step hstep).visits_eq, hvisit]
        rfl
      · cases hleap
    · rename_i hleap
      split at h
      · cases h
      · rename_i k s' hstep
        cases h
        refine ⟨ha.step hstep, Cursor.weight_step_lt ha hstep, ?_⟩
        simp only [walked]
        rw [(Cursor.Next.step hstep).visits_eq, Cursor.visit?]
        by_cases hreads : s.readsCode c r = true
        · rw [if_pos hreads] at hleap
          simp [hreads, hleap]
        · simp [hreads]

/-- **The loop of a walk ends**, with the visits of the text. -/
theorem ends_walk (text : Text) :
    ∃ n, Ends walkRound (fun a => a.1.weight) (.start text, []) n (visits text) :=
  exists_ends (fun a => a.1.state.Coherent) walked walkRound_stop walkRound_again
    (s := (.start text, [])) .fresh

/-! ## Removing comments -/

/-- One round of the removal of comments, which has kept the text `kept`. -/
def stripRound (a : Cursor × Text) : (Cursor × Text) ⊕ Text :=
  let (p, kept) := a
  match p.rest with
  | [] => .inr kept
  | c :: r =>
    match p.state.step p.past c r p.position with
    | .error _ => .inr (kept ++ c :: r)
    | .ok (k, s') =>
      let isCode := !p.state.context.isComment && !s'.context.isComment
      .inl (p.advance k s', if isCode then kept ++ (c :: r).take k else kept)

/-- What a removal of comments keeps that has kept some text already. -/
def stripped (a : Cursor × Text) : Text :=
  a.2 ++ ((a.1.pass.moments.filter fun m =>
    !m.before.context.isComment && !m.after.context.isComment).flatMap (·.read) ++ a.1.pass.unread)

theorem stripRound_stop {a : Cursor × Text} {t : Text} (h : stripRound a = .inr t) :
    t = stripped a := by
  obtain ⟨⟨s, past, rest, position⟩, kept⟩ := a
  simp only [stripRound] at h
  split at h
  · cases h
    simp [stripped, Cursor.pass, passFrom]
  · split at h
    · rename_i f hf
      cases h
      simp [stripped, Cursor.pass_of_error hf]
    · cases h

theorem stripRound_again {a b : Cursor × Text} (ha : a.1.state.Coherent)
    (h : stripRound a = .inl b) :
    b.1.state.Coherent ∧ b.1.weight < a.1.weight ∧ stripped b = stripped a := by
  obtain ⟨⟨s, past, rest, position⟩, kept⟩ := a
  simp only [stripRound] at h
  split at h
  · cases h
  · split at h
    · cases h
    · rename_i k s' hstep
      cases h
      refine ⟨ha.step hstep, Cursor.weight_step_lt ha hstep, ?_⟩
      simp only [stripped]
      rw [Cursor.Next.moments_eq hstep]
      by_cases hkeep : (!s.context.isComment && !s'.context.isComment) = true
      · simp [hkeep]
      · simp [hkeep]

/-- **The loop that removes comments ends**, with the text without them. -/
theorem ends_strip (text : Text) :
    ∃ n, Ends stripRound (fun a => a.1.weight) (.start text, []) n (stripComments text) :=
  exists_ends (fun a => a.1.state.Coherent) stripped stripRound_stop stripRound_again
    (s := (.start text, [])) .fresh

end ModuleSurface.Lexing
