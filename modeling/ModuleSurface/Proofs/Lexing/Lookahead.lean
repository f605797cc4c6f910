import Mathlib.Data.List.TakeWhile
import ModuleSurface.Proofs.Lexing.Coherence

/-!
# What a step sees behind the unit it reads

A step looks at the text behind its unit: for the second character of a delimiter, for the end of a
comment, and for the slash that closes a regular expression literal.  Here is how much of what
follows a piece of text matters to a step inside the piece.

* `step_of_append` — a step that ends inside a piece is the same without what follows the piece;
* `step_append` — a step over a piece stays the same with more text behind the piece, unless the
  piece ends inside a comment or a literal or the text completes a regular expression literal;
* `RegexLiteral.Bars` — the texts that complete no such literal.
-/

namespace ModuleSurface

/-! ## Searching in a longer text -/

namespace Text

theorem findFrom_bounds {needle t : Text} {start n : Nat} (h : findFrom needle start t = some n) :
    start ≤ n ∧ n + needle.length ≤ start + t.length := by
  induction t generalizing start with
  | nil =>
    rw [findFrom] at h
    split at h
    · rename_i he
      cases h
      simp [List.isEmpty_iff.1 he]
    · cases h
  | cons c t ih =>
    rw [findFrom] at h
    split at h
    · rename_i hp
      cases h
      have := (List.isPrefixOf_iff_prefix.1 hp).length_le
      omega
    · have := ih h
      simp only [List.length_cons]
      omega

/-- What is found in a text is found there with more text behind it. -/
theorem findFrom_append {needle t : Text} {start n : Nat} (h : findFrom needle start t = some n)
    (more : Text) : findFrom needle start (t ++ more) = some n := by
  induction t generalizing start with
  | nil =>
    rw [findFrom] at h
    split at h
    · rename_i he
      cases h
      rw [List.isEmpty_iff.1 he]
      cases more <;> simp [findFrom]
    · cases h
  | cons c t ih =>
    rw [List.cons_append, findFrom]
    rw [findFrom] at h
    by_cases hp : needle.isPrefixOf (c :: t) = true
    · rw [if_pos hp] at h
      have hq : needle <+: c :: (t ++ more) :=
        (List.isPrefixOf_iff_prefix.1 hp).trans (List.prefix_append (c :: t) more)
      rw [if_pos (List.isPrefixOf_iff_prefix.2 hq)]
      exact h
    · rw [if_neg hp] at h
      -- the needle does not reach into what follows, as it fits into the rest of the text
      have hb := findFrom_bounds h
      have hn : ¬ needle.isPrefixOf (c :: (t ++ more)) = true := by
        intro hq
        refine hp (List.isPrefixOf_iff_prefix.2 ?_)
        refine List.prefix_of_prefix_length_le (List.isPrefixOf_iff_prefix.1 hq)
          (List.prefix_append (c :: t) more) ?_
        simp only [List.length_cons]
        omega
      rw [if_neg hn]
      exact ih h

/-- What is found in a text and ends inside a piece at its start is found in the piece. -/
theorem findFrom_of_append {needle t more : Text} {start n : Nat}
    (h : findFrom needle start (t ++ more) = some n) (hn : n + needle.length ≤ start + t.length) :
    findFrom needle start t = some n := by
  induction t generalizing start with
  | nil =>
    have hb := findFrom_bounds h
    have he : needle = [] := List.length_eq_zero_iff.1 (by simp only [List.length_nil] at hn; omega)
    have hs : n = start := by simp only [List.length_nil] at hn; omega
    rw [findFrom, he, hs]
    rfl
  | cons c t ih =>
    rw [List.cons_append, findFrom] at h
    rw [findFrom]
    by_cases hp : needle.isPrefixOf (c :: (t ++ more)) = true
    · rw [if_pos hp] at h
      cases h
      have := List.prefix_of_prefix_length_le (List.isPrefixOf_iff_prefix.1 hp)
        (List.prefix_append (c :: t) more) (by omega)
      rw [if_pos (List.isPrefixOf_iff_prefix.2 this)]
    · rw [if_neg hp] at h
      have hq : ¬ needle.isPrefixOf (c :: t) = true := fun hq =>
        hp (List.isPrefixOf_iff_prefix.2
          ((List.isPrefixOf_iff_prefix.1 hq).trans (List.prefix_append (c :: t) more)))
      rw [if_neg hq]
      exact ih h (by simp only [List.length_cons] at hn; omega)

end Text

namespace Lexing

/-! ## Regular expression literals -/

namespace RegexLiteral

theorem isBlank_of_isGap {c : Char} (h : isGap c = true) : Text.isBlank c = true := by
  simp only [isGap, Bool.or_eq_true, beq_iff_eq] at h
  rcases h with ((rfl | rfl) | rfl) | rfl <;> decide

/-- What a character of a body does, whatever follows it: it hides the next one, ends the line, is
one character of the body, or closes the literal. -/
theorem bodyWidth?_cons (inClass : Bool) (c : Char) :
    (∀ t, bodyWidth? inClass (c :: t) = (bodyWidth? inClass (t.drop 1)).map (· + 2)) ∧ c = '\\' ∨
      (∀ t, bodyWidth? inClass (c :: t) = none) ∨
      (∃ b, ∀ t, bodyWidth? inClass (c :: t) = (bodyWidth? b t).map (· + 1)) ∨
      ∀ t, bodyWidth? inClass (c :: t) = some (1 + (t.takeWhile Text.isIdentChar).length) := by
  by_cases h₁ : c = '\\'
  · refine .inl ⟨fun t => ?_, h₁⟩
    cases t <;> simp [bodyWidth?, h₁]
  by_cases h₂ : c = '\r' ∨ c = '\n'
  · refine .inr (.inl fun t => ?_)
    cases t <;> rcases h₂ with rfl | rfl <;> simp [bodyWidth?]
  rw [not_or] at h₂
  cases inClass with
  | true =>
    refine .inr (.inr (.inl ⟨c != ']', fun t => ?_⟩))
    cases t <;> simp [bodyWidth?, h₁, h₂]
  | false =>
    by_cases h₃ : c = '['
    · refine .inr (.inr (.inl ⟨true, fun t => ?_⟩))
      cases t <;> simp [bodyWidth?, h₃]
    by_cases h₄ : c = '/'
    · refine .inr (.inr (.inr fun t => ?_))
      cases t <;> simp [bodyWidth?, h₄]
    · refine .inr (.inr (.inl ⟨false, fun t => ?_⟩))
      cases t <;> simp [bodyWidth?, h₁, h₂, h₃, h₄]

/-- Induction along the reading of a body: behind a character the reading goes on with the next one,
or with the one behind that. -/
theorem body_induction {P : Bool → Text → Prop} (nil : ∀ inClass, P inClass [])
    (cons : ∀ inClass c t, (∀ b, P b t) → (∀ b, P b (t.drop 1)) → P inClass (c :: t))
    (inClass : Bool) (t : Text) : P inClass t := by
  suffices h : (∀ b, P b t) ∧ ∀ b, P b (t.drop 1) from h.1 inClass
  induction t with
  | nil => exact ⟨nil, nil⟩
  | cons c t ih => exact ⟨fun b => cons b c t ih.1 ih.2, ih.1⟩

theorem bodyWidth?_bounds {inClass : Bool} {t : Text} {w : Nat}
    (h : bodyWidth? inClass t = some w) : 1 ≤ w ∧ w ≤ t.length := by
  induction inClass, t using body_induction generalizing w with
  | nil => cases h
  | cons inClass c t ih ih' =>
    rw [List.length_cons]
    obtain ⟨heq, -⟩ | heq | ⟨b, heq⟩ | heq := bodyWidth?_cons inClass c <;> rw [heq] at h
    · obtain ⟨v, hv, rfl⟩ := Option.map_eq_some_iff.1 h
      have hb := ih' inClass hv
      rw [List.length_drop] at hb
      omega
    · cases h
    · obtain ⟨v, hv, rfl⟩ := Option.map_eq_some_iff.1 h
      have hb := ih b hv
      omega
    · cases h
      have := (List.takeWhile_prefix Text.isIdentChar (l := t)).length_le
      omega

/-- A body that ends inside a piece ends there alike without what follows the piece. -/
theorem bodyWidth?_of_append {inClass : Bool} {t more : Text} {w : Nat}
    (h : bodyWidth? inClass (t ++ more) = some w) (hw : w ≤ t.length) :
    bodyWidth? inClass t = some w := by
  induction inClass, t using body_induction generalizing w with
  | nil =>
    have := (bodyWidth?_bounds h).1
    rw [List.length_nil] at hw
    omega
  | cons inClass c t ih ih' =>
    rw [List.length_cons] at hw
    obtain ⟨heq, -⟩ | heq | ⟨b, heq⟩ | heq := bodyWidth?_cons inClass c <;>
      rw [List.cons_append, heq] at h <;> rw [heq]
    · obtain ⟨v, hv, rfl⟩ := Option.map_eq_some_iff.1 h
      cases t with
      | nil => simp at hw
      | cons d t =>
        rw [ih' inClass hv (by simpa using hw)]
        rfl
    · cases h
    · obtain ⟨v, hv, rfl⟩ := Option.map_eq_some_iff.1 h
      rw [ih b hv (by omega)]
      rfl
    · rw [List.takeWhile_append] at h
      split at h
      · rename_i hall
        cases h
        rw [List.length_append] at hw ⊢
        rw [hall]
        congr 1
        omega
      · exact h

/-- A literal that is not closed with more text behind it is not closed without that text. -/
theorem bodyWidth?_none_of_append {inClass : Bool} {t more : Text}
    (h : bodyWidth? inClass (t ++ more) = none) : bodyWidth? inClass t = none := by
  induction inClass, t using body_induction with
  | nil => rfl
  | cons inClass c t ih ih' =>
    obtain ⟨heq, -⟩ | heq | ⟨b, heq⟩ | heq := bodyWidth?_cons inClass c <;>
      rw [List.cons_append, heq] at h <;> rw [heq]
    · rw [Option.map_eq_none_iff] at h ⊢
      cases t with
      | nil => rfl
      | cons d t => exact ih' inClass h
    · rw [Option.map_eq_none_iff] at h ⊢
      exact ih b h
    · cases h

/-- The text `more` completes no regular expression literal that `t` leaves open and adds nothing to
one that `t` ends with. -/
structure Bars (t more : Text) : Prop where
  /-- No literal is closed in it. -/
  open_left : ∀ inClass, bodyWidth? inClass more = none
  /-- Nor behind its first character, if `t` may hide that. -/
  hidden : t.getLast? = some '\\' → ∀ inClass, bodyWidth? inClass (more.drop 1) = none
  /-- It does not begin like flags. -/
  flags : more.head?.any Text.isIdentChar = false

theorem Bars.of_cons {c : Char} {t more : Text} (h : Bars (c :: t) more) : Bars t more where
  open_left := h.open_left
  hidden ht := h.hidden (by rw [List.getLast?_cons, ht]; rfl)
  flags := h.flags

/-- A literal is closed where it was, or not at all, if what follows the text bars it. -/
theorem bodyWidth?_append {inClass : Bool} {t more : Text} (h : Bars t more) :
    bodyWidth? inClass (t ++ more) = bodyWidth? inClass t := by
  induction inClass, t using body_induction with
  | nil inClass => exact h.open_left inClass
  | cons inClass c t ih ih' =>
    obtain ⟨heq, rfl⟩ | heq | ⟨b, heq⟩ | heq := bodyWidth?_cons inClass c <;>
      rw [List.cons_append, heq, heq]
    · cases t with
      | nil => rw [List.nil_append, h.hidden rfl inClass]; rfl
      | cons d t => exact congrArg _ (ih' inClass h.of_cons.of_cons)
    · rw [ih b h.of_cons]
    · have hflags : more.takeWhile Text.isIdentChar = [] := by
        cases more with
        | nil => rfl
        | cons d more => exact List.takeWhile_cons_of_neg (by simpa using h.flags)
      rw [List.takeWhile_append, hflags, List.append_nil]
      split
      · rename_i hall
        rw [hall]
      · rfl

/-- What stands before a slash decides alike with more text in front of it, if it is more than a gap
and the text in front does not end with an identifier. -/
theorem beginsAfter_append {past outer : Text} (hp : past.dropWhile isGap ≠ [])
    (ho : outer.head?.any Text.isIdentChar = false) :
    beginsAfter (past ++ outer) = beginsAfter past := by
  obtain ⟨c, before, hcb⟩ := List.exists_cons_of_ne_nil hp
  have hword : outer.takeWhile Text.isIdentChar = [] := by
    cases outer with
    | nil => rfl
    | cons d outer => exact List.takeWhile_cons_of_neg (by simpa using ho)
  have htake : (c :: before ++ outer).takeWhile Text.isIdentChar =
      (c :: before).takeWhile Text.isIdentChar := by
    rw [List.takeWhile_append, hword, List.append_nil]
    split
    · rename_i hall
      exact ((List.takeWhile_prefix _).eq_of_length hall).symm
    · rfl
  rw [beginsAfter, beginsAfter, List.dropWhile_append, hcb, List.isEmpty_cons]
  simp only [Bool.false_eq_true, if_false, List.cons_append] at htake ⊢
  rw [htake]

/-- The text in front of a piece, in reverse, after which a slash begins a literal: then a piece is
read alike behind it and alone. -/
def Opens (outer : Text) : Prop :=
  outer.head?.any Text.isIdentChar = false ∧ beginsAfter outer = true

theorem beginsAfter_append_of_opens {past outer : Text} (h : Opens outer) :
    beginsAfter (past ++ outer) = beginsAfter past := by
  by_cases hp : past.dropWhile isGap = []
  · have hall : ∀ a ∈ past, isGap a = true := List.dropWhile_eq_nil_iff.1 hp
    rw [beginsAfter, List.dropWhile_append_of_pos hall, ← beginsAfter, h.2, beginsAfter, hp]
  · exact beginsAfter_append hp h.1

end RegexLiteral

/-! ## Steps -/

namespace State

variable {s s' : State} {past : Text} {c : Char} {rest more : Text} {position k : Nat}

theorem width?_of_append (h : RegexLiteral.width? past c (rest ++ more) = some k)
    (hk : k ≤ rest.length + 1) : RegexLiteral.width? past c rest = some k := by
  unfold RegexLiteral.width? at h ⊢
  split at h
  · rename_i hc
    obtain ⟨w, hw, rfl⟩ := Option.map_eq_some_iff.1 h
    rw [if_pos hc, RegexLiteral.bodyWidth?_of_append hw (by omega)]
    rfl
  · cases h

theorem width?_none_of_append (h : RegexLiteral.width? past c (rest ++ more) = none) :
    RegexLiteral.width? past c rest = none := by
  unfold RegexLiteral.width? at h ⊢
  split at h
  · rename_i hc
    rw [if_pos hc, RegexLiteral.bodyWidth?_none_of_append (Option.map_eq_none_iff.1 h)]
    rfl
  · rename_i hc
    rw [if_neg hc]

/-- A step of code that ends inside a piece is the same without what follows the piece. -/
theorem stepCode_of_append (h : s.stepCode past c (rest ++ more) position = (k, s'))
    (hk : k ≤ rest.length + 1) : s.stepCode past c rest position = (k, s') := by
  have hline : (c == '/' && (rest ++ more).head? == some '/') =
      (c == '/' && rest.head? == some '/') := by
    cases rest with
    | cons d rest => rfl
    | nil =>
      -- the delimiter of a comment would end behind the piece
      refine (Bool.eq_false_iff.2 fun hd => ?_).trans (by simp)
      rw [stepCode, if_pos hd] at h
      have := (Prod.mk.inj h).1
      simp only [List.length_nil] at hk
      omega
  have hblock : (c == '/' && (rest ++ more).head? == some '*') =
      (c == '/' && rest.head? == some '*') := by
    cases rest with
    | cons d rest => rfl
    | nil =>
      refine (Bool.eq_false_iff.2 fun hd => ?_).trans (by simp)
      rw [stepCode, hline, if_neg (by simp), if_pos hd] at h
      have := (Prod.mk.inj h).1
      simp only [List.length_nil] at hk
      omega
  unfold stepCode at h ⊢
  rw [hline, hblock] at h
  by_cases hl : (c == '/' && rest.head? == some '/') = true
  · rwa [if_pos hl] at h ⊢
  by_cases hb : (c == '/' && rest.head? == some '*') = true
  · rwa [if_neg hl, if_pos hb] at h ⊢
  rw [if_neg hl, if_neg hb] at h ⊢
  cases hq : Context.ofQuote? c with
  | some literal => rwa [hq] at h
  | none =>
    rw [hq] at h
    cases hw : RegexLiteral.width? past c (rest ++ more) with
    | some w =>
      rw [hw] at h
      have hwk : w = k := (Prod.mk.inj h).1
      rw [width?_of_append hw (by omega)]
      exact h
    | none =>
      rw [hw] at h
      rw [width?_none_of_append hw]
      exact h

theorem stepLineComment_of_append (h : s.stepLineComment c (rest ++ more) = (k, s'))
    (hk : k ≤ rest.length + 1) : s.stepLineComment c rest = (k, s') := by
  unfold stepLineComment at h ⊢
  by_cases hn : (c == '\n') = true
  · rwa [if_pos hn] at h ⊢
  rw [if_neg hn] at h ⊢
  obtain ⟨rfl, rfl⟩ := Prod.mk.inj h
  rw [List.takeWhile_append] at hk ⊢
  split
  · rename_i hall
    rw [if_pos hall, List.length_append] at hk
    rw [hall, List.length_append]
    congr 1
    omega
  · rfl

theorem stepBlockComment_of_append (h : s.stepBlockComment c (rest ++ more) = (k, s'))
    (hk : k ≤ rest.length + 1) : s.stepBlockComment c rest = (k, s') := by
  unfold stepBlockComment at h
  split at h
  · rename_i n hn
    obtain ⟨rfl, rfl⟩ := Prod.mk.inj h
    have hf : Text.find? (c :: rest) "*/".toList = some n := by
      refine Text.findFrom_of_append (t := c :: rest) hn ?_
      rw [List.length_cons]
      exact Nat.le_trans hk (Nat.le_add_left _ _)
    rw [stepBlockComment, hf]
  · rename_i hn
    obtain ⟨rfl, rfl⟩ := Prod.mk.inj h
    have hm : more = [] := by
      rw [List.length_append] at hk
      exact List.length_eq_zero_iff.1 (by omega)
    rw [hm, List.append_nil] at hn ⊢
    rw [stepBlockComment, hn]

theorem stepTemplate_of_append (h : s.stepTemplate c (rest ++ more) position = (k, s'))
    (hk : k ≤ rest.length + 1) : s.stepTemplate c rest position = (k, s') := by
  have hhead : (c == '$' && (rest ++ more).head? == some '{') =
      (c == '$' && rest.head? == some '{') ∨ c = '\\' ∨ c = '\x60' := by
    cases rest with
    | cons d rest => exact .inl rfl
    | nil =>
      by_cases h₁ : c = '\\'
      · exact .inr (.inl h₁)
      by_cases h₂ : c = '\x60'
      · exact .inr (.inr h₂)
      refine .inl ((Bool.eq_false_iff.2 fun hd => ?_).trans (by simp))
      rw [stepTemplate, if_neg (by simpa using h₁), if_neg (by simpa using h₂), if_pos hd] at h
      have := (Prod.mk.inj h).1
      simp only [List.length_nil] at hk
      omega
  unfold stepTemplate at h ⊢
  rcases hhead with hhead | rfl | rfl
  · rwa [hhead] at h
  · exact h
  · exact h

/-- **A step that ends inside a piece is the same without what follows the piece.** -/
theorem step_of_append (h : s.step past c (rest ++ more) position = .ok (k, s'))
    (hk : k ≤ rest.length + 1) : s.step past c rest position = .ok (k, s') := by
  unfold step at h ⊢
  split at h
  case h_1 => rw [stepCode_of_append (Except.ok.inj h) hk]
  case h_2 => rw [stepCode_of_append (Except.ok.inj h) hk]
  case h_3 => rw [stepLineComment_of_append (Except.ok.inj h) hk]
  case h_4 => rw [stepBlockComment_of_append (Except.ok.inj h) hk]
  case h_5 => exact h
  case h_6 => exact h
  case h_7 => rw [stepTemplate_of_append (Except.ok.inj h) hk]

/-! ## Steps with more text behind -/

/-- What a step of code at the slash `c` needs of the text behind a piece: it completes no delimiter
of a comment and no regular expression literal. -/
def KeepsSlash (c : Char) (rest more : Text) : Prop :=
  c = '/' → (rest = [] → more.head? ≠ some '/' ∧ more.head? ≠ some '*') ∧
    RegexLiteral.bodyWidth? false (rest ++ more) = RegexLiteral.bodyWidth? false rest

theorem width?_append (h : KeepsSlash c rest more) :
    RegexLiteral.width? past c (rest ++ more) = RegexLiteral.width? past c rest := by
  unfold RegexLiteral.width?
  by_cases hc : c = '/'
  · rw [(h hc).2]
  · simp [hc]

theorem delimiter_append (h : KeepsSlash c rest more) {d : Char} (hd : d = '/' ∨ d = '*') :
    (c == '/' && (rest ++ more).head? == some d) = (c == '/' && rest.head? == some d) := by
  by_cases hc : c = '/'
  · cases rest with
    | cons e rest => rfl
    | nil =>
      have hne := (h hc).1 rfl
      rcases hd with rfl | rfl
      · simpa using fun _ => hne.1
      · simpa using fun _ => hne.2
  · have : (c == '/') = false := beq_false_of_ne hc
    rw [this]
    rfl

theorem stepCode_append (h : KeepsSlash c rest more) :
    s.stepCode past c (rest ++ more) position = s.stepCode past c rest position := by
  unfold stepCode
  rw [delimiter_append h (.inl rfl), delimiter_append h (.inr rfl), width?_append h]

/-- A step of code does not go beyond the text. -/
theorem stepCode_le (h : s.stepCode past c rest position = (k, s')) : k ≤ rest.length + 1 := by
  have two : ∀ d : Char, (c == '/' && rest.head? == some d) = true → 1 ≤ rest.length := by
    intro d hd
    cases rest with
    | nil => simp at hd
    | cons e rest => simp
  unfold stepCode at h
  split at h
  · rename_i hd
    have := two _ hd
    cases h
    omega
  split at h
  · rename_i hd
    have := two _ hd
    cases h
    omega
  split at h
  · cases h; omega
  split at h
  · rename_i w hw
    cases h
    unfold RegexLiteral.width? at hw
    split at hw
    · obtain ⟨v, hv, rfl⟩ := Option.map_eq_some_iff.1 hw
      have := (RegexLiteral.bodyWidth?_bounds hv).2
      omega
    · cases hw
  split at h
  · cases h; omega
  split at h
  · cases h; omega
  split at h <;> (cases h; omega)

/-- A step of code reads something. -/
theorem one_le_of_stepCode (h : s.stepCode past c rest position = (k, s')) : 1 ≤ k := by
  unfold stepCode at h
  split at h
  · cases h; decide
  split at h
  · cases h; decide
  split at h
  · cases h; decide
  split at h
  · rename_i hw
    cases h
    exact RegexLiteral.one_le_of_width? hw
  split at h
  · cases h; decide
  split at h
  · cases h; decide
  split at h <;> cases h <;> decide

theorem stepLineComment_append (more : Text) (hcode : s.inCode = false)
    (h : s.stepLineComment c rest = (k, s')) (hend : (c :: rest).drop k = [] → s'.inCode = true) :
    s.stepLineComment c (rest ++ more) = (k, s') ∧ k ≤ rest.length + 1 := by
  unfold stepLineComment at h ⊢
  by_cases hn : (c == '\n') = true
  · rw [if_pos hn] at h ⊢
    cases h
    exact ⟨rfl, Nat.zero_le _⟩
  rw [if_neg hn] at h ⊢
  obtain ⟨rfl, rfl⟩ := Prod.mk.inj h
  have hle := (List.takeWhile_prefix (· != '\n') (l := rest)).length_le
  refine ⟨?_, by omega⟩
  rw [List.takeWhile_append, if_neg]
  -- a comment without a newline behind it would be the end of the piece
  intro hall
  have := hend (List.drop_eq_nil_of_le (by rw [hall, List.length_cons]; omega))
  rw [hcode] at this
  cases this

theorem stepBlockComment_append (more : Text) (hcode : s.inCode = false)
    (h : s.stepBlockComment c rest = (k, s')) (hend : (c :: rest).drop k = [] → s'.inCode = true) :
    s.stepBlockComment c (rest ++ more) = (k, s') ∧ k ≤ rest.length + 1 := by
  unfold stepBlockComment at h
  split at h
  · rename_i n hn
    obtain ⟨rfl, rfl⟩ := Prod.mk.inj h
    have hf : Text.find? (c :: (rest ++ more)) "*/".toList = some n :=
      Text.findFrom_append (t := c :: rest) hn more
    have hb := (Text.findFrom_bounds hn).2
    rw [stepBlockComment, hf]
    refine ⟨rfl, ?_⟩
    rw [List.length_cons, Nat.zero_add] at hb
    exact hb
  · obtain ⟨rfl, rfl⟩ := Prod.mk.inj h
    have := hend (List.drop_eq_nil_of_le (by rw [List.length_cons]))
    rw [hcode] at this
    cases this

/-- Behind a unit that leaves the state as it is, outside code, more of the piece follows. -/
theorem length_le_of_stay (hcode : s.inCode = false)
    (hend : (c :: rest).drop k = [] → s.inCode = true) : k ≤ rest.length := by
  by_contra hk
  have := hend (List.drop_eq_nil_of_le (by rw [List.length_cons]; omega))
  rw [hcode] at this
  cases this

theorem stepString_le (hcode : s.inCode = false) {quote : Char}
    (h : s.stepString quote c = .ok (k, s')) (hend : (c :: rest).drop k = [] → s'.inCode = true) :
    k ≤ rest.length + 1 := by
  unfold stepString at h
  split at h
  · cases h
    exact Nat.le_succ_of_le (length_le_of_stay hcode hend)
  split at h
  · cases h; omega
  split at h
  · cases h
  · cases h; omega

theorem stepTemplate_append (more : Text) (hcode : s.inCode = false)
    (h : s.stepTemplate c rest position = (k, s'))
    (hend : (c :: rest).drop k = [] → s'.inCode = true) :
    s.stepTemplate c (rest ++ more) position = (k, s') ∧ k ≤ rest.length + 1 := by
  unfold stepTemplate at h ⊢
  by_cases h₁ : (c == '\\') = true
  · rw [if_pos h₁] at h ⊢
    cases h
    exact ⟨rfl, Nat.le_succ_of_le (length_le_of_stay hcode hend)⟩
  by_cases h₂ : (c == '\x60') = true
  · rw [if_neg h₁, if_pos h₂] at h ⊢
    cases h
    exact ⟨rfl, by omega⟩
  rw [if_neg h₁, if_neg h₂] at h ⊢
  cases rest with
  | cons d rest =>
    refine ⟨h, ?_⟩
    rw [List.length_cons]
    split at h <;> (cases h; omega)
  | nil =>
    rw [if_neg (by simp)] at h
    cases h
    have := length_le_of_stay hcode hend
    simp at this

/-- **A step over a piece stays the same with more text behind the piece**, unless the piece ends
inside a comment or a literal or the text completes what a slash begins. -/
theorem step_append (h : s.step past c rest position = .ok (k, s'))
    (hend : (c :: rest).drop k = [] → s'.inCode = true)
    (hslash : s.inCode = true → KeepsSlash c rest more) :
    s.step past c (rest ++ more) position = .ok (k, s') ∧ k ≤ rest.length + 1 := by
  by_cases hcode : s.inCode = true
  · rw [step_of_inCode hcode] at h ⊢
    rw [stepCode_append (hslash hcode)]
    exact ⟨h, stepCode_le (Except.ok.inj h)⟩
  rw [Bool.not_eq_true] at hcode
  unfold step at h ⊢
  split at h
  case h_1 hctx => rw [inCode, hctx] at hcode; cases hcode
  case h_2 hctx => rw [inCode, hctx] at hcode; cases hcode
  case h_3 =>
    obtain ⟨heq, hk⟩ := stepLineComment_append more hcode (Except.ok.inj h) hend
    exact ⟨congrArg _ heq, hk⟩
  case h_4 =>
    obtain ⟨heq, hk⟩ := stepBlockComment_append more hcode (Except.ok.inj h) hend
    exact ⟨congrArg _ heq, hk⟩
  case h_5 => exact ⟨h, stepString_le hcode h hend⟩
  case h_6 => exact ⟨h, stepString_le hcode h hend⟩
  case h_7 =>
    obtain ⟨heq, hk⟩ := stepTemplate_append more hcode (Except.ok.inj h) hend
    exact ⟨congrArg _ heq, hk⟩

end State

end Lexing

end ModuleSurface
