import ModuleSurface.Proofs.Text.Strip

/-!
# Identifier tokens and whole words

There are two readings of "the identifier `w` stands in `t`": `w` is one of the identifier tokens of
`t`, and `w` stands somewhere in `t` with no identifier character next to it.  A token begins at the
first character that may begin an identifier, and characters in front of it that can only continue
one are skipped.  So a token is a whole word but for such a lead: `mem_identifierTokens_iff`.
-/

namespace ModuleSurface.Text

/-- The spelling of an identifier token: a character that may begin an identifier, and identifier
characters behind it. -/
structure IsIdentifier (w : Text) : Prop where
  /-- The first character may begin an identifier. -/
  head : w.head?.any isIdentStart = true
  /-- All of them may stand in one. -/
  all : ∀ c ∈ w, isIdentChar c = true

/-- Characters that continue an identifier and cannot begin one: digits, and whatever is not
ASCII. -/
def IsLead (lead : Text) : Prop :=
  ∀ c ∈ lead, isIdentChar c = true ∧ isIdentStart c = false

/-- Between `a` and `b` a word has no identifier character next to it. -/
structure Apart (a b : Text) : Prop where
  /-- None in front. -/
  left : a.getLast?.any isIdentChar = false
  /-- None behind. -/
  right : b.head?.any isIdentChar = false

theorem isIdentChar_of_isIdentStart {c : Char} (h : isIdentStart c = true) :
    isIdentChar c = true := by
  simp only [isIdentStart, Bool.or_eq_true] at h
  rcases h with (h | h) | h
  · have halnum : c.isAlphanum = true := by simp [Char.isAlphanum, h]
    have hascii : c.toNat < 0x80 := by
      unfold Char.isAlpha Char.isUpper Char.isLower at h
      simp only [Bool.or_eq_true, Bool.and_eq_true, decide_eq_true_eq,
        UInt32.le_iff_toNat_le] at h
      show c.val.toNat < 0x80
      rcases h with ⟨-, h⟩ | ⟨-, h⟩ <;> exact Nat.lt_of_le_of_lt h (by decide)
    simp [isIdentChar, isAlphanumeric_of_isAlphanum halnum hascii]
  · simp [isIdentChar, h]
  · simp [isIdentChar, h]

theorem IsIdentifier.exists_cons {w : Text} (h : IsIdentifier w) :
    ∃ c r, w = c :: r ∧ isIdentStart c = true ∧ ∀ d ∈ r, isIdentChar d = true := by
  cases w with
  | nil => cases h.head
  | cons c r => exact ⟨c, r, rfl, h.head, (List.forall_mem_cons.1 h.all).2⟩

/-! ## Whole words -/

theorem standsAlone_iff {w t : Text} {before : Option Char} :
    standsAlone w before t = true ↔
      before.any isIdentChar = false ∧ ∃ b, t = w ++ b ∧ b.head?.any isIdentChar = false := by
  simp only [standsAlone, Bool.and_eq_true, Bool.not_eq_true', List.isPrefixOf_iff_prefix,
    and_assoc]
  refine and_congr_right fun _ => ⟨?_, ?_⟩
  · rintro ⟨⟨b, rfl⟩, hb⟩
    rw [List.drop_left] at hb
    exact ⟨b, rfl, hb⟩
  · rintro ⟨b, rfl, hb⟩
    rw [List.drop_left]
    exact ⟨List.prefix_append w b, hb⟩

theorem containsWordFrom_iff {w t : Text} {before : Option Char} :
    containsWordFrom w before t = true ↔
      ∃ a b, t = a ++ (w ++ b) ∧ (a.getLast?.or before).any isIdentChar = false ∧
        b.head?.any isIdentChar = false := by
  induction t generalizing before with
  | nil =>
    rw [containsWordFrom, standsAlone_iff]
    refine ⟨?_, ?_⟩
    · rintro ⟨hbefore, b, ht, hb⟩
      exact ⟨[], b, ht, hbefore, hb⟩
    · rintro ⟨a, b, ht, hbefore, hb⟩
      obtain ⟨rfl, hwb⟩ := List.append_eq_nil_iff.1 ht.symm
      exact ⟨hbefore, b, hwb.symm, hb⟩
  | cons c t ih =>
    rw [containsWordFrom, Bool.or_eq_true, standsAlone_iff, ih]
    have hlast : ∀ a : Text, (c :: a).getLast?.or before = a.getLast?.or (some c) := by
      intro a
      rw [List.getLast?_cons]
      cases a.getLast? <;> rfl
    refine ⟨?_, ?_⟩
    · rintro (⟨hbefore, b, ht, hb⟩ | ⟨a, b, rfl, ha, hb⟩)
      · exact ⟨[], b, ht, hbefore, hb⟩
      · exact ⟨c :: a, b, rfl, by rw [hlast, ha], hb⟩
    · rintro ⟨a, b, ht, ha, hb⟩
      cases a with
      | nil => exact .inl ⟨ha, b, ht, hb⟩
      | cons d a =>
        obtain ⟨rfl, rest⟩ := List.cons.inj ht
        exact .inr ⟨a, b, rest, by rw [← hlast, ha], hb⟩

/-- A whole word stands apart. -/
theorem containsWord_iff {t w : Text} :
    containsWord t w = true ↔ ∃ a b, t = a ++ (w ++ b) ∧ Apart a b := by
  rw [containsWord, containsWordFrom_iff]
  refine exists_congr fun a => exists_congr fun b => and_congr_right fun _ => ?_
  rw [Option.or_none]
  exact ⟨fun h => ⟨h.1, h.2⟩, fun h => ⟨h.1, h.2⟩⟩

/-- The same with offsets. -/
theorem containsWord_iff_getElem? {t w : Text} (hw : w ≠ []) :
    containsWord t w = true ↔ ∃ n, (∀ i (h : i < w.length), t[n + i]? = some w[i]) ∧
      (∀ i, i + 1 = n → t[i]?.any isIdentChar = false) ∧
        t[n + w.length]?.any isIdentChar = false := by
  rw [containsWord_iff]
  refine ⟨?_, ?_⟩
  · rintro ⟨a, b, rfl, hleft, hright⟩
    refine ⟨a.length, fun i h => ?_, fun i hi => ?_, ?_⟩
    · rw [List.getElem?_append_right (by omega), Nat.add_sub_cancel_left,
        List.getElem?_append_left h, List.getElem?_eq_getElem h]
    · rw [List.getElem?_append_left (by omega), show i = a.length - 1 by omega,
        ← List.getLast?_eq_getElem?]
      exact hleft
    · rw [← List.append_assoc, List.getElem?_append_right (by simp), List.length_append,
        Nat.sub_self, ← List.head?_eq_getElem?]
      exact hright
  · rintro ⟨n, hchars, hbefore, hbehind⟩
    have hprefix : w <+: t.drop n := by
      refine List.prefix_iff_getElem?.2 fun i h => ?_
      rw [List.getElem?_drop]
      exact hchars i h
    obtain ⟨b, hb⟩ := hprefix
    have hn : n ≤ t.length := by
      have := (List.getElem?_eq_some_iff.1 (hchars 0 (List.length_pos_iff.2 hw))).1
      omega
    have ht : t = t.take n ++ (w ++ b) := by rw [hb, List.take_append_drop]
    refine ⟨t.take n, b, ht, ?_, ?_⟩
    · rw [List.getLast?_eq_getElem?, List.length_take, Nat.min_eq_left hn]
      cases n with
      | zero => simp
      | succ n =>
        rw [Nat.add_sub_cancel, List.getElem?_take_of_lt (by omega)]
        exact hbefore n rfl
    · rwa [← List.head?_drop, ← List.drop_drop, ← hb, List.drop_left] at hbehind

/-! ## Tokens -/

/-- A character that does not satisfy `p` ends what is taken and begins what is left. -/
theorem span_stop {p : Char → Bool} {d : Char} (hd : p d = false) (t b : Text) :
    (t ++ d :: b).takeWhile p = t.takeWhile p ∧
      (t ++ d :: b).dropWhile p = t.dropWhile p ++ d :: b := by
  induction t with
  | nil => simp [hd]
  | cons c t ih =>
    by_cases hc : p c = true
    · simp [hc, ih.1, ih.2]
    · simp [hc]

/-- No identifier goes over a newline. -/
theorem identifierTokens_newline (a b : Text) :
    identifierTokens (a ++ '\n' :: b) = identifierTokens a ++ identifierTokens b := by
  fun_induction identifierTokens a with
  | case1 =>
    rw [List.nil_append, identifierTokens, if_neg (by decide), List.nil_append]
  | case2 c t hc ih =>
    obtain ⟨htake, hdrop⟩ := span_stop (by decide : isIdentChar '\n' = false) t b
    rw [List.cons_append, identifierTokens, if_pos hc, htake, hdrop, ih, List.cons_append]
  | case3 c t hc ih =>
    rw [List.cons_append, identifierTokens, if_neg hc, ih]

theorem identifierTokens_eq_nil {t : Text} (h : ∀ c ∈ t, isIdentStart c = false) :
    identifierTokens t = [] := by
  induction t with
  | nil => rw [identifierTokens]
  | cons c t ih =>
    have hc : ¬ isIdentStart c = true := by simp [h c List.mem_cons_self]
    rw [identifierTokens, if_neg hc]
    exact ih fun d hd => h d (List.mem_cons_of_mem _ hd)

/-- The first token of a text is read up to the first character that continues none. -/
theorem span_identifier {r b : Text} (hr : ∀ d ∈ r, isIdentChar d = true)
    (hb : b.head?.any isIdentChar = false) :
    (r ++ b).takeWhile isIdentChar = r ∧ (r ++ b).dropWhile isIdentChar = b := by
  rw [List.takeWhile_append_of_pos hr, List.dropWhile_append_of_pos hr]
  cases b with
  | nil => simp
  | cons d b =>
    have hd : ¬ isIdentChar d = true := by simpa using hb
    rw [List.takeWhile_cons_of_neg hd, List.dropWhile_cons_of_neg hd, List.append_nil]
    exact ⟨rfl, rfl⟩

/-- What is left behind an identifier does not begin with an identifier character. -/
theorem head?_dropWhile_isIdentChar (t : Text) :
    (t.dropWhile isIdentChar).head?.any isIdentChar = false := by
  have hstop := List.head?_dropWhile_not isIdentChar t
  cases h : (t.dropWhile isIdentChar).head? with
  | none => rfl
  | some d => simpa [h] using hstop

/-- `w` stands in `t` as a whole word, or behind a lead that makes one word with it. -/
def Led (t w : Text) : Prop :=
  ∃ lead a b, IsLead lead ∧ t = a ++ (lead ++ (w ++ b)) ∧ Apart a b

theorem led_iff {t w : Text} :
    Led t w ↔ ∃ lead, IsLead lead ∧ containsWord t (lead ++ w) = true := by
  simp only [Led, containsWord_iff, List.append_assoc, exists_and_left]

namespace IsIdentifier

variable {w : Text}

theorem not_led_nil (hw : IsIdentifier w) : ¬ Led [] w := by
  rintro ⟨lead, a, b, -, ht, -⟩
  obtain ⟨c, r, rfl, -⟩ := hw.exists_cons
  simp at ht

theorem head?_led (hw : IsIdentifier w) {lead : Text} (hlead : IsLead lead) (b : Text) :
    (lead ++ (w ++ b)).head?.any isIdentChar = true := by
  obtain ⟨d, r, rfl, -⟩ := hw.exists_cons
  cases lead with
  | nil => exact hw.all d List.mem_cons_self
  | cons e lead => exact (List.forall_mem_cons.1 hlead).1.1

/-- A character that begins no identifier is in front of the word or part of its lead. -/
theorem led_cons (hw : IsIdentifier w) {c : Char} (hc : isIdentStart c = false) (t : Text) :
    Led (c :: t) w ↔ Led t w := by
  obtain ⟨d, r, rfl, hd, -⟩ := hw.exists_cons
  refine ⟨?_, ?_⟩
  · rintro ⟨lead, a, b, hlead, ht, hapart⟩
    cases a with
    | nil =>
      cases lead with
      | nil =>
        obtain ⟨rfl, -⟩ := List.cons.inj ht
        rw [hd] at hc
        cases hc
      | cons e lead =>
        obtain ⟨-, rest⟩ := List.cons.inj ht
        exact ⟨lead, [], b, (List.forall_mem_cons.1 hlead).2, rest, hapart⟩
    | cons e a =>
      obtain ⟨-, rest⟩ := List.cons.inj ht
      refine ⟨lead, a, b, hlead, rest, ?_, hapart.right⟩
      cases a with
      | nil => rfl
      | cons f a => exact hapart.left
  · rintro ⟨lead, a, b, hlead, rfl, hapart⟩
    cases a with
    | nil =>
      by_cases hident : isIdentChar c = true
      · exact ⟨c :: lead, [], b, List.forall_mem_cons.2 ⟨⟨hident, hc⟩, hlead⟩, rfl, hapart⟩
      · exact ⟨lead, [c], b, hlead, rfl, by simpa using hident, hapart.right⟩
    | cons e a => exact ⟨lead, c :: e :: a, b, hlead, rfl, hapart.left, hapart.right⟩

/-- A character that begins an identifier begins the word, or the word is behind the identifier. -/
theorem led_cons_start (hw : IsIdentifier w) {c : Char} (hc : isIdentStart c = true) (t : Text) :
    Led (c :: t) w ↔ w = c :: t.takeWhile isIdentChar ∨ Led (t.dropWhile isIdentChar) w := by
  obtain ⟨d, r, rfl, hd, hr⟩ := hw.exists_cons
  refine ⟨?_, ?_⟩
  · rintro ⟨lead, a, b, hlead, ht, hapart⟩
    cases a with
    | nil =>
      cases lead with
      | nil =>
        obtain ⟨rfl, hrest⟩ := List.cons.inj ht
        left
        rw [show t = r ++ b from hrest, (span_identifier hr hapart.right).1]
      | cons e lead =>
        obtain ⟨rfl, -⟩ := List.cons.inj ht
        rw [(List.forall_mem_cons.1 hlead).1.2] at hc
        cases hc
    | cons e a =>
      obtain ⟨rfl, hrest⟩ := List.cons.inj ht
      -- the identifier that `c` begins ends in front of the last character of `a`
      have hlast := hapart.left
      obtain ⟨a, f, rfl⟩ | rfl : (∃ a' f, a = a' ++ [f]) ∨ a = [] := by
        rcases List.eq_nil_or_concat a with h | ⟨a', f, h⟩
        · exact .inr h
        · exact .inl ⟨a', f, by rw [h, List.concat_eq_append]⟩
      · have hf : isIdentChar f = false := by
          rw [← List.cons_append, List.getLast?_concat] at hlast
          simpa using hlast
        have hdrop := (span_stop hf a (lead ++ (d :: r ++ b))).2
        have ht' : t = a ++ f :: (lead ++ (d :: r ++ b)) := by
          rw [show t = (a ++ [f]) ++ _ from hrest, List.append_assoc, List.singleton_append]
        rw [← ht'] at hdrop
        refine .inr ⟨lead, a.dropWhile isIdentChar ++ [f], b, hlead, by simp [hdrop], ?_,
          hapart.right⟩
        rw [List.getLast?_concat]
        simpa using hf
      · rw [List.getLast?_singleton, Option.any_some, isIdentChar_of_isIdentStart hc] at hlast
        cases hlast
  · rintro (hword | ⟨lead, a, b, hlead, ht, hapart⟩)
    · obtain ⟨rfl, rfl⟩ := List.cons.inj hword
      refine ⟨[], [], t.dropWhile isIdentChar, by simp [IsLead], ?_, rfl, ?_⟩
      · simp
      · exact head?_dropWhile_isIdentChar t
    · have hfront : a ≠ [] := by
        rintro rfl
        have hstop := head?_dropWhile_isIdentChar t
        rw [ht, List.nil_append, hw.head?_led hlead b] at hstop
        cases hstop
      refine ⟨lead, c :: t.takeWhile isIdentChar ++ a, b, hlead, ?_, ?_, hapart.right⟩
      · rw [List.append_assoc, ← ht, List.cons_append, List.takeWhile_append_dropWhile]
      · rw [List.getLast?_append, Option.or_of_isSome (by simpa using hfront)]
        exact hapart.left

end IsIdentifier

/-- **A token is a whole word, but for characters in front of it that cannot begin one.** -/
theorem mem_identifierTokens_iff {t w : Text} (hw : IsIdentifier w) :
    w ∈ identifierTokens t ↔ ∃ lead, IsLead lead ∧ containsWord t (lead ++ w) = true := by
  rw [← led_iff]
  fun_induction identifierTokens t with
  | case1 => simp [hw.not_led_nil]
  | case2 c t hc ih => rw [List.mem_cons, ih, hw.led_cons_start hc]
  | case3 c t hc ih => rw [ih, hw.led_cons (by simpa using hc)]

/-! ## Words and signs -/

/-- The word that is being read, if there is one. -/
def wordRead (current : Text) : List Text :=
  if current.isEmpty then [] else [current.reverse]

/-- The tokens of a text behind the identifier characters `current`, in reverse. -/
def tokensFrom (current : Text) : Text → List Text
  | [] => wordRead current
  | c :: t =>
    if isIdentChar c then tokensFrom (c :: current) t
    else wordRead current ++ (if isBlank c then [] else [[c]]) ++ tokensFrom [] t

/-- The tokens of a text: words of identifier characters, each as long as it can be, and other
characters than white space. -/
def tokens (t : Text) : List Text :=
  tokensFrom [] t

theorem tokensFrom_append {w : Text} (hw : ∀ c ∈ w, isIdentChar c = true) (current t : Text) :
    tokensFrom current (w ++ t) = tokensFrom (w.reverse ++ current) t := by
  induction w generalizing current with
  | nil => rfl
  | cons c w ih =>
    obtain ⟨hc, hw⟩ := List.forall_mem_cons.1 hw
    rw [List.cons_append, tokensFrom, if_pos hc, ih hw]
    simp

/-- A word is a token where no identifier character follows it. -/
theorem tokens_word {w t : Text} (hne : w ≠ []) (hw : ∀ c ∈ w, isIdentChar c = true)
    (ht : t.head?.any isIdentChar = false) : tokens (w ++ t) = w :: tokens t := by
  rw [tokens, tokensFrom_append hw, List.append_nil]
  cases t with
  | nil => simp [tokensFrom, tokens, wordRead, hne]
  | cons c t =>
    have hc : isIdentChar c = false := ht
    simp [tokens, tokensFrom, hc, wordRead, hne]

theorem tokens_blank {c : Char} (hc : isBlank c = true) (t : Text) :
    tokens (c :: t) = tokens t := by
  simp [tokens, tokensFrom, isIdentChar_of_isBlank hc, hc, wordRead]

theorem tokens_sign {c : Char} (hident : isIdentChar c = false) (hblank : isBlank c = false)
    (t : Text) : tokens (c :: t) = [c] :: tokens t := by
  simp [tokens, tokensFrom, hident, hblank, wordRead]

theorem tokens_blanks {b : Text} (hb : ∀ c ∈ b, isBlank c = true) (t : Text) :
    tokens (b ++ t) = tokens t := by
  induction b with
  | nil => rfl
  | cons c b ih =>
    obtain ⟨hc, hb⟩ := List.forall_mem_cons.1 hb
    rw [List.cons_append, tokens_blank hc, ih hb]

/-- Among the tokens, those that are words stand apart. -/
theorem exists_apart_of_mem_tokensFrom {w : Text} (hw : ∀ c ∈ w, isIdentChar c = true)
    {current t : Text} (h : w ∈ tokensFrom current t) :
    ∃ a b, current.reverse ++ t = a ++ (w ++ b) ∧ Apart a b := by
  induction t generalizing current with
  | nil =>
    rw [tokensFrom, wordRead] at h
    split at h
    · cases h
    · rw [List.mem_singleton.1 h]
      exact ⟨[], [], by simp, rfl, rfl⟩
  | cons c t ih =>
    rw [tokensFrom] at h
    split at h
    · obtain ⟨a, b, heq, hapart⟩ := ih h
      exact ⟨a, b, by simpa using heq, hapart⟩
    · rename_i hc
      rw [List.mem_append, List.mem_append] at h
      rcases h with (h | h) | h
      · rw [wordRead] at h
        split at h
        · cases h
        · rw [List.mem_singleton.1 h]
          exact ⟨[], c :: t, by simp, rfl, by simpa using hc⟩
      · split at h
        · cases h
        · rw [List.mem_singleton.1 h] at hw
          exact absurd (hw c List.mem_cons_self) hc
      · obtain ⟨a, b, heq, hleft, hright⟩ := ih h
        refine ⟨current.reverse ++ c :: a, b, by simpa using heq, ?_, hright⟩
        rw [List.getLast?_append, List.getLast?_cons]
        cases hlast : a.getLast? with
        | none => simpa using hc
        | some d => simpa [hlast] using hleft

/-- A token that is an identifier is an identifier token. -/
theorem mem_identifierTokens_of_mem_tokens {t w : Text} (hw : IsIdentifier w) (h : w ∈ tokens t) :
    w ∈ identifierTokens t := by
  obtain ⟨a, b, heq, hapart⟩ := exists_apart_of_mem_tokensFrom hw.all h
  rw [mem_identifierTokens_iff hw]
  exact ⟨[], by simp [IsLead], containsWord_iff.2 ⟨a, b, heq, hapart⟩⟩

end ModuleSurface.Text
