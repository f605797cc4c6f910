import ModuleSurface.Narrowing.Literal
import ModuleSurface.Proofs.Lexing.Inert

/-!
# The characters of literals

A number has only a few kinds of characters, and its last one could end an identifier
(`numeral_of_isNumber`).  A string in quotes is one literal, whatever stands in it
(`isSingle_string`).
-/

namespace ModuleSurface.Narrowing.Literal

open ModuleSurface.Lexing

/-! ## Numbers -/

/-- A character that a number may have in it. -/
def isNumberChar (c : Char) : Bool :=
  Text.isDecimal c || "_.+-aAbBcCdDeEfFxXoO".toList.contains c

/-- Characters of numbers, the last of which belongs to an identifier too. -/
structure Numeral (t : Text) : Prop where
  /-- Only characters of numbers. -/
  chars : ∀ c ∈ t, isNumberChar c = true
  /-- No sign and no point at the end. -/
  last : ∃ c ∈ t.getLast?, Text.isIdentChar c = true

theorem isIdentChar_of_isDecimal {c : Char} (h : Text.isDecimal c = true) :
    Text.isIdentChar c = true := by
  have hranges : ∀ r ∈ Text.decimalRanges, ∃ r' ∈ Text.alphanumericRanges,
      r'.1 ≤ r.1 ∧ r.2 ≤ r'.2 := by
    -- the tables are long, so they are compared by a computation on numbers alone
    have hall : (Text.decimalRanges.all fun r => Text.alphanumericRanges.any fun r' =>
        Nat.ble r'.1 r.1 && Nat.ble r.2 r'.2) = true := by
      decide +kernel
    simpa only [List.all_eq_true, List.any_eq_true, Bool.and_eq_true, Nat.ble_eq] using hall
  have halnum : Text.isAlphanumeric c = true := by
    rw [Text.isDecimal] at h
    rw [Text.isAlphanumeric]
    split at h
    · rename_i hascii
      rw [if_pos hascii, Char.isAlphanum, h, Bool.or_true]
    · rename_i hascii
      rw [if_neg hascii]
      simp only [Text.inRanges, List.any_eq_true, Bool.and_eq_true, decide_eq_true_eq] at h ⊢
      obtain ⟨r, hr, hlow, hhigh⟩ := h
      obtain ⟨r', hr', hlow', hhigh'⟩ := hranges r hr
      exact ⟨r', hr', by omega, by omega⟩
  simp [Text.isIdentChar, halnum]

theorem Numeral.append {t u : Text} (ht : ∀ c ∈ t, isNumberChar c = true) (hu : Numeral u) :
    Numeral (t ++ u) := by
  refine ⟨fun c hc => (List.mem_append.1 hc).elim (ht c) (hu.chars c), ?_⟩
  obtain ⟨c, hc, hident⟩ := hu.last
  refine ⟨c, ?_, hident⟩
  rw [List.getLast?_append, Option.mem_def.1 hc]
  rfl

/-- Characters that belong to numbers and to identifiers are a numeral. -/
theorem Numeral.of_forall {t : Text} (hne : t ≠ [])
    (h : ∀ c ∈ t, isNumberChar c = true ∧ Text.isIdentChar c = true) : Numeral t :=
  ⟨fun c hc => (h c hc).1, t.getLast hne, List.getLast?_eq_some_getLast hne,
    (h _ (List.getLast_mem hne)).2⟩

theorem digit_or_underscore {c : Char} (h : Text.isDecimal c = true ∨ c = '_') :
    isNumberChar c = true ∧ Text.isIdentChar c = true := by
  rcases h with h | rfl
  · exact ⟨by simp [isNumberChar, h], isIdentChar_of_isDecimal h⟩
  · decide

theorem numeral_of_isDigits {t : Text} (h : isDigits t = true) : Numeral t := by
  cases t with
  | nil => cases h
  | cons c t =>
    simp only [isDigits, Bool.and_eq_true, List.all_eq_true, Bool.or_eq_true, beq_iff_eq] at h
    refine .of_forall (by simp) fun d hd => ?_
    rcases List.mem_cons.1 hd with rfl | hd
    · exact digit_or_underscore (.inl h.1)
    · exact digit_or_underscore (h.2 d hd)

theorem numeral_of_isMantissa {t : Text} (h : isMantissa t = true) : Numeral t := by
  have hsplit := List.takeWhile_append_dropWhile (p := (· != '.')) (l := t)
  rw [isMantissa] at h
  split at h
  · exact numeral_of_isDigits h
  · rename_i point fraction hdrop
    have hpoint : point = '.' := by
      have := List.head?_dropWhile_not (· != '.') t
      rw [hdrop] at this
      simpa using this
    simp only [Bool.and_eq_true, Bool.or_eq_true, List.isEmpty_iff] at h
    have hfraction : Numeral ([point] ++ fraction) :=
      .append (by rw [hpoint]; decide) (numeral_of_isDigits h.2)
    rw [hdrop] at hsplit
    rw [← hsplit]
    refine .append (fun c hc => ?_) hfraction
    rcases h.1 with hnil | hwhole
    · rw [hnil] at hc
      cases hc
    · exact (numeral_of_isDigits hwhole).chars c hc

theorem numeral_of_isExponent {t : Text} (h : isExponent t = true) : Numeral t := by
  have hdecimals : ∀ {u : Text}, u ≠ [] → u.all Text.isDecimal = true → Numeral u := by
    intro u hne hu
    exact .of_forall hne fun c hc => digit_or_underscore (.inl (List.all_eq_true.1 hu c hc))
  cases t with
  | nil => cases h
  | cons c t =>
    rw [isExponent] at h
    split at h
    · rename_i hsign
      simp only [Bool.or_eq_true, beq_iff_eq] at hsign
      simp only [Bool.and_eq_true, Bool.not_eq_true', List.isEmpty_eq_false_iff] at h
      refine Numeral.append (t := [c]) ?_ (hdecimals h.1 h.2)
      rcases hsign with rfl | rfl <;> decide
    · exact hdecimals (by simp) h

theorem numeral_of_isDecimalNumber {t : Text} (h : isDecimalNumber t = true) : Numeral t := by
  have hsplit := List.takeWhile_append_dropWhile (p := (!isExponentMark ·)) (l := t)
  rw [isDecimalNumber] at h
  split at h
  · exact numeral_of_isMantissa h
  · rename_i mark exponent hdrop
    have hmark : isExponentMark mark = true := by
      have := List.head?_dropWhile_not (!isExponentMark ·) t
      rw [hdrop] at this
      simpa using this
    rw [Bool.and_eq_true] at h
    have hexponent : Numeral ([mark] ++ exponent) := by
      refine .append ?_ (numeral_of_isExponent h.2)
      simp only [isExponentMark, Bool.or_eq_true, beq_iff_eq] at hmark
      rcases hmark with rfl | rfl <;> decide
    rw [hdrop] at hsplit
    rw [← hsplit]
    exact .append (numeral_of_isMantissa h.1).chars hexponent

/-- A condition on the characters of a range is tried on each of them. -/
theorem of_range {p : Char → Bool} {low high c : Char}
    (h : ∀ n ∈ List.range' low.toNat (high.toNat + 1 - low.toNat), p (Char.ofNat n) = true)
    (hlow : low ≤ c) (hhigh : c ≤ high) : p c = true := by
  have hlow : low.toNat ≤ c.toNat := hlow
  have hhigh : c.toNat ≤ high.toNat := hhigh
  have hc := h c.toNat (by rw [List.mem_range'_1]; omega)
  rwa [Char.ofNat_toNat] at hc

theorem numeral_of_isRadixNumber {t : Text} (h : isRadixNumber t = true) : Numeral t := by
  unfold isRadixNumber at h
  split at h
  · rename_i mark digits
    simp only [Bool.and_eq_true, Bool.not_eq_true', List.isEmpty_eq_false_iff, List.all_eq_true,
      Bool.or_eq_true, beq_iff_eq, List.contains_iff_mem] at h
    obtain ⟨⟨hmark, hne⟩, hdigits⟩ := h
    let both : Char → Bool := fun c => isNumberChar c && Text.isIdentChar c
    have hlower : ∀ c : Char, 'a' ≤ c → c ≤ 'f' → both c = true := fun c => of_range (by decide)
    have hupper : ∀ c : Char, 'A' ≤ c → c ≤ 'F' → both c = true := fun c => of_range (by decide)
    have hdecimal : ∀ c : Char, '0' ≤ c → c ≤ '9' → both c = true := fun c => of_range (by decide)
    have hinside : Numeral digits := by
      refine .of_forall hne fun c hc => Bool.and_eq_true_iff.1 (show both c = true from ?_)
      rcases hdigits c hc with hc | rfl
      · split at hc
        · simp only [Bool.or_eq_true, Bool.and_eq_true, decide_eq_true_eq] at hc
          rcases hc with (hc | hc) | hc
          · rw [Char.isDigit, Bool.and_eq_true, decide_eq_true_eq, decide_eq_true_eq] at hc
            exact hdecimal c hc.1 hc.2
          · exact hlower c hc.1 hc.2
          · exact hupper c hc.1 hc.2
        split at hc
        · simp only [Bool.or_eq_true, beq_iff_eq] at hc
          rcases hc with rfl | rfl <;> decide
        split at hc
        · simp only [Bool.and_eq_true, decide_eq_true_eq] at hc
          exact hdecimal c hc.1 (Nat.le_trans hc.2 (by decide))
        · cases hc
      · decide
    have hfront : ∀ c ∈ ['0', mark], isNumberChar c = true := by
      have hall : ∀ m ∈ "xXbBoO".toList, isNumberChar m = true := by decide
      intro c hc
      simp only [List.mem_cons, List.not_mem_nil, or_false] at hc
      rcases hc with rfl | rfl
      · decide
      · exact hall _ hmark
    exact Numeral.append hfront hinside
  · cases h

/-- A number without a newline at its end is a numeral. -/
theorem numeral_of_isNumber {t : Text} (h : isNumber t = true) (hlast : t.getLast? ≠ some '\n') :
    Numeral t := by
  have hdrop : dropNewline t = t := by
    simp [dropNewline, hlast]
  rw [isNumber, hdrop, Bool.or_eq_true] at h
  have hdigits : Numeral (dropMinus t) :=
    h.elim numeral_of_isRadixNumber numeral_of_isDecimalNumber
  unfold dropMinus at hdigits
  split at hdigits
  · exact Numeral.append (t := ['-']) (by decide) hdigits
  · exact hdigits

/-! ## Strings -/

open Cursor in
/-- As long as a run is not in the code outside everything, no moment of it ends there. -/
theorem find?_moments_run {p q : Cursor} {ps : List Cursor} (h : Run p ps q)
    (hps : ∀ r ∈ ps, r.state.context ≠ .normal) (hq : q.state.context ≠ .normal) :
    p.pass.moments.find? (·.after.context == .normal) =
      q.pass.moments.find? (·.after.context == .normal) := by
  induction h with
  | refl => rfl
  | @cons p p' q ps hnext hrun ih =>
    have hp' : p'.state.context ≠ .normal := by
      cases hrun with
      | refl => exact hq
      | cons _ _ => exact hps _ (List.mem_cons_of_mem _ List.mem_cons_self)
    rw [← ih (fun r hr => hps r (List.mem_cons_of_mem _ hr)) hq]
    cases hnext with
    | @step s s' past c rest position k hstep =>
      have hs' : s'.context ≠ .normal := hp'
      rw [Next.moments_eq hstep]
      exact List.find?_cons_of_neg (by simpa using hs')

open Cursor in
/-- A pass over a text that begins with a string is outside it again behind its closing quote. -/
theorem find?_moments_string (q : Quote) {t : Text} (h : isEscaped q.char t = true) (more : Text) :
    (pass (q.char :: t ++ [q.char] ++ more)).moments.find? (·.after.context == .normal) =
      some ⟨1 + t.length, 1 + t.length + 1, [q.char], State.enter {} q.context 0, {}⟩ := by
  have hcontext : q.context ≠ .normal := by
    cases q <;> decide
  obtain ⟨ps, hrun, hps⟩ := Quote.run_body (s := State.enter {} q.context 0) (q := q) rfl h
    [q.char] (q.char :: more) 1
  have hinside := find?_moments_run hrun (fun r hr => by rw [hps r hr]; exact hcontext) hcontext
  have hfirst := Next.moments_eq (Quote.step_open (s := {}) rfl q [] (t ++ q.char :: more) 0)
  have hlast :=
    Next.moments_eq (Quote.step_close {} q 0 (t.reverse ++ [q.char]) more (1 + t.length))
  have htext : q.char :: t ++ [q.char] ++ more = q.char :: (t ++ q.char :: more) := by
    simp
  have hpass : pass (q.char :: (t ++ q.char :: more)) =
      Cursor.pass ⟨{}, [], q.char :: (t ++ q.char :: more), 0⟩ := rfl
  rw [htext, hpass, hfirst]
  refine (List.find?_cons_of_neg (by simpa [State.enter] using hcontext)).trans ?_
  refine hinside.trans ?_
  rw [hlast]
  rfl

/-- A string in quotes is one literal. -/
theorem isSingle_string (q : Quote) {t : Text} (h : isEscaped q.char t = true) :
    isSingle (q.char :: t ++ [q.char]) = true := by
  have hfind := find?_moments_string q h []
  rw [List.append_nil] at hfind
  rw [isSingle, hfind]
  simp [Nat.add_comm]

/-- With more behind it, it is not. -/
theorem isSingle_string_append (q : Quote) {t more : Text} (h : isEscaped q.char t = true)
    (hmore : more ≠ []) : isSingle (q.char :: t ++ [q.char] ++ more) = false := by
  have hlength := List.length_pos_iff.2 hmore
  rw [isSingle, find?_moments_string q h more]
  simp only [beq_eq_false_iff_ne, List.length_append, List.length_cons, List.length_nil]
  omega

end ModuleSurface.Narrowing.Literal
