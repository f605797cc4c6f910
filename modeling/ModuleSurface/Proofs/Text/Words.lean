import ModuleSurface.Proofs.Text.Strip

/-!
# Words and lists

A text of words with single spaces between them (`Spaced`) is what collapsing leaves as it is, and a
list of texts that was written with commas can be read back piece by piece (`map_strip_splitOn`).
-/

namespace ModuleSurface.Text

/-! ## Words with single spaces between them -/

/-- Characters other than white space, at least one. -/
def IsWord (w : Text) : Prop :=
  w ≠ [] ∧ ∀ c ∈ w, isBlank c = false

/-- Words with a single space between neighbours. -/
inductive Spaced : Text → Prop
  | word {w : Text} : IsWord w → Spaced w
  | cons {w t : Text} : IsWord w → Spaced t → Spaced (w ++ ' ' :: t)

theorem wordsFrom_append {w : Text} (hw : ∀ c ∈ w, isBlank c = false) (current t : Text) :
    wordsFrom current (w ++ t) = wordsFrom (w.reverse ++ current) t := by
  induction w generalizing current with
  | nil => rfl
  | cons c w ih =>
    obtain ⟨hc, hw⟩ := List.forall_mem_cons.1 hw
    rw [List.cons_append, wordsFrom, if_neg (by simp [hc]), ih hw]
    simp

theorem words_word {w : Text} (h : IsWord w) : words w = [w] := by
  have hwords := wordsFrom_append h.2 [] []
  rw [List.append_nil, List.append_nil] at hwords
  rw [words, hwords, wordsFrom, if_neg (by simpa using h.1), List.reverse_reverse]

theorem words_cons {w : Text} (h : IsWord w) (t : Text) : words (w ++ ' ' :: t) = w :: words t := by
  rw [words, wordsFrom_append h.2, wordsFrom, if_pos (by decide), if_neg (by simpa using h.1)]
  simp [words]

theorem IsWord.append {w v : Text} (hw : IsWord w) (hv : IsWord v) : IsWord (w ++ v) := by
  refine ⟨by simp [hw.1], ?_⟩
  intro c hc
  rcases List.mem_append.1 hc with hc | hc
  · exact hw.2 c hc
  · exact hv.2 c hc

namespace Spaced

variable {t u : Text}

/-- Collapsing leaves single spaces as they are. -/
theorem collapse_eq (h : Spaced t) : collapse t = t := by
  induction h with
  | word hw =>
    rw [collapse, words_word hw]
    exact List.intercalate_singleton ..
  | @cons w t hw ht ih =>
    obtain ⟨v, vs, hvs⟩ : ∃ v vs, words t = v :: vs := by
      cases ht with
      | word hv => exact ⟨_, _, words_word hv⟩
      | cons hv _ => exact ⟨_, _, words_cons hv _⟩
    rw [collapse, hvs] at ih
    rw [collapse, words_cons hw, hvs, join, List.intercalate_cons_cons, ← join, ih]
    simp

/-- One text directly behind the other: the last word and the first become one. -/
theorem append (ht : Spaced t) (hu : Spaced u) : Spaced (t ++ u) := by
  induction ht with
  | word hw =>
    cases hu with
    | word hv => exact .word (hw.append hv)
    | cons hv hu =>
      rw [← List.append_assoc]
      exact .cons (hw.append hv) hu
  | cons hw _ ih =>
    rw [List.append_assoc, List.cons_append]
    exact .cons hw ih

/-- One text behind the other with a space between them. -/
theorem space (ht : Spaced t) (hu : Spaced u) : Spaced (t ++ ' ' :: u) := by
  induction ht with
  | word hw => exact .cons hw hu
  | cons hw _ ih =>
    rw [List.append_assoc, List.cons_append]
    exact .cons hw ih

/-- Texts with a comma and a space between neighbours. -/
theorem commas {ts : List Text} (hne : ts ≠ []) (h : ∀ t ∈ ts, Spaced t) :
    Spaced (join ", ".toList ts) := by
  induction ts with
  | nil => exact absurd rfl hne
  | cons t ts ih =>
    obtain ⟨ht, hts⟩ := List.forall_mem_cons.1 h
    cases ts with
    | nil => simpa [join, List.intercalate_singleton] using ht
    | cons u ts =>
      have hcomma : Spaced (t ++ [',']) := ht.append (.word ⟨by simp, by decide⟩)
      rw [join, List.intercalate_cons_cons, ← join]
      have hall := hcomma.space (ih (by simp) hts)
      rw [List.append_assoc] at hall
      rw [List.append_assoc]
      exact hall

theorem exists_head (h : Spaced t) : ∃ c r, t = c :: r ∧ isBlank c = false := by
  have word : ∀ {w : Text}, IsWord w → ∃ c r, w = c :: r ∧ isBlank c = false := by
    intro w hw
    obtain ⟨c, r, rfl⟩ := List.exists_cons_of_ne_nil hw.1
    exact ⟨c, r, rfl, hw.2 c List.mem_cons_self⟩
  cases h with
  | word hw => exact word hw
  | cons hw _ =>
    obtain ⟨c, r, rfl, hc⟩ := word hw
    exact ⟨c, r ++ ' ' :: _, rfl, hc⟩

theorem exists_last (h : Spaced t) : ∃ r c, t = r ++ [c] ∧ isBlank c = false := by
  induction h with
  | @word w hw =>
    obtain ⟨r, c, rfl⟩ := List.eq_nil_or_concat w |>.resolve_left hw.1
    exact ⟨r, c, List.concat_eq_append, hw.2 c (by simp)⟩
  | @cons w _ _ _ ih =>
    obtain ⟨r, c, rfl, hc⟩ := ih
    exact ⟨w ++ ' ' :: r, c, by simp, hc⟩

theorem trimmed (h : Spaced t) : Trimmed t := by
  obtain ⟨c, r, hhead, hc⟩ := h.exists_head
  obtain ⟨r', d, hlast, hd⟩ := h.exists_last
  exact ⟨⟨c, by rw [hhead]; rfl, hc⟩, ⟨d, by rw [hlast, List.getLast?_concat]; rfl, hd⟩⟩

/-- White space around the text is stripped, and nothing else is. -/
theorem strip_between (h : Spaced t) (front back : Text) (hfront : ∀ c ∈ front, isBlank c = true)
    (hback : ∀ c ∈ back, isBlank c = true) : strip (front ++ t ++ back) = t :=
  h.trimmed.strip_between front back hfront hback

theorem strip_eq (h : Spaced t) : strip t = t :=
  h.trimmed.strip_eq

end Spaced

/-! ## Pieces between commas -/

/-- **Reading a list back**: the pieces between the commas of a list are the texts of the list, but
for the white space around them. -/
theorem map_strip_splitOn {ts : List Text} (hne : ts ≠ []) (hcomma : ∀ t ∈ ts, ',' ∉ t)
    (hspaced : ∀ t ∈ ts, t = [] ∨ Spaced t) (front back : Text)
    (hfront : ∀ c ∈ front, isBlank c = true) (hback : ∀ c ∈ back, isBlank c = true) :
    ((front ++ join ", ".toList ts ++ back).splitOn ',').map strip = ts := by
  have blank : ∀ {u : Text}, (∀ c ∈ u, isBlank c = true) → ',' ∉ u := by
    intro u hu hmem
    exact absurd (hu _ hmem) (by decide)
  have one : ∀ t front back : Text, (t = [] ∨ Spaced t) → (∀ c ∈ front, isBlank c = true) →
      (∀ c ∈ back, isBlank c = true) → strip (front ++ t ++ back) = t := by
    rintro t front back (rfl | ht) hfront hback
    · rw [List.append_nil, strip, stripLeft, List.dropWhile_append_of_pos hfront,
        List.dropWhile_eq_nil_iff.2 hback]
      rfl
    · exact ht.strip_between front back hfront hback
  induction ts generalizing front with
  | nil => exact absurd rfl hne
  | cons t ts ih =>
    obtain ⟨htcomma, htscomma⟩ := List.forall_mem_cons.1 hcomma
    obtain ⟨htspaced, htsspaced⟩ := List.forall_mem_cons.1 hspaced
    cases ts with
    | nil =>
      rw [join, List.intercalate_singleton, List.splitOn_eq_singleton (by
        simp [htcomma, blank hfront, blank hback])]
      rw [List.map_singleton, one t front back htspaced hfront hback]
    | cons u ts =>
      have hrest := ih (by simp) htscomma htsspaced [' '] (by decide)
      have hsplit : front ++ join ", ".toList (t :: u :: ts) ++ back =
          (front ++ t) ++ ',' :: ([' '] ++ join ", ".toList (u :: ts) ++ back) := by
        rw [join, List.intercalate_cons_cons, ← join]
        simp
      have hfirst := one t front [] htspaced hfront (by simp)
      rw [List.append_nil] at hfirst
      rw [hsplit, List.splitOn_append_cons_self_of_not_mem (by simp [htcomma, blank hfront]),
        List.map_cons, hrest, hfirst]

end ModuleSurface.Text
