import Mathlib.Data.List.DropRight
import ModuleSurface.Proofs.Lexing.Quoted
import ModuleSurface.Proofs.Lexing.Sealed
import ModuleSurface.Proofs.Text.Strip

/-!
# Code with white space that may be written in more than one way

Code without comments, slashes and substitutions is a list of pieces: visible characters, literals,
and gaps of white space.  A layout says what is written for each gap; `render` writes the pieces in
a layout.  What the readers of a text cut from its start or its end, and what they skip, is the same
pieces in every layout (`dropWhile_render`, `dropRightWhile_render`, `takeWhile_render`), and places
between pieces have an offset in each (`offset`).
-/

namespace ModuleSurface.Spacing

open ModuleSurface.Lexing

/-! ## Pieces -/

/-- A character of code that is no white space and begins neither a comment nor a literal. -/
def Visible (c : Char) : Prop :=
  Text.isBlank c = false ∧ Quiet c

instance : DecidablePred Visible :=
  fun c => inferInstanceAs (Decidable (Text.isBlank c = false ∧ Quiet c))

theorem quiet_of_plain {c : Char} (h : Plain c) : Quiet c := by
  have hall : ∀ d ∈ ['/', '\'', '"', '\x60'], d ∈ specials := by decide
  exact fun hmem => h (hall c hmem)

theorem visible_of_isIdentChar {c : Char} (h : Text.isIdentChar c = true) : Visible c :=
  ⟨Text.isBlank_of_isIdentChar h, quiet_of_plain (plain_of_isIdentChar h)⟩

/-- White space, at least one character of it. -/
abbrev Gap :=
  { t : Text // t ≠ [] ∧ ∀ c ∈ t, Text.isBlank c = true }

/-- A piece of code. -/
inductive Piece where
  /-- A visible character. -/
  | sign (c : { c : Char // Visible c })
  /-- White space. -/
  | gap (g : Gap)
  /-- A literal. -/
  | literal (x : Literal)

/-- What is written for each gap. -/
abbrev Layout :=
  Gap → Gap

namespace Piece

/-- The piece as written in a layout. -/
def text (l : Layout) : Piece → Text
  | sign c => [c.1]
  | gap g => (l g).1
  | literal x => x.text

/-- The character, if the piece is one. -/
def char? : Piece → Option Char
  | sign c => some c.1
  | _ => none

/-- Is the piece white space? -/
def isGap : Piece → Bool
  | gap _ => true
  | _ => false

/-- The literal, if the piece is one. -/
def literal? : Piece → Option Literal
  | literal x => some x
  | _ => none

theorem text_ne_nil (l : Layout) (p : Piece) : p.text l ≠ [] := by
  cases p with
  | sign c => exact List.cons_ne_nil _ _
  | gap g => exact (l g).2.1
  | literal x => exact List.cons_ne_nil _ _

/-- The layout makes a difference to gaps only. -/
theorem text_congr {p : Piece} (hp : p.isGap = false) (l m : Layout) : p.text l = p.text m := by
  cases p with
  | gap g => cases hp
  | _ => rfl

theorem isBlank_of_mem_text {p : Piece} (hp : p.isGap = true) {l : Layout} {c : Char}
    (hc : c ∈ p.text l) : Text.isBlank c = true := by
  cases p with
  | gap g => exact (l g).2.2 c hc
  | _ => cases hp

/-- Only literals have characters that begin literals. -/
theorem quiet_of_mem_text {p : Piece} (hp : ∀ x, p ≠ literal x) {l : Layout} {c : Char}
    (hc : c ∈ p.text l) : Quiet c := by
  cases p with
  | sign d =>
    rw [List.mem_singleton.1 hc]
    exact d.2.2
  | gap g => exact quiet_of_plain (plain_of_isBlank ((l g).2.2 c hc))
  | literal x => exact absurd rfl (hp x)

theorem not_visible_char (d : Delimiter) : Text.isBlank d.char = false ∧ ¬ Visible d.char := by
  cases d with
  | quote q => cases q <;> decide
  | backtick => decide

theorem not_visible_of_isBlank {c : Char} (h : Text.isBlank c = true) : ¬ Visible c :=
  fun hc => Bool.false_ne_true (hc.1.symm.trans h)

/-- Both ends of a piece: the character, white space, or the delimiter of a literal. -/
theorem exists_ends (l : Layout) (p : Piece) :
    ∃ c r d s, p.text l = c :: r ∧ p.text l = s ++ [d] ∧
      (Text.isBlank c = p.isGap ∧ Text.isBlank d = p.isGap) ∧
      (p.char? = none → ¬ Visible c ∧ ¬ Visible d) := by
  cases p with
  | sign c => exact ⟨c.1, [], c.1, [], rfl, rfl, ⟨c.2.1, c.2.1⟩, by simp [char?]⟩
  | gap g =>
    obtain ⟨c, r, hfirst⟩ := List.exists_cons_of_ne_nil (l g).2.1
    obtain ⟨s, d, hlast⟩ : ∃ s d, (l g).1 = s ++ [d] :=
      ⟨_, _, (List.dropLast_append_getLast (l g).2.1).symm⟩
    have hc := (l g).2.2 c (by simp [hfirst])
    have hd := (l g).2.2 d (by simp [hlast])
    exact ⟨c, r, d, s, hfirst, hlast, ⟨hc, hd⟩,
      fun _ => ⟨not_visible_of_isBlank hc, not_visible_of_isBlank hd⟩⟩
  | literal x =>
    obtain ⟨hblank, hvisible⟩ := not_visible_char x.delimiter
    exact ⟨_, _, _, _, rfl, rfl, ⟨hblank, hblank⟩, fun _ => ⟨hvisible, hvisible⟩⟩

end Piece

/-- The layout that writes one space for every gap. -/
def single : Layout :=
  fun _ => ⟨[' '], by simp, by decide⟩

/-- The pieces as written in a layout. -/
def render (l : Layout) (ps : List Piece) : Text :=
  ps.flatMap (Piece.text l)

theorem forall_literal_iff {P : Literal → Prop} {ps : List Piece} :
    (∀ p ∈ ps, ∀ x ∈ p.literal?, P x) ↔ ∀ x, Piece.literal x ∈ ps → P x := by
  refine ⟨fun h x hx => h _ hx x rfl, fun h p hp x hx => ?_⟩
  cases p with
  | literal y =>
    obtain rfl : y = x := Option.some.inj hx
    exact h y hp
  | _ => cases hx

instance (P : Literal → Prop) [DecidablePred P] (ps : List Piece) :
    Decidable (∀ x, Piece.literal x ∈ ps → P x) :=
  decidable_of_iff _ forall_literal_iff

/-- The visible characters that the pieces begin with. -/
def lead : List Piece → Text
  | .sign c :: ps => c.1 :: lead ps
  | _ => []

variable {l m : Layout} {ps qs : List Piece} {p : Char → Bool}

@[simp] theorem render_nil (l : Layout) : render l [] = [] := rfl

@[simp] theorem render_cons (l : Layout) (x : Piece) (ps : List Piece) :
    render l (x :: ps) = x.text l ++ render l ps := rfl

@[simp] theorem render_append (l : Layout) (ps qs : List Piece) :
    render l (ps ++ qs) = render l ps ++ render l qs :=
  List.flatMap_append

@[simp] theorem render_eq_nil_iff : render l ps = [] ↔ ps = [] := by
  cases ps with
  | nil => simp
  | cons x ps => simp [x.text_ne_nil l]

theorem isEmpty_render (l : Layout) (ps : List Piece) : (render l ps).isEmpty = ps.isEmpty := by
  rw [Bool.eq_iff_iff, List.isEmpty_iff, List.isEmpty_iff, render_eq_nil_iff]

theorem render_isInfix (l : Layout) (h : qs <:+: ps) : render l qs <:+: render l ps := by
  obtain ⟨a, b, rfl⟩ := h
  exact ⟨render l a, render l b, by simp⟩

/-- Without gaps every layout writes the same. -/
theorem render_congr (h : ∀ x ∈ ps, x.isGap = false) (l m : Layout) :
    render l ps = render m ps :=
  List.flatMap_congr fun x hx => Piece.text_congr (h x hx) l m

/-- A gap is white space wherever it is written. -/
theorem exists_blank_of_gap {x : Piece} (hx : x ∈ ps) (hgap : x.isGap = true) (l : Layout) :
    ∃ c ∈ render l ps, Text.isBlank c = true := by
  obtain ⟨c, r, d, s, htext, -, ⟨hblank, -⟩, -⟩ := x.exists_ends l
  refine ⟨c, List.mem_flatMap.2 ⟨x, hx, by simp [htext]⟩, ?_⟩
  rw [hblank, hgap]

/-! ## What pieces begin with -/

theorem lead_of_char? {x : Piece} (hx : x.char? = none) (ps : List Piece) :
    lead (x :: ps) = [] := by
  cases x with
  | sign c => cases hx
  | _ => rfl

/-- Visible characters at the start are those that the pieces begin with. -/
theorem takeWhile_render (hp : ∀ c, p c = true → Visible c) (l : Layout) (ps : List Piece) :
    (render l ps).takeWhile p = (lead ps).takeWhile p := by
  induction ps with
  | nil => rfl
  | cons x ps ih =>
    cases hx : x.char? with
    | none =>
      obtain ⟨c, r, d, s, htext, -, -, hvisible⟩ := x.exists_ends l
      have hc : ¬ p c = true := fun h => (hvisible hx).1 (hp c h)
      rw [lead_of_char? hx, render_cons, htext, List.cons_append, List.takeWhile_cons_of_neg hc,
        List.takeWhile_nil]
    | some c =>
      cases x with
      | sign d =>
        simp only [render_cons, Piece.text, lead, List.singleton_append, List.takeWhile_cons, ih]
      | _ => cases hx

theorem any_head?_render (hp : ∀ c, p c = true → Visible c) (l : Layout) (ps : List Piece) :
    (render l ps).head?.any p = (lead ps).head?.any p := by
  cases ps with
  | nil => rfl
  | cons x ps =>
    cases hx : x.char? with
    | none =>
      obtain ⟨c, r, d, s, htext, -, -, hvisible⟩ := x.exists_ends l
      have hc : p c = false := Bool.eq_false_iff.2 fun h => (hvisible hx).1 (hp c h)
      rw [lead_of_char? hx, render_cons, htext]
      exact hc
    | some c =>
      cases x with
      | sign d => rfl
      | _ => cases hx

theorem head?_render_beq {c : Char} (hc : Visible c) (l : Layout) (ps : List Piece) :
    ((render l ps).head? == some c) = ((lead ps).head? == some c) := by
  have hany := any_head?_render (p := (· == c)) (fun d hd => beq_iff_eq.1 hd ▸ hc) l ps
  have heq : ∀ o : Option Char, (o == some c) = o.any (· == c) := by
    rintro (_ | d) <;> rfl
  rw [heq, heq, hany]

/-- Visible characters are found in front of the pieces just if the pieces begin with them. -/
theorem isPrefixOf_render {t : Text} (ht : ∀ c ∈ t, Visible c) (l : Layout) (ps : List Piece) :
    t.isPrefixOf (render l ps) = t.isPrefixOf (lead ps) := by
  induction t generalizing ps with
  | nil => simp
  | cons c t ih =>
    obtain ⟨hc, ht⟩ := List.forall_mem_cons.1 ht
    cases ps with
    | nil => rfl
    | cons x ps =>
      cases hx : x.char? with
      | none =>
        obtain ⟨d, r, e, s, htext, -, -, hvisible⟩ := x.exists_ends l
        have hne : ¬ (c == d) = true := fun h => (hvisible hx).1 (beq_iff_eq.1 h ▸ hc)
        rw [lead_of_char? hx, render_cons, htext, List.cons_append, List.isPrefixOf_cons_cons,
          Bool.eq_false_iff.2 hne]
        rfl
      | some d =>
        cases x with
        | sign d =>
          simp only [render_cons, Piece.text, lead, List.singleton_append,
            List.isPrefixOf_cons_cons, ih ht]
        | _ => cases hx

/-- The same at the end. -/
theorem any_getLast?_render (hp : ∀ c, p c = true → Visible c) (l : Layout) (ps : List Piece) :
    (render l ps).getLast?.any p = (ps.getLast?.bind Piece.char?).any p := by
  induction ps using List.reverseRecOn with
  | nil => rfl
  | append_singleton ps x _ =>
    obtain ⟨c, r, d, s, -, htext, -, hvisible⟩ := x.exists_ends l
    have hlast : (render l (ps ++ [x])).getLast? = some d := by
      rw [render_append, render_cons, render_nil, List.append_nil, htext, ← List.append_assoc,
        List.getLast?_concat]
    rw [hlast, List.getLast?_concat]
    cases hx : x.char? with
    | none =>
      have hd : p d = false := Bool.eq_false_iff.2 fun h => (hvisible hx).2 (hp d h)
      simp [hx, hd]
    | some e =>
      cases x with
      | sign e' =>
        have hd := congrArg List.getLast? htext
        rw [List.getLast?_concat, Piece.text, List.getLast?_singleton] at hd
        rw [← hd]
        rfl
      | _ => cases hx

/-- The visible characters at the start are pieces of their own. -/
theorem render_take_lead (l : Layout) {k : Nat} (hk : k ≤ (lead ps).length) :
    render l (ps.take k) = (lead ps).take k := by
  induction ps generalizing k with
  | nil => simp [lead]
  | cons x ps ih =>
    cases k with
    | zero => rfl
    | succ k =>
      cases x with
      | sign c =>
        simp only [lead, List.length_cons, Nat.add_le_add_iff_right] at hk
        simp [lead, Piece.text, ih hk]
      | gap g => simp [lead] at hk
      | literal x => simp [lead] at hk

theorem lead_drop {k : Nat} (hk : k ≤ (lead ps).length) : lead (ps.drop k) = (lead ps).drop k := by
  induction ps generalizing k with
  | nil => simp [lead]
  | cons x ps ih =>
    cases k with
    | zero => rfl
    | succ k =>
      cases x with
      | sign c =>
        simp only [lead, List.length_cons, Nat.add_le_add_iff_right] at hk
        simpa [lead] using ih hk
      | gap g => simp [lead] at hk
      | literal x => simp [lead] at hk

theorem length_lead_pos {c : Char} (h : (lead ps).head? = some c) : 1 ≤ (lead ps).length := by
  obtain ⟨t, ht⟩ := List.head?_eq_some_iff.1 h
  simp [ht]

/-! ## Places -/

/-- The offset of a place between pieces, where `n` pieces are in front of it. -/
def offset (l : Layout) (ps : List Piece) (n : Nat) : Nat :=
  (render l (ps.take n)).length

theorem drop_offset (l : Layout) (ps : List Piece) (n : Nat) :
    (render l ps).drop (offset l ps n) = render l (ps.drop n) := by
  conv_lhs => rw [← List.take_append_drop n ps, render_append, List.take_append_drop]
  exact List.drop_left

theorem take_offset (l : Layout) (ps : List Piece) (n : Nat) :
    (render l ps).take (offset l ps n) = render l (ps.take n) := by
  conv_lhs => rw [← List.take_append_drop n ps, render_append, List.take_append_drop]
  exact List.take_left

theorem offset_add (l : Layout) (ps : List Piece) (n k : Nat) :
    offset l ps (n + k) = offset l ps n + offset l (ps.drop n) k := by
  rw [offset, List.take_add, render_append, List.length_append]
  rfl

@[simp] theorem offset_zero (l : Layout) (ps : List Piece) : offset l ps 0 = 0 := rfl

theorem offset_of_length_le (l : Layout) {n : Nat} (h : ps.length ≤ n) :
    offset l ps n = (render l ps).length := by
  rw [offset, List.take_of_length_le h]

theorem offset_take (l : Layout) {n k : Nat} (h : k ≤ n) :
    offset l (ps.take n) k = offset l ps k := by
  rw [offset, offset, List.take_take, Nat.min_eq_left h]

theorem offset_lead (l : Layout) {k : Nat} (hk : k ≤ (lead ps).length) : offset l ps k = k := by
  rw [offset, render_take_lead l hk, List.length_take, Nat.min_eq_left hk]

theorem drop_lead (l : Layout) {k : Nat} (hk : k ≤ (lead ps).length) :
    (render l ps).drop k = render l (ps.drop k) := by
  have h := drop_offset l ps k
  rwa [offset_lead l hk] at h

/-- A sign has one character. -/
theorem offset_succ {c : Char} {n : Nat} (h : (lead (ps.drop n)).head? = some c) (l : Layout) :
    offset l ps (n + 1) = offset l ps n + 1 := by
  rw [offset_add, offset_lead l (length_lead_pos h)]

theorem offset_lt (l : Layout) {n k : Nat} (hnk : n < k) (hn : n < ps.length) :
    offset l ps n < offset l ps k := by
  obtain ⟨j, rfl⟩ := Nat.exists_eq_add_of_lt hnk
  have hne : (ps.drop n).take (j + 1) ≠ [] := by
    rw [Ne, List.take_eq_nil_iff, List.drop_eq_nil_iff]
    omega
  have hpos := List.length_pos_iff.2 (mt (render_eq_nil_iff (l := l)).1 hne)
  have hadd : offset l ps (n + j + 1) =
      offset l ps n + (render l ((ps.drop n).take (j + 1))).length := offset_add l ps n (j + 1)
  omega

theorem offset_le (l : Layout) {n k : Nat} (h : n ≤ k) : offset l ps n ≤ offset l ps k := by
  obtain ⟨j, rfl⟩ := Nat.exists_eq_add_of_le h
  rw [offset_add]
  exact Nat.le_add_right _ _

/-- Places are in the order of their offsets. -/
theorem offset_lt_iff (l : Layout) {n k : Nat} (hn : n < ps.length) :
    offset l ps n < offset l ps k ↔ n < k :=
  ⟨fun h => Nat.lt_of_not_le fun hle => absurd (offset_le l hle) (Nat.not_le.2 h),
    fun h => offset_lt l h hn⟩

theorem slice_offset (l : Layout) (ps : List Piece) (n k : Nat) :
    Text.slice (render l ps) (offset l ps n) (offset l ps k) =
      render l ((ps.take k).drop n) := by
  rw [Text.slice, take_offset]
  by_cases h : n ≤ k
  · rw [← offset_take l h, drop_offset]
  · have hk : k ≤ n := by omega
    have hdrop : (ps.take k).drop n = [] := List.drop_eq_nil_of_le (by simp; omega)
    rw [hdrop, List.drop_eq_nil_of_le]
    · rfl
    · exact offset_le l hk

/-- What stands at a place. -/
theorem getElem?_offset (l : Layout) (ps : List Piece) (n : Nat) :
    (render l ps)[offset l ps n]? = (render l (ps.drop n)).head? := by
  rw [← drop_offset, List.head?_drop]

/-! ## White space -/

/-- White space at the start is gaps. -/
theorem dropWhile_render (l : Layout) (ps : List Piece) :
    (render l ps).dropWhile Text.isBlank = render l (ps.dropWhile Piece.isGap) ∧
      (render l ps).takeWhile Text.isBlank = render l (ps.takeWhile Piece.isGap) := by
  induction ps with
  | nil => exact ⟨rfl, rfl⟩
  | cons x ps ih =>
    cases hx : x.isGap with
    | true =>
      have hblank : ∀ c ∈ x.text l, Text.isBlank c = true := fun c => Piece.isBlank_of_mem_text hx
      rw [List.dropWhile_cons_of_pos hx, List.takeWhile_cons_of_pos hx, render_cons, render_cons,
        List.dropWhile_append_of_pos hblank, List.takeWhile_append_of_pos hblank, ih.1, ih.2]
      exact ⟨rfl, rfl⟩
    | false =>
      obtain ⟨c, r, d, s, htext, -, ⟨hblank, -⟩, -⟩ := x.exists_ends l
      have hc : ¬ Text.isBlank c = true := by simp [hblank, hx]
      have hx : ¬ x.isGap = true := by simp [hx]
      rw [List.dropWhile_cons_of_neg hx, List.takeWhile_cons_of_neg hx, render_cons, htext,
        List.cons_append, List.dropWhile_cons_of_neg hc, List.takeWhile_cons_of_neg hc]
      exact ⟨rfl, rfl⟩

theorem stripLeft_render (l : Layout) (ps : List Piece) :
    Text.stripLeft (render l ps) = render l (ps.dropWhile Piece.isGap) :=
  (dropWhile_render l ps).1

/-- Pieces are dropped at the end as their characters are. -/
theorem dropRightWhile_render {q : Piece → Bool}
    (hall : ∀ x, q x = true → ∀ c ∈ x.text l, p c = true)
    (hlast : ∀ x, q x = false → ∀ c, (x.text l).getLast? = some c → p c = false)
    (ps : List Piece) :
    Text.dropRightWhile p (render l ps) = render l (ps.rdropWhile q) := by
  induction ps using List.reverseRecOn with
  | nil => rfl
  | append_singleton ps x ih =>
    have hsingle : render l (ps ++ [x]) = render l ps ++ x.text l := by simp
    cases hx : q x with
    | true =>
      rw [List.rdropWhile_concat_pos _ _ _ hx, ← ih, hsingle, Text.dropRightWhile,
        List.reverse_append, List.dropWhile_append_of_pos, Text.dropRightWhile]
      intro c hc
      exact hall x hx c (List.mem_reverse.1 hc)
    | false =>
      obtain ⟨c, r, d, s, -, htext, -, -⟩ := x.exists_ends l
      have hd := hlast x hx d (by simp [htext])
      rw [List.rdropWhile_concat_neg _ _ _ (by simp [hx]), hsingle, htext, ← List.append_assoc,
        Text.dropRightWhile_concat hd]

/-- The pieces without gaps at their end. -/
def stripRight (ps : List Piece) : List Piece :=
  ps.rdropWhile Piece.isGap

/-- The pieces without gaps at either end. -/
def strip (ps : List Piece) : List Piece :=
  stripRight (ps.dropWhile Piece.isGap)

/-- The pieces without gaps at either end and without semicolons at their end. -/
def stripSemicolon (ps : List Piece) : List Piece :=
  (ps.dropWhile Piece.isGap).rdropWhile fun x => x.isGap || x.char? == some ';'

theorem stripRight_render (l : Layout) (ps : List Piece) :
    Text.stripRight (render l ps) = render l (stripRight ps) := by
  refine dropRightWhile_render (fun x hx c => Piece.isBlank_of_mem_text hx) (fun x hx c hc => ?_) ps
  obtain ⟨a, r, d, s, -, htext, ⟨-, hd⟩, -⟩ := x.exists_ends l
  rw [htext, List.getLast?_concat] at hc
  rw [← Option.some.inj hc, hd, hx]

theorem strip_render (l : Layout) (ps : List Piece) :
    Text.strip (render l ps) = render l (strip ps) := by
  rw [Text.strip, stripLeft_render, stripRight_render, strip]

theorem stripSemicolon_render (l : Layout) (ps : List Piece) :
    Text.stripSemicolon (render l ps) = render l (stripSemicolon ps) := by
  rw [Text.stripSemicolon, stripLeft_render]
  refine dropRightWhile_render (fun x hx c hc => ?_) (fun x hx c hc => ?_) _
  · rw [Bool.or_eq_true] at hx ⊢
    refine hx.imp (fun hx => Piece.isBlank_of_mem_text hx hc) fun hx => ?_
    cases x with
    | sign d =>
      rw [List.mem_singleton.1 hc]
      simpa [Piece.char?] using hx
    | _ => cases hx
  · rw [Bool.or_eq_false_iff] at hx ⊢
    obtain ⟨a, r, d, s, -, htext, ⟨-, hd⟩, hvisible⟩ := x.exists_ends l
    have hlast := hc
    rw [htext, List.getLast?_concat] at hlast
    obtain rfl : d = c := Option.some.inj hlast
    refine ⟨by rw [hd, hx.1], ?_⟩
    cases x with
    | sign e =>
      rw [Piece.text, List.getLast?_singleton] at hc
      rw [← Option.some.inj hc]
      simpa [Piece.char?] using hx.2
    | _ =>
      rw [beq_eq_false_iff_ne]
      rintro rfl
      exact (hvisible rfl).2 (by decide)

theorem isBlankText_render (l : Layout) (ps : List Piece) :
    Text.isBlankText (render l ps) = ps.all Piece.isGap := by
  have hdrop := (dropWhile_render l ps).1
  have hempty : ∀ {α : Type} (f : α → Bool) (t : List α), t.all f = (t.dropWhile f).isEmpty := by
    intro α f t
    rw [Bool.eq_iff_iff, List.isEmpty_iff, List.dropWhile_eq_nil_iff, List.all_eq_true]
  rw [Text.isBlankText, hempty, hdrop, isEmpty_render, hempty]

/-! ## Collapsing -/

theorem wordsFrom_append_congr {t u : Text}
    (h : ∀ current, Text.wordsFrom current t = Text.wordsFrom current u) (front : Text) :
    ∀ current, Text.wordsFrom current (front ++ t) = Text.wordsFrom current (front ++ u) := by
  induction front with
  | nil => exact h
  | cons c front ih =>
    intro current
    simp only [List.cons_append, Text.wordsFrom, ih]

theorem wordsFrom_gap (g : Gap) (current t : Text) :
    Text.wordsFrom current (g.1 ++ t) =
      if current.isEmpty then Text.wordsFrom [] t else current.reverse :: Text.wordsFrom [] t := by
  have hblanks : ∀ {u : Text}, (∀ c ∈ u, Text.isBlank c = true) →
      Text.wordsFrom [] (u ++ t) = Text.wordsFrom [] t := by
    intro u hu
    induction u with
    | nil => rfl
    | cons c u ih =>
      obtain ⟨hc, hu⟩ := List.forall_mem_cons.1 hu
      simp [Text.wordsFrom, hc, ih hu]
  obtain ⟨g, hne, hg⟩ := g
  obtain ⟨c, r, rfl⟩ := List.exists_cons_of_ne_nil hne
  obtain ⟨hc, hr⟩ := List.forall_mem_cons.1 hg
  simp only [List.cons_append, Text.wordsFrom, hc, if_true, hblanks hr]

/-- **The layout is lost when white space is collapsed.** -/
theorem collapse_render (l m : Layout) (ps : List Piece) :
    Text.collapse (render l ps) = Text.collapse (render m ps) := by
  have hwords : ∀ current,
      Text.wordsFrom current (render l ps) = Text.wordsFrom current (render m ps) := by
    induction ps with
    | nil => exact fun _ => rfl
    | cons x ps ih =>
      intro current
      cases x with
      | gap g => simp only [render_cons, Piece.text, wordsFrom_gap, ih]
      | _ => exact wordsFrom_append_congr ih _ current
  rw [Text.collapse, Text.words, hwords, ← Text.words, ← Text.collapse]

end ModuleSurface.Spacing
