import ModuleSurface.Proofs.Lexing.Lexemes
import ModuleSurface.Proofs.Lexing.Relaid

/-!
# Pieces of code with comments between them

Code as it stands in a source is pieces with block comments anywhere between them (`Fragment`).
Without the comments the pieces are left as they are written (`stripComments_source`).  Collapsing
the white space first leaves them in the layout with single spaces, if it is the same in the
literals (`stripComments_collapse`).
-/

namespace ModuleSurface.Spacing

open ModuleSurface.Lexing
open ModuleSurface.Lexing.Cursor
open ModuleSurface.Text (Squeezed)

/-! ## Fragments -/

/-- A piece of code, or a comment between pieces. -/
inductive Fragment where
  /-- A piece. -/
  | piece (x : Piece)
  /-- A block comment. -/
  | comment (body : CommentBody)

namespace Fragment

/-- The fragment as written. -/
def text : Fragment → Text
  | piece x => x.text id
  | comment body => (Lexeme.comment body).text

/-- The piece, if the fragment is one. -/
def piece? : Fragment → Option Piece
  | piece x => some x
  | comment _ => none

/-- Is the fragment white space? -/
def isGap : Fragment → Bool
  | piece x => x.isGap
  | comment _ => false

/-- The fragment with one space for every run of white space outside literals. -/
def collapsed : Fragment → Fragment
  | piece (.gap g) => piece (.gap (single g))
  | piece x => piece x
  | comment body => comment body.collapsed

/-- What is no white space begins with none. -/
theorem exists_visible {x : Fragment} (hx : x.isGap = false) :
    ∃ c t, x.text = c :: t ∧ Text.isBlank c = false := by
  cases x with
  | comment body => exact ⟨'/', _, rfl, by decide⟩
  | piece x =>
    obtain ⟨c, t, -, -, htext, -, ⟨hblank, -⟩, -⟩ := x.exists_ends id
    exact ⟨c, t, htext, hblank.trans hx⟩

end Fragment

/-- The fragments one behind the other. -/
def source (fs : List Fragment) : Text :=
  fs.flatMap Fragment.text

/-- The pieces among the fragments. -/
def pieces (fs : List Fragment) : List Piece :=
  fs.filterMap Fragment.piece?

variable {fs : List Fragment}

@[simp] theorem source_nil : source [] = [] := rfl

@[simp] theorem source_cons (x : Fragment) (fs : List Fragment) :
    source (x :: fs) = x.text ++ source fs := rfl

/-! ## Without comments -/

/-- In code the comments are not kept and the pieces are. -/
theorem exists_code_source (fs : List Fragment) {s : State} (hs : s.context = .normal)
    (past : Text) (position : Nat) :
    ∃ s' past', s'.context = .normal ∧
      (Cursor.pass ⟨s, past, source fs, position⟩).code =
        render id (pieces fs) ++
          (Cursor.pass ⟨s', past', [], position + (source fs).length⟩).code := by
  induction fs generalizing s past position with
  | nil => exact ⟨s, past, hs, rfl⟩
  | cons x fs ih =>
    have hcode : s.inCode = true := by rw [State.inCode, hs]; rfl
    cases x with
    | comment body =>
      obtain ⟨s', past', hs', hrest⟩ := ih hs ((Lexeme.comment body).text.reverse ++ past)
        (position + (Lexeme.comment body).text.length)
      refine ⟨s', past', hs', ?_⟩
      have hskip := (exists_reads_comment hcode body past (source fs) position).2
      rw [source_cons, Fragment.text, hskip, hrest, List.length_append, ← Nat.add_assoc]
      rfl
    | piece x =>
      obtain ⟨qs, s₁, hrun, hs₁, hqs⟩ := exists_run id [x] hs past (source fs) position
      rw [render_cons, render_nil, List.append_nil] at hrun
      obtain ⟨read, hread, hkept⟩ := hrun.code_eq hqs (by rw [hs₁]; rfl)
      obtain ⟨s', past', hs', hrest⟩ := ih hs₁ ((x.text id).reverse ++ past)
        (position + (x.text id).length)
      refine ⟨s', past', hs', ?_⟩
      rw [source_cons, Fragment.text, hkept, ← List.append_cancel_right hread, hrest,
        List.length_append, ← Nat.add_assoc, ← List.append_assoc]
      rfl

/-- **Without the comments the pieces are left.** -/
theorem stripComments_source (fs : List Fragment) :
    stripComments (source fs) = render id (pieces fs) := by
  obtain ⟨s, past, -, hcode⟩ := exists_code_source fs (s := {}) rfl [] 0
  rw [stripComments_eq_code]
  refine hcode.trans ?_
  simp [Cursor.pass, passFrom, Pass.code]

/-! ## Collapsing -/

/-- What collapsing takes for the layout only: white space that stands between other fragments in
one run, and single spaces in the literals. -/
structure Neat (fs : List Fragment) : Prop where
  /-- White space stands in one run. -/
  apart : fs.IsChain fun x y => x.isGap = true → y.isGap = false
  /-- There is none in front. -/
  first : ∀ x ∈ fs.head?, x.isGap = false
  /-- There is none behind. -/
  last : ∀ x ∈ fs.getLast?, x.isGap = false
  /-- There are single spaces in the literals. -/
  literals : ∀ x, .literal x ∈ pieces fs → Squeezed x.text

instance (fs : List Fragment) : Decidable (Neat fs) :=
  decidable_of_iff ((fs.IsChain fun x y => x.isGap = true → y.isGap = false) ∧
      (∀ x ∈ fs.head?, x.isGap = false) ∧ (∀ x ∈ fs.getLast?, x.isGap = false) ∧
        ∀ x, .literal x ∈ pieces fs → Squeezed x.text)
    ⟨fun h => ⟨h.1, h.2.1, h.2.2.1, h.2.2.2⟩, fun h => ⟨h.apart, h.first, h.last, h.literals⟩⟩

theorem runs_gap (g : Gap) : Text.runs false g.1 = [' '] := by
  have htrue : ∀ t : Text, (∀ c ∈ t, Text.isBlank c = true) → Text.runs true t = [] := by
    intro t ht
    induction t with
    | nil => rfl
    | cons c t ih =>
      obtain ⟨hc, ht⟩ := List.forall_mem_cons.1 ht
      simp [Text.runs, hc, ih ht]
  obtain ⟨g, hne, hg⟩ := g
  obtain ⟨c, t, rfl⟩ := List.exists_cons_of_ne_nil hne
  obtain ⟨hc, ht⟩ := List.forall_mem_cons.1 hg
  simp [Text.runs, hc, htrue t ht]

theorem squeeze_literal {x : Literal} (h : Squeezed x.text) (inGap : Bool) (more : Text) :
    Text.squeeze inGap (x.text ++ more) = x.text ++ Text.squeeze false more := by
  have hblank := (Piece.not_visible_char x.delimiter).1
  have hbody : Squeezed x.body := h.of_isInfix ⟨[x.delimiter.char], [x.delimiter.char], rfl⟩
  have htext : x.text ++ more =
      (x.delimiter.char :: x.body) ++ x.delimiter.char :: more := x.text_append more
  rw [htext, Text.squeeze_append hblank, Text.runs, if_neg (by simp [hblank]), hbody.runs_eq]
  simp [Literal.text]

/-- **Collapsing writes one space for every gap.** -/
theorem squeeze_source (happart : fs.IsChain fun x y => x.isGap = true → y.isGap = false)
    (hlast : ∀ x ∈ fs.getLast?, x.isGap = false)
    (hliterals : ∀ x, .literal x ∈ pieces fs → Squeezed x.text) {inGap : Bool}
    (hfirst : ∀ x ∈ fs.head?, x.isGap = true → inGap = false) :
    Text.squeeze inGap (source fs) = source (fs.map Fragment.collapsed) := by
  induction fs generalizing inGap with
  | nil => rfl
  | cons x fs ih =>
    obtain ⟨hnext, happart⟩ := List.isChain_cons.1 happart
    have hbehind : ∀ y ∈ fs.getLast?, y.isGap = false := by
      intro y hy
      refine hlast y ?_
      rw [List.getLast?_cons, Option.mem_def.1 hy]
      rfl
    have hothers : ∀ y, .literal y ∈ pieces fs → Squeezed y.text := fun y hy =>
      hliterals y (((List.sublist_cons_self x fs).filterMap _).subset hy)
    have hinside : Text.squeeze false (source fs) = source (fs.map Fragment.collapsed) :=
      ih happart hbehind hothers fun _ _ _ => rfl
    rw [List.map_cons, source_cons, source_cons]
    cases x with
    | comment body =>
      rw [← hinside]
      exact squeeze_comment body inGap _
    | piece x =>
      cases x with
      | sign c =>
        rw [← hinside]
        simp [Fragment.text, Fragment.collapsed, Piece.text, Text.squeeze, c.2.1]
      | literal x =>
        rw [← hinside]
        exact squeeze_literal (hliterals x List.mem_cons_self) inGap _
      | gap g =>
        obtain rfl : inGap = false := hfirst _ rfl rfl
        cases fs with
        | nil => cases hlast _ rfl
        | cons y fs =>
          obtain ⟨d, t, htext, hd⟩ := Fragment.exists_visible (hnext y rfl rfl)
          have hcons : source (y :: fs) = d :: (t ++ source fs) := by
            rw [source_cons, htext]
            rfl
          rw [hcons] at hinside ⊢
          rw [← hinside, Fragment.text, Piece.text, id, Text.squeeze_append hd, runs_gap,
            Text.squeeze, if_neg (by simp [hd]), Fragment.collapsed, Fragment.text, Piece.text, id]
          rfl

theorem pieces_collapsed (fs : List Fragment) :
    render id (pieces (fs.map Fragment.collapsed)) = render single (pieces fs) := by
  induction fs with
  | nil => rfl
  | cons x fs ih =>
    cases x with
    | comment body => exact ih
    | piece x =>
      cases x with
      | sign c => exact congrArg ([c.1] ++ ·) ih
      | gap g => exact congrArg ([' '] ++ ·) ih
      | literal x => exact congrArg (x.text ++ ·) ih

/-- **Collapsed and without the comments, the pieces are left in the layout with single spaces.** -/
theorem stripComments_collapse (h : Neat fs) :
    stripComments (Text.collapse (source fs)) = render single (pieces fs) := by
  have hfirst : ∀ x ∈ fs.head?, x.isGap = true → true = false := by
    intro x hx hgap
    rw [h.first x hx] at hgap
    cases hgap
  rw [Text.collapse_eq_squeeze, squeeze_source h.apart h.last h.literals hfirst,
    stripComments_source, pieces_collapsed]

end ModuleSurface.Spacing
