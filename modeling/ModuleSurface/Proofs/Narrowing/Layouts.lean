import Mathlib.Data.List.Infix
import ModuleSurface.Narrowing.Infer
import ModuleSurface.Proofs.Callable.Relaid
import ModuleSurface.Proofs.Narrowing.Literal
import ModuleSurface.Proofs.Text.Tokens

/-!
# Values in two layouts

What the rules of the inference look for in a value does not depend on its layout: whether it is a
literal, an identifier, a function or a call, and where a type is asserted of it.

* `ofLiteral?_render`, `isIdentifier_render` — no literal but one as a whole has white space in it;
* `exists_assertion?` — the value and the type of an assertion;
* `readAlike_parse?` — methods of object literals;
* `callArguments?_render` — the arguments of a call.

Two things are seen in one layout only, and `Regular` leaves them out: the keyword `function` with a
newline behind it is taken for a name, and an escaped quote in a string is taken for its end where a
method's key is read.
-/

namespace ModuleSurface.Lexing.Literal

open ModuleSurface.Lexing.Cursor

/-- A text that begins with a literal is one literal just if nothing follows. -/
theorem isSingle_append (x : Literal) (more : Text) :
    Narrowing.Literal.isSingle (x.text ++ more) = more.isEmpty := by
  obtain ⟨d, t, ht⟩ := x
  obtain ⟨ps, hrun, hps⟩ := Delimiter.run_body (s := State.enter {} d.context 0) rfl ht
    [d.char] more 1
  have hinside := Narrowing.Literal.find?_moments_run hrun
    (fun r hr => by rw [hps r hr]; exact d.context_ne_normal) d.context_ne_normal
  have hfirst := Next.moments_eq (Delimiter.step_open (s := {}) rfl d [] (t ++ d.char :: more) 0)
  have hlast :=
    Next.moments_eq (Delimiter.step_close {} d 0 (t.reverse ++ [d.char]) more (1 + t.length))
  have hpass : Lexing.pass (d.char :: (t ++ d.char :: more)) =
      Cursor.pass ⟨{}, [], d.char :: (t ++ d.char :: more), 0⟩ := rfl
  have hfind : (Lexing.pass (d.char :: (t ++ d.char :: more))).moments.find?
      (·.after.context == .normal) =
        some ⟨1 + t.length, 1 + t.length + 1, [d.char], State.enter {} d.context 0, {}⟩ := by
    rw [hpass, hfirst]
    refine (List.find?_cons_of_neg (by simpa [State.enter] using d.context_ne_normal)).trans ?_
    refine hinside.trans ?_
    rw [hlast]
    rfl
  rw [text_append, Narrowing.Literal.isSingle, hfind]
  cases more with
  | nil => simp [Nat.add_comm]
  | cons c more =>
    simp only [List.isEmpty_cons, beq_eq_false_iff_ne, List.length_cons, List.length_append]
    omega

end ModuleSurface.Lexing.Literal

namespace ModuleSurface.Spacing

open ModuleSurface.Lexing
open ModuleSurface.Callable
open ModuleSurface.Narrowing

variable {l m : Layout} {ps qs : List Piece}

/-! ## Texts without white space -/

/-- Neither end of the text is white space. -/
theorem Tight.isBlank_getLast (h : Tight ps) (l : Layout) :
    ∀ c ∈ (render l ps).getLast?, Text.isBlank c = false := by
  induction ps using List.reverseRecOn with
  | nil => simp
  | append_singleton ps x _ =>
    intro c hc
    obtain ⟨a, r, d, s, -, htext, ⟨-, hd⟩, -⟩ := x.exists_ends l
    have hx := h.2 x List.getLast?_concat
    rw [render_append, render_cons, render_nil, List.append_nil, htext, ← List.append_assoc,
      List.getLast?_concat] at hc
    rw [← Option.some.inj hc, hd, hx]

/-- A question that is answered with no for texts with white space in front of their last character
has the same answer in every layout. -/
theorem congr_of_blank {α : Type} {f : Text → α} {no : α}
    (hf : ∀ t, (∀ c ∈ t.getLast?, Text.isBlank c = false) → (∃ c ∈ t, Text.isBlank c = true) →
      f t = no) (hps : Tight ps) (l m : Layout) : f (render l ps) = f (render m ps) := by
  by_cases hgap : ∀ x ∈ ps, x.isGap = false
  · rw [render_congr hgap l m]
  · simp only [not_forall, Bool.not_eq_false] at hgap
    obtain ⟨x, hx, hgap⟩ := hgap
    rw [hf _ (hps.isBlank_getLast l) (exists_blank_of_gap hx hgap l),
      hf _ (hps.isBlank_getLast m) (exists_blank_of_gap hx hgap m)]

theorem getLast?_ne_newline {t : Text} (h : ∀ c ∈ t.getLast?, Text.isBlank c = false) :
    t.getLast? ≠ some '\n' :=
  fun hlast => absurd (h _ hlast) (by decide)

theorem isIdentifier_of_blank {t : Text} (hlast : ∀ c ∈ t.getLast?, Text.isBlank c = false)
    (hblank : ∃ c ∈ t, Text.isBlank c = true) : Text.isIdentifier t = false := by
  obtain ⟨b, hb, hblank⟩ := hblank
  have hident := Text.isIdentChar_of_isBlank hblank
  cases t with
  | nil => cases hb
  | cons c t =>
    rw [Text.isIdentifier, Bool.eq_false_iff]
    intro h
    obtain ⟨hstart, hall⟩ := Bool.and_eq_true_iff.1 h
    rcases List.mem_cons.1 hb with rfl | hb
    · rw [Text.isIdentChar_of_isIdentStart hstart] at hident
      cases hident
    · have hnewline : t.getLast? ≠ some '\n' := by
        intro hlast'
        refine getLast?_ne_newline hlast ?_
        rw [List.getLast?_cons, hlast']
        rfl
      simp only [Text.allUpToNewline, beq_false_of_ne hnewline, Bool.false_and, Bool.or_false,
        List.all_eq_true] at hall
      rw [hall b hb] at hident
      cases hident

/-- **An identifier is written alike in every layout.** -/
theorem isIdentifier_render (hps : Tight ps) (l m : Layout) :
    Text.isIdentifier (render l ps) = Text.isIdentifier (render m ps) :=
  congr_of_blank (fun _ => isIdentifier_of_blank) hps l m

theorem isBlank_of_isNumberChar {c : Char} (h : Literal.isNumberChar c = true) :
    Text.isBlank c = false := by
  have hall : ∀ d ∈ "_.+-aAbBcCdDeEfFxXoO".toList, Text.isBlank d = false := by decide
  rw [Literal.isNumberChar, Bool.or_eq_true] at h
  rcases h with h | h
  · exact Text.isBlank_of_isIdentChar (Literal.isIdentChar_of_isDecimal h)
  · exact hall c (List.contains_iff_mem.1 h)

theorem isNumber_of_blank {t : Text} (hlast : ∀ c ∈ t.getLast?, Text.isBlank c = false)
    (hblank : ∃ c ∈ t, Text.isBlank c = true) :
    Literal.isNumber t = false ∧ Literal.isBigInt t = false := by
  obtain ⟨b, hb, hblank⟩ := hblank
  have hnewline := getLast?_ne_newline hlast
  refine ⟨Bool.eq_false_iff.2 fun h => ?_, Bool.eq_false_iff.2 fun h => ?_⟩
  · rw [isBlank_of_isNumberChar ((Literal.numeral_of_isNumber h hnewline).chars b hb)] at hblank
    cases hblank
  · have hdrop : Literal.dropNewline t = t := by simp [Literal.dropNewline, hnewline]
    rw [Literal.isBigInt, hdrop, Bool.and_eq_true, beq_iff_eq] at h
    obtain ⟨hn, hdigits⟩ := h
    have hdigits := (Literal.numeral_of_isDigits hdigits).chars
    have hmem : b = '-' ∨ b ∈ Literal.dropMinus t := by
      unfold Literal.dropMinus
      split
      · exact List.mem_cons.1 hb
      · exact .inr hb
    rcases hmem with rfl | hmem
    · exact absurd hblank (by decide)
    · obtain ⟨u, hu⟩ := List.getLast?_eq_some_iff.1 hn
      rw [hu, Text.dropLast, List.dropLast_concat] at hdigits
      rw [hu, List.mem_append, List.mem_singleton] at hmem
      rcases hmem with hmem | rfl
      · rw [isBlank_of_isNumberChar (hdigits b hmem)] at hblank
        cases hblank
      · exact absurd hblank (by decide)

/-- Only a literal begins with a quote, and with white space behind it it is no single one. -/
theorem isSingle_of_gap {x : Piece} (hx : x ∈ ps) (hgap : x.isGap = true) (l : Layout) :
    ((render l ps).head?.any (fun c => c == '\'' || c == '"') &&
        Literal.isSingle (render l ps)) = false ∧
      ((render l ps).head? == some '\x60' && Literal.isSingle (render l ps)) = false := by
  cases ps with
  | nil => cases hx
  | cons y ps =>
    by_cases hy : ∃ z, y = .literal z
    · obtain ⟨z, rfl⟩ := hy
      have hne : ps ≠ [] := by
        rintro rfl
        rw [List.mem_singleton.1 hx] at hgap
        cases hgap
      have hsingle : Literal.isSingle (render l (.literal z :: ps)) = false := by
        rw [render_cons, Piece.text, z.isSingle_append, isEmpty_render]
        exact List.isEmpty_eq_false_iff.2 hne
      rw [hsingle, Bool.and_false, Bool.and_false]
      exact ⟨rfl, rfl⟩
    · obtain ⟨c, r, d, s, htext, -, -, -⟩ := y.exists_ends l
      have hquiet : Quiet c := Piece.quiet_of_mem_text (p := y) (l := l)
        (fun z hz => hy ⟨z, hz⟩) (by simp [htext])
      simp only [Quiet, List.mem_cons, List.not_mem_nil, or_false, not_or] at hquiet
      simp [htext, hquiet]

/-- **A literal is found in every layout or in none**: it is the whole value, and has no gaps. -/
theorem ofLiteral?_render (hps : Tight ps) (l m : Layout) (isConst : Bool) :
    ofLiteral? (render l ps) isConst = ofLiteral? (render m ps) isConst := by
  by_cases hgap : ∀ x ∈ ps, x.isGap = false
  · rw [render_congr hgap l m]
  · simp only [not_forall, Bool.not_eq_false] at hgap
    obtain ⟨x, hx, hgap⟩ := hgap
    have hnone : ∀ l : Layout, ofLiteral? (render l ps) isConst = none := by
      intro l
      have hblank := exists_blank_of_gap hx hgap l
      obtain ⟨hnumber, hbigInt⟩ := isNumber_of_blank (hps.isBlank_getLast l) hblank
      obtain ⟨hstring, htemplate⟩ := isSingle_of_gap hx hgap l
      have hwords : ∀ word ∈ ["true", "false", "null", "undefined"],
          render l ps ≠ word.toList := by
        have hall : ∀ word ∈ ["true", "false", "null", "undefined"], ∀ c ∈ word.toList,
            Text.isBlank c = false := by decide
        intro word hword heq
        obtain ⟨c, hc, hblank⟩ := hblank
        rw [hall word hword c (heq ▸ hc)] at hblank
        cases hblank
      simp only [ofLiteral?, hstring, htemplate, hnumber, hbigInt, hwords "true" (by decide),
        hwords "false" (by decide), hwords "null" (by decide), hwords "undefined" (by decide),
        Bool.false_eq_true, or_self, if_false]
    rw [hnone l, hnone m]

/-! ## Methods -/

/-- Does the text begin with what follows the key of a method? -/
def opensMethod (t : Text) : Bool :=
  (Text.stripLeft t).head?.any fun c => c == '<' || c == '('

/-- No quote inside the literal is taken for the end of a method's key. -/
def Unkeyed (x : Literal) : Prop :=
  ∀ r ∈ x.body.tails, r.head? = some x.delimiter.char →
    opensMethod (r.tail ++ [x.delimiter.char]) = false

instance (x : Literal) : Decidable (Unkeyed x) :=
  inferInstanceAs (Decidable (∀ r ∈ x.body.tails, r.head? = some x.delimiter.char →
    opensMethod (r.tail ++ [x.delimiter.char]) = false))

/-- The method whose key is followed by the pieces, in a layout. -/
def methodAt (l : Layout) (m : ObjectMethod × List Piece) : ObjectMethod :=
  { m.1 with rest := render l m.2 }

/-- The same method is read in every layout, or none is. -/
def ReadAlike (f : Layout → Option ObjectMethod) : Prop :=
  ∃ o : Option (ObjectMethod × List Piece), ∀ l, f l = o.map (methodAt l)

theorem ReadAlike.or {f g : Layout → Option ObjectMethod} (hf : ReadAlike f) (hg : ReadAlike g) :
    ReadAlike fun l => (f l).or (g l) := by
  obtain ⟨o, ho⟩ := hf
  obtain ⟨p, hp⟩ := hg
  refine ⟨o.or p, fun l => ?_⟩
  show (f l).or (g l) = _
  rw [ho, hp]
  cases o <;> rfl

/-- What is read behind a word. -/
theorem ReadAlike.behind {word : Text} (hword : ∀ c ∈ word, Visible c) (hne : word ≠ [])
    {f : Text → Option ObjectMethod} (hf : ∀ qs, qs <:+: ps → ReadAlike fun l => f (render l qs)) :
    ReadAlike fun l => (afterWord? word (render l ps)).bind f := by
  simp only [afterWord?_render hword]
  cases hrest : restAfter? word ps with
  | none => exact ⟨none, fun l => rfl⟩
  | some qs => exact hf qs (restAfter?_eq_some hne hrest).1

theorem dropWhile_lead {p : Char → Bool} (hp : ∀ c, p c = true → Visible c) (l : Layout)
    (ps : List Piece) :
    (render l ps).dropWhile p = render l (ps.drop ((lead ps).takeWhile p).length) := by
  have hle := (List.takeWhile_prefix p (l := lead ps)).length_le
  rw [← Text.drop_length_takeWhile, takeWhile_render hp, drop_lead l hle]

theorem any_opens_render (l : Layout) (ps : List Piece) :
    opensMethod (render l ps) =
      (lead (ps.dropWhile Piece.isGap)).head?.any fun c => c == '<' || c == '(' := by
  rw [opensMethod, stripLeft_render, any_head?_render]
  intro c hc
  rw [Bool.or_eq_true, beq_iff_eq, beq_iff_eq] at hc
  rcases hc with rfl | rfl <;> decide

/-- The key in front of pieces. -/
theorem readAlike_of_key? {key : Text} {rest : List Piece}
    (h : ∀ l, ObjectMethod.key? (render l ps) = some (key, render l rest)) (isAsync : Bool)
    (accessor : Option Accessor) :
    ReadAlike fun l => ObjectMethod.keyed? isAsync accessor (render l ps) := by
  have hopens := fun l => any_opens_render l rest
  simp only [opensMethod] at hopens
  simp only [ObjectMethod.keyed?, h, hopens]
  split
  · exact ⟨some (⟨isAsync, accessor, key, []⟩, rest), fun l => rfl⟩
  · exact ⟨none, fun l => rfl⟩

theorem readAlike_of_none (h : ∀ l, ObjectMethod.key? (render l ps) = none) (isAsync : Bool)
    (accessor : Option Accessor) :
    ReadAlike fun l => ObjectMethod.keyed? isAsync accessor (render l ps) := by
  simp only [ObjectMethod.keyed?, h]
  exact ⟨none, fun l => rfl⟩

theorem isIdentStart_of_not_visible {c : Char} (h : ¬ Visible c) :
    Text.isIdentStart c = false ∧ Text.isDecimal c = false :=
  ⟨Bool.eq_false_iff.2 fun hc => h (visible_of_isIdentChar (Text.isIdentChar_of_isIdentStart hc)),
    Bool.eq_false_iff.2 fun hc => h (visible_of_isIdentChar (Literal.isIdentChar_of_isDecimal hc))⟩

/-- What opens no method in front of a quote opens none with more text behind the quote. -/
theorem opensMethod_quote {b : Text} {q : Quote} (h : opensMethod (b ++ [q.char]) = false)
    (more : Text) : opensMethod (b ++ q.char :: more) = false := by
  have hblank : Text.isBlank q.char = false := by cases q <;> decide
  have hne : Text.stripLeft (b ++ [q.char]) ≠ [] := by
    intro hnil
    rw [Text.stripLeft, List.dropWhile_eq_nil_iff] at hnil
    rw [hnil q.char (by simp)] at hblank
    cases hblank
  have happend : Text.stripLeft (b ++ q.char :: more) =
      Text.stripLeft (b ++ [q.char]) ++ more := by
    rw [Text.stripLeft, Text.stripLeft] at *
    rw [← List.singleton_append, ← List.append_assoc, List.dropWhile_append]
    simp [hne]
  rw [opensMethod, happend, List.head?_append_of_ne_nil _ hne]
  exact h

/-- A string as a key ends with its first quote.  If that is an escaped one, no method follows. -/
theorem readAlike_string {x : Literal} (hx : Unkeyed x) {q : Quote} (hq : x.delimiter = .quote q)
    (isAsync : Bool) (accessor : Option Accessor) (back : List Piece) :
    ReadAlike fun l => ObjectMethod.keyed? isAsync accessor (render l (.literal x :: back)) := by
  have hquote : Text.isIdentStart q.char = false ∧ (q.char == '\'' || q.char == '"') = true := by
    cases q <;> decide
  have htext : ∀ l : Layout, render l (.literal x :: back) =
      q.char :: (x.body ++ q.char :: render l back) := by
    intro l
    rw [render_cons, Piece.text, x.text_append, hq]
    rfl
  have hkey : ∀ {t quote rest}, t.dropWhile (· != q.char) = quote :: rest →
      ObjectMethod.key? (q.char :: t) =
        some (q.char :: t.takeWhile (· != q.char) ++ [quote], rest) := by
    intro t quote rest hrest
    refine (if_neg (by simp [hquote.1])).trans ((if_pos hquote.2).trans ?_)
    rw [hrest]
  have hsplit := List.takeWhile_append_dropWhile (p := (· != q.char)) (l := x.body)
  have hpass : ∀ c ∈ x.body.takeWhile (· != q.char), (c != q.char) = true := by
    intro c hc
    have hc := List.mem_takeWhile_imp hc
    exact hc
  cases hdrop : x.body.dropWhile (· != q.char) with
  | nil =>
    rw [hdrop, List.append_nil] at hsplit
    have hread : ∀ l : Layout, ObjectMethod.key? (render l (.literal x :: back)) =
        some (q.char :: x.body ++ [q.char], render l back) := by
      intro l
      have hrest : (x.body ++ q.char :: render l back).dropWhile (· != q.char) =
          q.char :: render l back := by
        rw [List.dropWhile_append_of_pos (hsplit ▸ hpass)]
        simp
      rw [htext, hkey hrest, List.takeWhile_append_of_pos (hsplit ▸ hpass)]
      simp
    exact readAlike_of_key? hread _ _
  | cons c b =>
    have hc : c = q.char := by
      have hhead := List.head?_dropWhile_not (· != q.char) x.body
      rw [hdrop] at hhead
      simpa using hhead
    subst hc
    rw [hdrop] at hsplit
    -- what follows the quote inside the string opens no method
    have hclosed : opensMethod (b ++ [q.char]) = false := by
      have hunkeyed := hx (q.char :: b) ((List.mem_tails _ _).2 ⟨_, hsplit⟩) (by rw [hq]; rfl)
      rwa [hq] at hunkeyed
    refine ⟨none, fun l => ?_⟩
    have hbody : x.body ++ q.char :: render l back =
        x.body.takeWhile (· != q.char) ++ q.char :: (b ++ q.char :: render l back) := by
      conv_lhs => rw [← hsplit]
      simp
    have hrest := opensMethod_quote hclosed (render l back)
    rw [opensMethod] at hrest
    show ObjectMethod.keyed? isAsync accessor (render l (.literal x :: back)) = none
    have hquoted : (x.body ++ q.char :: render l back).dropWhile (· != q.char) =
        q.char :: (b ++ q.char :: render l back) := by
      rw [hbody, List.dropWhile_append_of_pos hpass, List.dropWhile_cons_of_neg (by simp)]
    rw [htext, ObjectMethod.keyed?, hkey hquoted]
    simp [hrest]

/-- **The key of a method is read alike.** -/
theorem readAlike_keyed? (hps : ∀ x, Piece.literal x ∈ ps → Unkeyed x) (isAsync : Bool)
    (accessor : Option Accessor) :
    ReadAlike fun l => ObjectMethod.keyed? isAsync accessor (render l ps) := by
  have hident : ∀ c, Text.isIdentChar c = true → Visible c := fun _ => visible_of_isIdentChar
  have hdecimal : ∀ c, Text.isDecimal c = true → Visible c := fun _ hc =>
    visible_of_isIdentChar (Literal.isIdentChar_of_isDecimal hc)
  cases ps with
  | nil => exact readAlike_of_none (fun l => rfl) _ _
  | cons x back =>
    cases x with
    | sign c =>
      have hc := c.2.2
      simp only [Quiet, List.mem_cons, List.not_mem_nil, or_false, not_or] at hc
      have hkey : ∀ l : Layout, ObjectMethod.key? (render l (.sign c :: back)) =
          if Text.isIdentStart c.1 then
            some (c.1 :: (lead back).takeWhile Text.isIdentChar,
              render l (back.drop ((lead back).takeWhile Text.isIdentChar).length))
          else if Text.isDecimal c.1 then
            some (c.1 :: (lead back).takeWhile Text.isDecimal,
              render l (back.drop ((lead back).takeWhile Text.isDecimal).length))
          else none := by
        intro l
        rw [render_cons, Piece.text, List.singleton_append, ObjectMethod.key?]
        simp only [takeWhile_render hident, dropWhile_lead hident, takeWhile_render hdecimal,
          dropWhile_lead hdecimal, beq_false_of_ne hc.2.1, beq_false_of_ne hc.2.2.1, Bool.or_self,
          Bool.false_eq_true, if_false]
      split at hkey
      · exact readAlike_of_key? hkey _ _
      · split at hkey
        · exact readAlike_of_key? hkey _ _
        · exact readAlike_of_none hkey _ _
    | gap g =>
      refine readAlike_of_none (fun l => ?_) _ _
      obtain ⟨c, r, d, s, htext, -, -, hvisible⟩ := (Piece.gap g).exists_ends l
      obtain ⟨hstart, hdecimal⟩ := isIdentStart_of_not_visible (hvisible rfl).1
      have hquiet : Quiet c := Piece.quiet_of_mem_text (p := .gap g) (l := l) (by simp)
        (by simp [htext])
      simp only [Quiet, List.mem_cons, List.not_mem_nil, or_false, not_or] at hquiet
      rw [render_cons, htext, List.cons_append, ObjectMethod.key?]
      simp [hstart, hdecimal, hquiet]
    | literal x =>
      cases hd : x.delimiter with
      | quote q => exact readAlike_string (hps x List.mem_cons_self) hd _ _ _
      | backtick =>
        refine readAlike_of_none (fun l => ?_) _ _
        rw [render_cons, Piece.text, x.text_append, hd, ObjectMethod.key?]
        rfl

/-- Every literal among some pieces is one of all the pieces. -/
theorem unkeyed_of_isInfix (hps : ∀ x, Piece.literal x ∈ ps → Unkeyed x) (h : qs <:+: ps) :
    ∀ x, Piece.literal x ∈ qs → Unkeyed x :=
  fun x hx => hps x (h.subset hx)

/-- **A method of an object literal is read alike.** -/
theorem readAlike_parse? (hps : ∀ x, Piece.literal x ∈ ps → Unkeyed x) :
    ReadAlike fun l => ObjectMethod.parse? (render l ps) := by
  have hget : ∀ c ∈ "get".toList, Visible c := by decide
  have hset : ∀ c ∈ "set".toList, Visible c := by decide
  have hasync : ∀ c ∈ "async".toList, Visible c := by decide
  have haccessed : ∀ qs, qs <:+: ps → ∀ isAsync,
      ReadAlike fun l => ObjectMethod.accessed? isAsync (render l qs) := by
    intro qs hqs isAsync
    have hbehind : ∀ {word : Text} (accessor : Option Accessor), (∀ c ∈ word, Visible c) →
        word ≠ [] → ReadAlike fun l => (afterWord? word (render l qs)).bind
          (ObjectMethod.keyed? isAsync accessor) := fun accessor hword hne =>
      .behind hword hne fun rs hrs =>
        readAlike_keyed? (unkeyed_of_isInfix hps (hrs.trans hqs)) isAsync accessor
    exact (hbehind (some .getter) hget (by decide)).or ((hbehind (some .setter) hset (by decide)).or
      (readAlike_keyed? (unkeyed_of_isInfix hps hqs) isAsync none))
  have hstarred : ∀ qs, qs <:+: ps → ∀ isAsync,
      ReadAlike fun l => ObjectMethod.starred? isAsync (render l qs) := by
    intro qs hqs isAsync
    by_cases hstar : (lead qs).head? = some '*'
    · obtain ⟨back, hback⟩ : ∃ back, qs.drop 1 = back ∧
          ∀ l, render l qs = '*' :: render l back := by
        cases qs with
        | nil => cases hstar
        | cons x back =>
          cases x with
          | sign c =>
            refine ⟨back, rfl, fun l => ?_⟩
            rw [render_cons, Piece.text, Option.some.inj hstar]
            rfl
          | _ => cases hstar
      simp only [hback.2, ObjectMethod.starred?, stripLeft_render]
      refine haccessed _ ?_ isAsync
      rw [← hback.1]
      exact ((List.dropWhile_suffix _).trans (List.drop_suffix _ _)).isInfix.trans hqs
    · have hnone : ∀ l : Layout, ObjectMethod.starred? isAsync (render l qs) =
          ObjectMethod.accessed? isAsync (render l qs) := by
        intro l
        have hhead := head?_render_beq (c := '*') (by decide) l qs
        rw [beq_false_of_ne hstar, beq_eq_false_iff_ne] at hhead
        unfold ObjectMethod.starred?
        split
        · rename_i rest heq
          rw [heq] at hhead
          exact absurd rfl hhead
        · rfl
      simp only [hnone]
      exact haccessed qs hqs isAsync
  exact (ReadAlike.behind hasync (by decide) fun qs hqs => hstarred qs hqs true).or
    (hstarred ps (List.infix_refl ps) false)

/-! ## Assertions and functions -/

theorem lt_length_of_prefix {c : Char} {t : Text} {n : Nat} (h : c :: t <+: lead (ps.drop n)) :
    n < ps.length := by
  by_contra hle
  rw [List.drop_eq_nil_of_le (Nat.le_of_not_lt hle)] at h
  simp [lead] at h

theorem exists_word (word : AssertionWord) :
    ∃ c t, word.text = c :: t ∧ ∀ d ∈ c :: t, Visible d := by
  cases word with
  | cast => exact ⟨_, _, rfl, by decide⟩
  | satisfies => exact ⟨_, _, rfl, by decide⟩

/-- The last asserting word is found at the same place. -/
theorem exists_lastAssertion? (l m : Layout) (ps : List Piece) (word : AssertionWord) :
    ∃ o : Option Nat, (∀ n ∈ o, word.text <+: lead (ps.drop n)) ∧
      lastAssertion? (render l ps) word = o.map (fun n => (offset l ps n, word)) ∧
      lastAssertion? (render m ps) word = o.map (fun n => (offset m ps n, word)) := by
  obtain ⟨c, t, htext, hvisible⟩ := exists_word word
  obtain ⟨o, hl, hm, ho⟩ := exists_findLastOutermost? hvisible l m ps
  rw [lastAssertion?, lastAssertion?, htext, hl, hm]
  cases o with
  | none => exact ⟨none, by simp, rfl, rfl⟩
  | some n =>
    cases n with
    | zero => exact ⟨none, by simp, rfl, rfl⟩
    | succ n =>
      have hlt : n + 1 < ps.length := lt_length_of_prefix (ho _ rfl)
      have hpos : ∀ l : Layout, ∃ k, offset l ps (n + 1) = k + 1 := fun l =>
        Nat.exists_eq_succ_of_ne_zero
          (Nat.pos_iff_ne_zero.1 (offset_lt l (Nat.succ_pos n) (by omega)))
      obtain ⟨i, hi⟩ := hpos l
      obtain ⟨j, hj⟩ := hpos m
      refine ⟨some (n + 1), ho, ?_, ?_⟩
      · simp only [Option.map_some, hi]
      · simp only [Option.map_some, hj]

theorem exists_assertionPlace? (l m : Layout) (ps : List Piece) :
    ∃ o : Option (Nat × AssertionWord), (∀ p ∈ o, p.2.text <+: lead (ps.drop p.1)) ∧
      assertionPlace? (render l ps) = o.map (fun p => (offset l ps p.1, p.2)) ∧
      assertionPlace? (render m ps) = o.map (fun p => (offset m ps p.1, p.2)) := by
  obtain ⟨a, ha, hal, ham⟩ := exists_lastAssertion? l m ps .cast
  obtain ⟨s, hs, hsl, hsm⟩ := exists_lastAssertion? l m ps .satisfies
  rw [assertionPlace?, assertionPlace?, hal, ham, hsl, hsm]
  cases a with
  | none =>
    cases s with
    | none => exact ⟨none, by simp, rfl, rfl⟩
    | some k =>
      refine ⟨some (k, .satisfies), fun p hp => ?_, rfl, rfl⟩
      obtain rfl := Option.some.inj hp
      exact hs k rfl
  | some n =>
    cases s with
    | none =>
      refine ⟨some (n, .cast), fun p hp => ?_, rfl, rfl⟩
      obtain rfl := Option.some.inj hp
      exact ha n rfl
    | some k =>
      have hlt : n < ps.length := by
        obtain ⟨c, t, htext, -⟩ := exists_word .cast
        exact lt_length_of_prefix (htext ▸ ha n rfl)
      simp only [Option.map_some, offset_lt_iff l hlt, offset_lt_iff m hlt]
      split
      · refine ⟨some (k, .satisfies), fun p hp => ?_, rfl, rfl⟩
        obtain rfl := Option.some.inj hp
        exact hs k rfl
      · refine ⟨some (n, .cast), fun p hp => ?_, rfl, rfl⟩
        obtain rfl := Option.some.inj hp
        exact ha n rfl

/-- **An assertion is taken apart alike.**  The asserted type is collapsed. -/
theorem exists_assertion? (l m : Layout) (ps : List Piece) :
    (assertion? (render l ps) = none ∧ assertion? (render m ps) = none) ∨
      ∃ vs word target, assertion? (render l ps) = some ⟨render l vs, word, target⟩ ∧
        assertion? (render m ps) = some ⟨render m vs, word, target⟩ ∧ vs <:+: ps ∧
        vs.length < ps.length := by
  obtain ⟨o, ho, hl, hm⟩ := exists_assertionPlace? l m ps
  rw [assertion?, assertion?, hl, hm]
  cases o with
  | none => exact .inl ⟨rfl, rfl⟩
  | some p =>
    obtain ⟨n, word⟩ := p
    obtain ⟨c, t, htext, -⟩ := exists_word word
    have hprefix : word.text <+: lead (ps.drop n) := ho _ rfl
    have hlt : n < ps.length := lt_length_of_prefix (htext ▸ hprefix)
    have hbehind : ∀ l : Layout, (render l ps).drop (offset l ps n + word.text.length) =
        render l ((ps.drop n).drop word.text.length) := by
      intro l
      rw [← List.drop_drop, drop_offset, drop_lead l hprefix.length_le]
    have hcollapse := collapse_render l m ((ps.drop n).drop word.text.length)
    simp only [Option.map_some, take_offset, strip_render, isEmpty_render, hbehind, hcollapse]
    split
    · exact .inl ⟨rfl, rfl⟩
    · have hinfix := strip_isInfix (ps.take n)
      refine .inr ⟨_, _, _, rfl, rfl, hinfix.trans (List.take_prefix n ps).isInfix, ?_⟩
      have hle := hinfix.length_le
      rw [List.length_take] at hle
      omega

/-- What leaves out the two things that are seen in one layout only. -/
structure Regular (l : Layout) (ps : List Piece) : Prop where
  /-- The keyword of a function is not taken for a name. -/
  keyword : ¬ "function\n".toList <:+: render l ps
  /-- No quote in a string is taken for its end. -/
  quotes : ∀ x, Piece.literal x ∈ ps → Unkeyed x

instance (l : Layout) (ps : List Piece) : Decidable (Regular l ps) :=
  decidable_of_iff (¬ "function\n".toList <:+: render l ps ∧ ∀ x, Piece.literal x ∈ ps → Unkeyed x)
    ⟨fun h => ⟨h.1, h.2⟩, fun h => ⟨h.keyword, h.quotes⟩⟩

theorem Regular.of_isInfix (h : Regular l ps) (hqs : qs <:+: ps) : Regular l qs where
  keyword hin := h.keyword (hin.trans (render_isInfix l hqs))
  quotes := unkeyed_of_isInfix h.quotes hqs

theorem head?_single (ps : List Piece) : (render single ps).head? ≠ some '\n' := by
  cases ps with
  | nil => simp
  | cons x ps =>
    cases x with
    | sign c =>
      intro h
      have hc : c.1 = '\n' := Option.some.inj h
      have hvisible := c.2
      rw [hc] at hvisible
      exact absurd hvisible (by decide)
    | gap g => exact (by decide : some ' ' ≠ some '\n')
    | literal x =>
      intro h
      have hc : x.delimiter.char = '\n' := Option.some.inj h
      have hblank := (Piece.not_visible_char x.delimiter).1
      rw [hc] at hblank
      exact absurd hblank (by decide)

/-- The value behind the keyword of an asynchronous function, or the whole value. -/
def behindAsync (ps : List Piece) : List Piece :=
  (restAfter? "async".toList ps).getD ps

theorem afterAsync?_render (l : Layout) (ps : List Piece) :
    afterAsync? (render l ps) = (restAfter? "async".toList ps).map (render l) ∧
      (afterAsync? (render l ps)).getD (render l ps) = render l (behindAsync ps) := by
  have hasync : ∀ c ∈ "async".toList, Visible c := by decide
  rw [afterAsync?, afterWord?_render hasync, behindAsync]
  cases restAfter? "async".toList ps <;> exact ⟨rfl, rfl⟩

theorem behindAsync_isInfix (ps : List Piece) : behindAsync ps <:+: ps := by
  rw [behindAsync]
  cases h : restAfter? "async".toList ps with
  | none => exact List.infix_refl ps
  | some qs => exact (restAfter?_eq_some (by decide) h).1

/-- The keyword of a function with the character behind it is no name, whatever white space that
is, if it is no newline. -/
theorem isIdentifier_keyword (hps : "function".toList <+: lead ps)
    (hl : (render l (ps.drop "function".toList.length)).head? ≠ some '\n')
    (hm : (render m (ps.drop "function".toList.length)).head? ≠ some '\n') :
    Text.isIdentifier ((render l ps).take 9) = Text.isIdentifier ((render m ps).take 9) := by
  have hle := hps.length_le
  have htake : ∀ l : Layout, (render l ps).take 9 =
      "function".toList ++ (render l (ps.drop "function".toList.length)).take 1 := by
    intro l
    have hfront : (render l ps).take "function".toList.length = "function".toList := by
      rw [← offset_lead l hle, take_offset, render_take_lead l hle]
      exact (List.prefix_iff_eq_take.1 hps).symm
    rw [show (9 : Nat) = "function".toList.length + 1 from rfl, List.take_add, hfront,
      drop_lead l hle]
  rw [htake, htake]
  cases hback : ps.drop "function".toList.length with
  | nil => rfl
  | cons x back =>
    cases hx : x.isGap with
    | false =>
      obtain ⟨c, r, d, s, htext, -⟩ := x.exists_ends l
      rw [render_cons, render_cons, ← Piece.text_congr hx l m, htext]
      rfl
    | true =>
      have hnone : ∀ l : Layout, (render l (x :: back)).head? ≠ some '\n' →
          Text.isIdentifier ("function".toList ++ (render l (x :: back)).take 1) = false := by
        intro l hl
        obtain ⟨c, r, d, s, htext, -, ⟨hblank, -⟩, -⟩ := x.exists_ends l
        rw [render_cons, htext] at hl ⊢
        have hident := Text.isIdentChar_of_isBlank (hblank.trans hx)
        have hnewline : c ≠ '\n' := fun h => hl (congrArg some h)
        have htext : "function".toList ++ (c :: r ++ render l back).take 1 =
            'f' :: ("unction".toList ++ [c]) := rfl
        rw [htext, Text.isIdentifier, Text.allUpToNewline, List.all_append, List.getLast?_concat]
        simp [hident, hnewline]
      rw [hback] at hl hm
      rw [hnone l hl, hnone m hm]

/-- **A function is recognised alike.** -/
theorem isFunctionExpression_single (h : Regular l ps) :
    isFunctionExpression (render single ps) = isFunctionExpression (render l ps) := by
  have hfunction : ∀ c ∈ "function".toList, Visible c := by decide
  have harrow : ∀ c ∈ "=>".toList, Visible c := by decide
  have hkeyword : ("function".toList.isPrefixOf (lead (behindAsync ps)) &&
      !Text.isIdentifier ((render single (behindAsync ps)).take 9)) =
        ("function".toList.isPrefixOf (lead (behindAsync ps)) &&
          !Text.isIdentifier ((render l (behindAsync ps)).take 9)) := by
    cases hprefix : "function".toList.isPrefixOf (lead (behindAsync ps)) with
    | false => rfl
    | true =>
      have hprefix := List.isPrefixOf_iff_prefix.1 hprefix
      have hin := (h.of_isInfix (behindAsync_isInfix ps)).keyword
      rw [isIdentifier_keyword hprefix (head?_single _)]
      intro hhead
      obtain ⟨r, hr⟩ := List.head?_eq_some_iff.1 hhead
      refine hin ⟨[], r, ?_⟩
      have hfront : (render l (behindAsync ps)).take "function".toList.length =
          "function".toList := by
        rw [← offset_lead l hprefix.length_le, take_offset, render_take_lead l hprefix.length_le]
        exact (List.prefix_iff_eq_take.1 hprefix).symm
      rw [← List.take_append_drop "function".toList.length (render l (behindAsync ps)), hfront,
        drop_lead l hprefix.length_le, hr]
      rfl
  obtain ⟨o, hl, hs, -⟩ := exists_findOutermost? harrow l single ps true
  simp only [isFunctionExpression, (afterAsync?_render _ ps).2, isPrefixOf_render hfunction,
    hkeyword]
  have hfound : ∀ o : Option Nat, ∀ f : Nat → Nat, (o.map f).isSome = o.isSome := by
    rintro (_ | n) f <;> rfl
  have hl : findOutermost? (render l ps) "=>".toList 0 true = _ := hl
  have hs : findOutermost? (render single ps) "=>".toList 0 true = _ := hs
  rw [hl, hs, hfound, hfound]

/-- **The arguments of a call are found alike.** -/
theorem callArguments?_render {callee : Text} (hcallee : ∀ c ∈ callee, Visible c) (l m : Layout)
    (ps : List Piece) :
    ∃ o : Option (List Piece), callArguments? (render l ps) callee = o.map (render l) ∧
      callArguments? (render m ps) callee = o.map (render m) ∧
      ∀ qs ∈ o, qs <:+: ps ∧ qs.length < ps.length := by
  have hopener : ∀ c ∈ callee ++ "(".toList, Visible c := by
    intro c hc
    rcases List.mem_append.1 hc with hc | hc
    · exact hcallee c hc
    · rw [List.mem_singleton.1 hc]
      decide
  simp only [callArguments?, isPrefixOf_render hopener]
  cases hprefix : (callee ++ "(".toList).isPrefixOf (lead ps) with
  | false => exact ⟨none, rfl, rfl, by simp⟩
  | true =>
    have hprefix := List.isPrefixOf_iff_prefix.1 hprefix
    have hle : callee.length + 1 ≤ (lead ps).length := by
      have := hprefix.length_le
      rwa [List.length_append] at this
    have hopen : (lead (ps.drop callee.length)).head? = some '(' := by
      obtain ⟨back, hback⟩ := hprefix
      rw [lead_drop (by omega), ← hback, List.append_assoc, List.drop_left]
      rfl
    obtain ⟨o, hl, hm, ho⟩ := exists_matching?_bracket (b := .round) hopen l m
    rw [offset_lead l (by omega)] at hl
    rw [offset_lead m (by omega)] at hm
    rw [hl, hm]
    cases o with
    | none => exact ⟨none, rfl, rfl, by simp⟩
    | some n =>
      have hclose := ho n rfl
      simp only [Option.map_some, Option.some_beq_some, offset_eq_length_sub_one hclose,
        Bool.true_and]
      cases hlast : n + 1 == ps.length with
      | false => exact ⟨none, rfl, rfl, by simp⟩
      | true =>
        have hsome := isSome_getLast?_of_lead hclose (beq_iff_eq.1 hlast)
        have hinner : ∀ l : Layout, ((render l ps).drop (callee.length + 1)).dropLast =
            render l (ps.drop (callee.length + 1)).dropLast := by
          intro l
          rw [drop_lead l hle, dropLast_render l (isSome_getLast?_drop hsome _)]
        refine ⟨some (ps.drop (callee.length + 1)).dropLast, ?_, ?_, fun qs hqs => ?_⟩
        · rw [Option.map_some, ← hinner]
          rfl
        · rw [Option.map_some, ← hinner]
          rfl
        · obtain rfl := Option.some.inj hqs
          have hsuffix := List.drop_suffix (callee.length + 1) ps
          have hpre := List.dropLast_prefix (ps.drop (callee.length + 1))
          have hlength := lt_length_of_lead hclose
          refine ⟨hpre.isInfix.trans hsuffix.isInfix, ?_⟩
          rw [List.length_dropLast, List.length_drop]
          omega

end ModuleSurface.Spacing
