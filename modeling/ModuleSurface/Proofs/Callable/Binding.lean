import ModuleSurface.Callable.Binding
import ModuleSurface.Proofs.Callable.Defaults
import ModuleSurface.Proofs.Lexing.Counted

/-!
# Patterns without their defaults

A pattern is a tree: patterns in curly brackets and in square brackets, nested under keys, in
positions and behind the dots of a rest element, with a default value for any entry.  Written with
its defaults and stripped of them, it is what it is when written without them.

* `Target.countedAt` — a pattern is read in its place like any other piece of code;
* `entry_bound` — an entry is cut at its own equals sign and at its own colon;
* `withoutDefaults_print` — a pattern keeps its shape.
-/

namespace ModuleSurface

open ModuleSurface.Lexing

namespace Callable.Binding

/-! ## Patterns -/

/-- A name. -/
structure Name where
  /-- Its characters. -/
  text : Text
  /-- There is one. -/
  ne_nil : text ≠ []
  /-- All of them are characters of identifiers. -/
  isIdent : ∀ c ∈ text, Text.isIdentChar c = true

/-- The key of an entry. -/
inductive Key where
  /-- A name. -/
  | name (n : Name)
  /-- A string in quotes. -/
  | quoted (q : Quote) (body : Text) (h : isEscaped q.char body = true)

/-- The text of a key. -/
def Key.text : Key → Text
  | name n => n.text
  | quoted q body _ => q.char :: body ++ [q.char]

/-- A default value. -/
structure Fallback where
  /-- Its text. -/
  text : Text
  /-- It is complete on its own. -/
  closed : Closed text
  /-- No comma of its code is outside brackets. -/
  commas : ∀ v ∈ visits text, v.state.depth = 0 → v.char ≠ ','

/-- The brackets of a pattern. -/
inductive Shape where
  /-- Curly brackets. -/
  | object
  /-- Square brackets. -/
  | array
  deriving DecidableEq, Repr

mutual

/-- What takes a value: a name, or a pattern that takes it apart. -/
inductive Target where
  /-- A name. -/
  | name (n : Name)
  /-- A pattern with its entries. -/
  | nest (shape : Shape) (entries : List Entry)

/-- An entry of a pattern. -/
inductive Entry where
  /-- A target, which may have a key in front of it and a default value behind it. -/
  | bound (key : Option Key) (target : Target) (fallback : Option Fallback)
  /-- A target for everything that is left. -/
  | rest (target : Target)
  /-- Nothing. -/
  | hole

end

/-! ## Writing a pattern -/

/-- The brackets of a shape. -/
def Shape.bracket : Shape → Bracket
  | object => .brace
  | array => .square

/-- What stands between the brackets and the entries. -/
def Shape.margin : Shape → List Text → Text
  | object, _ :: _ => " ".toList
  | _, _ => []

/-- What stands between the brackets. -/
def Shape.inner (shape : Shape) (ts : List Text) : Text :=
  shape.margin ts ++ Text.join ", ".toList ts ++ shape.margin ts

/-- A pattern with the texts of its entries. -/
def Shape.print (shape : Shape) (ts : List Text) : Text :=
  shape.bracket.opener :: shape.inner ts ++ [shape.bracket.closer]

/-- A key with its colon. -/
def keyPart : Option Key → Text
  | some k => k.text ++ ": ".toList
  | none => []

/-- A default value with its equals sign, if default values are written. -/
def fallbackPart (defaults : Bool) : Option Fallback → Text
  | some d => if defaults then " = ".toList ++ d.text else []
  | none => []

mutual

/-- The text of a target, with or without the default values at any depth. -/
def Target.print (defaults : Bool) : Target → Text
  | .name n => n.text
  | .nest shape entries => shape.print (printAll defaults entries)

/-- The text of an entry. -/
def Entry.print (defaults : Bool) : Entry → Text
  | .bound key target fallback =>
    keyPart key ++ target.print defaults ++ fallbackPart defaults fallback
  | .rest target => "...".toList ++ target.print defaults
  | .hole => []

/-- The texts of entries. -/
def printAll (defaults : Bool) : List Entry → List Text
  | [] => []
  | e :: es => e.print defaults :: printAll defaults es

end

/-! ## Patterns that keep their shape -/

mutual

/-- No slash of a default value begins a literal that ends behind the value, where `more` follows
the pattern. -/
def Target.SlashesApart (more : Text) : Target → Prop
  | .name _ => True
  | .nest shape entries =>
    SlashesApartIn (shape.margin (printAll true entries) ++ shape.bracket.closer :: more) entries

/-- The same for an entry. -/
def Entry.SlashesApart (more : Text) : Entry → Prop
  | .bound _ target fallback =>
    target.SlashesApart (fallbackPart true fallback ++ more) ∧
      ∀ d ∈ fallback, LeavesSlashes d.text more
  | .rest target => target.SlashesApart more
  | .hole => True

/-- The same for entries in a row. -/
def SlashesApartIn (more : Text) : List Entry → Prop
  | [] => True
  | e :: es => e.SlashesApart (behind more (printAll true es)) ∧ SlashesApartIn more es

end

mutual

/-- Nothing is left out and nothing is hidden: no entry is missing, there is no default value to be
dropped behind the dots of a rest element, and the default values nested in an entry with a default
value of its own leave no angle bracket open. -/
def Target.KeepsShape : Target → Prop
  | .name _ => True
  | .nest _ entries => KeepShapes entries

/-- The same for an entry. -/
def Entry.KeepsShape : Entry → Prop
  | .bound _ target fallback =>
    target.KeepsShape ∧ ∀ _d ∈ fallback, anglesAfter 0 (visits (target.print true)) = 0
  | .rest target => target.print true = target.print false
  | .hole => False

/-- The same for entries in a row. -/
def KeepShapes : List Entry → Prop
  | [] => True
  | e :: es => e.KeepsShape ∧ KeepShapes es

end

mutual

instance Target.decidableSlashesApart (more : Text) : ∀ t : Target, Decidable (t.SlashesApart more)
  | .name _ => instDecidableTrue
  | .nest shape entries => decidableSlashesApartIn
      (shape.margin (printAll true entries) ++ shape.bracket.closer :: more) entries

instance Entry.decidableSlashesApart (more : Text) : ∀ e : Entry, Decidable (e.SlashesApart more)
  | .bound _ target fallback =>
    have := target.decidableSlashesApart (fallbackPart true fallback ++ more)
    inferInstanceAs (Decidable (_ ∧ ∀ d ∈ fallback, LeavesSlashes d.text more))
  | .rest target => target.decidableSlashesApart more
  | .hole => instDecidableTrue

instance decidableSlashesApartIn (more : Text) : ∀ es, Decidable (SlashesApartIn more es)
  | [] => instDecidableTrue
  | e :: es =>
    have := e.decidableSlashesApart (behind more (printAll true es))
    have := decidableSlashesApartIn more es
    inferInstanceAs (Decidable (_ ∧ _))

end

mutual

instance Target.decidableKeepsShape : ∀ t : Target, Decidable t.KeepsShape
  | .name _ => instDecidableTrue
  | .nest _ entries => decidableKeepShapes entries

instance Entry.decidableKeepsShape : ∀ e : Entry, Decidable e.KeepsShape
  | .bound _ target fallback =>
    have := target.decidableKeepsShape
    inferInstanceAs (Decidable (_ ∧
      ∀ _d ∈ fallback, anglesAfter 0 (visits (target.print true)) = 0))
  | .rest target => inferInstanceAs (Decidable (target.print true = target.print false))
  | .hole => instDecidableFalse

instance decidableKeepShapes : ∀ es, Decidable (KeepShapes es)
  | [] => instDecidableTrue
  | e :: es =>
    have := e.decidableKeepsShape
    have := decidableKeepShapes es
    inferInstanceAs (Decidable (_ ∧ _))

end

/-! ## Slashes with less behind them -/

theorem behind_append (more last : Text) (ts : List Text) :
    behind (more ++ last) ts = behind more ts ++ last := by
  cases ts <;> simp [behind]

mutual

theorem Target.SlashesApart.of_append {more last : Text} {t : Target}
    (h : t.SlashesApart (more ++ last)) : t.SlashesApart more := by
  match t with
  | .name _ => trivial
  | .nest shape entries =>
    rw [Target.SlashesApart, ← List.cons_append, ← List.append_assoc] at h
    exact SlashesApartIn.of_append h

theorem Entry.SlashesApart.of_append {more last : Text} {e : Entry}
    (h : e.SlashesApart (more ++ last)) : e.SlashesApart more := by
  match e with
  | .bound _ target fallback =>
    obtain ⟨htarget, hfallback⟩ := h
    rw [← List.append_assoc] at htarget
    exact ⟨htarget.of_append, fun d hd => (hfallback d hd).of_append⟩
  | .rest target => exact Target.SlashesApart.of_append (t := target) h
  | .hole => trivial

theorem SlashesApartIn.of_append {more last : Text} {es : List Entry}
    (h : SlashesApartIn (more ++ last) es) : SlashesApartIn more es := by
  match es with
  | [] => trivial
  | e :: es =>
    obtain ⟨he, hes⟩ := h
    rw [behind_append] at he
    exact ⟨he.of_append, hes.of_append⟩

end

/-! ## Angle brackets -/

mutual

/-- The angle brackets that are open behind a target if `n` are open in front of it. -/
def Target.angles (n : Nat) : Target → Nat
  | .name _ => n
  | .nest _ entries => anglesIn n entries

/-- The same for an entry. -/
def Entry.angles (n : Nat) : Entry → Nat
  | .bound _ target fallback =>
    match fallback with
    | some d => anglesAfter (target.angles n) (visits d.text)
    | none => target.angles n
  | .rest target => target.angles n
  | .hole => n

/-- The same for entries in a row. -/
def anglesIn (n : Nat) : List Entry → Nat
  | [] => n
  | e :: es => anglesIn (e.angles n) es

end

/-! ## A pattern in its place -/

/-- May a character stand outside the brackets of a target? -/
def Outermost (c : Char) : Prop :=
  c ∉ [',', '=', ':']

theorem outermost_of_isIdentChar {c : Char} (hc : Text.isIdentChar c = true) :
    Plain c ∧ Outermost c ∧ c ≠ '<' ∧ c ≠ '>' := by
  have hnot : ∀ d ∈ [',', '=', ':', '<', '>'], c ≠ d := by
    rintro d hd rfl
    have hall : ∀ d ∈ [',', '=', ':', '<', '>'], Text.isIdentChar d = false := by decide
    rw [hall _ hd] at hc
    cases hc
  refine ⟨plain_of_isIdentChar hc, fun hmem => ?_, hnot '<' (by decide), hnot '>' (by decide)⟩
  exact hnot c (List.mem_append_left ['<', '>'] hmem) rfl

theorem outermost_opener (b : Bracket) : Outermost b.opener := by
  cases b <;> (unfold Outermost; decide)

section

variable {base : State}

/-- A key with its colon. -/
theorem countedAt_keyPart (hbase : base.inCode = true) (key : Option Key) (outer more : Text)
    (offset : Nat) :
    CountedAt (fun c => c ∉ [',', '=']) id base outer (keyPart key) more offset := by
  have hcolon : ∀ (outer more : Text) (offset : Nat),
      CountedAt (fun c => c ∉ [',', '=']) id base outer ": ".toList more offset :=
    fun outer more offset => .plain hbase (by decide) outer more offset
  cases key with
  | none => exact .nil base outer more offset
  | some key =>
    refine CountedAt.append ?_ (hcolon _ more _)
    cases key with
    | name n =>
      refine .plain hbase (fun c hc => ?_) outer _ offset
      obtain ⟨hplain, houtermost, hangles⟩ := outermost_of_isIdentChar (n.isIdent c hc)
      exact ⟨hplain, fun hmem => houtermost (List.mem_append_left [':'] hmem), hangles⟩
    | quoted q body h => exact .string hbase q h outer _ offset

/-- A default value with its equals sign. -/
theorem countedAt_fallbackPart (hb : base.Coherent) (hbase : base.inCode = true) {more : Text}
    (hmore : Parts more) {d : Fallback} (hslash : LeavesSlashes d.text more) (outer : Text)
    (offset : Nat) :
    CountedAt (· ≠ ',') (fun n => anglesAfter n (visits d.text)) base outer
      (fallbackPart true (some d)) more offset := by
  have hequals : CountedAt (· ≠ ',') id base outer " = ".toList (d.text ++ more) offset :=
    .plain hbase (by decide) outer _ offset
  exact hequals.append (d.closed.countedAt d.commas hb hbase ⟨rfl, rfl⟩ (by simp) hmore hslash _)

end

theorem countedAt_margin {base : State} (hbase : base.inCode = true) (shape : Shape)
    (ts : List Text) (outer more : Text) (offset : Nat) :
    CountedAt (fun _ => True) id base outer (shape.margin ts) more offset := by
  refine .plain hbase (fun c hc => ?_) outer more offset
  cases shape <;> cases ts <;> simp only [Shape.margin, List.not_mem_nil] at hc
  rw [List.mem_singleton.1 hc]
  decide

theorem parts_margin (shape : Shape) (ts : List Text) (more : Text) :
    Parts (shape.margin ts ++ shape.bracket.closer :: more) := by
  cases shape <;> cases ts <;>
    exact ⟨⟨by simp [Shape.margin, Shape.bracket, Bracket.closer],
      by simp [Shape.margin, Shape.bracket, Bracket.closer]⟩, rfl⟩

mutual

/-- **A pattern is read in its place** like any other bracket. -/
theorem Target.countedAt {base : State} (hb : base.Coherent) (hbase : base.inCode = true)
    {more : Text} (t : Target) (hslash : t.SlashesApart more) (outer : Text) (offset : Nat) :
    CountedAt Outermost (Target.angles · t) base outer (t.print true) more offset := by
  match t with
  | .name n =>
    exact .plain hbase (fun c hc => outermost_of_isIdentChar (n.isIdent c hc)) outer more offset
  | .nest shape entries =>
    have hcode : (base.openBracket shape.bracket offset).inCode = true := by
      cases shape <;> exact hbase
    have hrow := countedAt_entries (hb.openBracket shape.bracket offset) hcode
      (parts_margin shape _ _) entries hslash
    have hmargin := countedAt_margin hcode shape (printAll true entries)
    have hinner := ((hmargin (shape.bracket.opener :: outer) _ (offset + 1)).append
      (hrow _ _)).append (hmargin _ (shape.bracket.closer :: more) _)
    exact (hinner.bracket hb hbase).mono fun c hc => hc ▸ outermost_opener shape.bracket

theorem Entry.countedAt {base : State} (hb : base.Coherent) (hbase : base.inCode = true)
    {more : Text} (hmore : Parts more) (e : Entry) (hslash : e.SlashesApart more) (outer : Text)
    (offset : Nat) :
    CountedAt (· ≠ ',') (Entry.angles · e) base outer (e.print true) more offset := by
  match e with
  | .bound key target fallback =>
    obtain ⟨htarget, hfallback⟩ := hslash
    have hkey : ∀ more, CountedAt (· ≠ ',') id base outer (keyPart key) more offset := fun more =>
      (countedAt_keyPart hbase key outer more offset).mono fun c hc heq => hc (by simp [heq])
    have hread : ∀ outer offset, CountedAt (· ≠ ',') (Target.angles · target) base outer
        (target.print true) (fallbackPart true fallback ++ more) offset := fun outer offset =>
      (target.countedAt hb hbase htarget outer offset).mono fun c hc heq => hc (by simp [heq])
    cases fallback with
    | none => exact ((hkey _).append (hread _ _)).append (.nil base _ more _)
    | some d =>
      exact ((hkey _).append (hread _ _)).append
        (countedAt_fallbackPart hb hbase hmore (hfallback d rfl) _ _)
  | .rest target =>
    have hdots : CountedAt (· ≠ ',') id base outer "...".toList (target.print true ++ more)
        offset := .plain hbase (by decide) outer _ offset
    exact hdots.append ((target.countedAt hb hbase hslash _ _).mono fun c hc heq =>
      hc (by simp [heq]))
  | .hole => exact .nil base outer more offset

theorem countedAt_entries {base : State} (hb : base.Coherent) (hbase : base.inCode = true)
    {more : Text} (hmore : Parts more) (es : List Entry) (hslash : SlashesApartIn more es)
    (outer : Text) (offset : Nat) :
    CountedAt (fun _ => True) (anglesIn · es) base outer
      (Text.join ", ".toList (printAll true es)) more offset := by
  match es with
  | [] => exact .nil base outer more offset
  | [e] =>
    rw [printAll, printAll, Text.join, List.intercalate_singleton]
    exact (e.countedAt hb hbase hmore hslash.1 outer offset).mono fun _ _ => trivial
  | e :: f :: fs =>
    have hnext : Parts (behind more (printAll true (f :: fs))) :=
      ⟨⟨by simp [behind, printAll], by simp [behind, printAll]⟩, rfl⟩
    have hfirst : CountedAt (fun _ => True) (Entry.angles · e) base outer (e.print true)
        (behind more (printAll true (f :: fs))) offset :=
      (e.countedAt hb hbase hnext hslash.1 outer offset).mono fun _ _ => trivial
    have hcomma : ∀ (outer more : Text) (offset : Nat),
        CountedAt (fun _ => True) id base outer ", ".toList more offset :=
      fun outer more offset => .plain hbase (by decide) outer more offset
    have hrest := countedAt_entries hb hbase hmore (f :: fs) hslash.2
    have hbehind : behind more (printAll true (f :: fs)) =
        ", ".toList ++ Text.join ", ".toList (printAll true (f :: fs)) ++ more := rfl
    rw [hbehind, List.append_assoc] at hfirst
    have hsplit : Text.join ", ".toList (printAll true (e :: f :: fs)) =
        e.print true ++ (", ".toList ++ Text.join ", ".toList (printAll true (f :: fs))) := by
      rw [printAll, Text.join, Text.join, printAll, List.intercalate_cons_cons, List.append_assoc]
    have htail : ∀ offset, CountedAt (fun _ => True) (anglesIn · (f :: fs)) base
        ((e.print true).reverse ++ outer)
        (", ".toList ++ Text.join ", ".toList (printAll true (f :: fs))) more offset :=
      fun offset => CountedAt.append
        (hcomma _ (Text.join ", ".toList (printAll true (f :: fs)) ++ more) offset) (hrest _ _)
    rw [hsplit]
    rw [← List.append_assoc] at hfirst
    exact hfirst.append (htail _)

end

/-! ## The entries of a pattern -/

theorem Target.trimmed (t : Target) (defaults : Bool) : (t.print defaults).Trimmed := by
  cases t with
  | name n => exact DefaultedParameter.trimmed_of_isIdentChar n.ne_nil n.isIdent
  | nest shape entries =>
    have hblank : Text.isBlank shape.bracket.opener = false ∧
        Text.isBlank shape.bracket.closer = false := by cases shape <;> decide
    exact ⟨⟨_, rfl, hblank.1⟩, ⟨_, List.getLast?_concat, hblank.2⟩⟩

theorem Key.trimmed (key : Key) : key.text.Trimmed := by
  cases key with
  | name n => exact DefaultedParameter.trimmed_of_isIdentChar n.ne_nil n.isIdent
  | quoted q body h =>
    have hblank : Text.isBlank q.char = false := by cases q <;> decide
    exact ⟨⟨_, rfl, hblank⟩, ⟨_, List.getLast?_concat, hblank⟩⟩

/-- The texts of the entries stand between the outermost commas. -/
theorem map_strip_cutAt {es : List Entry} (hne : es ≠ []) {front back : Text}
    (hfront : ∀ c ∈ front, c = ' ') (hback : ∀ c ∈ back, c = ' ')
    (hslash : SlashesApartIn back es) (outer : Text) (offset : Nat) :
    (cutAt offset (front ++ Text.join ", ".toList (printAll true es) ++ back)
      (commasFrom outer (front ++ Text.join ", ".toList (printAll true es) ++ back)
        offset)).map Text.strip = (printAll true es).map Text.strip := by
  have hblank : ∀ {u : Text}, (∀ c ∈ u, c = ' ') → ∀ c ∈ u, Text.isBlank c = true := by
    intro u hu c hc
    rw [hu c hc]
    decide
  have hblanks : ∀ {u : Text}, (∀ c ∈ u, c = ' ') → ∀ (outer more : Text) (offset : Nat),
      CountedAt (· ≠ ',') id {} outer u more offset := by
    intro u hu outer more offset
    exact .plain rfl (fun c hc => by rw [hu c hc]; decide) outer more offset
  have hparts : Parts back := by
    cases back with
    | nil => decide
    | cons c back =>
      rw [hback c List.mem_cons_self]
      exact ⟨⟨by simp, by simp⟩, rfl⟩
  induction es generalizing front outer offset with
  | nil => exact absurd rfl hne
  | cons e es ih =>
    obtain ⟨he, hes⟩ := hslash
    cases es with
    | nil =>
      have hfirst := (hblanks hfront outer _ offset).append (e.countedAt .fresh rfl hparts he _ _)
      rw [← List.append_nil back] at hfirst
      obtain ⟨vs, hreads, hvs, -⟩ := hfirst.append (hblanks hback _ [] _)
      rw [printAll, printAll, Text.join, List.intercalate_singleton,
        Reads.cutAt_end hreads hvs, List.map_singleton, List.map_singleton,
        Text.strip_between _ _ _ (hblank hfront) (hblank hback)]
    | cons f fs =>
      have hnext : Parts (behind back (printAll true (f :: fs))) :=
        ⟨⟨by simp [behind, printAll], by simp [behind, printAll]⟩, rfl⟩
      obtain ⟨vs, hreads, hvs, -⟩ := (hblanks hfront outer _ offset).append
        (e.countedAt .fresh rfl hnext he _ _)
      have hbehind : behind back (printAll true (f :: fs)) =
          ',' :: ([' '] ++ Text.join ", ".toList (printAll true (f :: fs)) ++ back) := rfl
      have hgap : ∀ c ∈ [' '], c = ' ' := by simp
      have hlater := ih (by simp) hgap hes
      rw [hbehind] at hreads
      have hstrip : Text.strip (front ++ e.print true) = Text.strip (e.print true) := by
        simpa using Text.strip_between front (e.print true) [] (hblank hfront) (by simp)
      rw [printAll, printAll, join_row, ← printAll, Reads.cutAt_comma hreads hvs, List.map_cons,
        List.map_cons, hlater, hstrip]

/-- What is written for entries is something. -/
theorem strip_print_ne_nil {e : Entry} (h : e.KeepsShape) : Text.strip (e.print true) ≠ [] := by
  cases e with
  | bound key target fallback =>
    obtain ⟨c, hc, hblank⟩ := (target.trimmed true).head
    refine Text.strip_ne_nil hblank ?_
    simp [Entry.print, List.mem_of_mem_head? hc]
  | rest target => exact Text.strip_ne_nil (c := '.') (by decide) (by simp [Entry.print])
  | hole => exact absurd h id

theorem keepsShape_of_mem {es : List Entry} (h : KeepShapes es) : ∀ e ∈ es, e.KeepsShape := by
  induction es with
  | nil => simp
  | cons e es ih => exact List.forall_mem_cons.2 ⟨h.1, ih h.2⟩

theorem printAll_eq_map (defaults : Bool) (es : List Entry) :
    printAll defaults es = es.map (Entry.print defaults) := by
  induction es with
  | nil => rfl
  | cons e es ih => rw [printAll, ih, List.map_cons]

/-- **A pattern is split into its entries.** -/
theorem splitCommas_inner (shape : Shape) {es : List Entry} {last : Text}
    (hslash : SlashesApartIn (shape.margin (printAll true es) ++ last) es)
    (hkeeps : KeepShapes es) :
    splitCommas (shape.inner (printAll true es)) = (printAll true es).map Text.strip := by
  have hmargin : ∀ c ∈ shape.margin (printAll true es), c = ' ' := by
    intro c hc
    cases shape <;> cases es <;> simp only [Shape.margin, printAll, List.not_mem_nil] at hc
    exact List.mem_singleton.1 hc
  by_cases hne : es = []
  · subst hne
    have hnone : splitCommas ([] ++ Text.join ", ".toList [] ++ []) = [] :=
      splitCommas_join (by simp) [] [] (by simp) (by simp)
    cases shape <;> exact hnone
  · rw [splitCommas_eq, Shape.inner, map_strip_cutAt hne hmargin hmargin hslash.of_append [] 0,
      List.filter_eq_self]
    intro t ht
    rw [printAll_eq_map, List.map_map] at ht
    obtain ⟨e, he, rfl⟩ := List.mem_map.1 ht
    simpa using strip_print_ne_nil (keepsShape_of_mem hkeeps e he)

/-! ## An entry on its own -/

/-- What stands in front of the equals sign of an entry. -/
def Entry.head (key : Option Key) (target : Target) : Text :=
  keyPart key ++ target.print true

theorem Entry.trimmed_head (key : Option Key) (target : Target) : (head key target).Trimmed := by
  cases key with
  | none => exact target.trimmed true
  | some key =>
    rw [head, keyPart, List.append_assoc]
    exact key.trimmed.join (target.trimmed true) ": ".toList

/-- What stands in front of the equals sign has none outside brackets, and no comma. -/
theorem Entry.countedAt_head (key : Option Key) {target : Target} {more : Text}
    (hslash : target.SlashesApart more) :
    CountedAt (fun c => c ∉ [',', '=']) (Target.angles · target) {} [] (head key target) more 0 :=
  (countedAt_keyPart rfl key [] _ 0).append ((target.countedAt .fresh rfl hslash _ _).mono
    fun _ hc hmem => hc (List.mem_append_left [':'] hmem))

/-- The colon behind a key is the first one. -/
theorem Key.findOutermost?_colon (key : Key) (more : Text) :
    findOutermost? (key.text ++ ':' :: more) ":".toList 0 false = some key.text.length := by
  have hinert : Inert (· ≠ ':') key.text := by
    cases key with
    | name n =>
      refine .plain fun c hc => ⟨plain_of_isIdentChar (n.isIdent c hc), ?_⟩
      rintro rfl
      exact absurd (n.isIdent _ hc) (by decide)
    | quoted q body h => exact .string q h
  exact hinert.findOutermost?_sign (by decide) (by decide) more

/-- What the target of an entry becomes, behind the key of the entry if it has one. -/
theorem shape_head (shape : Text → Text) (key : Option Key) {target : Target}
    (hslash : target.SlashesApart []) (htarget : shape (target.print true) = target.print false) :
    (match findOutermost? (Entry.head key target) ":".toList 0 false with
      | some colon =>
        Text.strip ((Entry.head key target).take colon) ++ ": ".toList ++
          shape (Text.strip ((Entry.head key target).drop (colon + 1)))
      | none =>
        if (Entry.head key target).head? == some '{' || (Entry.head key target).head? == some '['
        then shape (Entry.head key target) else Entry.head key target) =
      keyPart key ++ target.print false := by
  cases key with
  | none =>
    have hnone : findOutermost? (target.print true) ":".toList 0 false = none :=
      (target.countedAt .fresh rfl hslash [] 0).findOutermost?_eq_none
        (by unfold Outermost; decide) [] 0
    have hhead : Entry.head none target = target.print true := rfl
    rw [hhead, hnone, keyPart, List.nil_append]
    simp only
    split
    · exact htarget
    · rename_i hbracket
      cases target with
      | name n => rfl
      | nest nested entries =>
        refine absurd ?_ hbracket
        cases nested <;> rfl
  | some key =>
    have hhead : Entry.head (some key) target = key.text ++ ':' :: ' ' :: target.print true := by
      simp [Entry.head, keyPart]
    have hdrop : (key.text ++ ':' :: ' ' :: target.print true).drop (key.text.length + 1) =
        ' ' :: target.print true := by
      rw [← List.drop_drop, List.drop_left]
      rfl
    have hstrip : Text.strip (' ' :: target.print true) = target.print true := by
      simpa using (target.trimmed true).strip_between [' '] [] (by decide) (by simp)
    rw [hhead, key.findOutermost?_colon]
    simp only
    rw [List.take_left, key.trimmed.strip_eq, hdrop, hstrip, htarget, keyPart]

/-- **An entry is cut at its own equals sign and at its own colon.** -/
theorem entry_bound (shape : Text → Text) (key : Option Key) {target : Target}
    {fallback : Option Fallback}
    (hslash : (Entry.bound key target fallback).SlashesApart [])
    (hkeeps : (Entry.bound key target fallback).KeepsShape)
    (htarget : shape (target.print true) = target.print false) :
    entry shape (Text.strip ((Entry.bound key target fallback).print true)) =
      (Entry.bound key target fallback).print false := by
  obtain ⟨hslashes, -⟩ := hslash
  have hwhole : target.SlashesApart [] := Target.SlashesApart.of_append hslashes
  have htrimmed := Entry.trimmed_head key target
  have hbare : (Entry.bound key target fallback).print false =
      keyPart key ++ target.print false := by
    cases fallback <;> simp [Entry.print, fallbackPart]
  cases fallback with
  | none =>
    have htext : (Entry.bound key target none).print true = Entry.head key target :=
      List.append_nil _
    have hassign : findAssignment? (Entry.head key target) = none :=
      (Entry.countedAt_head key hwhole).findAssignment?_eq_none (by decide)
    rw [htext, htrimmed.strip_eq, hbare, entry, hassign]
    exact shape_head shape key hwhole htarget
  | some d =>
    have htext : (Entry.bound key target (some d)).print true =
        Entry.head key target ++ ' ' :: '=' :: ' ' :: d.text := rfl
    -- what is stripped from the end of the value is missing behind the target, too
    obtain ⟨last, hlast⟩ := Text.dropRightWhile_isPrefix Text.isBlank (' ' :: d.text)
    have hbehind : fallbackPart true (some d) ++ [] =
        ' ' :: '=' :: Text.stripRight (' ' :: d.text) ++ last := by
      rw [List.append_nil, List.cons_append, List.cons_append, Text.stripRight, hlast]
      rfl
    rw [hbehind] at hslashes
    have hcounted := Entry.countedAt_head key hslashes.of_append
    have hangles : target.angles 0 = 0 :=
      ((target.countedAt .fresh rfl hwhole [] 0).anglesAfter_visits 0).symm.trans (hkeeps.2 d rfl)
    have hsign : ∀ c ∈ (Text.stripRight (' ' :: d.text)).head?, c ∉ ['=', '>'] := by
      intro c hc
      rw [Text.eq_of_mem_head?_stripRight_cons hc]
      decide
    have hassign := hcounted.findAssignment?_append (by decide) hangles hsign
    have htake : (Entry.head key target ++ ' ' :: '=' :: Text.stripRight (' ' :: d.text)).take
        ((Entry.head key target).length + 1) = Entry.head key target ++ [' '] := by
      rw [List.take_length_add_append]
      rfl
    have hstrip : Text.strip (Entry.head key target ++ [' ']) = Entry.head key target := by
      simpa using htrimmed.strip_between [] [' '] (by simp) (by decide)
    rw [htext, htrimmed.strip_equals, hbare, entry, hassign]
    simp only
    rw [htake, hstrip]
    exact shape_head shape key hwhole htarget

/-- The target of a rest element stays as it is. -/
theorem entry_rest (shape : Text → Text) {target : Target} (hslash : target.SlashesApart [])
    (hkeeps : target.print true = target.print false) :
    entry shape (Text.strip ((Entry.rest target).print true)) =
      (Entry.rest target).print false := by
  have hdots : CountedAt Outermost id {} [] "...".toList (target.print true ++ []) 0 := by
    refine .plain rfl ?_ [] _ 0
    unfold Outermost
    decide
  have hcounted := hdots.append (target.countedAt .fresh rfl hslash _ _)
  have htrimmed : Text.Trimmed ("...".toList ++ target.print true) :=
    Text.Trimmed.join (t := "...".toList) ⟨⟨'.', rfl, by decide⟩, ⟨'.', rfl, by decide⟩⟩
      (target.trimmed true) []
  have hassign := hcounted.findAssignment?_eq_none (by unfold Outermost; decide)
  have hcolon : findOutermost? ("...".toList ++ target.print true) ":".toList 0 false = none :=
    hcounted.findOutermost?_eq_none (by unfold Outermost; decide) [] 0
  have hhead : ("...".toList ++ target.print true).head? = some '.' := rfl
  rw [Entry.print, Entry.print, htrimmed.strip_eq, entry, hassign]
  simp only [hcolon, hhead]
  rw [hkeeps]
  rfl

/-! ## A pattern -/

/-- A layer of a pattern is the pattern with what becomes of its entries. -/
theorem layer_print (f : Text → Text) (shape : Shape) (ts : List Text) :
    layer f (shape.print ts) = shape.print ((splitCommas (shape.inner ts)).map (entry f)) := by
  have hblank : Text.isBlank shape.bracket.opener = false ∧
      Text.isBlank shape.bracket.closer = false := by cases shape <;> decide
  have hstrip : Text.strip (shape.print ts) = shape.print ts :=
    Text.strip_eq_self hblank.1 hblank.2 _
  obtain ⟨d, rest, hrest⟩ := List.exists_cons_of_ne_nil
    (List.append_ne_nil_of_right_ne_nil (shape.inner ts)
      (List.cons_ne_nil shape.bracket.closer []))
  have hinner : (d :: rest).dropLast = shape.inner ts := by
    rw [← hrest, List.dropLast_concat]
  have hprint : shape.print ts = shape.bracket.opener :: d :: rest := by
    rw [Shape.print, List.cons_append, hrest]
  rw [layer, hstrip, hprint]
  simp only [hinner]
  generalize (splitCommas (shape.inner ts)).map (entry f) = entries
  cases shape with
  | object => cases entries <;> simp [Shape.print, Shape.inner, Shape.margin, Shape.bracket,
      Bracket.opener, Bracket.closer, Text.join]
  | array => simp [Shape.print, Shape.inner, Shape.margin, Shape.bracket, Bracket.opener,
      Bracket.closer]

/-- A name has no defaults. -/
theorem withoutDefaults_name (n : Name) : withoutDefaults n.text = n.text := by
  have hstrip := (DefaultedParameter.trimmed_of_isIdentChar n.ne_nil n.isIdent).strip_eq
  rw [withoutDefaults_eq, layer, hstrip]
  split
  · rename_i c d rest htext
    have hc := n.isIdent c (by rw [htext]; exact List.mem_cons_self)
    have hnot : ∀ b ∈ ['{', '['], c ≠ b := by
      rintro b hb rfl
      have hall : ∀ b ∈ ['{', '['], Text.isIdentChar b = false := by decide
      rw [hall c hb] at hc
      cases hc
    rw [if_neg (by simp [hnot '{' (by decide), hnot '[' (by decide)]), htext]
  · rfl

mutual

/-- Without its defaults a target is what it is when it is written without them. -/
theorem withoutDefaults_target (t : Target) (hslash : t.SlashesApart []) (hkeeps : t.KeepsShape) :
    withoutDefaults (t.print true) = t.print false := by
  match t with
  | .name n => exact withoutDefaults_name n
  | .nest shape entries =>
    have hentries := map_entry_printAll entries hslash hkeeps
    rw [Target.print, withoutDefaults_eq, layer_print, splitCommas_inner shape hslash hkeeps,
      hentries, Target.print]

theorem entry_print (e : Entry) (hslash : e.SlashesApart []) (hkeeps : e.KeepsShape) :
    entry withoutDefaults (Text.strip (e.print true)) = e.print false := by
  match e with
  | .bound key target fallback =>
    have htarget : target.SlashesApart [] := Target.SlashesApart.of_append hslash.1
    exact entry_bound withoutDefaults key hslash hkeeps
      (withoutDefaults_target target htarget hkeeps.1)
  | .rest target => exact entry_rest withoutDefaults hslash hkeeps
  | .hole => exact absurd hkeeps id

theorem map_entry_printAll (es : List Entry) {more : Text} (hslash : SlashesApartIn more es)
    (hkeeps : KeepShapes es) :
    ((printAll true es).map Text.strip).map (entry withoutDefaults) = printAll false es := by
  match es with
  | [] => rfl
  | e :: es =>
    have he : e.SlashesApart ([] ++ behind more (printAll true es)) := hslash.1
    rw [printAll, List.map_cons, List.map_cons, entry_print e he.of_append hkeeps.1,
      map_entry_printAll es hslash.2 hkeeps.2, printAll]

end

/-- **A pattern keeps its shape** when its defaults are dropped: what is left of the pattern is the
pattern as it is written without the defaults at any depth. -/
theorem withoutDefaults_print (p : Target) (hslash : p.SlashesApart []) (hkeeps : p.KeepsShape) :
    withoutDefaults (p.print true) = p.print false :=
  withoutDefaults_target p hslash hkeeps

/-- Defaults under keys, in positions and of nested patterns, with commas, colons, arrows and
slashes in them. -/
theorem withoutDefaults_print_nested :
    let name (t : Text) (h : t ≠ [] ∧ ∀ c ∈ t, Text.isIdentChar c = true) : Name := ⟨t, h.1, h.2⟩
    let value (t : Text) (h : Closed t ∧ ∀ v ∈ visits t, v.state.depth = 0 → v.char ≠ ',') :
      Fallback := ⟨t, h.1, h.2⟩
    let a := name "a".toList (by decide)
    let b := name "b".toList (by decide)
    let p : Target := .nest .object
      [.bound none (.name a) (some (value "f(1, 2)".toList (by decide +kernel))),
        .bound (some (.quoted .single "k: 1".toList (by decide)))
          (.nest .object [.bound (some (.name b)) (.name a)
            (some (value "(x) => x / 2".toList (by decide +kernel)))])
          (some (value "c ? d : e ".toList (by decide +kernel))),
        .bound (some (.name b)) (.nest .array
          [.bound none (.nest .array []) (some (value "[]".toList (by decide +kernel))),
            .rest (.nest .array [.bound none (.name a) none])]) none,
        .rest (.name b)]
    (p.SlashesApart [] ∧ p.KeepsShape) ∧
    p.print true = ("\x7b a = f(1, 2), 'k: 1': \x7b b: a = (x) => x / 2 \x7d = c ? d : e , " ++
      "b: [[] = [], ...[a]], ...b \x7d").toList ∧
    withoutDefaults (p.print true) =
      "\x7b a, 'k: 1': \x7b b: a \x7d, b: [[], ...[a]], ...b \x7d".toList := by
  intro name value a b p
  have hslash : p.SlashesApart [] := by decide +kernel
  have hkeeps : p.KeepsShape := by decide +kernel
  refine ⟨⟨hslash, hkeeps⟩, by decide +kernel, ?_⟩
  rw [withoutDefaults_print p hslash hkeeps]
  decide +kernel

/-- What is left out is lost, what stands behind dots keeps its defaults, and a comparison, a slash
or a comma in a template literal hides what stands behind it. -/
theorem withoutDefaults_print_lost :
    let name (t : Text) (h : t ≠ [] ∧ ∀ c ∈ t, Text.isIdentChar c = true) : Target :=
      .name ⟨t, h.1, h.2⟩
    let value (t : Text) (h : Closed t ∧ ∀ v ∈ visits t, v.state.depth = 0 → v.char ≠ ',') :
      Option Fallback := some ⟨t, h.1, h.2⟩
    let a := name "a".toList (by decide)
    let b := name "b".toList (by decide)
    let sparse : Target := .nest .array [.bound none a none, .hole, .bound none b none]
    let rest : Target := .nest .array
      [.rest (.nest .array [.bound none a (value "1".toList (by decide +kernel))])]
    let compared : Target := .nest .object
      [.bound (some (.quoted .single "k".toList (by decide)))
        (.nest .object
          [.bound none a (value "x < y".toList (by decide +kernel)), .bound none b none])
        (value "\x7b\x7d".toList (by decide +kernel))]
    let divided : Target := .nest .object
      [.bound none a (value "i++ / 2".toList (by decide +kernel)),
        .bound none b (value "j / 2".toList (by decide +kernel))]
    (sparse.print false = "[a, , b]".toList ∧
      withoutDefaults (sparse.print true) = "[a, b]".toList) ∧
    (rest.print false = "[...[a]]".toList ∧
      withoutDefaults (rest.print true) = "[...[a = 1]]".toList) ∧
    (compared.print false = "\x7b 'k': \x7b a, b \x7d \x7d".toList ∧
      withoutDefaults (compared.print true) = "\x7b 'k': \x7b a, b \x7d \x7d \x7d".toList) ∧
    (divided.print false = "\x7b a, b \x7d".toList ∧
      withoutDefaults (divided.print true) = "\x7b a \x7d".toList) ∧
    withoutDefaults "\x7b a = \x60$\x7bx, y\x7d\x60, b \x7d".toList =
      "\x7b a, y\x7d\x60, b \x7d".toList := by
  intro name value a b sparse rest compared divided
  decide +kernel

end Callable.Binding

end ModuleSurface
