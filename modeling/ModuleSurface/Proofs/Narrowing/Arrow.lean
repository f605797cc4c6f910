import ModuleSurface.Proofs.Lexing.Between
import ModuleSurface.Proofs.Narrowing.Answers

/-!
# Arrow functions

A value is taken for a function if it has an arrow outside every bracket, wherever that stands, and
its type is read off its beginning.

* `infer_front` — so in front of the first arrow of a function stand the parts of one, and behind
  them whatever else;
* `infer_arrowText` — a list of parameters with an arrow has a function type, which returns the type
  of the body;
* `infer_arrow` — both, and what can have a function type without an arrow.
-/

namespace ModuleSurface.Narrowing

open ModuleSurface.Lexing
open ModuleSurface.Callable

/-! ## A list of parameters and its arrow -/

/-- What can stand in front of a function: nothing, or the keyword `async` and white space behind
it. -/
inductive AsyncMark : Text → Bool → Prop
  | none : AsyncMark [] false
  | async {blanks : Text} : blanks ≠ [] → (∀ c ∈ blanks, Text.isBlank c = true) →
      AsyncMark ("async".toList ++ blanks) true

theorem AsyncMark.bypassed {mark : Text} {isAsync : Bool} (h : AsyncMark mark isAsync) :
    Bypassed mark := by
  cases h with
  | none => exact ⟨by simp, rfl⟩
  | async hne hblank => exact .words (by decide) hne hblank

theorem afterAsync?_async {blanks r : Text} {c : Char} (hne : blanks ≠ [])
    (hblank : ∀ d ∈ blanks, Text.isBlank d = true) (hc : Text.isBlank c = false) :
    afterAsync? ("async".toList ++ blanks ++ c :: r) = some (c :: r) := by
  obtain ⟨d, blanks, rfl⟩ := List.exists_cons_of_ne_nil hne
  obtain ⟨hd, hblank⟩ := List.forall_mem_cons.1 hblank
  have hafter : Text.after? "async".toList ("async".toList ++ d :: blanks ++ c :: r) =
      some (d :: (blanks ++ c :: r)) := by
    have hprefix := List.isPrefixOf_iff_prefix.2 (List.prefix_append "async".toList
      (d :: blanks ++ c :: r))
    rw [List.append_assoc, Text.after?, if_pos hprefix, List.drop_left]
    rfl
  have hleft : Text.stripLeft (blanks ++ c :: r) = c :: r := by
    rw [Text.stripLeft, List.dropWhile_append_of_pos hblank]
    exact Text.stripLeft_cons hc r
  rw [afterAsync?, afterWord?, hafter]
  simp only [hd, if_true, hleft]

/-- A list of parameters and an expression with an arrow between them. -/
def arrowText (mark parameters body : Text) : Text :=
  mark ++ ('(' :: parameters ++ [')'] ++ (" => ".toList ++ body))

section

variable {mark parameters body : Text} {isAsync : Bool}

/-- An arrow outside every bracket is found. -/
theorem outermostFrom_arrow (index : Nat) (past more : Text) (vs : List Visit) :
    outermostFrom true 0 (⟨index, past, '=', '>' :: more, {}⟩ :: vs) =
        ⟨index, past, '=', '>' :: more, {}⟩ :: outermostFrom true 0 vs ∧
      Visit.begins ⟨index, past, '=', '>' :: more, {}⟩ "=>".toList = true := by
  have hsign : Text.isIdentChar '=' = false := by decide
  refine ⟨rfl, ?_⟩
  show (['=', '>'].isPrefixOf ('=' :: '>' :: more) &&
    (!Text.isIdentChar '=' || _)) = true
  rw [hsign]
  rfl

theorem findOutermost?_arrow (body : Text) :
    findOutermost? (" => ".toList ++ body) "=>".toList 0 true = some 1 := by
  have hfirst : Reads {} [] ['='] ('>' :: ' ' :: body) 0 _ := Reads.plain rfl (by decide) [] _ 0
  have hvisits : visits ('=' :: '>' :: ' ' :: body) = _ := hfirst.visits_eq
  obtain ⟨houtermost, hbegins⟩ := outermostFrom_arrow 0 [] (' ' :: body)
    (visitsFrom {} (['='].reverse ++ []) ('>' :: ' ' :: body) (0 + ['='].length))
  have hzero : findOutermost? ('=' :: '>' :: ' ' :: body) "=>".toList 0 true = some 0 := by
    rw [findOutermost?, outermost, hvisits, List.singleton_append, houtermost,
      List.find?_cons_of_pos (by simpa using hbegins)]
    rfl
  have hblank : Bypassed [' '] := ⟨by decide, by decide⟩
  have hbehind := findOutermost?_behind (r := '>' :: ' ' :: body) hblank
    (by decide : RegexLiteral.isGap '=' = false) (by decide)
  rw [hzero] at hbehind
  exact hbehind

/-- Behind a piece that closes its angle brackets an arrow is found. -/
theorem isSome_findOutermost?_of_reads {t more : Text} {vs : List Visit}
    (h : Reads {} [] t ('=' :: '>' :: more) 0 vs) (hangles : anglesAfter 0 vs = 0) :
    (findOutermost? (t ++ '=' :: '>' :: more) "=>".toList 0 true).isSome = true := by
  have hnext : Reads {} (t.reverse ++ []) ['='] ('>' :: more) (0 + t.length) _ :=
    Reads.plain rfl (by decide) _ _ _
  have hvisits : visits (t ++ '=' :: '>' :: more) = _ := h.visits_eq
  have hnext := hnext.visits_eq
  rw [List.singleton_append] at hnext
  rw [hnext] at hvisits
  obtain ⟨houtermost, hbegins⟩ := outermostFrom_arrow (0 + t.length) (t.reverse ++ []) more
    (visitsFrom {} (['='].reverse ++ (t.reverse ++ [])) ('>' :: more)
      (0 + t.length + ['='].length))
  rw [findOutermost?, Option.isSome_map, List.find?_isSome, outermost, hvisits,
    outermostFrom_append, hangles, List.singleton_append, houtermost]
  exact ⟨_, List.mem_append_right _ List.mem_cons_self, by simpa using hbegins⟩

/-- A list of parameters closes the angle brackets in it. -/
theorem reads_parameters (hp : Closed parameters) (hangles : anglesAfter 0 (visits parameters) = 0)
    {more : Text} (hslash : LeavesSlashes parameters (')' :: more)) :
    ∃ vs, Reads {} [] ('(' :: parameters ++ [')']) more 0 vs ∧ anglesAfter 0 vs = 0 := by
  have hinner := hp.reads (State.Coherent.fresh.openBracket .round 0) rfl (opens_opener .round [])
    (parts_closer .round more) hslash (0 + 1)
  refine ⟨_, Reads.enclosed .fresh rfl .round hinner, ?_⟩
  have houter : [Bracket.round.opener].head? ≠ some '=' := by decide
  have hinside : anglesAfter 0 ((visits parameters).map (Visit.lift (State.openBracket {} .round 0)
      (0 + 1) [Bracket.round.opener] (Bracket.round.closer :: more))) = _ :=
    anglesAfter_lift houter 0 (visits parameters)
  rw [List.cons_append, anglesAfter, List.foldl_cons, ← anglesAfter, anglesAfter_append]
  show anglesAfter (anglesAfter 0 _) _ = 0
  rw [hinside, hangles]
  rfl

/-- The function type of a list with an arrow. -/
theorem ofArrow_arrowText (hp : Closed parameters) (hb : body.Tight)
    (hbrace : body.head? ≠ some '{')
    (hslash : LeavesSlashes parameters (')' :: (" => ".toList ++ body))) :
    ofArrow infer (arrowText [] parameters body) isAsync =
      functionType none (parameterList (splitTypedCommas parameters))
        (if isAsync then promised (infer body false).text else (infer body false).text) := by
  have hskip : skipBlank (arrowText [] parameters body) 0 = 0 := rfl
  have hmatch : matching? (arrowText [] parameters body) 0 = some (0 + 1 + parameters.length) :=
    hp.matching?_bracket .nil .round hslash
  have hgenerics : readGenerics (arrowText [] parameters body) 0 = (none, 0) := rfl
  have hslice : Text.slice (arrowText [] parameters body) (0 + 1) (0 + 1 + parameters.length) =
      parameters := by
    have htext : arrowText [] parameters body =
        ['('] ++ (parameters ++ ([')'] ++ (" => ".toList ++ body))) := by
      simp [arrowText]
    rw [htext]
    exact Text.slice_append _ _ _ rfl rfl
  have hafter : (arrowText [] parameters body).drop (0 + 1 + parameters.length + 1) =
      " => ".toList ++ body := by
    have hlength : 0 + 1 + parameters.length + 1 = ('(' :: parameters ++ [')']).length := by
      simp only [List.length_append, List.length_cons, List.length_nil]
      omega
    rw [arrowText, List.nil_append, hlength, List.drop_left]
  have hparameters : arrowParameters? (arrowText [] parameters body) 0 =
      some (splitTypedCommas parameters, " => ".toList ++ body) := by
    have hopen : (arrowText [] parameters body)[0]? = some '(' := rfl
    rw [arrowParameters?, hopen, if_pos (by rfl), hmatch, Option.map_some, hslice, hafter]
  have hbehind : Text.strip ((" => ".toList ++ body).drop (1 + 2)) = body := by
    have hstrip := hb.strip_between [' '] [] (by decide) (by simp)
    rwa [List.append_nil] at hstrip
  have hbetween : Text.strip ((" => ".toList ++ body).take 1) = [] := rfl
  have hreturn : arrowReturn infer [] body isAsync =
      if isAsync then promised (infer body false).text else (infer body false).text := by
    have hwritten : writtenOrUnknown (some (infer body false).text) = (infer body false).text := by
      obtain ⟨c, t, hcons⟩ := List.exists_cons_of_ne_nil (text_infer_ne_nil body false)
      rw [hcons, writtenOrUnknown]
    have hblock : (body.head? == some '{') = false := by simpa using hbrace
    rw [arrowReturn, hblock]
    simp only [List.head?_nil, hwritten]
    rfl
  unfold ofArrow
  rw [hgenerics]
  dsimp only
  rw [hskip, hparameters]
  dsimp only
  rw [findOutermost?_arrow]
  dsimp only
  rw [hbetween, hbehind, hreturn]
  rfl

theorem tight_arrowText (hmark : AsyncMark mark isAsync) (hb : body.Tight) (parameters : Text) :
    Text.Tight (arrowText mark parameters body) where
  head := by
    cases hmark with
    | none => exact ⟨'(', rfl, by decide⟩
    | async _ _ => exact ⟨'a', rfl, by decide⟩
  last := by
    have hlast : (arrowText mark parameters body).getLast? = body.getLast? := by
      have htext : arrowText mark parameters body =
          mark ++ ('(' :: parameters ++ [')']) ++ " => ".toList ++ body := by
        simp [arrowText]
      rw [htext, List.getLast?_append_of_ne_nil _ hb.ne_nil]
    rw [hlast]
    exact hb.last

theorem isSome_findOutermost?_arrowText (hmark : AsyncMark mark isAsync) (hp : Closed parameters)
    (hangles : anglesAfter 0 (visits parameters) = 0)
    (hslash : LeavesSlashes parameters (')' :: (" => ".toList ++ body))) :
    (findOutermost? (arrowText mark parameters body) "=>".toList 0 true).isSome = true := by
  have hmore : " => ".toList ++ body = [' '] ++ '=' :: '>' :: ' ' :: body := rfl
  rw [hmore] at hslash
  obtain ⟨vs, hvs, hvsAngles⟩ := reads_parameters hp hangles hslash
  have hblank : Reads {} (('(' :: parameters ++ [')']).reverse ++ []) [' ']
      ('=' :: '>' :: ' ' :: body) (0 + ('(' :: parameters ++ [')']).length) _ :=
    Reads.plain rfl (by decide) _ _ _
  have hlist := isSome_findOutermost?_of_reads (hvs.append hblank) (by
    rw [anglesAfter_append, hvsAngles]
    rfl)
  rw [List.append_assoc] at hlist
  have hbehind := findOutermost?_behind (r := parameters ++ [')'] ++ (" => ".toList ++ body))
    hmark.bypassed (by decide : RegexLiteral.isGap '(' = false) (by decide)
  have htext : arrowText mark parameters body =
      mark ++ '(' :: (parameters ++ [')'] ++ (" => ".toList ++ body)) := rfl
  rw [htext, hbehind, Option.isSome_map]
  exact hlist

/-- **A list of parameters with an arrow is a function type**, which returns what the body has. -/
theorem infer_arrowText (hmark : AsyncMark mark isAsync) (hp : Closed parameters)
    (hangles : anglesAfter 0 (visits parameters) = 0) (hb : body.Tight)
    (hbrace : body.head? ≠ some '{')
    (hslash : LeavesSlashes parameters (')' :: (" => ".toList ++ body)))
    (hcomments : stripComments (arrowText mark parameters body) = arrowText mark parameters body)
    (isConst : Bool) :
    infer (arrowText mark parameters body) isConst =
      functionType none (parameterList (splitTypedCommas parameters))
        (if isAsync then promised (infer body false).text else (infer body false).text) := by
  have htight := tight_arrowText hmark hb parameters
  have hfunction : isFunctionExpression (arrowText mark parameters body) = true := by
    rw [isFunctionExpression, isSome_findOutermost?_arrowText hmark hp hangles hslash, Bool.or_true]
  have hof : ofFunction infer (arrowText mark parameters body) =
      ofArrow infer (arrowText [] parameters body) isAsync := by
    have hword : "function".toList.isPrefixOf (arrowText [] parameters body) = false := rfl
    cases hmark with
    | none =>
      have hafter : afterAsync? (arrowText [] parameters body) = none := rfl
      simp only [ofFunction, hafter, Option.getD_none, hword, Option.isSome_none,
        Bool.false_eq_true, if_false]
    | @async blanks hne hblank =>
      have hafter := afterAsync?_async (r := parameters ++ [')'] ++ (" => ".toList ++ body)) hne
        hblank (by decide : Text.isBlank '(' = false)
      have hafter : afterAsync? (arrowText ("async".toList ++ blanks) parameters body) =
          some (arrowText [] parameters body) := hafter
      simp only [ofFunction, hafter, Option.getD_some, hword, Option.isSome_some,
        Bool.false_eq_true, if_false]
  have hne : (arrowText mark parameters body).isEmpty = false := by
    simpa using htight.ne_nil
  rw [infer_eq, layer, hcomments, htight.stripSemicolon_eq]
  simp only [hne, Bool.false_eq_true, if_false]
  rw [ofExpression, if_pos hfunction, hof, ofArrow_arrowText hp hb hbrace hslash]

end

/-! ## What stands in front of an arrow -/

/-- The list in brackets that begins at an offset of the text: it begins with its opener there and
ends with what closes that. -/
structure ListAt (text : Text) (i : Nat) (opener : Char) (list : Text) : Prop where
  /-- It begins with its opener. -/
  head : list.head? = some opener
  /-- It ends where that closes. -/
  close : matching? text i = some (i + (list.length - 1))

/-- The text in front of the first arrow, part by part. -/
structure ArrowFront where
  /-- The keyword `async` with the white space behind it, if it is there. -/
  mark : Text
  /-- The type parameters in their angle brackets, if there are any. -/
  generics : Text
  /-- The white space behind them. -/
  gap : Text
  /-- The name of the parameter, or the parameters in their brackets. -/
  parameters : Text
  /-- What is between the parameters and the arrow. -/
  others : Text
  deriving DecidableEq, Repr

namespace ArrowFront

/-- The parts one after the other. -/
def text (f : ArrowFront) : Text :=
  f.mark ++ (f.generics ++ (f.gap ++ (f.parameters ++ f.others)))

/-- The parts are what a function begins with, in a text that goes on behind them. -/
structure Begins (f : ArrowFront) (whole : Text) : Prop where
  /-- The mark is a mark. -/
  mark : ∃ isAsync, AsyncMark f.mark isAsync
  /-- The type parameters are a list in angle brackets. -/
  generics : f.generics = [] ∨ ListAt (whole.drop f.mark.length) 0 '<' f.generics
  /-- There is white space behind them. -/
  gap : ∀ c ∈ f.gap, Text.isBlank c = true
  /-- The parameters are one whole name, or a list in round brackets. -/
  parameters :
    (f.parameters ≠ [] ∧ (∀ c ∈ f.parameters, Text.isIdentChar c = true) ∧
        f.others.head?.any Text.isIdentChar = false) ∨
      ListAt (whole.drop f.mark.length) (f.generics.length + f.gap.length) '(' f.parameters

end ArrowFront

/-- The type parameters at the start of a text, which an arrow outside brackets is behind. -/
theorem exists_generics {y : Text} (hy : y.head?.any Text.isBlank = false) :
    ∃ generics rest, y = generics ++ rest ∧ (readGenerics y 0).2 = generics.length ∧
      (generics = [] ∨ ListAt y 0 '<' generics ∧
        ∃ w ∈ visits y, w.index + 1 = generics.length ∧ w.char = '>') ∧
      ∀ v ∈ outermost y true, v.char = '=' → generics.length ≤ v.index := by
  have hskip : skipBlank y 0 = 0 := by
    cases y with
    | nil => rfl
    | cons c y =>
      have hc : Text.isBlank c = false := hy
      simp [skipBlank, hc]
  have hnone : (readGenerics y 0).2 = 0 → ∃ generics rest, y = generics ++ rest ∧
      (readGenerics y 0).2 = generics.length ∧ (generics = [] ∨ ListAt y 0 '<' generics ∧
        ∃ w ∈ visits y, w.index + 1 = generics.length ∧ w.char = '>') ∧
      ∀ v ∈ outermost y true, v.char = '=' → generics.length ≤ v.index :=
    fun h => ⟨[], y, rfl, h, .inl rfl, fun _ _ _ => Nat.zero_le _⟩
  by_cases hopen : y.head? = some '<'
  · obtain ⟨t, rfl⟩ := List.head?_eq_some_iff.1 hopen
    cases hmatch : matching? ('<' :: t) 0 with
    | none =>
      refine hnone ?_
      rw [readGenerics, hskip]
      simp [hmatch]
    | some close =>
      obtain ⟨houtermost, w, hw, rfl, hchar⟩ := outermost_of_matching?_angle hmatch
      obtain ⟨hsplit, hindex⟩ := placed_of_mem_visits hw
      have hhead : (w.past.reverse ++ [w.char]).head? = some '<' := by
        have hfirst := congrArg List.head? hsplit
        simpa [List.head?_append] using hfirst
      refine ⟨w.past.reverse ++ [w.char], w.rest, by simp [hsplit], ?_,
        .inr ⟨⟨hhead, by simp [hmatch, hindex]⟩, w, hw, by simp [hindex], hchar⟩, ?_⟩
      · rw [readGenerics, hskip]
        simp [hmatch, hindex]
      · intro v hv hequals
        have hle := houtermost v hv
        have hne : v.index ≠ w.index := by
          intro hsame
          have hplace := getElem?_of_mem_visits (mem_of_mem_outermostFrom hv).1
          rw [hsame, getElem?_of_mem_visits hw, hchar, hequals] at hplace
          cases hplace
        simp only [List.length_append, List.length_reverse, List.length_singleton]
        omega
  · refine hnone ?_
    rw [readGenerics, hskip]
    rw [List.head?_eq_getElem?] at hopen
    have hfirst : (y[0]? == some '<') = false := by simpa using hopen
    simp [hfirst]

/-- A character that is not in a piece is behind it, if it is not in front of it. -/
theorem length_le_of_getElem? {front piece back : Text} {i : Nat} {c : Char}
    (hfront : front.length ≤ i) (hi : (front ++ (piece ++ back))[i]? = some c) (hc : c ∉ piece) :
    (front ++ piece).length ≤ i := by
  by_contra hlt
  rw [List.length_append] at hlt
  rw [List.getElem?_append_right hfront, List.getElem?_append_left (by omega)] at hi
  exact hc (List.mem_of_getElem? hi)

theorem head?_dropWhile {p : Char → Bool} (t : Text) : (t.dropWhile p).head?.any p = false := by
  have hhead := List.head?_dropWhile_not p t
  cases h : (t.dropWhile p).head? with
  | none => rfl
  | some c => simpa [h] using hhead

theorem head?_stripSemicolon (t : Text) :
    (Text.stripSemicolon t).head?.any Text.isBlank = false := by
  have hleft : (Text.stripLeft t).head?.any Text.isBlank = false := head?_dropWhile t
  obtain ⟨back, hback⟩ :=
    Text.dropRightWhile_isPrefix (fun c => Text.isBlank c || c == ';') (Text.stripLeft t)
  rw [← hback] at hleft
  rw [Text.stripSemicolon]
  cases hd : Text.dropRightWhile (fun c => Text.isBlank c || c == ';') (Text.stripLeft t) with
  | nil => rfl
  | cons c r =>
    rw [hd] at hleft
    exact hleft

theorem skipBlank_gap {front gap z : Text} (hgap : ∀ c ∈ gap, Text.isBlank c = true)
    (hz : z.head?.any Text.isBlank = false) :
    skipBlank (front ++ (gap ++ z)) front.length = (front ++ gap).length := by
  have hnone : z.takeWhile Text.isBlank = [] := by
    cases z with
    | nil => rfl
    | cons c z => exact List.takeWhile_cons_of_neg (by simpa using hz)
  rw [skipBlank, List.drop_left, List.takeWhile_append_of_pos hgap, hnone, List.append_nil,
    List.length_append]

/-- In front of `z` there is nothing, or type parameters and white space. -/
def BehindGenerics (front z : Text) : Prop :=
  front = [] ∨ ∃ w ∈ visits (front ++ z), ∃ gap, (∀ c ∈ gap, Text.isBlank c = true) ∧
    w.char = '>' ∧ w.rest = gap ++ z ∧ w.index + 1 + gap.length = front.length

/-- What is behind the type parameters and the white space at the start of a text. -/
theorem behindGenerics_gap {generics gap z : Text} (hgap : ∀ c ∈ gap, Text.isBlank c = true)
    (hhead : (generics ++ (gap ++ z)).head?.any Text.isBlank = false)
    (h : generics = [] ∨
      ∃ w ∈ visits (generics ++ (gap ++ z)), w.index + 1 = generics.length ∧ w.char = '>') :
    BehindGenerics (generics ++ gap) z := by
  rcases h with rfl | ⟨w, hw, hindex, hchar⟩
  · left
    rw [List.nil_append] at hhead ⊢
    cases gap with
    | nil => rfl
    | cons c gap =>
      have hc : Text.isBlank c = false := hhead
      rw [hgap c List.mem_cons_self] at hc
      cases hc
  · right
    obtain ⟨hsplit, hpast⟩ := placed_of_mem_visits hw
    have hrest : w.past.reverse ++ [w.char] ++ w.rest = generics ++ (gap ++ z) := by
      rw [← hsplit]
      simp
    have hlength : (w.past.reverse ++ [w.char]).length = generics.length := by
      rw [← hindex, hpast]
      simp
    rw [← List.append_assoc] at hw
    refine ⟨w, hw, gap, hgap, hchar, (List.append_inj hrest hlength).2, ?_⟩
    rw [hindex, List.length_append]

/-- Parameters in brackets, which an arrow outside them is behind. -/
theorem exists_parameters_list {front r after : Text} {parameters : List Text} {v : Visit}
    (hread : arrowParameters? (front ++ '(' :: r) front.length = some (parameters, after))
    (hfront : BehindGenerics front ('(' :: r))
    (hv : v ∈ visits (front ++ '(' :: r)) (hdepth : v.state.depth = 0) (hequals : v.char = '=')
    (hle : front.length ≤ v.index) :
    ∃ piece back, '(' :: r = piece ++ back ∧ (front ++ piece).length ≤ v.index ∧
      ListAt (front ++ '(' :: r) front.length '(' piece := by
  have hplace := getElem?_of_mem_visits hv
  rw [hequals] at hplace
  have hopener : ((front ++ '(' :: r)[front.length]? == some '(') = true := by simp
  rw [arrowParameters?, if_pos hopener] at hread
  obtain ⟨close, hmatch, -⟩ := Option.map_eq_some_iff.1 hread
  -- the opener is visited
  obtain ⟨vs, first, ws, hvisits, hchar, hindex⟩ : ∃ vs first ws,
      visits (front ++ '(' :: r) = vs ++ first :: ws ∧ first.char = Bracket.round.opener ∧
        first.index = front.length := by
    rcases hfront with rfl | ⟨w, hw, gap, hgap, hchar, hrest, hlength⟩
    · have hcons := Cursor.visitsFrom_cons (State.step_opener (s := {}) rfl .round [] r 0)
      rw [visit?_bracket (b := .round) rfl (.inl rfl) rfl] at hcons
      exact ⟨[], _, _, hcons, rfl, rfl⟩
    · rw [← hlength]
      exact exists_opener_behind (b := .round) hw (by rw [hchar]; decide) hrest
        fun c hc => plain_of_isBlank (hgap c hc)
  rw [← hindex] at hmatch
  obtain ⟨hlt, houtside⟩ := outermost_of_matching?_bracket hvisits hchar hmatch
  have hne : v.index ≠ front.length := by
    intro hsame
    rw [hsame] at hplace
    simp at hplace
  have hclose := (houtside v hv hdepth).resolve_left (by omega)
  have hbound := (List.getElem?_eq_some_iff.1 hplace).1
  rw [List.length_append] at hbound
  have hlength : (('(' :: r).take (close + 1 - front.length)).length =
      close + 1 - front.length := by
    rw [List.length_take]
    omega
  refine ⟨('(' :: r).take (close + 1 - front.length), _, (List.take_append_drop _ _).symm, ?_, ?_,
    ?_⟩
  · rw [List.length_append, hlength]
    omega
  · obtain ⟨n, hn⟩ : ∃ n, close + 1 - front.length = n + 1 := ⟨close - front.length, by omega⟩
    rw [hn]
    rfl
  · rw [hlength, ← hindex, hmatch, hindex]
    congr 1
    omega

/-- A parameter without brackets, which an arrow is behind. -/
theorem exists_parameters_name {front z after : Text} {parameters : List Text} {i : Nat}
    (hz : z.head?.any Text.isBlank = false) (hopen : z.head? ≠ some '(')
    (hread : arrowParameters? (front ++ z) front.length = some (parameters, after))
    (hequals : (front ++ z)[i]? = some '=') (hle : front.length ≤ i) :
    ∃ piece back, z = piece ++ back ∧ (front ++ piece).length ≤ i ∧ piece ≠ [] ∧
      (∀ c ∈ piece, Text.isIdentChar c = true) ∧ back.head?.any Text.isIdentChar = false := by
  have hopener : ((front ++ z)[front.length]? == some '(') = false := by
    rw [List.getElem?_append_right (Nat.le_refl _), Nat.sub_self, ← List.head?_eq_getElem?]
    simpa using hopen
  rw [arrowParameters?, hopener, if_neg Bool.false_ne_true] at hread
  have hskip : skipBlank (front ++ ([] ++ z)) front.length = (front ++ []).length :=
    skipBlank_gap (List.forall_mem_nil _) hz
  rw [List.nil_append, List.append_nil] at hskip
  rw [readIdentifier, hskip, List.drop_left] at hread
  dsimp only at hread
  have hname : z.takeWhile Text.isIdentChar ≠ [] := by
    intro hnil
    simp [hnil] at hread
  have hident : ∀ c ∈ z.takeWhile Text.isIdentChar, Text.isIdentChar c = true :=
    fun c hc => List.mem_takeWhile_imp hc
  have hsplit := (List.takeWhile_append_dropWhile (p := Text.isIdentChar) (l := z)).symm
  rw [hsplit] at hequals
  exact ⟨_, _, hsplit, length_le_of_getElem? hle hequals fun h => absurd (hident _ h) (by decide),
    hname, hident, head?_dropWhile z⟩

/-- The parameters which an arrow outside brackets is behind. -/
theorem exists_parameters {front z after : Text} {parameters : List Text} {v : Visit}
    (hz : z.head?.any Text.isBlank = false)
    (hread : arrowParameters? (front ++ z) front.length = some (parameters, after))
    (hfront : BehindGenerics front z) (hv : v ∈ visits (front ++ z)) (hdepth : v.state.depth = 0)
    (hequals : v.char = '=')
    (hle : front.length ≤ v.index) :
    ∃ piece back, z = piece ++ back ∧ (front ++ piece).length ≤ v.index ∧
      ((piece ≠ [] ∧ (∀ c ∈ piece, Text.isIdentChar c = true) ∧
          back.head?.any Text.isIdentChar = false) ∨
        ListAt (front ++ z) front.length '(' piece) := by
  by_cases hopen : z.head? = some '('
  · obtain ⟨r, rfl⟩ := List.head?_eq_some_iff.1 hopen
    obtain ⟨piece, back, hsplit, hpiece, hlist⟩ :=
      exists_parameters_list hread hfront hv hdepth hequals hle
    exact ⟨piece, back, hsplit, hpiece, .inr hlist⟩
  · have hplace := getElem?_of_mem_visits hv
    rw [hequals] at hplace
    obtain ⟨piece, back, hsplit, hpiece, hname⟩ :=
      exists_parameters_name hz hopen hread hplace hle
    exact ⟨piece, back, hsplit, hpiece, .inl hname⟩

/-- What stands in front of the first arrow of a text whose parameters are read. -/
theorem exists_front {y after : Text} {parameters : List Text} {j : Nat}
    (hy : y.head?.any Text.isBlank = false)
    (hread : arrowParameters? y (skipBlank y (readGenerics y 0).2) = some (parameters, after))
    (harrow : findOutermost? y "=>".toList 0 true = some j) :
    ∃ f : ArrowFront, f.mark = [] ∧ f.text = y.take j ∧ f.Begins y := by
  obtain ⟨generics, rest, rfl, hbehind, hgenerics, houtermost⟩ := exists_generics hy
  obtain ⟨v, hv, rfl⟩ := Option.map_eq_some_iff.1 harrow
  have hfound := List.find?_some hv
  have hequals : v.char = '=' := Visit.char_of_begins ['>'] (Bool.and_eq_true_iff.1 hfound).2
  have hmem := List.mem_of_find?_eq_some hv
  obtain ⟨hvisit, hdepth⟩ := mem_of_mem_outermostFrom hmem
  have hplace := getElem?_of_mem_visits hvisit
  have hle := houtermost v hmem hequals
  -- the white space behind the type parameters
  obtain ⟨gap, z, rfl, hgap, hz⟩ : ∃ gap z, rest = gap ++ z ∧
      (∀ c ∈ gap, Text.isBlank c = true) ∧ z.head?.any Text.isBlank = false :=
    ⟨_, _, (List.takeWhile_append_dropWhile (p := Text.isBlank)).symm,
      fun c hc => List.mem_takeWhile_imp hc, head?_dropWhile rest⟩
  rw [hbehind, skipBlank_gap hgap hz] at hread
  rw [hequals] at hplace
  have hle := length_le_of_getElem? hle hplace fun hblank => absurd (hgap _ hblank) (by decide)
  have hfront := behindGenerics_gap hgap hy (hgenerics.imp_right And.right)
  rw [← List.append_assoc] at hread hvisit hgenerics ⊢
  obtain ⟨piece, back, rfl, hpiece, hparameters⟩ :=
    exists_parameters hz hread hfront hvisit hdepth hequals hle
  have htake : (generics ++ gap ++ (piece ++ back)).take v.index =
      generics ++ gap ++ piece ++ back.take (v.index - (generics ++ gap ++ piece).length) := by
    rw [← List.append_assoc, List.take_append, List.take_of_length_le hpiece]
  refine ⟨⟨[], generics, gap, piece, back.take (v.index - (generics ++ gap ++ piece).length)⟩, rfl,
    ?_, ⟨⟨_, .none⟩, ?_, hgap, ?_⟩⟩
  · rw [htake]
    simp [ArrowFront.text]
  · exact hgenerics.imp_right And.left
  · rcases hparameters with ⟨hne, hident, hback⟩ | hlist
    · refine .inl ⟨hne, hident, ?_⟩
      cases back with
      | nil => simp
      | cons c back =>
        cases v.index - (generics ++ gap ++ piece).length with
        | zero => rfl
        | succ _ => exact hback
    · refine .inr ?_
      rw [List.length_append] at hlist
      exact hlist

/-- Parameters begin with something else than a gap or a slash. -/
theorem exists_cons_of_arrowParameters? {y : Text} {read : List Text × Text}
    (hy : y.head?.any Text.isBlank = false)
    (hread : arrowParameters? y (skipBlank y (readGenerics y 0).2) = some read) :
    ∃ c t, y = c :: t ∧ RegexLiteral.isGap c = false ∧ c ≠ '/' := by
  cases y with
  | nil => simp [readGenerics, skipBlank, arrowParameters?, readIdentifier] at hread
  | cons c t =>
    refine ⟨c, t, rfl, ?_, ?_⟩
    · rw [Bool.eq_false_iff]
      intro hgap
      have hc : Text.isBlank c = false := hy
      simp only [RegexLiteral.isGap, Bool.or_eq_true, beq_iff_eq] at hgap
      rcases hgap with ((rfl | rfl) | rfl) | rfl <;> exact absurd hc (by decide)
    · rintro rfl
      have hskip : skipBlank ('/' :: t) 0 = 0 := by
        simp [skipBlank, (by decide : Text.isBlank '/' = false)]
      have hname : Text.isIdentChar '/' = false := by decide
      simp [readGenerics, hskip, arrowParameters?, readIdentifier, hname] at hread

theorem exists_async {x y : Text} (h : afterAsync? x = some y) :
    ∃ blanks, blanks ≠ [] ∧ (∀ c ∈ blanks, Text.isBlank c = true) ∧
      x = "async".toList ++ blanks ++ y ∧ y.head?.any Text.isBlank = false := by
  rw [afterAsync?, afterWord?] at h
  split at h
  · rename_i c rest hafter
    split at h
    · rename_i hc
      cases h
      have hword : x = "async".toList ++ c :: rest := by
        rw [Text.after?] at hafter
        split at hafter
        · rename_i hprefix
          obtain ⟨t, rfl⟩ := List.isPrefixOf_iff_prefix.1 hprefix
          rw [List.drop_left] at hafter
          rw [Option.some.inj hafter]
        · cases hafter
      refine ⟨c :: rest.takeWhile Text.isBlank, by simp, ?_, ?_, head?_dropWhile rest⟩
      · exact List.forall_mem_cons.2 ⟨hc, fun d hd => List.mem_takeWhile_imp hd⟩
      · rw [hword, Text.stripLeft, List.append_assoc, List.cons_append,
          List.takeWhile_append_dropWhile]
    · cases h
  · cases h

theorem ofArrow_eq_unknown_or {typeOf : Typing} (y : Text) (isAsync : Bool) :
    ofArrow typeOf y isAsync = .unknown ∨ (ofArrow typeOf y isAsync).kind = .function ∧
      ∃ read, arrowParameters? y (skipBlank y (readGenerics y 0).2) = some read := by
  unfold ofArrow
  dsimp only
  cases hread : arrowParameters? y (skipBlank y (readGenerics y 0).2) with
  | none => exact .inl rfl
  | some read =>
    obtain ⟨parameters, after⟩ := read
    dsimp only
    cases findOutermost? after "=>".toList 0 true with
    | none => exact .inl rfl
    | some arrow => exact .inr ⟨rfl, _, rfl⟩

theorem exists_front_async {mark y : Text} {isAsync : Bool} {i : Nat} {read : List Text × Text}
    (hmark : AsyncMark mark isAsync) (hy : y.head?.any Text.isBlank = false)
    (hread : arrowParameters? y (skipBlank y (readGenerics y 0).2) = some read)
    (harrow : findOutermost? (mark ++ y) "=>".toList 0 true = some i) :
    ∃ f : ArrowFront, f.text = (mark ++ y).take i ∧ f.Begins (mark ++ y) := by
  obtain ⟨c, t, rfl, hgap, hslash⟩ := exists_cons_of_arrowParameters? hy hread
  rw [findOutermost?_behind hmark.bypassed hgap hslash] at harrow
  obtain ⟨j, hj, rfl⟩ := Option.map_eq_some_iff.1 harrow
  obtain ⟨⟨_, generics, gap, parameters, others⟩, rfl, htext, hbegins⟩ := exists_front hy hread hj
  refine ⟨⟨mark, generics, gap, parameters, others⟩, ?_, ⟨⟨_, hmark⟩, ?_, hbegins.gap, ?_⟩⟩
  · rw [List.take_length_add_append, ← htext]
    rfl
  · rw [List.drop_left]
    exact hbegins.generics
  · rw [List.drop_left]
    exact hbegins.parameters

/-- **In front of the first arrow of a function** stand the parts of a function, and whatever
else. -/
theorem infer_front {value x : Text} (hx : Text.stripSemicolon (stripComments value) = x)
    (hfunction : "function".toList.isPrefixOf ((afterAsync? x).getD x) = false) {i : Nat}
    (harrow : findOutermost? x "=>".toList 0 true = some i) (isConst : Bool) :
    infer value isConst = .unknown ∨ (infer value isConst).kind = .function ∧
      ∃ f : ArrowFront, f.text = x.take i ∧ f.Begins x := by
  have hne : x.isEmpty = false := by
    cases x with
    | nil => simp [findOutermost?, outermost, visits, visitsFrom, outermostFrom] at harrow
    | cons c t => rfl
  have hexpr : isFunctionExpression x = true := by
    rw [isFunctionExpression, harrow, Option.isSome_some, Bool.or_true]
  have hof : infer value isConst =
      ofArrow infer ((afterAsync? x).getD x) (afterAsync? x).isSome := by
    rw [infer_eq, layer, hx]
    simp only [hne, Bool.false_eq_true, if_false]
    rw [ofExpression, if_pos hexpr, ofFunction, hfunction]
    rfl
  rw [hof]
  rcases @ofArrow_eq_unknown_or infer ((afterAsync? x).getD x) (afterAsync? x).isSome with
    hunknown | ⟨hkind, read, hread⟩
  · exact .inl hunknown
  refine .inr ⟨hkind, ?_⟩
  cases hafter : afterAsync? x with
  | none =>
    have hhead : x.head?.any Text.isBlank = false := by
      rw [← hx]
      exact head?_stripSemicolon _
    rw [hafter, Option.getD_none] at hread
    exact exists_front_async .none hhead hread harrow
  | some y =>
    obtain ⟨blanks, hblanks, hall, rfl, hy⟩ := exists_async hafter
    rw [hafter, Option.getD_some] at hread
    exact exists_front_async (.async hblanks hall) hy hread harrow

/-- **Where arrows are seen.**

* With an arrow outside brackets, a value that is not written with the keyword has a function type
  only if it begins with the parts of a function in front of the first arrow, and else no type.
* Without one it has a function type only if it is a function in brackets or one that is asserted to
  be constant.
* A list of parameters that closes its angle brackets, with an arrow and an expression, has the
  function type of its parameters and of that expression, in a promise if it is asynchronous. -/
theorem infer_arrow (value : Text) (isConst : Bool) :
    (∀ (x : Text) (i : Nat), Text.stripSemicolon (stripComments value) = x →
      "function".toList.isPrefixOf ((afterAsync? x).getD x) = false →
      findOutermost? x "=>".toList 0 true = some i →
        infer value isConst = .unknown ∨ (infer value isConst).kind = .function ∧
          ∃ f : ArrowFront, f.text = x.take i ∧ f.Begins x) ∧
    (∀ x : Text, Text.stripSemicolon (stripComments value) = x →
      "function".toList.isPrefixOf ((afterAsync? x).getD x) = false →
      findOutermost? x "=>".toList 0 true = none →
      (infer value isConst).kind = .function →
        (isBracketed x '(' = true ∧ (infer (x.drop 1).dropLast isConst).kind = .function) ∨
          ∃ inner, assertion? x = some ⟨inner, .cast, "const".toList⟩ ∧
            (infer inner true).kind = .function) ∧
    ∀ (mark parameters body : Text) (isAsync : Bool), value = arrowText mark parameters body →
      AsyncMark mark isAsync → Closed parameters → anglesAfter 0 (visits parameters) = 0 →
      body.Tight → body.head? ≠ some '{' →
      LeavesSlashes parameters (')' :: (" => ".toList ++ body)) →
      stripComments (arrowText mark parameters body) = arrowText mark parameters body →
        infer value isConst =
          functionType none (parameterList (splitTypedCommas parameters))
            (if isAsync then promised (infer body false).text else (infer body false).text) := by
  refine ⟨fun x i hx hfunction harrow => infer_front hx hfunction harrow isConst,
    fun x hx hfunction hnone hkind => ?_, ?_⟩
  · have hexpr : isFunctionExpression x = false := by
      rw [isFunctionExpression, hfunction, hnone]
      rfl
    refine function_of_kind hexpr ?_
    rw [infer_eq, layer, hx] at hkind
    by_cases hempty : x.isEmpty = true
    · simp only [hempty, if_true] at hkind
      cases hkind
    · simpa only [hempty, Bool.false_eq_true, if_false] using hkind
  · rintro mark parameters body isAsync rfl hmark hp hangles hb hbrace hslash hcomments
    exact infer_arrowText hmark hp hangles hb hbrace hslash hcomments isConst

/-- Type parameters, a function in brackets, and a list with types and a function of its own. -/
theorem infer_arrow_recognised :
    ((infer "async <T>(items: T[]) => items".toList false).kind = .function ∧
      ∃ f : ArrowFront, f.text = "async <T>(items: T[]) ".toList ∧
        f.Begins "async <T>(items: T[]) => items".toList) ∧
    ((infer "((x) => x)".toList false).kind = .function ∧
      ((isBracketed "((x) => x)".toList '(' = true ∧
          (infer "(x) => x".toList false).kind = .function) ∨
        ∃ inner, assertion? "((x) => x)".toList = some ⟨inner, .cast, "const".toList⟩ ∧
          (infer inner true).kind = .function)) ∧
    infer (arrowText ("async".toList ++ ['\n']) "a: Map<string, A>, f = (x) => x / 2".toList
        "[f(a) / 2, 'b']".toList) false =
      ⟨"(a: Map<string, A>, f?: (x: unknown) => unknown) => Promise<Array<unknown | 'b'>>".toList,
        .function⟩ := by
  refine ⟨?_, ?_, ?_⟩
  · have hkind : infer "async <T>(items: T[]) => items".toList false ≠ .unknown := by
      decide +kernel
    exact ((infer_arrow _ false).1 "async <T>(items: T[]) => items".toList 22 (by decide +kernel)
      (by decide +kernel) (by decide +kernel)).resolve_left hkind
  · have hkind : (infer "((x) => x)".toList false).kind = .function := by decide +kernel
    exact ⟨hkind, (infer_arrow _ false).2.1 "((x) => x)".toList (by decide +kernel)
      (by decide +kernel) (by decide +kernel) hkind⟩
  · have hmark : AsyncMark ("async".toList ++ ['\n']) true := .async (by simp) (by decide)
    rw [(infer_arrow _ false).2.2 _ _ _ true rfl hmark (by decide +kernel) (by decide +kernel)
      ⟨⟨'[', rfl, by decide⟩, ⟨']', rfl, by decide, by decide⟩⟩ (by decide) (by decide +kernel)
      (by decide +kernel)]
    decide +kernel

/-- An arrow is seen behind a condition too, the keyword only with white space behind it, and a
comparison or a slash in a default value can hide the arrow. -/
theorem infer_arrow_disguised :
    (infer "a ? b : (x) => x".toList false =
        ⟨"(a: unknown) => unknown".toList, .function⟩ ∧
      infer "async(x) => 1".toList false = ⟨"(async: unknown) => number".toList, .function⟩ ∧
      infer "((x) => x)".toList false = ⟨"(x: unknown) => unknown".toList, .function⟩ ∧
      infer "(a = 1 < 2) => a".toList false = .unknown ∧
      infer "(a = i++ / 2) => a / 2".toList false = .unknown) := by
  decide +kernel

end ModuleSurface.Narrowing
