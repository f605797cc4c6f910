import ModuleSurface.Narrowing.Descent
import ModuleSurface.Proofs.Narrowing.Literal

/-!
# Values that are written out

A `Value` is a tree of literals, arrays and objects.  `Value.print` writes it in one line;
`Value.constType` and `Value.mutableType` are the types it has in a constant and in a variable.

* `Value.written_print` — a printed value is inert code, whatever stands in its strings;
* `Value.infer_print` — the inference finds the two types in the printed value.
-/

namespace ModuleSurface.Narrowing

open ModuleSurface.Lexing

/-! ## Values -/

/-- An identifier. -/
structure Identifier where
  /-- The identifier as written. -/
  text : Text
  /-- It begins like an identifier and goes on like one. -/
  valid : text.head?.any Text.isIdentStart = true ∧ ∀ c ∈ text, Text.isIdentChar c = true

/-- A value without values inside it. -/
inductive Leaf where
  /-- A string in quotes. -/
  | string (quote : Quote) (body : { t : Text // isStringBody quote.char t = true })
  /-- A number. -/
  | number (digits : { t : Text // Literal.isNumber t = true ∧ ∀ c ∈ t, Text.isBlank c = false })
  /-- A truth value. -/
  | boolean (value : Bool)
  /-- The value `null`. -/
  | null
  /-- The value `undefined`. -/
  | undefined

namespace Leaf

/-- The leaf as written. -/
def text : Leaf → Text
  | string quote body => quote.char :: body.1 ++ [quote.char]
  | number digits => digits.1
  | boolean value => (if value then "true" else "false").toList
  | null => "null".toList
  | undefined => "undefined".toList

/-- The type of a variable with the leaf as its value: numbers and truth values may change. -/
def mutableType : Leaf → Text
  | number _ => "number".toList
  | boolean _ => "boolean".toList
  | l => l.text

end Leaf

/-- A value that is written out. -/
inductive Value where
  /-- A literal. -/
  | leaf (l : Leaf)
  /-- An array. -/
  | array (elements : List Value)
  /-- An object. -/
  | object (entries : List (Identifier × Value))

/-- A way to write values: how a leaf is written, and how an array and an object are, given what is
written for the values inside. -/
structure Style where
  /-- A leaf. -/
  leaf : Leaf → Text
  /-- An array. -/
  array : List Text → Text
  /-- An object. -/
  object : List (Identifier × Text) → Text

/-- A key with a colon and what stands for its value. -/
def entryText (e : Identifier × Text) : Text :=
  e.1.text ++ ": ".toList ++ e.2

/-- Entries in curly brackets with a sign between them. -/
def braced (separator : String) (entries : List (Identifier × Text)) : Text :=
  if entries.isEmpty then "\x7b\x7d".toList
  else
    "\x7b ".toList ++ Text.join separator.toList (entries.map entryText) ++ " \x7d".toList

/-- The style of values in a source. -/
def Style.source : Style where
  leaf := Leaf.text
  array elements := "[".toList ++ Text.join ", ".toList elements ++ "]".toList
  object := braced ", "

/-- The style of the types of constants: every leaf is its own type, and arrays are tuples. -/
def Style.constType : Style where
  leaf := Leaf.text
  array elements := "readonly [".toList ++ Text.join ", ".toList elements ++ "]".toList
  object := braced "; "

/-- The style of the types of variables: an array has the types of its elements, each once. -/
def Style.mutableType : Style where
  leaf := Leaf.mutableType
  array elements :=
    if elements.isEmpty then "never[]".toList
    else "Array<".toList ++ Text.join " | ".toList elements.eraseDups ++ ">".toList
  object := braced "; "

/-- The style of the type of a value. -/
def Style.type (isConst : Bool) : Style :=
  if isConst then .constType else .mutableType

namespace Value

/-- What is in an entry is smaller than the entries. -/
theorem sizeOf_lt_of_mem {entries : List (Identifier × Value)} {e : Identifier × Value}
    (h : e ∈ entries) : sizeOf e.2 < sizeOf entries := by
  have := List.sizeOf_lt_of_mem h
  obtain ⟨key, value⟩ := e
  simp only [Prod.mk.sizeOf_spec] at this ⊢
  omega

/-- The value in a style. -/
def write (style : Style) : Value → Text
  | leaf l => style.leaf l
  | array elements => style.array (elements.map (write style))
  | object entries => style.object (entries.map fun e => (e.1, write style e.2))
decreasing_by
  · decreasing_tactic
  · have := sizeOf_lt_of_mem ‹e ∈ entries›
    simp only [object.sizeOf_spec]
    omega

/-- The value as written in a source. -/
abbrev print (v : Value) : Text :=
  v.write .source

/-- Induction over values: an array and an object may use what holds of the values inside. -/
@[induction_eliminator]
theorem induction {motive : Value → Prop} (leaf : ∀ l, motive (.leaf l))
    (array : ∀ elements, (∀ e ∈ elements, motive e) → motive (.array elements))
    (object : ∀ entries, (∀ e ∈ entries, motive e.2) → motive (.object entries)) :
    ∀ v, motive v
  | .leaf l => leaf l
  | .array elements => array elements fun e _ => induction leaf array object e
  | .object entries => object entries fun e _ => induction leaf array object e.2
decreasing_by
  · have := List.sizeOf_lt_of_mem ‹e ∈ elements›
    simp only [Value.array.sizeOf_spec]
    omega
  · have := sizeOf_lt_of_mem ‹e ∈ entries›
    simp only [Value.object.sizeOf_spec]
    omega

@[simp] theorem write_leaf (style : Style) (l : Leaf) : (leaf l).write style = style.leaf l := by
  rw [write]

@[simp] theorem write_array (style : Style) (elements : List Value) :
    (array elements).write style = style.array (elements.map (write style)) := by
  rw [write]

@[simp] theorem write_object (style : Style) (entries : List (Identifier × Value)) :
    (object entries).write style =
      style.object (entries.map fun e => (e.1, e.2.write style)) := by
  rw [write]

end Value

/-! ## Printed values are inert -/

/-- The signs that no printed value has outside its brackets. -/
def outerSigns : Text :=
  [',', ':', '=', ';', '\n']

/-- The signs that may end a printed value. -/
def closingSigns : Text :=
  ['\'', '"', ')', ']', '}']

/-- A text that can stand for a value: inert, with nothing to strip, and complete at its end. -/
structure Written (t : Text) : Prop where
  /-- It is read alike everywhere. -/
  inert : Inert (· ∉ outerSigns) t
  /-- It begins with something else than white space. -/
  head : ∃ c ∈ t.head?, Text.isBlank c = false
  /-- It ends with an identifier character or a closing sign. -/
  last : ∃ c ∈ t.getLast?, Text.isIdentChar c = true ∨ c ∈ closingSigns

theorem Written.tight {t : Text} (h : Written t) : t.Tight := by
  refine ⟨h.head, ?_⟩
  obtain ⟨c, hc, hident | hsign⟩ := h.last
  · refine ⟨c, hc, Text.isBlank_of_isIdentChar hident, ?_⟩
    rintro rfl
    exact absurd hident (by decide)
  · have hsigns : ∀ d ∈ closingSigns, Text.isBlank d = false ∧ d ≠ ';' := by decide
    exact ⟨c, hc, hsigns c hsign⟩

theorem Identifier.forall_chars (k : Identifier) {p : Char → Prop}
    (hp : ∀ c, Text.isIdentChar c = true → p c) : ∀ c ∈ k.text, p c :=
  fun c hc => hp c (k.valid.2 c hc)

theorem Identifier.exists_cons (k : Identifier) :
    ∃ c t, k.text = c :: t ∧ Text.isIdentStart c = true := by
  obtain ⟨text, hstart, hchars⟩ := k
  cases text with
  | nil => cases hstart
  | cons c t => exact ⟨c, t, rfl, hstart⟩

theorem Identifier.tight (k : Identifier) : k.text.Tight := by
  have hne : k.text ≠ [] := by
    obtain ⟨c, t, hcons, -⟩ := k.exists_cons
    simp [hcons]
  refine ⟨⟨_, List.head?_eq_some_head hne, ?_⟩, ⟨_, List.getLast?_eq_some_getLast hne, ?_, ?_⟩⟩
  · exact Text.isBlank_of_isIdentChar (k.valid.2 _ (List.head_mem hne))
  · exact Text.isBlank_of_isIdentChar (k.valid.2 _ (List.getLast_mem hne))
  · intro hsemicolon
    have hident := k.valid.2 _ (List.getLast_mem hne)
    rw [hsemicolon] at hident
    exact absurd hident (by decide)

theorem not_mem_outerSigns {p : Char → Bool} (hp : ∀ d ∈ outerSigns, p d = false) {c : Char}
    (hc : p c = true) : c ∉ outerSigns := by
  intro h
  rw [hp c h] at hc
  cases hc

/-- A bracket around an inert text is a value. -/
theorem Written.bracket (b : Bracket) {allowed : Char → Prop} {t : Text} (h : Inert allowed t) :
    Written (b.opener :: t ++ [b.closer]) where
  inert := (h.bracket b).mono fun c hc => by rw [hc]; cases b <;> decide
  head := ⟨b.opener, rfl, by cases b <;> decide⟩
  last := ⟨b.closer, List.getLast?_concat, .inr (by cases b <;> decide)⟩

theorem numeral_of_number {t : Text} (h : Literal.isNumber t = true)
    (hblank : ∀ c ∈ t, Text.isBlank c = false) : Literal.Numeral t := by
  refine Literal.numeral_of_isNumber h fun hlast => ?_
  exact absurd (hblank _ (List.mem_of_getLast? hlast)) (by decide)

theorem Leaf.written_text (l : Leaf) : Written l.text := by
  cases l with
  | string q body =>
    exact ⟨.string q (isEscaped_of_isStringBody body.2), ⟨q.char, rfl, by cases q <;> decide⟩,
      ⟨q.char, List.getLast?_concat, .inr (by cases q <;> decide)⟩⟩
  | number digits =>
    obtain ⟨t, hnumber, hblank⟩ := digits
    have hnumeral := numeral_of_number hnumber hblank
    obtain ⟨c, hc, hident⟩ := hnumeral.last
    refine ⟨.plain fun d hd => ⟨plain_of_pred (hnumeral.chars d hd) (by decide),
      not_mem_outerSigns (by decide) (hnumeral.chars d hd)⟩, ?_, ⟨c, hc, .inl hident⟩⟩
    cases t with
    | nil => cases hc
    | cons d t => exact ⟨d, rfl, hblank d List.mem_cons_self⟩
  | boolean value =>
    cases value <;> exact ⟨.plain (by decide), ⟨_, rfl, by decide⟩, ⟨_, rfl, .inl (by decide)⟩⟩
  | null => exact ⟨.plain (by decide), ⟨_, rfl, by decide⟩, ⟨_, rfl, .inl (by decide)⟩⟩
  | undefined => exact ⟨.plain (by decide), ⟨_, rfl, by decide⟩, ⟨_, rfl, .inl (by decide)⟩⟩

theorem Written.item {t : Text} (h : Written t) : Item t where
  inert := h.inert.mono fun c hc => by
    rintro rfl
    exact hc (by decide)
  tight := h.tight

/-- A key in front of a value is an item too. -/
theorem Written.entry {t : Text} (h : Written t) (k : Identifier) : Item (entryText (k, t)) where
  inert := by
    have hkey : ∀ c, Text.isIdentChar c = true → Plain c ∧ c ≠ ',' := by
      intro c hc
      refine ⟨plain_of_isIdentChar hc, ?_⟩
      rintro rfl
      exact absurd hc (by decide)
    exact ((Inert.plain (k.forall_chars hkey)).append (.plain (by decide))).append h.item.inert
  tight := by
    rw [entryText, List.append_assoc]
    exact k.tight.join h.tight ": ".toList

/-- Entries in curly brackets are written with a blank at both ends, unless there are none. -/
theorem exists_braced (separator : String) (entries : List (Identifier × Text)) :
    ∃ blanks : Text, (∀ c ∈ blanks, c = ' ') ∧ braced separator entries =
      '{' :: (blanks ++ Text.join separator.toList (entries.map entryText) ++ blanks) ++ ['}'] := by
  rw [braced]
  split
  · rename_i h
    rw [List.isEmpty_iff.1 h]
    exact ⟨[], by simp, rfl⟩
  · exact ⟨[' '], by simp, by simp⟩

namespace Value

/-- What stands between the brackets of an array. -/
def elementTexts (elements : List Value) : List Text :=
  elements.map print

/-- What stands between the brackets of an object. -/
def entryTexts (entries : List (Identifier × Value)) : List Text :=
  entries.map fun e => entryText (e.1, e.2.print)

theorem print_array (elements : List Value) :
    (array elements).print =
      '[' :: Text.join ", ".toList (elementTexts elements) ++ [']'] := by
  rw [print, write_array]
  rfl

theorem exists_print_object (entries : List (Identifier × Value)) :
    ∃ blanks : Text, (∀ c ∈ blanks, c = ' ') ∧ (object entries).print =
      '{' :: (blanks ++ Text.join ", ".toList (entryTexts entries) ++ blanks) ++ ['}'] := by
  obtain ⟨blanks, hblanks, htext⟩ := exists_braced ", " (entries.map fun e => (e.1, e.2.print))
  refine ⟨blanks, hblanks, ?_⟩
  rw [List.map_map] at htext
  rw [print, write_object]
  exact htext

theorem inert_between {blanks : Text} (hblanks : ∀ c ∈ blanks, c = ' ') {ts : List Text}
    (h : ∀ t ∈ ts, Item t) :
    Inert (fun _ => True) (blanks ++ Text.join ", ".toList ts ++ blanks) := by
  have hends : Inert (fun _ => True) blanks := (inert_blanks hblanks).mono fun _ _ => trivial
  exact (hends.append (inert_items h)).append hends

/-- **A printed value is inert code**, whatever stands in its strings. -/
theorem written_print (v : Value) : Written v.print := by
  induction v with
  | leaf l =>
    rw [print, write_leaf]
    exact l.written_text
  | array elements ih =>
    rw [print_array]
    refine Written.bracket .square (inert_items fun t ht => ?_)
    obtain ⟨e, he, rfl⟩ := List.mem_map.1 ht
    exact (ih e he).item
  | object entries ih =>
    obtain ⟨blanks, hblanks, htext⟩ := exists_print_object entries
    rw [htext]
    refine Written.bracket .brace (inert_between hblanks fun t ht => ?_)
    obtain ⟨e, he, rfl⟩ := List.mem_map.1 ht
    exact (ih e he).entry e.1

theorem item_of_mem_elementTexts (elements : List Value) :
    ∀ t ∈ elementTexts elements, Item t := by
  intro t ht
  obtain ⟨e, -, rfl⟩ := List.mem_map.1 ht
  exact e.written_print.item

theorem item_of_mem_entryTexts (entries : List (Identifier × Value)) :
    ∀ t ∈ entryTexts entries, Item t := by
  intro t ht
  obtain ⟨e, -, rfl⟩ := List.mem_map.1 ht
  exact e.2.written_print.entry e.1

end Value

/-! ## The rules that do not apply -/

/-- Blanks in front of a value do not matter. -/
theorem infer_blanks {t : Text} (h : Written t) (blanks : Text) (hblanks : ∀ c ∈ blanks, c = ' ')
    (isConst : Bool) : infer (blanks ++ t) isConst = ofExpression infer t isConst := by
  have hinert : Inert (fun _ => True) (blanks ++ t) :=
    ((inert_blanks hblanks).mono fun _ _ => trivial).append (h.inert.mono fun _ _ => trivial)
  have hstrip : Text.stripSemicolon (blanks ++ t) = t := by
    refine h.tight.stripSemicolon_append blanks fun c hc => ?_
    rw [hblanks c hc]
    decide
  rw [infer_eq, layer, hinert.stripComments, hstrip]
  simp [h.tight.ne_nil]

/-- Nothing is a function that begins with none of its keywords and has no arrow. -/
theorem isFunctionExpression_of_arrow {t : Text}
    (harrow : findOutermost? t "=>".toList 0 true = none)
    (hasync : "async".toList.isPrefixOf t = false)
    (hfunction : "function".toList.isPrefixOf t = false) : isFunctionExpression t = false := by
  have hafter : Callable.afterAsync? t = none := by
    rw [Callable.afterAsync?, Callable.afterWord?, Text.after?, hasync]
    rfl
  rw [isFunctionExpression, hafter, harrow, Option.getD_none, hfunction]
  rfl

theorem isFunctionExpression_eq_false {t : Text} (h : InertAt (· ∉ outerSigns) {} [] t [] 0)
    (hasync : "async".toList.isPrefixOf t = false)
    (hfunction : "function".toList.isPrefixOf t = false) : isFunctionExpression t = false :=
  isFunctionExpression_of_arrow (h.findOutermost?_eq_none (c := '=') (by decide) ['>'] 0 true)
    hasync hfunction

/-- Nothing is asserted in a text without an asserting word outside its brackets. -/
theorem assertion?_of_visits {t : Text}
    (h : ∀ word : AssertionWord, ∀ v ∈ visits t, v.state.depth = 0 → v.begins word.text = false) :
    assertion? t = none := by
  have hword : ∀ word, lastAssertion? t word = none := by
    intro word
    have hnone : (outermost t false).filter (·.begins word.text) = [] := by
      rw [List.filter_eq_nil_iff]
      intro v hv
      obtain ⟨hmem, hdepth⟩ := mem_of_mem_outermostFrom hv
      rw [h word v hmem hdepth]
      exact Bool.false_ne_true
    rw [lastAssertion?, findLastOutermost?, hnone]
    rfl
  rw [assertion?, assertionPlace?, hword, hword]

/-- The asserting words begin with two letters. -/
theorem char_of_begins_word {v : Visit} {w : AssertionWord} (h : v.begins w.text = true) :
    v.char = 'a' ∨ v.char = 's' := by
  cases w with
  | cast => exact .inl (Visit.char_of_begins "s".toList h)
  | satisfies => exact .inr (Visit.char_of_begins "atisfies".toList h)

theorem assertion?_of_inertAt {allowed : Char → Prop} {t : Text} (h : InertAt allowed {} [] t [] 0)
    (ha : ¬ allowed 'a') (hs : ¬ allowed 's') : assertion? t = none := by
  refine assertion?_of_visits fun word v hv hdepth => ?_
  rw [Bool.eq_false_iff]
  intro hbegins
  have hallowed := h.allowed_of_mem_visits hv hdepth
  rcases char_of_begins_word hbegins with hchar | hchar <;> rw [hchar] at hallowed
  · exact ha hallowed
  · exact hs hallowed

/-- The asserting words have the letter `s` in them. -/
theorem assertion?_of_not_mem {t : Text} (h : 's' ∉ t) : assertion? t = none := by
  refine assertion?_of_visits fun word v hv hdepth => ?_
  rw [Bool.eq_false_iff]
  intro hbegins
  rw [Visit.begins, Bool.and_eq_true, List.isPrefixOf_iff_prefix] at hbegins
  have hmem : 's' ∈ v.char :: v.rest :=
    hbegins.1.subset (by cases word <;> decide)
  apply h
  rw [← (placed_of_mem_visits hv).1]
  exact List.mem_append_right _ hmem

/-- A value is read by the rules for literals, arrays and objects. -/
theorem ofExpression_of_inertAt {t : Text} (h : InertAt (· ∉ outerSigns) {} [] t [] 0)
    (hasync : "async".toList.isPrefixOf t = false)
    (hfunction : "function".toList.isPrefixOf t = false) (hassertion : assertion? t = none)
    (isConst : Bool) :
    ofExpression infer t isConst =
      (ofLiteral? t isConst).getD (ofPrimary infer t isConst) := by
  rw [ofExpression, isFunctionExpression_eq_false h hasync hfunction, hassertion]
  rfl

theorem isPrefixOf_of_not_mem {word t : Text} {c : Char} (hc : c ∈ word) (ht : c ∉ t) :
    word.isPrefixOf t = false := by
  rw [Bool.eq_false_iff]
  intro h
  exact ht ((List.isPrefixOf_iff_prefix.1 h).subset hc)

/-- A value that begins with none of the letters of the keywords. -/
theorem ofExpression_of_head {c : Char} {t : Text}
    (h : InertAt (· ∉ outerSigns) {} [] (c :: t) [] 0) (hc : c ∉ ['a', 'f', 's'])
    (hassertion : assertion? (c :: t) = none) (isConst : Bool) :
    ofExpression infer (c :: t) isConst =
      (ofLiteral? (c :: t) isConst).getD (ofPrimary infer (c :: t) isConst) := by
  have hkeyword : ∀ d ∈ ['a', 'f', 's'], ∀ word, List.isPrefixOf (d :: word) (c :: t) = false := by
    intro d hd word
    have hne : d ≠ c := by
      rintro rfl
      exact hc hd
    simp [List.isPrefixOf, hne]
  exact ofExpression_of_inertAt h (hkeyword 'a' (by decide) "sync".toList)
    (hkeyword 'f' (by decide) "unction".toList) hassertion isConst

/-! ## Leaves -/

namespace Leaf

theorem ofExpression_string (q : Quote) (body : { t : Text // isStringBody q.char t = true })
    (isConst : Bool) :
    ofExpression infer (string q body).text isConst = .literal (string q body).text := by
  obtain ⟨t, ht⟩ : ∃ t, (string q body).text = q.char :: t := ⟨_, rfl⟩
  have hbody := isEscaped_of_isStringBody body.2
  have hassertion : assertion? (string q body).text = none :=
    assertion?_of_inertAt (Inert.string q hbody : Inert (fun _ => False) _).whole id id
  have hsingle : Literal.isSingle (string q body).text = true := Literal.isSingle_string q hbody
  have hwritten := (string q body).written_text
  have hquote : (q.char == '\'' || q.char == '"') = true ∧ q.char ∉ ['a', 'f', 's'] := by
    cases q <;> decide
  rw [ht] at hassertion hsingle hwritten ⊢
  have hliteral : ofLiteral? (q.char :: t) isConst = some (.literal (q.char :: t)) := by
    simp only [ofLiteral?, List.head?_cons, Option.any_some, hquote.1, hsingle, Bool.and_self,
      if_true]
  rw [ofExpression_of_head hwritten.inert.whole hquote.2 hassertion, hliteral]
  rfl

theorem ofExpression_number (digits : { t : Text // Literal.isNumber t = true ∧
      ∀ c ∈ t, Text.isBlank c = false }) (isConst : Bool) :
    ofExpression infer (number digits).text isConst =
      if isConst then .literal digits.1 else .reference "number".toList := by
  obtain ⟨t, hnumber, hblank⟩ := digits
  have hwritten : Written t := (number ⟨t, hnumber, hblank⟩).written_text
  have hnumeral := numeral_of_number hnumber hblank
  have hnot : ∀ c, Literal.isNumberChar c = false → c ∉ t := by
    intro c hc hmem
    rw [hnumeral.chars c hmem] at hc
    cases hc
  have hhead : ∀ c, Literal.isNumberChar c = false → (t.head? == some c) = false := by
    intro c hc
    rw [beq_eq_false_iff_ne]
    intro hsome
    exact hnot c hc (List.mem_of_head? hsome)
  have hquote : t.head?.any (fun c => c == '\'' || c == '"') = false := by
    have hsingle := hhead '\'' (by decide)
    have hdouble := hhead '"' (by decide)
    cases ht : t.head? with
    | none => rfl
    | some c =>
      rw [ht] at hsingle hdouble
      simpa using And.intro hsingle hdouble
  have hliteral : ofLiteral? t isConst =
      some (if isConst then .literal t else .reference "number".toList) := by
    simp only [ofLiteral?, hquote, hhead '\x60' (by decide), hnumber, Bool.false_and,
      Bool.false_eq_true, if_false, if_true]
  have hasync : "async".toList.isPrefixOf t = false :=
    isPrefixOf_of_not_mem (c := 's') (by decide) (hnot 's' (by decide))
  have hfunction : "function".toList.isPrefixOf t = false :=
    isPrefixOf_of_not_mem (c := 'u') (by decide) (hnot 'u' (by decide))
  have hassertion := assertion?_of_not_mem (hnot 's' (by decide))
  show ofExpression infer t isConst = _
  rw [ofExpression_of_inertAt hwritten.inert.whole hasync hfunction hassertion, hliteral,
    Option.getD_some]

/-- The type of a leaf in a constant or in a variable. -/
theorem infer_text (l : Leaf) (isConst : Bool) :
    (ofExpression infer l.text isConst).text = (Style.type isConst).leaf l ∧
      (ofExpression infer l.text isConst).kind ≠ .function := by
  cases l with
  | string q body =>
    rw [ofExpression_string]
    cases isConst <;> exact ⟨rfl, nofun⟩
  | number digits =>
    rw [ofExpression_number]
    cases isConst <;> exact ⟨rfl, nofun⟩
  | boolean value => cases value <;> cases isConst <;> decide +kernel
  | null => cases isConst <;> decide +kernel
  | undefined => cases isConst <;> decide +kernel

end Leaf

/-! ## Arrays and objects -/

/-- A literal ends with a quote or with a character of a name. -/
theorem ofLiteral?_eq_none {c d : Char} {t : Text} (hlast : (c :: t).getLast? = some d)
    (hd : Text.isIdentChar d = false) (hnewline : d ≠ '\n')
    (hquote : (c == '\'' || c == '"') = true → Literal.isSingle (c :: t) = false)
    (htemplate : c ≠ '\x60') (isConst : Bool) : ofLiteral? (c :: t) isConst = none := by
  have hdrop : Literal.dropNewline (c :: t) = c :: t := by
    simp [Literal.dropNewline, hlast, hnewline]
  have hnumber : Literal.isNumber (c :: t) = false := by
    rw [Bool.eq_false_iff]
    intro h
    obtain ⟨e, he, hident⟩ := (Literal.numeral_of_isNumber h (by simpa [hlast] using hnewline)).last
    rw [hlast] at he
    cases he
    rw [hd] at hident
    cases hident
  have hbigInt : Literal.isBigInt (c :: t) = false := by
    have hend : (Literal.dropMinus (c :: t)).getLast? ≠ some 'n' := by
      unfold Literal.dropMinus
      split
      · rename_i u heq
        obtain ⟨rfl, rfl⟩ := List.cons.inj heq
        intro hn
        rw [List.getLast?_cons, hn] at hlast
        cases hlast
        exact absurd hd (by decide)
      · rw [hlast]
        rintro ⟨⟩
        exact absurd hd (by decide)
    rw [Literal.isBigInt, hdrop]
    simp [hend]
  have hwords : ∀ word ∈ ["true", "false", "null", "undefined"], c :: t ≠ word.toList := by
    have hall : ∀ word ∈ ["true", "false", "null", "undefined"],
        word.toList.getLast?.any Text.isIdentChar = true := by decide
    intro word hword heq
    have hident := hall word hword
    rw [← heq, hlast, Option.any_some, hd] at hident
    cases hident
  have hsingle : ((c == '\'' || c == '"') && Literal.isSingle (c :: t)) = false := by
    cases hc : (c == '\'' || c == '"') with
    | false => rfl
    | true => exact hquote hc
  have hbacktick : (c == '\x60') = false := beq_false_of_ne htemplate
  simp only [ofLiteral?, List.head?_cons, Option.any_some, Option.some_beq_some, hsingle,
    hbacktick, hnumber, hbigInt, hwords "true" (by decide), hwords "false" (by decide),
    hwords "null" (by decide), hwords "undefined" (by decide), Bool.false_and, Bool.false_eq_true,
    or_self, if_false]

/-- A bracket is no literal. -/
theorem ofLiteral?_bracket (b : Bracket) (t : Text) (isConst : Bool) :
    ofLiteral? (b.opener :: t ++ [b.closer]) isConst = none := by
  have hquote : (b.opener == '\'' || b.opener == '"') = false ∧ b.opener ≠ '\x60' := by
    cases b <;> decide
  have hlast : (b.opener :: t ++ [b.closer]).getLast? = some b.closer := List.getLast?_concat
  have hend : Text.isIdentChar b.closer = false ∧ b.closer ≠ '\n' := by
    cases b <;> decide
  refine ofLiteral?_eq_none hlast hend.1 hend.2 (fun h => ?_) hquote.2 isConst
  rw [hquote.1] at h
  cases h

section

variable {allowed : Char → Prop} {t : Text}

theorem ofExpression_bracket {b : Bracket}
    (h : InertAt allowed (State.openBracket {} b 0) [b.opener] t [b.closer] (0 + 1))
    (isConst : Bool) :
    ofExpression infer (b.opener :: t ++ [b.closer]) isConst =
      ofPrimary infer (b.opener :: t ++ [b.closer]) isConst := by
  have hwhole : InertAt (· = b.opener) {} [] (b.opener :: t ++ [b.closer]) [] 0 :=
    h.bracket .fresh rfl
  have hletters : b.opener ∉ ['a', 'f', 's'] := by
    cases b <;> decide
  have hassertion : assertion? (b.opener :: t ++ [b.closer]) = none :=
    assertion?_of_inertAt hwhole (by cases b <;> decide) (by cases b <;> decide)
  have hsigns := hwhole.mono fun c hc => show c ∉ outerSigns by rw [hc]; cases b <;> decide
  have hexpr := ofExpression_of_head hsigns hletters hassertion isConst
  rw [show b.opener :: List.append t [b.closer] = b.opener :: t ++ [b.closer] from rfl,
    ofLiteral?_bracket] at hexpr
  exact hexpr

theorem ofExpression_array
    (h : InertAt allowed (State.openBracket {} .square 0) ['['] t [']'] (0 + 1)) (isConst : Bool) :
    ofExpression infer ('[' :: t ++ [']']) isConst = ofArray infer t isConst := by
  have hbracketed : isBracketed ('[' :: t ++ [']']) '[' = true :=
    InertAt.isBracketed (b := .square) h
  refine (ofExpression_bracket (b := .square) h isConst).trans ?_
  show ofPrimary infer ('[' :: t ++ [']']) isConst = _
  rw [ofPrimary, hbracketed, if_pos rfl]
  simp

theorem ofExpression_object
    (h : InertAt allowed (State.openBracket {} .brace 0) ['{'] t ['}'] (0 + 1)) (isConst : Bool) :
    ofExpression infer ('{' :: t ++ ['}']) isConst = ofObject infer t isConst := by
  have hsquare : isBracketed ('{' :: t ++ ['}']) '[' = false := rfl
  have hbracketed : isBracketed ('{' :: t ++ ['}']) '{' = true :=
    InertAt.isBracketed (b := .brace) h
  refine (ofExpression_bracket (b := .brace) h isConst).trans ?_
  show ofPrimary infer ('{' :: t ++ ['}']) isConst = _
  rw [ofPrimary, hsquare, hbracketed, if_neg Bool.false_ne_true, if_pos rfl]
  simp

end

theorem kind_ofArray (typeOf : Typing) (content : Text) (isConst : Bool) :
    (ofArray typeOf content isConst).kind ≠ .function := by
  simp only [ofArray]
  split
  · simp
  · split <;> simp

theorem kind_ofObject (typeOf : Typing) (content : Text) (isConst : Bool) :
    (ofObject typeOf content isConst).kind ≠ .function := by
  simp only [ofObject]
  split <;> simp

/-- No word with a blank behind it stands at the start of an entry. -/
theorem afterWord?_entry (k : Identifier) {word : Text}
    (hword : ∀ c ∈ word, Text.isIdentChar c = true) (t : Text) :
    Callable.afterWord? word (k.text ++ ':' :: t) = none := by
  rw [Callable.afterWord?]
  split
  · rename_i c rest hafter
    rw [Text.after?] at hafter
    split at hafter
    · rename_i hprefix
      obtain ⟨r, hr⟩ := List.isPrefixOf_iff_prefix.1 hprefix
      rw [← hr, Option.some.injEq, List.drop_left] at hafter
      rw [hafter] at hr
      have hblank : Text.isBlank c = false := by
        rcases List.append_eq_append_iff.1 hr with ⟨u, hk, hu⟩ | ⟨u, hw, hu⟩
        · cases u with
          | nil =>
            cases hu
            decide
          | cons d u =>
            cases hu
            exact Text.isBlank_of_isIdentChar (k.valid.2 c (by simp [hk]))
        · cases u with
          | nil =>
            cases hu
            decide
          | cons d u =>
            -- the word would have the colon in it
            cases hu
            exact absurd (hword ':' (by simp [hw])) (by decide)
      rw [if_neg (by simp [hblank])]
    · cases hafter
  · rfl

/-- A key in front of a colon is no method. -/
theorem parse?_entry (k : Identifier) (t : Text) :
    ObjectMethod.parse? (k.text ++ ':' :: t) = none := by
  have hkeyed : ObjectMethod.keyed? false none (k.text ++ ':' :: t) = none := by
    obtain ⟨c, r, hcons, hstart⟩ := k.exists_cons
    have hr : ∀ d ∈ r, Text.isIdentChar d = true := fun d hd => k.valid.2 d (by simp [hcons, hd])
    have hkey : ObjectMethod.key? (c :: (r ++ ':' :: t)) = some (c :: r, ':' :: t) := by
      have hcolon : ¬ Text.isIdentChar ':' = true := by decide
      rw [ObjectMethod.key?, if_pos hstart, List.takeWhile_append_of_pos hr,
        List.dropWhile_append_of_pos hr, List.takeWhile_cons_of_neg hcolon,
        List.dropWhile_cons_of_neg hcolon, List.append_nil]
    rw [hcons, List.cons_append, ObjectMethod.keyed?, hkey]
    rfl
  have haccessed : ObjectMethod.accessed? false (k.text ++ ':' :: t) = none := by
    rw [ObjectMethod.accessed?, afterWord?_entry k (by decide), afterWord?_entry k (by decide),
      hkeyed]
    rfl
  rw [ObjectMethod.parse?, Callable.afterAsync?, afterWord?_entry k (by decide), Option.bind_none,
    Option.none_or, ObjectMethod.starred?]
  · exact haccessed
  · intro rest hstar
    obtain ⟨c, r, hcons, hstart⟩ := k.exists_cons
    rw [hcons] at hstar
    cases hstar
    exact absurd hstart (by decide)

/-- The key of an entry ends at its colon. -/
theorem findOutermost?_entry (k : Identifier) (t : Text) :
    findOutermost? (k.text ++ ':' :: t) ":".toList 0 false = some k.text.length := by
  have hkey : Inert (· ≠ ':') k.text := by
    refine .plain (k.forall_chars fun c hc => ⟨plain_of_isIdentChar hc, ?_⟩)
    rintro rfl
    exact absurd hc (by decide)
  exact hkey.findOutermost?_sign (by decide) (by decide) t

/-- An identifier is written as it is. -/
theorem propertyKey?_identifier (k : Identifier) : propertyKey? k.text = some k.text := by
  obtain ⟨c, r, hcons, hstart⟩ := k.exists_cons
  have hstrip : Text.strip (c :: r) = c :: r := hcons ▸ k.tight.strip_eq
  have hident : Text.isIdentifier (c :: r) = true := by
    have hr : r.all Text.isIdentChar = true :=
      List.all_eq_true.2 fun d hd => k.valid.2 d (by simp [hcons, hd])
    simp [Text.isIdentifier, Text.allUpToNewline, hstart, hr]
  have hsquare : (c == '[') = false := by
    rw [beq_eq_false_iff_ne]
    rintro rfl
    exact absurd hstart (by decide)
  rw [hcons, propertyKey?, hstrip]
  simp [hsquare, hident]

/-- An entry of an object is an entry of its type. -/
theorem entryOf?_entry {t : Text} (h : Written t) (k : Identifier) (isConst : Bool) :
    entryOf? infer isConst (entryText (k, t)) = some (entryText (k, (infer t isConst).text)) := by
  have htext : entryText (k, t) = k.text ++ ':' :: (' ' :: t) := by
    simp [entryText]
  have hdots : "...".toList.isPrefixOf (k.text ++ ':' :: (' ' :: t)) = false := by
    obtain ⟨c, r, hcons, hstart⟩ := k.exists_cons
    have hne : '.' ≠ c := by
      rintro rfl
      exact absurd hstart (by decide)
    rw [hcons]
    simp [List.isPrefixOf, hne]
  have hvalue : infer (' ' :: t) isConst = infer t isConst := by
    have hblank := infer_blanks h [' '] (by simp) isConst
    have hnone := infer_blanks h [] (by simp) isConst
    exact hblank.trans hnone.symm
  have hdrop : (k.text ++ ':' :: (' ' :: t)).drop (k.text.length + 1) = ' ' :: t := by
    rw [← List.drop_drop, List.drop_left]
    rfl
  rw [htext, entryOf?, hdots, if_neg Bool.false_ne_true, parse?_entry, findOutermost?_entry]
  simp only [List.take_left, propertyKey?_identifier, hdrop, hvalue, Option.map_some, entryText]

namespace Value

/-- The type of an array whose elements have the given types. -/
theorem ofArray_elementTexts {elements : List Value} {isConst : Bool}
    (h : ∀ e ∈ elements, (infer e.print isConst).text = e.write (Style.type isConst) ∧
      (infer e.print isConst).kind ≠ .function) :
    (ofArray infer (Text.join ", ".toList (elementTexts elements)) isConst).text =
      (Style.type isConst).array (elements.map (write (Style.type isConst))) := by
  have hsplit : splitCommas (Text.join ", ".toList (elementTexts elements)) =
      elementTexts elements := by
    have hjoin := splitCommas_join (item_of_mem_elementTexts elements) [] [] (by simp) (by simp)
    rwa [List.nil_append, List.append_nil] at hjoin
  rw [ofArray, hsplit, elementTexts]
  cases isConst with
  | true =>
    have htexts : (elements.map print).map (fun e => (infer e true).text) =
        elements.map (write (Style.type true)) := by
      rw [List.map_map]
      exact List.map_congr_left fun e he => (h e he).1
    simp only [if_true, htexts]
    rfl
  | false =>
    have htexts : (elements.map print).map (fun e => (infer e false).inUnion) =
        elements.map (write (Style.type false)) := by
      rw [List.map_map]
      refine List.map_congr_left fun e he => ?_
      rw [← (h e he).1]
      exact if_neg (h e he).2
    simp only [Bool.false_eq_true, if_false, htexts]
    cases elements <;> rfl

/-- The type of an object whose values have the given types. -/
theorem ofObject_entryTexts {entries : List (Identifier × Value)} {isConst : Bool}
    (h : ∀ e ∈ entries, (infer e.2.print isConst).text = e.2.write (Style.type isConst))
    {blanks : Text} (hblanks : ∀ c ∈ blanks, c = ' ') :
    (ofObject infer (blanks ++ Text.join ", ".toList (entryTexts entries) ++ blanks) isConst).text =
      (Style.type isConst).object (entries.map fun e => (e.1, e.2.write (Style.type isConst))) := by
  have hstyle : (Style.type isConst).object = braced "; " := by
    cases isConst <;> rfl
  have hentries : (entryTexts entries).filterMap (entryOf? infer isConst) =
      (entries.map fun e => (e.1, e.2.write (Style.type isConst))).map entryText := by
    rw [entryTexts, List.filterMap_map, List.map_map, ← List.filterMap_eq_map]
    refine filterMap_congr_mem fun e he => ?_
    simp only [Function.comp_apply, entryOf?_entry e.2.written_print, h e he]
  rw [ofObject, splitCommas_join (item_of_mem_entryTexts entries) blanks blanks hblanks hblanks,
    hentries, hstyle, braced]
  cases entries <;> rfl

/-- **The types of a printed value.**  In a constant every leaf is its own type, and arrays are
tuples; in a variable numbers and truth values are widened, and an array has the types of its
elements. -/
theorem infer_print (v : Value) (isConst : Bool) :
    (infer v.print isConst).text = v.write (Style.type isConst) ∧
      (infer v.print isConst).kind ≠ .function := by
  have hexpr : ∀ v : Value, infer v.print isConst = ofExpression infer v.print isConst :=
    fun v => infer_blanks v.written_print [] (by simp) isConst
  induction v with
  | leaf l =>
    rw [hexpr, print, write_leaf, write_leaf]
    exact l.infer_text isConst
  | array elements ih =>
    have hinner := inert_items (item_of_mem_elementTexts elements)
    rw [hexpr, print_array, ofExpression_array (hinner.enclosed .square), write_array]
    exact ⟨ofArray_elementTexts ih, kind_ofArray _ _ _⟩
  | object entries ih =>
    obtain ⟨blanks, hblanks, htext⟩ := exists_print_object entries
    have hinner := inert_between hblanks (item_of_mem_entryTexts entries)
    rw [hexpr, htext, ofExpression_object (hinner.enclosed .brace), write_object]
    exact ⟨ofObject_entryTexts (fun e he => (ih e he).1) hblanks, kind_ofObject _ _ _⟩

end Value

end ModuleSurface.Narrowing
