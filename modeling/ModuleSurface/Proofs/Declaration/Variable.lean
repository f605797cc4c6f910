import ModuleSurface.Declaration.Classify
import ModuleSurface.Proofs.Callable.Header
import ModuleSurface.Proofs.Narrowing.Value

/-!
# What a statement with a value declares

The export of a value under a name is one statement (`segments_valueStatement`), and it declares a
variable with the value as it is written (`classify_valueStatement`).
-/

namespace ModuleSurface.Declaration

open ModuleSurface.Lexing
open ModuleSurface.Callable
open ModuleSurface.Narrowing
open ModuleSurface.Statement

/-- The keyword of a constant or of a variable. -/
def bindingKeyword (isConst : Bool) : Text :=
  if isConst then "const".toList else "let".toList

/-- A name and the value that is assigned to it. -/
def assignment (name : Identifier) (v : Value) : Text :=
  name.text ++ ' ' :: '=' :: ' ' :: v.print

/-- The statement that exports a value under a name. -/
def valueStatement (isConst : Bool) (name : Identifier) (v : Value) : Text :=
  "export ".toList ++ (bindingKeyword isConst ++ ' ' :: assignment name v)

variable (isConst : Bool) (name : Identifier) (v : Value)

/-! ## The statement -/

theorem inert_assignment : Inert (fun c => c ≠ ',' ∧ c ≠ ';' ∧ c ≠ '\n') (assignment name v) := by
  have hname : ∀ c, Text.isIdentChar c = true → Plain c ∧ c ≠ ',' ∧ c ≠ ';' ∧ c ≠ '\n' := by
    intro c hc
    refine ⟨plain_of_isIdentChar hc, ?_, ?_, ?_⟩ <;>
    · rintro rfl
      exact absurd hc (by decide)
  refine (Inert.plain (name.forall_chars hname)).append
    ((Inert.plain (t := [' ', '=', ' ']) (by decide)).append ?_)
  refine v.written_print.inert.mono fun c hc => ⟨?_, ?_, ?_⟩ <;>
  · rintro rfl
    exact hc (by decide)

/-- The statement is its value behind keywords and a name. -/
theorem valueStatement_eq :
    valueStatement isConst name v =
      "export ".toList ++ (bindingKeyword isConst ++ ' ' :: (name.text ++ [' ', '='])) ++
        ' ' :: v.print := by
  unfold valueStatement assignment
  simp only [List.append_assoc, List.cons_append, List.nil_append]

theorem inert_valueStatement :
    Inert (fun c => c ≠ ';' ∧ c ≠ '\n') (valueStatement isConst name v) := by
  have hkeywords : Inert (fun c => c ≠ ';' ∧ c ≠ '\n')
      ("export ".toList ++ (bindingKeyword isConst ++ [' '])) :=
    .plain (by cases isConst <;> decide)
  have hall := hkeywords.append ((inert_assignment name v).mono fun _ h => h.2)
  rw [List.append_assoc, List.append_assoc, List.singleton_append] at hall
  exact hall

/-- The end of a statement is the end of its value. -/
theorem getLast?_valueStatement :
    (valueStatement isConst name v).getLast? = v.print.getLast? := by
  obtain ⟨c, hc, -⟩ := v.written_print.last
  rw [valueStatement_eq, List.append_cons, List.getLast?_append, Option.mem_def.1 hc]
  rfl

theorem tight_valueStatement : (valueStatement isConst name v).Tight := by
  obtain ⟨c, hc, hend⟩ := v.written_print.tight.last
  exact ⟨⟨'e', rfl, by decide⟩, ⟨c, by rwa [getLast?_valueStatement], hend⟩⟩

/-- A text ends with no sign that has another last character. -/
theorem isSuffixOf_of_getLast? {sign t : Text} (hne : sign ≠ [])
    (hlast : sign.getLast? ≠ t.getLast?) : sign.isSuffixOf t = false := by
  rw [Bool.eq_false_iff]
  intro h
  apply hlast
  obtain ⟨u, hu⟩ := List.isSuffixOf_iff_suffix.1 h
  have hget := congrArg List.getLast? hu
  rwa [List.getLast?_append_of_ne_nil _ hne] at hget

/-- Behind a sign there is no last word. -/
theorem lastWord_of_getLast? {t : Text} {c : Char} (h : t.getLast? = some c)
    (hc : Text.isIdentChar c = false) : lastWord t = [] := by
  obtain ⟨u, rfl⟩ := List.getLast?_eq_some_iff.1 h
  simp [lastWord, hc]

/-- The last word of a text has only characters from behind the last blank. -/
theorem mem_of_mem_lastWord {front t : Text} {c : Char} (h : c ∈ lastWord (front ++ ' ' :: t)) :
    c ∈ t := by
  have hrev : (front ++ ' ' :: t).reverse = t.reverse ++ ' ' :: front.reverse := by
    simp
  rw [lastWord, hrev] at h
  split at h
  · cases h
  · rw [List.mem_reverse, List.takeWhile_append] at h
    split at h
    · rw [List.takeWhile_cons_of_neg (by decide), List.append_nil] at h
      exact List.mem_reverse.1 h
    · exact List.mem_reverse.1 ((List.takeWhile_prefix _).subset h)

/-- A last word that is all there is behind the last blank. -/
theorem lastWord_append (front : Text) {t : Text} (ht : ∀ c ∈ t, Text.isIdentChar c = true) :
    lastWord (front ++ ' ' :: t) = t := by
  have hrev : (front ++ ' ' :: t).reverse = t.reverse ++ ' ' :: front.reverse := by
    simp
  have hall : ∀ c ∈ t.reverse, Text.isIdentChar c = true := fun c hc => ht c (List.mem_reverse.1 hc)
  have hblank : ¬ Text.isIdentChar ' ' = true := by decide
  rw [lastWord, hrev, List.dropWhile_append_of_pos hall, List.dropWhile_cons_of_neg hblank,
    List.takeWhile_append_of_pos hall, List.takeWhile_cons_of_neg hblank, List.append_nil,
    List.reverse_reverse]
  rfl

/-- No leaf ends with a word that needs more. -/
theorem lastWord_leaf (l : Leaf) (front : Text) :
    lastWord (front ++ ' ' :: l.text) ∉ openWords := by
  cases l with
  | string q body =>
    have hlast : (front ++ ' ' :: (Leaf.string q body).text).getLast? = some q.char := by
      show (front ++ ' ' :: (q.char :: body.1 ++ [q.char])).getLast? = _
      rw [← List.cons_append, ← List.append_assoc, List.getLast?_concat]
    rw [lastWord_of_getLast? hlast (by cases q <;> decide)]
    decide
  | number digits =>
    obtain ⟨t, hnumber, hblank⟩ := digits
    have hnumeral := numeral_of_number hnumber hblank
    have hwords : ∀ w ∈ openWords, w.any (!Literal.isNumberChar ·) = true := by decide
    intro hword
    obtain ⟨c, hc, hnot⟩ := List.any_eq_true.1 (hwords _ hword)
    rw [hnumeral.chars c (mem_of_mem_lastWord hc)] at hnot
    cases hnot
  | boolean value =>
    cases value <;> rw [lastWord_append front (by decide)] <;> decide
  | null =>
    rw [lastWord_append front (by decide)]
    decide
  | undefined =>
    rw [lastWord_append front (by decide)]
    decide

/-- No value ends with a word that needs more. -/
theorem lastWord_print (front : Text) : lastWord (front ++ ' ' :: v.print) ∉ openWords := by
  have hbracket : ∀ (b : Bracket) (t : Text),
      lastWord (front ++ ' ' :: (b.opener :: t ++ [b.closer])) ∉ openWords := by
    intro b t
    have hlast : (front ++ ' ' :: (b.opener :: t ++ [b.closer])).getLast? = some b.closer := by
      rw [← List.cons_append, ← List.append_assoc, List.getLast?_concat]
    rw [lastWord_of_getLast? hlast (by cases b <;> decide)]
    decide
  cases v with
  | leaf l =>
    rw [Value.print, Value.write_leaf]
    exact lastWord_leaf l front
  | array elements =>
    rw [Value.print_array]
    exact hbracket .square _
  | object entries =>
    obtain ⟨blanks, -, htext⟩ := Value.exists_print_object entries
    rw [htext]
    exact hbracket .brace _

/-- The statement does not go on in the next line. -/
theorem isIncomplete_valueStatement : isIncomplete (valueStatement isConst name v) = false := by
  have hlast := getLast?_valueStatement isConst name v
  obtain ⟨c, hc, hend⟩ := v.written_print.last
  rw [Option.mem_def.1 hc] at hlast
  have hdecorators : (stripDecorators (valueStatement isConst name v)).isEmpty = false := by
    have hstrip := stripDecorators_eq (c := 'e') (r := (valueStatement isConst name v).tail)
      (Text.stripLeft_cons (by decide) _) (by decide)
    rw [show 'e' :: (valueStatement isConst name v).tail = valueStatement isConst name v from rfl]
      at hstrip
    rw [hstrip]
    rfl
  -- the last character is that of an identifier or a closing sign, and no open sign ends with one
  have hany : ∀ signs : List Text, (∀ sign ∈ signs, sign.getLast?.any (fun d =>
      !Text.isIdentChar d && !closingSigns.contains d) = true) →
        signs.any (·.isSuffixOf (valueStatement isConst name v)) = false := by
    intro signs hsigns
    rw [List.any_eq_false]
    intro sign hsign
    obtain ⟨d, hd, hother⟩ := (Option.any_eq_true _ _).1 (hsigns sign hsign)
    have hne : sign.getLast? ≠ (valueStatement isConst name v).getLast? := by
      rw [hlast, hd]
      rintro ⟨⟩
      rcases hend with hend | hend <;> simp [hend] at hother
    rw [isSuffixOf_of_getLast? (by rintro rfl; cases hd) hne]
    exact Bool.false_ne_true
  have hslash : (some c == some '/') = false := by
    rw [beq_eq_false_iff_ne]
    rintro ⟨⟩
    exact absurd hend (by decide)
  have hword : openWords.contains (lastWord (valueStatement isConst name v)) = false := by
    rw [valueStatement_eq, Bool.eq_false_iff, ne_eq, List.contains_iff_mem]
    exact lastWord_print v _
  rw [isIncomplete, (inert_valueStatement isConst name v).stripComments,
    (tight_valueStatement isConst name v).stripRight_eq, hdecorators, hany _ (by decide),
    hany openSigns (by decide), hlast, hslash, hword]
  rfl

/-- **The export of a value is one statement.** -/
theorem segments_valueStatement :
    segments .module (valueStatement isConst name v ++ ['\n']) =
      ⟨[.segment ⟨0, valueStatement isConst name v, none, []⟩], .finished {}⟩ := by
  have hinert := inert_valueStatement isConst name v
  have hlast : (valueStatement isConst name v).getLast? ≠ some '\\' := by
    obtain ⟨c, hc, hend⟩ := v.written_print.last
    rw [getLast?_valueStatement, Option.mem_def.1 hc]
    rintro ⟨⟩
    exact absurd hend (by decide)
  exact segments_of_unbroken (c := 'e') (r := (valueStatement isConst name v).tail) hinert.closed
    (hinert.unbroken fun _ h => h) (fun _ => ⟨by decide, by decide, rfl, rfl⟩) hlast
    (isIncomplete_valueStatement isConst name v)

/-! ## The declaration -/

/-- The variable that a statement declares. -/
def ofValueStatement : Declaration where
  kind := .binding
  name := name.text
  raw := valueStatement isConst name v
  isExported := true
  modifiers := [bindingKeyword isConst]
  value := some v.print
  stop := (valueStatement isConst name v).length

theorem item_assignment : Item (assignment name v) where
  inert := (inert_assignment name v).mono fun _ h => h.1
  tight := name.tight.join v.written_print.tight [' ', '=', ' ']

/-- The equals sign at the start of a text assigns. -/
theorem findAssignment?_cons (t : Text) : findAssignment? ('=' :: ' ' :: t) = some 0 := by
  have hvisits : visits ('=' :: ' ' :: t) = _ :=
    (@Reads.plain {} rfl '=' (by decide) [] (' ' :: t) 0).visits_eq
  rw [findAssignment?, outermost, hvisits]
  rfl

/-- A name is read up to the blank behind it. -/
theorem readIdentifier_name (t : Text) :
    readIdentifier (name.text ++ ' ' :: t) 0 = (name.text, name.text.length) := by
  have hskip : skipBlank ([] ++ (name.text ++ ' ' :: t)) 0 = ([] : Text).length := by
    obtain ⟨c, r, hcons, -⟩ := name.exists_cons
    rw [hcons]
    exact Header.skipBlank_append
      (Text.isBlank_of_isIdentChar (name.valid.2 c (by simp [hcons]))) [] _
  have hread := Header.readIdentifier_append hskip name.valid.2 (by decide)
  rwa [List.nil_append, List.length_nil, Nat.zero_add] at hread

theorem ofDeclarator?_assignment (keyword : Text) (base : Declaration) :
    ofDeclarator? keyword (assignment name v) base =
      some { base with
        kind := .binding, name := name.text, modifiers := [keyword], declaredType := none
        value := some v.print } := by
  have hname : name.text.isEmpty = false := by
    obtain ⟨c, r, hcons, -⟩ := name.exists_cons
    rw [hcons]
    rfl
  have hblank : Text.stripLeft (' ' :: '=' :: ' ' :: v.print) = '=' :: ' ' :: v.print := rfl
  have hvalue : Text.strip (' ' :: v.print) = v.print := by
    have hstrip := v.written_print.tight.strip_between [' '] [] (by decide) (by simp)
    rwa [List.append_nil] at hstrip
  have hne : v.print.isEmpty = false := by
    simpa using v.written_print.tight.ne_nil
  unfold ofDeclarator? assignment
  simp only [readIdentifier_name, hname, List.drop_left, hblank, List.head?_cons,
    Option.some_beq_some, (by decide : ('=' == '!') = false), Bool.false_eq_true, if_false,
    findAssignment?_cons, List.take_zero, Option.bind_some, List.drop_succ_cons,
    List.drop_zero, hvalue, nonempty?, hne]
  rfl

theorem ofVariables_assignment (keyword : Text) (base : Declaration) :
    ofVariables keyword (assignment name v) base =
      .one { base with
        kind := .binding, name := name.text, modifiers := [keyword], declaredType := none
        value := some v.print } := by
  have hitem := item_assignment name v
  unfold ofVariables
  rw [hitem.tight.stripSemicolon_eq, hitem.splitTypedCommas]
  simp only [ofDeclarator?_assignment]

/-- A word stands at the start of a text only if it is the name there. -/
theorem startsWithName_eq_false {word name more : Text}
    (hword : ∀ c ∈ word, Text.isIdentChar c = true) (hname : ∀ c ∈ name, Text.isIdentChar c = true)
    (hmore : more.head?.any Text.isIdentChar = false) (hne : name ≠ word) :
    Text.startsWithName word (name ++ more) = false := by
  rw [Bool.eq_false_iff]
  intro h
  rw [Text.startsWithName, Bool.and_eq_true, Bool.not_eq_true'] at h
  obtain ⟨hbegins, hnext⟩ := h
  obtain ⟨r, hr⟩ := List.isPrefixOf_iff_prefix.1 hbegins
  rw [← hr, List.drop_left] at hnext
  have htake := Text.takeWhile_isIdentChar hword hnext
  rw [hr, Text.takeWhile_isIdentChar hname hmore] at htake
  exact hne htake

/-- The keyword in front of an assignment tells a variable. -/
theorem ofKeyword_assignment (hname : name.text ≠ "enum".toList) (base : Declaration)
    (hbase : base.isDefault = false) :
    ofKeyword (bindingKeyword isConst ++ ' ' :: assignment name v) base =
      ofVariables (bindingKeyword isConst) (assignment name v) base := by
  have hread : readIdentifier (bindingKeyword isConst ++ ' ' :: assignment name v) 0 =
      (bindingKeyword isConst, (bindingKeyword isConst).length) := by
    cases isConst <;> rfl
  have hrest : Text.stripLeft (' ' :: assignment name v) = assignment name v := by
    have hstrip := (item_assignment name v).tight.trimmed.stripLeft_append [' '] [] (by decide)
    rwa [List.append_nil, List.append_nil] at hstrip
  have henum : Text.startsWithName "enum".toList (assignment name v) = false :=
    startsWithName_eq_false (by decide) name.valid.2 rfl hname
  unfold ofKeyword
  simp only [hread, List.drop_left, hrest, henum, hbase, Bool.and_false, Bool.false_and,
    Bool.false_eq_true, if_false]
  cases isConst <;> rfl

/-- **The export of a value declares a variable with that value.** -/
theorem classify_valueStatement (hname : name.text ≠ "enum".toList) :
    classify (valueStatement isConst name v) 0 none = .one (ofValueStatement isConst name v) := by
  have hdecorators : stripDecorators (valueStatement isConst name v) =
      valueStatement isConst name v :=
    stripDecorators_eq (Text.stripLeft_cons (by decide) _) (by decide)
  have hbody : stripDecorators ((valueStatement isConst name v).drop 6) =
      bindingKeyword isConst ++ ' ' :: assignment name v := by
    obtain ⟨c, r, hcons, hblank, hat⟩ : ∃ c r,
        bindingKeyword isConst ++ ' ' :: assignment name v = c :: r ∧ Text.isBlank c = false ∧
          c ≠ '@' := by
      cases isConst
      · exact ⟨'l', _, rfl, by decide⟩
      · exact ⟨'c', _, rfl, by decide⟩
    have hdrop : (valueStatement isConst name v).drop 6 =
        ' ' :: (bindingKeyword isConst ++ ' ' :: assignment name v) := rfl
    rw [hdrop, hcons]
    exact stripDecorators_eq (Text.stripLeft_cons hblank r) hat
  have hexport : Text.startsWithName "export".toList (valueStatement isConst name v) = true := rfl
  have hpassthrough : ∀ base,
      ofPassthrough? (bindingKeyword isConst ++ ' ' :: assignment name v) base = none := by
    intro base
    cases isConst <;> rfl
  have hkeywords : ∀ word ∈ ["default", "declare"],
      dropKeyword? word (bindingKeyword isConst ++ ' ' :: assignment name v) = none := by
    intro word hword
    simp only [List.mem_cons, List.not_mem_nil, or_false] at hword
    rcases hword with rfl | rfl <;> cases isConst <;> rfl
  unfold classify
  simp only [hdecorators, hexport, hbody, hpassthrough, hkeywords "default" (by decide),
    hkeywords "declare" (by decide), if_true, ofAmbient,
    ofKeyword_assignment isConst name v hname, ofVariables_assignment, Nat.zero_add]
  rfl

end ModuleSurface.Declaration
