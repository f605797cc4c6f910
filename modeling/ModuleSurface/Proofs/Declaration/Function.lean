import ModuleSurface.Declaration.Classify
import ModuleSurface.Proofs.Callable.Header
import ModuleSurface.Proofs.Statement.Single

/-!
# What a function statement declares

A header with a closed body behind it is one statement (`segments_header`), and it declares the
function that the header writes, whatever the body is: `classify_header`.
-/

namespace ModuleSurface.Declaration

open ModuleSurface.Lexing
open ModuleSurface.Callable
open ModuleSurface.Statement

variable {h : Header} {b : Text}

/-! ## The statement -/

/-- A header from the keyword `function` on begins with that word. -/
theorem exists_plainText (h : Header) :
    ∃ c rest, (c = ' ' ∨ c = '*') ∧ h.plainText = "function".toList ++ c :: rest := by
  unfold Header.plainText Header.namedText
  by_cases hgen : h.isGenerator = true
  · rw [if_pos hgen]
    exact ⟨'*', _, .inr rfl, rfl⟩
  · rw [if_neg hgen]
    exact ⟨' ', _, .inl rfl, rfl⟩

/-- A header begins with one of four words and a sign that is none of a name. -/
theorem exists_firstWord (h : Header) :
    ∃ c rest, (c = ' ' ∨ c = '*') ∧
      (h.text = "export".toList ++ c :: rest ∨ h.text = "default".toList ++ c :: rest ∨
        h.text = "async".toList ++ c :: rest ∨ h.text = "function".toList ++ c :: rest) := by
  unfold Header.text Header.defaultText Header.functionText
  by_cases hexport : h.isExported = true
  · rw [if_pos hexport]
    exact ⟨' ', _, .inl rfl, .inl rfl⟩
  rw [if_neg hexport]
  by_cases hdefault : h.isDefault = true
  · rw [if_pos hdefault]
    exact ⟨' ', _, .inl rfl, .inr (.inl rfl)⟩
  rw [if_neg hdefault]
  by_cases hasync : h.isAsync = true
  · rw [if_pos hasync]
    exact ⟨' ', _, .inl rfl, .inr (.inr (.inl rfl))⟩
  rw [if_neg hasync]
  obtain ⟨c, rest, hc, htext⟩ := exists_plainText h
  exact ⟨c, rest, hc, .inr (.inr (.inr htext))⟩

/-- What begins like a header does not continue the line in front. -/
theorem continues_header (h : Header) (more : Text) : continues (h.text ++ more) = false := by
  obtain ⟨c, rest, rfl | rfl, htext | htext | htext | htext⟩ := exists_firstWord h <;>
    rw [htext] <;> rfl

/-- A function statement is no control header. -/
theorem isControlHeader_header (h : Header) (more : Text) :
    isControlHeader (h.text ++ more) = false := by
  obtain ⟨c, rest, rfl | rfl, htext | htext | htext | htext⟩ := exists_firstWord h <;>
    rw [htext] <;> rfl

/-- A header begins with a letter. -/
theorem exists_text_cons (h : Header) :
    ∃ c t, h.text = c :: t ∧ Plain c ∧ Text.isBlank c = false ∧ c ≠ '@' ∧ c ≠ ';' := by
  obtain ⟨c, rest, -, htext | htext | htext | htext⟩ := exists_firstWord h <;>
    exact ⟨_, _, htext, by decide⟩

/-- **A header with a closed body is one statement**, whatever the body is. -/
theorem segments_header (hw : h.WellFormed) (hb : Closed b) :
    segments .module (h.withBody b ++ ['\n']) =
      ⟨[.segment ⟨0, h.withBody b, none, []⟩], .finished {}⟩ := by
  obtain ⟨c, t, htext, hplain, hblank, hat, hsemicolon⟩ := exists_text_cons h
  have hphrase : Phrase (c :: (t ++ [' '])) := by
    have happend := (Header.phrase_text hw).append (Phrase.of_plain (t := [' ']) (by decide))
    rwa [htext] at happend
  have hbody : h.withBody b = c :: (t ++ [' '] ++ ('{' :: b ++ ['}'])) := by
    rw [Header.withBody, htext]
    simp
  have hslash : c ≠ '/' := by
    rintro rfl
    exact absurd hplain (by decide)
  rw [hbody]
  apply segments_of_unbroken
  · exact hphrase.closed_bracketed .brace hb
  · exact hphrase.unbroken_bracketed .brace hb
  · have hcomment : ∀ d rest, List.isPrefixOf ['/', d] (c :: rest) = false := by
      intro d rest
      simp [List.isPrefixOf, Ne.symm hslash]
    intro _
    exact ⟨hblank, by simpa [Layout.module] using hsemicolon, hcomment '/' _, hcomment '*' _⟩
  · rw [← List.cons_append, Header.getLast?_block]
    decide
  · exact isIncomplete_of_bracketed .brace hphrase hb hplain hblank hat

/-! ## The declaration -/

/-- A function is told by its first keywords. -/
theorem ofKeyword_of_isFunction {body keyword : Text} {behind : Nat}
    (hread : readIdentifier body 0 = (keyword, behind))
    (hfunction : keyword = "function".toList ∨ keyword = "async".toList ∧
      Text.startsWithName "function".toList (Text.stripLeft (body.drop behind)) = true)
    (base : Declaration) : ofKeyword body base = ofFunction body base := by
  have hother : (keyword == "import".toList) = false ∧ (keyword == "const".toList) = false ∧
      (keyword == "let".toList) = false ∧ (keyword == "var".toList) = false := by
    rcases hfunction with rfl | ⟨rfl, -⟩ <;> decide
  obtain ⟨himport, hconst, hlet, hvar⟩ := hother
  have hisFunction : (keyword == "function".toList || (keyword == "async".toList &&
      Text.startsWithName "function".toList (Text.stripLeft (body.drop behind)))) = true := by
    rcases hfunction with rfl | ⟨rfl, hnext⟩
    · rfl
    · rw [hnext]
      rfl
  unfold ofKeyword
  simp only [hread, himport, hconst, hlet, hvar, hisFunction, Bool.true_or, Bool.not_true,
    Bool.and_false, Bool.false_and, Bool.or_false, Bool.false_eq_true, if_false, if_true]

/-- The marks and the keyword of a header tell a function. -/
theorem ofKeyword_header (h : Header) (more : Text) (base : Declaration) :
    ofKeyword (h.functionText ++ more) base = ofFunction (h.functionText ++ more) base := by
  obtain ⟨c, rest, hc, htext⟩ := exists_plainText h
  by_cases hasync : h.isAsync = true
  · rw [Header.functionText_of_async hasync, htext]
    have hread : readIdentifier ("async ".toList ++ ("function".toList ++ c :: rest) ++ more) 0 =
        ("async".toList, 5) := rfl
    refine ofKeyword_of_isFunction hread (.inr ⟨rfl, ?_⟩) base
    rcases hc with rfl | rfl <;> rfl
  · rw [Header.functionText_of_not_async hasync, htext]
    have hread : readIdentifier ("function".toList ++ c :: rest ++ more) 0 =
        ("function".toList, 8) := by
      rcases hc with rfl | rfl <;> rfl
    exact ofKeyword_of_isFunction hread (.inl rfl) base

/-- No keyword but its own stands at the front of a header. -/
theorem dropKeyword?_functionText (h : Header) (more : Text) :
    Text.startsWithName "export".toList (h.functionText ++ more) = false ∧
      dropKeyword? "default" (h.functionText ++ more) = none ∧
      dropKeyword? "declare" (h.functionText ++ more) = none ∧
      ofPassthrough? (h.functionText ++ more) = fun _ => none := by
  by_cases hasync : h.isAsync = true
  · rw [Header.functionText_of_async hasync]
    exact ⟨rfl, rfl, rfl, rfl⟩
  · rw [Header.functionText_of_not_async hasync]
    exact ⟨rfl, rfl, rfl, rfl⟩

theorem ofAmbient_functionText (h : Header) (more : Text) (base : Declaration) :
    ofAmbient (h.functionText ++ more) base = ofFunction (h.functionText ++ more) base := by
  rw [ofAmbient, (dropKeyword?_functionText h more).2.2.1]
  exact ofKeyword_header h more base

/-- A statement without its body is its header. -/
theorem functionHeader_header (hw : h.WellFormed) (hb : Closed b) :
    functionHeader (h.withBody b) true = Text.stripRight (h.text ++ [' ']) := by
  have hphrase := (Header.phrase_text hw).append (Phrase.of_plain (t := [' ']) (by decide))
  have htext : h.withBody b = h.text ++ [' '] ++ ('{' :: b ++ ['}']) := by
    simp [Header.withBody]
  rw [functionHeader, if_pos rfl, htext, hphrase.index_lastBlock hb]
  simp only [List.take_left]

/-- The function that a header declares. -/
def ofHeader (h : Header) (doc : Option Text) (start stop : Nat) : Declaration where
  kind := .function
  name := h.name
  raw := Text.stripRight (h.text ++ [' '])
  doc := doc
  isExported := h.isExported
  isDefault := h.isDefault
  modifiers := if h.isAsync then ["async".toList] else []
  generics := h.signature.generics
  parameters := some h.signature.parameters
  returnType := h.signature.returnType
  signature := some { h.signature with doc := doc }
  start := start
  stop := stop

theorem ofFunction_header (hw : h.WellFormed) (hb : Closed b) (doc : Option Text)
    (start stop : Nat) :
    ofFunction (h.functionText ++ ' ' :: ('{' :: b ++ ['}']))
        { kind := .exports, raw := h.withBody b, doc := doc, isExported := h.isExported,
          isDefault := h.isDefault, start := start, stop := stop } =
      .one (ofHeader h doc start stop) := by
  rw [ofFunction, Header.parseFunction?_header hw hb]
  show Finding.one { ofHeader h doc start stop with raw := functionHeader (h.withBody b) true } = _
  rw [functionHeader_header hw hb]
  rfl

theorem defaultText_of_default (hd : h.isDefault = true) :
    h.defaultText = "default ".toList ++ h.functionText := by
  rw [Header.defaultText, if_pos hd]

theorem defaultText_of_not_default (hd : ¬ h.isDefault = true) :
    h.defaultText = h.functionText := by
  rw [Header.defaultText, if_neg hd]
  rfl

theorem stripLeft_functionText (h : Header) (more : Text) :
    Text.stripLeft (h.functionText ++ more) = h.functionText ++ more := by
  obtain ⟨c, t, htext, hblank, -⟩ := Header.exists_functionText_cons h
  rw [htext]
  exact Text.stripLeft_cons hblank _

/-- Behind the mark `export` a header is read from its next mark on. -/
theorem stripDecorators_defaultText (h : Header) (more : Text) :
    stripDecorators (' ' :: (h.defaultText ++ more)) = h.defaultText ++ more := by
  obtain ⟨c, t, htext, hblank, hat⟩ : ∃ c t, h.defaultText = c :: t ∧ Text.isBlank c = false ∧
      c ≠ '@' := by
    by_cases hd : h.isDefault = true
    · exact ⟨'d', _, defaultText_of_default hd, by decide⟩
    · rw [defaultText_of_not_default hd]
      exact Header.exists_functionText_cons h
  rw [htext]
  exact stripDecorators_eq (Text.stripLeft_cons hblank _) hat

/-- An exported header is a function, marked as the default or not. -/
theorem classify_exported (hw : h.WellFormed) (hb : Closed b) (he : h.isExported = true)
    (start : Nat) (doc : Option Text) :
    classify (h.withBody b) start doc =
      .one (ofHeader h doc start (start + (h.withBody b).length)) := by
  have htext : h.withBody b =
      "export".toList ++ ' ' :: (h.defaultText ++ ' ' :: ('{' :: b ++ ['}'])) := by
    rw [Header.withBody, Header.text, if_pos he, List.append_assoc]
    rfl
  have hdecorators : stripDecorators (h.withBody b) = h.withBody b := by
    rw [htext]
    exact stripDecorators_eq (Text.stripLeft_cons (by decide) _) (by decide)
  have hexport : Text.startsWithName "export".toList (h.withBody b) = true := by
    rw [htext]
    rfl
  have hbody : stripDecorators ((h.withBody b).drop 6) =
      h.defaultText ++ ' ' :: ('{' :: b ++ ['}']) := by
    rw [htext]
    exact stripDecorators_defaultText h _
  have hfound := ofFunction_header hw hb doc start (start + (h.withBody b).length)
  rw [he] at hfound
  unfold classify
  simp only [hdecorators, hexport, hbody, if_true]
  by_cases hd : h.isDefault = true
  · have hpass : ofPassthrough? (h.defaultText ++ ' ' :: ('{' :: b ++ ['}'])) = fun _ => none := by
      rw [defaultText_of_default hd]
      rfl
    have hdrop : dropKeyword? "default" (h.defaultText ++ ' ' :: ('{' :: b ++ ['}'])) =
        some (h.functionText ++ ' ' :: ('{' :: b ++ ['}'])) := by
      rw [defaultText_of_default hd, List.append_assoc]
      exact congrArg some (stripLeft_functionText h _)
    simp only [hpass, hdrop, ofAmbient_functionText]
    rw [hd] at hfound
    exact hfound
  · obtain ⟨-, hdrop, -, hpass⟩ := dropKeyword?_functionText h (' ' :: ('{' :: b ++ ['}']))
    rw [defaultText_of_not_default hd]
    simp only [hpass, hdrop, ofAmbient_functionText]
    rw [Bool.eq_false_iff.2 hd] at hfound
    exact hfound

/-- A header that is not exported is a function, unless it is marked as the default. -/
theorem classify_not_exported (hw : h.WellFormed) (hb : Closed b) (he : ¬ h.isExported = true)
    (start : Nat) (doc : Option Text) :
    classify (h.withBody b) start doc =
      if h.isDefault then
        .notice (.unrecognizedStatement start (Notice.excerpt (Text.collapse (h.withBody b))))
      else .one (ofHeader h doc start (start + (h.withBody b).length)) := by
  have htext : h.withBody b = h.defaultText ++ ' ' :: ('{' :: b ++ ['}']) := by
    rw [Header.withBody, Header.text, if_neg he]
    rfl
  obtain ⟨c, t, hcons, -, hblank, hat, -⟩ := exists_text_cons h
  have hdecorators : stripDecorators (h.withBody b) = h.withBody b := by
    rw [Header.withBody, hcons]
    exact stripDecorators_eq (Text.stripLeft_cons hblank _) hat
  unfold classify
  simp only [hdecorators]
  by_cases hd : h.isDefault = true
  · rw [if_pos hd, htext, defaultText_of_default hd]
    rfl
  · have hfound := ofFunction_header hw hb doc start (start + (h.withBody b).length)
    rw [Bool.eq_false_iff.2 he, Bool.eq_false_iff.2 hd] at hfound
    have hexport : Text.startsWithName "export".toList (h.withBody b) = false := by
      rw [htext, defaultText_of_not_default hd]
      exact (dropKeyword?_functionText h _).1
    rw [if_neg hd, hexport, if_neg Bool.false_ne_true, ← hfound, ← ofAmbient_functionText,
      ← defaultText_of_not_default hd, ← htext]

/-- **A function statement declares what its header writes**, whatever its body is.  A default that
is not exported is not taken for a function. -/
theorem classify_header (hw : h.WellFormed) (hb : Closed b) (start : Nat) (doc : Option Text) :
    classify (h.withBody b) start doc =
      if h.isDefault && !h.isExported then
        .notice (.unrecognizedStatement start (Notice.excerpt (Text.collapse (h.withBody b))))
      else .one (ofHeader h doc start (start + (h.withBody b).length)) := by
  by_cases he : h.isExported = true
  · rw [classify_exported hw hb he, he, Bool.not_true, Bool.and_false, if_neg Bool.false_ne_true]
  · rw [classify_not_exported hw hb he, Bool.eq_false_iff.2 he, Bool.not_false, Bool.and_true]

end ModuleSurface.Declaration
