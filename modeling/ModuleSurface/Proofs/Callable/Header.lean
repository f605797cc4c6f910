import ModuleSurface.Callable.Signature
import ModuleSurface.Proofs.Lexing.Phrase
import ModuleSurface.Proofs.Text.Strip

/-!
# Reading the header of a function

A `Header` is a function without its body, part by part.  Written in one line in front of any body
that is closed, it is read back part by part, and nothing of the body is: `parseFunction?_header`.
-/

namespace ModuleSurface.Callable

open ModuleSurface.Lexing

/-- The parts of a function in front of its body, as written. -/
structure Header where
  /-- Is it marked `export`? -/
  isExported : Bool
  /-- Is it marked `default`? -/
  isDefault : Bool
  /-- Is it marked `async`? -/
  isAsync : Bool
  /-- Is it marked as a generator? -/
  isGenerator : Bool
  /-- The name. -/
  name : Text
  /-- What is between the angle brackets, if there are any. -/
  generics : Option Text
  /-- What is between the round brackets. -/
  parameters : Text
  /-- What is behind the colon, if there is one. -/
  result : Option Text
  deriving DecidableEq, Repr

namespace Header

/-- The keyword `function` with its mark, and the name. -/
def namedText (h : Header) : Text :=
  "function".toList ++ (if h.isGenerator then ['*'] else []) ++ ' ' :: h.name

/-- The type parameters with their angle brackets. -/
def genericsText (h : Header) : Text :=
  match h.generics with
  | some g => '<' :: g ++ ['>']
  | none => []

/-- The return type with its colon. -/
def resultText (h : Header) : Text :=
  match h.result with
  | some r => ':' :: ' ' :: r
  | none => []

/-- The header from the keyword `function` on. -/
def plainText (h : Header) : Text :=
  h.namedText ++ (h.genericsText ++ ('(' :: h.parameters ++ [')'] ++ h.resultText))

/-- The header from the mark `async` on. -/
def functionText (h : Header) : Text :=
  (if h.isAsync then "async ".toList else []) ++ h.plainText

/-- The header from the mark `default` on. -/
def defaultText (h : Header) : Text :=
  (if h.isDefault then "default ".toList else []) ++ h.functionText

/-- The whole header. -/
def text (h : Header) : Text :=
  (if h.isExported then "export ".toList else []) ++ h.defaultText

/-- The function with a body. -/
def withBody (h : Header) (b : Text) : Text :=
  h.text ++ ' ' :: ('{' :: b ++ ['}'])

/-- The header can be told from what follows it: the name is a name, each part is closed, and no
part has a slash; outside the brackets of a part no statement ends; the type parameters are those up
to the angle bracket behind them; and what is behind the colon is not blank. -/
structure WellFormed (h : Header) : Prop where
  /-- The name. -/
  name : ∀ c ∈ h.name, Text.isIdentChar c = true
  /-- The type parameters. -/
  generics : ∀ g, h.generics = some g → Phrase g ∧ isBracketed ('<' :: g ++ ['>']) '<' = true
  /-- The parameters. -/
  parameters : Closed h.parameters ∧ '/' ∉ h.parameters
  /-- The return type. -/
  result : ∀ r, h.result = some r → Phrase r ∧ Text.isBlankText r = false

/-- The signature that the header writes. -/
def signature (h : Header) : Signature where
  generics := h.generics.map fun g => Text.collapse ('<' :: g ++ ['>'])
  parameters := splitTypedCommas h.parameters
  returnType := h.result.map Text.collapse
  isAsync := h.isAsync
  isGenerator := h.isGenerator
  hasBody := true

variable {h : Header} {b : Text}

/-! ## The parts are phrases -/

theorem phrase_namedText (hw : h.WellFormed) : Phrase h.namedText := by
  have hname : Phrase h.name := by
    apply Phrase.of_plain
    intro c hc
    have hident := hw.name c hc
    refine ⟨plain_of_isIdentChar hident, ?_, ?_⟩
    · rintro rfl
      exact absurd hident (by decide)
    · rintro rfl
      exact absurd hident (by decide)
  have hkeyword : Phrase ("function".toList ++ (if h.isGenerator then ['*'] else []) ++ [' ']) := by
    apply Phrase.of_plain
    cases h.isGenerator <;> decide
  have happend := hkeyword.append hname
  rwa [List.append_assoc, List.singleton_append] at happend

theorem phrase_genericsText (hw : h.WellFormed) : Phrase h.genericsText := by
  rw [genericsText]
  split
  · rename_i g hg
    have hopen : Phrase ['<'] := Phrase.of_plain (by decide)
    have hclose : Phrase ['>'] := Phrase.of_plain (by decide)
    exact (hopen.append (hw.generics g hg).1).append hclose
  · exact .nil

theorem phrase_resultText (hw : h.WellFormed) : Phrase h.resultText := by
  rw [resultText]
  split
  · rename_i r hr
    have hcolon : Phrase [':', ' '] := Phrase.of_plain (by decide)
    exact hcolon.append (hw.result r hr).1
  · exact .nil

theorem phrase_plainText (hw : h.WellFormed) : Phrase h.plainText :=
  (phrase_namedText hw).append ((phrase_genericsText hw).append
    ((Phrase.bracket .round hw.parameters.1 hw.parameters.2).append (phrase_resultText hw)))

theorem phrase_text (hw : h.WellFormed) : Phrase h.text := by
  have hmark : ∀ (mark : Bool) (word : Text), (∀ c ∈ word, Plain c ∧ c ≠ ';' ∧ c ≠ '\n') →
      Phrase (if mark then word else []) := by
    intro mark word hword
    cases mark with
    | true => exact Phrase.of_plain hword
    | false => exact .nil
  exact (hmark _ _ (by decide)).append ((hmark _ _ (by decide)).append
    ((hmark _ _ (by decide)).append (phrase_plainText hw)))

/-! ## Reading the parts -/

theorem skipBlank_append {c : Char} (hc : Text.isBlank c = false) (front more : Text) :
    skipBlank (front ++ c :: more) front.length = front.length := by
  simp [skipBlank, hc]

theorem skipBlank_append_blank {c : Char} (hc : Text.isBlank c = false) (front more : Text) :
    skipBlank (front ++ ' ' :: c :: more) front.length = front.length + 1 := by
  simp [skipBlank, hc, (by decide : Text.isBlank ' ' = true)]

/-- An identifier is read up to the first character that is none of a name. -/
theorem readIdentifier_append {front name more : Text} {c : Char} {i : Nat}
    (hskip : skipBlank (front ++ (name ++ c :: more)) i = front.length)
    (hname : ∀ d ∈ name, Text.isIdentChar d = true) (hc : Text.isIdentChar c = false) :
    readIdentifier (front ++ (name ++ c :: more)) i = (name, front.length + name.length) := by
  have htake : (name ++ c :: more).takeWhile Text.isIdentChar = name := by
    rw [List.takeWhile_append_of_pos hname, List.takeWhile_cons_of_neg (by simp [hc]),
      List.append_nil]
  simp only [readIdentifier, hskip, List.drop_left, htake]

/-- A name at the start of a text is read up to what is no part of it. -/
theorem readIdentifier_start {name more : Text} (hne : name ≠ [])
    (hname : ∀ d ∈ name, Text.isIdentChar d = true)
    (hmore : more.head?.any Text.isIdentChar = false) :
    readIdentifier (name ++ more) 0 = (name, name.length) := by
  obtain ⟨c, r, rfl⟩ := List.exists_cons_of_ne_nil hne
  have hskip : skipBlank (c :: r ++ more) 0 = 0 :=
    skipBlank_append (Text.isBlank_of_isIdentChar (hname c List.mem_cons_self)) [] (r ++ more)
  simp only [readIdentifier, hskip, List.drop_zero, Text.takeWhile_isIdentChar hname hmore,
    Nat.zero_add]

/-- The type parameters are read up to the parameters. -/
theorem readGenerics_header (hw : h.WellFormed) (more : Text) :
    readGenerics (h.namedText ++ (h.genericsText ++ '(' :: more)) h.namedText.length =
      (h.signature.generics, (h.namedText ++ h.genericsText).length) := by
  cases hg : h.generics with
  | none =>
    have hskip := skipBlank_append (by decide : Text.isBlank '(' = false) h.namedText more
    simp [readGenerics, genericsText, signature, hg, hskip]
  | some g =>
    have hunit : h.genericsText = '<' :: g ++ ['>'] := by
      simp [genericsText, hg]
    have hphrase := phrase_genericsText hw
    have hmatch := (phrase_namedText hw).matching?_angle hphrase (hunit ▸ (hw.generics g hg).2)
      ('(' :: more)
    have hskip : skipBlank (h.namedText ++ (h.genericsText ++ '(' :: more)) h.namedText.length =
        h.namedText.length := by
      rw [hunit]
      exact skipBlank_append (by decide) h.namedText (g ++ ['>'] ++ '(' :: more)
    have hopen : (h.namedText ++ (h.genericsText ++ '(' :: more))[h.namedText.length]? =
        some '<' := by
      simp [hunit]
    have hstop : h.namedText.length + (h.genericsText.length - 1) + 1 =
        h.namedText.length + h.genericsText.length := by
      simp only [hunit, List.length_append, List.length_cons, List.length_nil]
      omega
    have hslice := Text.slice_append h.namedText h.genericsText ('(' :: more) rfl rfl
    simp only [readGenerics, hskip, hopen, hmatch, hstop, hslice, beq_self_eq_true, if_true]
    simp [signature, hg, hunit]

theorem getLast?_block (t b : Text) : (t ++ ('{' :: b ++ ['}'])).getLast? = some '}' := by
  rw [← List.append_assoc, List.getLast?_concat]

theorem lastBlock?_block {t : Text} (ht : Phrase t) (hb : Closed b) :
    Signature.lastBlock? (t ++ ('{' :: b ++ ['}'])) = some t.length := by
  rw [Signature.lastBlock?, getLast?_block, if_pos (by rfl)]
  exact ht.index_lastBlock hb

/-- A text that ends with a block has no semicolon at its end. -/
theorem stripSemicolon_block {c : Char} (hc : Text.isBlank c = false) {t u : Text}
    (h : c :: t = u ++ ('{' :: b ++ ['}'])) :
    Text.stripSemicolon (u ++ ('{' :: b ++ ['}'])) = u ++ ('{' :: b ++ ['}']) := by
  rw [Text.stripSemicolon, ← h, Text.stripLeft_cons hc, h, ← List.append_assoc]
  exact Text.dropRightWhile_concat (by decide) _

/-- A text without a type in front of its block has a body only. -/
theorem splitBody_of_nil (hb : Closed b) :
    Signature.splitBody (' ' :: ('{' :: b ++ ['}'])) = (none, some ('{' :: b ++ ['}'])) := by
  have hblank : Text.stripSemicolon (' ' :: ('{' :: b ++ ['}'])) =
      Text.stripSemicolon ([] ++ ('{' :: b ++ ['}'])) := rfl
  have hstrip := stripSemicolon_block (u := []) (b := b)
    (by decide : Text.isBlank '{' = false) rfl
  have hblock := lastBlock?_block Phrase.nil hb
  simp only [Signature.splitBody, hblank, hstrip, hblock, List.take_left, List.drop_left]
  rfl

/-- A text with a type in front of its block has that type. -/
theorem splitBody_of_type {t u : Text} (ht : Phrase (':' :: t)) (hb : Closed b)
    (hstrip : Text.strip (':' :: t) = ':' :: u) (hne : Text.strip u ≠ []) :
    Signature.splitBody (':' :: t ++ ('{' :: b ++ ['}'])) =
      (some (Text.collapse u), some ('{' :: b ++ ['}'])) := by
  have hsemicolon := stripSemicolon_block (u := ':' :: t) (b := b)
    (by decide : Text.isBlank ':' = false) rfl
  have hblock := lastBlock?_block ht hb
  simp only [Signature.splitBody, hsemicolon, hblock, List.take_left, List.drop_left, hstrip]
  rw [if_pos (by simpa using hne), Text.collapse_strip]

/-- What is behind the parameters is split in front of the body. -/
theorem splitBody_header (hw : h.WellFormed) (hb : Closed b) :
    Signature.splitBody (h.resultText ++ ' ' :: ('{' :: b ++ ['}'])) =
      (h.signature.returnType, some ('{' :: b ++ ['}'])) := by
  cases hr : h.result with
  | none =>
    simp only [resultText, signature, hr]
    exact splitBody_of_nil hb
  | some r =>
    obtain ⟨hphrase, hblank⟩ := hw.result r hr
    obtain ⟨c, hc, hcblank⟩ : ∃ c ∈ r, Text.isBlank c = false := by
      simpa [Text.isBlankText] using hblank
    have htype : Phrase (':' :: (' ' :: r ++ [' '])) := by
      have hends : Phrase [':', ' '] ∧ Phrase [' '] :=
        ⟨Phrase.of_plain (by decide), Phrase.of_plain (by decide)⟩
      exact (hends.1.append hphrase).append hends.2
    have hstrip : Text.strip (':' :: (' ' :: r ++ [' '])) =
        ':' :: Text.stripRight (' ' :: r ++ [' ']) := by
      rw [Text.strip, Text.stripLeft_cons (by decide)]
      exact Text.dropRightWhile_cons (by decide) _
    have hne : Text.strip (Text.stripRight (' ' :: r ++ [' '])) ≠ [] :=
      Text.strip_ne_nil hcblank (Text.mem_stripRight hcblank (by simp [hc]))
    have hcollapse : Text.collapse (' ' :: r ++ [' ']) = Text.collapse r :=
      Text.collapse_between (by decide) (by decide) r
    have hsplit := splitBody_of_type htype hb hstrip hne
    rw [Text.collapse_stripRight, hcollapse] at hsplit
    have htext : h.resultText ++ ' ' :: ('{' :: b ++ ['}']) =
        ':' :: (' ' :: r ++ [' ']) ++ ('{' :: b ++ ['}']) := by
      simp [resultText, hr]
    rw [htext, hsplit]
    simp [signature, hr]

/-- The signature is read back. -/
theorem readAt_header (hw : h.WellFormed) (hb : Closed b) :
    Signature.readAt (h.plainText ++ ' ' :: ('{' :: b ++ ['}'])) h.namedText.length =
      some { h.signature with isAsync := false, isGenerator := false } := by
  obtain ⟨front, hfront⟩ : ∃ front, front = h.namedText ++ h.genericsText := ⟨_, rfl⟩
  obtain ⟨after, hafter⟩ : ∃ after, after = h.resultText ++ ' ' :: ('{' :: b ++ ['}']) := ⟨_, rfl⟩
  have htext : h.plainText ++ ' ' :: ('{' :: b ++ ['}']) =
      front ++ ('(' :: h.parameters ++ [')'] ++ after) := by
    simp [plainText, hfront, hafter]
  have hphrase : Phrase front := by
    rw [hfront]
    exact (phrase_namedText hw).append (phrase_genericsText hw)
  have hgenerics : readGenerics (front ++ ('(' :: h.parameters ++ [')'] ++ after))
      h.namedText.length = (h.signature.generics, front.length) := by
    have hread := readGenerics_header hw (h.parameters ++ [')'] ++ after)
    rw [← List.append_assoc, ← hfront] at hread
    exact hread
  have hskip : skipBlank (front ++ ('(' :: h.parameters ++ [')'] ++ after)) front.length =
      front.length :=
    skipBlank_append (by decide) front _
  have hopen : (front ++ ('(' :: h.parameters ++ [')'] ++ after))[front.length]? = some '(' := by
    simp
  have hmatch : matching? (front ++ ('(' :: h.parameters ++ [')'] ++ after)) front.length =
      some (front.length + 1 + h.parameters.length) :=
    hphrase.matching?_bracket .round hw.parameters.1 hw.parameters.2 after
  have hslice : Text.slice (front ++ ('(' :: h.parameters ++ [')'] ++ after)) (front.length + 1)
      (front.length + 1 + h.parameters.length) = h.parameters := by
    have hcut := Text.slice_append (front ++ ['(']) h.parameters ([')'] ++ after)
      (i := front.length + 1) (by simp) rfl
    simpa using hcut
  have hdrop : (front ++ ('(' :: h.parameters ++ [')'] ++ after)).drop
      (front.length + 1 + h.parameters.length + 1) = after := by
    rw [← List.append_assoc]
    apply List.drop_left'
    simp only [List.length_append, List.length_cons, List.length_nil]
    omega
  rw [htext]
  simp only [Signature.readAt, hgenerics, hskip, hopen, hmatch, hslice, hdrop, beq_self_eq_true,
    if_true]
  rw [hafter, splitBody_header hw hb]
  rfl

/-- The character behind the name is none of a name. -/
theorem exists_behind_name (h : Header) (more : Text) :
    ∃ c rest, h.genericsText ++ '(' :: more = c :: rest ∧ Text.isIdentChar c = false ∧
      Text.isBlank c = false ∧ c ≠ '*' := by
  rw [genericsText]
  split
  · exact ⟨'<', _, rfl, by decide⟩
  · exact ⟨'(', _, rfl, by decide⟩

/-- The mark of a generator and the name are read behind the keyword `function`. -/
theorem readName_header (hw : h.WellFormed) (more : Text) {rest : Text}
    (hrest : rest = h.namedText ++ (h.genericsText ++ '(' :: more)) :
    (rest[skipBlank rest 8]? == some '*') = h.isGenerator ∧
      readIdentifier rest (if h.isGenerator then skipBlank rest 8 + 1 else skipBlank rest 8) =
        (h.name, h.namedText.length) := by
  obtain ⟨c, behind, hbehind, hident, hblank, hstar⟩ := exists_behind_name h more
  rw [hbehind] at hrest
  obtain ⟨d, others, hnext, hdblank, hdstar⟩ : ∃ d others, h.name ++ c :: behind = d :: others ∧
      Text.isBlank d = false ∧ d ≠ '*' := by
    cases hname : h.name with
    | nil => exact ⟨c, behind, rfl, hblank, hstar⟩
    | cons d name =>
      have hd := hw.name d (by simp [hname])
      refine ⟨d, name ++ c :: behind, rfl, Text.isBlank_of_isIdentChar hd, ?_⟩
      rintro rfl
      exact absurd hd (by decide)
  by_cases hgen : h.isGenerator = true
  · have hnamed : h.namedText = "function* ".toList ++ h.name := by
      unfold namedText
      rw [if_pos hgen]
      rfl
    rw [hnamed, List.append_assoc] at hrest
    have hfirst : skipBlank rest 8 = 8 := by
      rw [hrest]
      exact skipBlank_append (by decide : Text.isBlank '*' = false) "function".toList _
    have hskip : skipBlank ("function* ".toList ++ (h.name ++ c :: behind)) 9 = 10 := by
      rw [hnext]
      exact skipBlank_append_blank hdblank "function*".toList others
    rw [hfirst, if_pos hgen, hgen, hnamed, List.length_append, hrest]
    exact ⟨rfl, readIdentifier_append hskip hw.name hident⟩
  · have hnamed : h.namedText = "function ".toList ++ h.name := by
      unfold namedText
      rw [if_neg hgen]
      rfl
    rw [hnamed, List.append_assoc] at hrest
    have hskip : ∀ i, i = 8 ∨ i = 9 →
        skipBlank ("function ".toList ++ (h.name ++ c :: behind)) i = 9 := by
      rintro i (rfl | rfl)
      · rw [hnext]
        exact skipBlank_append_blank hdblank "function".toList others
      · rw [hnext]
        exact skipBlank_append hdblank "function ".toList others
    have hmark : ("function ".toList ++ (h.name ++ c :: behind))[9]? = some d := by
      rw [hnext]
      rfl
    rw [hrest, hskip 8 (.inl rfl), if_neg hgen, hnamed, List.length_append, hmark,
      Bool.eq_false_iff.2 hgen]
    refine ⟨?_, readIdentifier_append (hskip 9 (.inr rfl)) hw.name hident⟩
    simpa using hdstar

theorem functionText_of_async (ha : h.isAsync = true) :
    h.functionText = "async ".toList ++ h.plainText := by
  rw [functionText, if_pos ha]

theorem functionText_of_not_async (ha : ¬ h.isAsync = true) : h.functionText = h.plainText := by
  rw [functionText, if_neg ha]
  rfl

/-- The mark `async` is read in front of the keyword `function`. -/
theorem afterAsync?_header (h : Header) (more : Text) :
    afterAsync? (h.functionText ++ more) =
      if h.isAsync then some (h.plainText ++ more) else none := by
  have hplain : h.plainText ++ more = 'f' :: (h.plainText ++ more).tail := rfl
  by_cases hasync : h.isAsync = true
  · rw [functionText_of_async hasync, if_pos hasync, List.append_assoc]
    show some (Text.stripLeft (h.plainText ++ more)) = _
    rw [hplain, Text.stripLeft_cons (by decide)]
  · rw [functionText_of_not_async hasync, if_neg hasync]
    rfl

/-- From the mark `async` on, a header begins with a letter. -/
theorem exists_functionText_cons (h : Header) :
    ∃ c t, h.functionText = c :: t ∧ Text.isBlank c = false ∧ c ≠ '@' := by
  by_cases hasync : h.isAsync = true
  · exact ⟨'a', _, functionText_of_async hasync, by decide⟩
  · exact ⟨'f', _, functionText_of_not_async hasync, by decide⟩

/-- **A function is read back from its header**, and nothing from its body. -/
theorem parseFunction?_header (hw : h.WellFormed) (hb : Closed b) :
    Signature.parseFunction? (h.functionText ++ ' ' :: ('{' :: b ++ ['}'])) =
      some (h.name, h.signature) := by
  have hstrip : Text.strip (h.functionText ++ ' ' :: ('{' :: b ++ ['}'])) =
      h.functionText ++ ' ' :: ('{' :: b ++ ['}']) := by
    obtain ⟨c, t, ht, hc, -⟩ := exists_functionText_cons h
    have hself := Text.strip_eq_self hc (by decide : Text.isBlank '}' = false)
      (t ++ ' ' :: '{' :: b)
    rw [ht]
    simpa using hself
  have hrest : (afterAsync? (h.functionText ++ ' ' :: ('{' :: b ++ ['}']))).getD
      (h.functionText ++ ' ' :: ('{' :: b ++ ['}'])) =
        h.plainText ++ ' ' :: ('{' :: b ++ ['}']) := by
    rw [afterAsync?_header]
    by_cases hasync : h.isAsync = true
    · rw [if_pos hasync]
      rfl
    · rw [if_neg hasync]
      exact congrArg (· ++ _) (functionText_of_not_async hasync)
  have hasync : (afterAsync? (h.functionText ++ ' ' :: ('{' :: b ++ ['}']))).isSome =
      h.isAsync := by
    rw [afterAsync?_header]
    cases h.isAsync <;> rfl
  have hkeyword : "function".toList.isPrefixOf (h.plainText ++ ' ' :: ('{' :: b ++ ['}'])) = true :=
    rfl
  have htext : h.plainText ++ ' ' :: ('{' :: b ++ ['}']) = h.namedText ++ (h.genericsText ++
      '(' :: (h.parameters ++ [')'] ++ h.resultText ++ ' ' :: ('{' :: b ++ ['}']))) := by
    simp [plainText]
  obtain ⟨hmark, hname⟩ := readName_header hw _ htext
  rw [Signature.parseFunction?]
  simp only [hstrip, hrest, hasync, hkeyword, if_true]
  rw [show "function".toList.length = 8 from rfl]
  simp only [hmark, hname, readAt_header hw hb]
  rfl

end Header

end ModuleSurface.Callable
