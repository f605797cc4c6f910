import ModuleSurface.Proofs.Callable.Header
import ModuleSurface.Proofs.Lexing.Stripped
import ModuleSurface.Proofs.Narrowing.Value

/-!
# Calls of members

Only a whole expression is typed: what is called on a string, a bracketed expression or a promise
has no type here, whatever the chain of calls is.  Constructor calls and symbols are recognised
without a look at where they end, so a call of their members has the type of its first part:
`infer_memberCalls`.
-/

namespace ModuleSurface.Narrowing

open ModuleSurface.Lexing
open ModuleSurface.Callable

/-! ## Code that no rule looks for -/

/-- At the visit neither an arrow nor an asserting word begins. -/
structure Neutral (v : Visit) : Prop where
  /-- No arrow begins there. -/
  arrow : v.char ≠ '='
  /-- No asserting word begins there. -/
  word : ∀ w : AssertionWord, v.begins w.text = false

theorem neutral_of_char {v : Visit} (h : v.char ∉ ['=', 'a', 's']) : Neutral v where
  arrow := fun heq => h (by simp [heq])
  word w := by
    rw [Bool.eq_false_iff]
    intro hbegins
    rcases char_of_begins_word hbegins with hchar | hchar <;> exact h (by simp [hchar])

/-- Between `outer`, in reverse, and `more` the text is read back to the code outside everything,
and outside its brackets it has neither an arrow nor an asserting word. -/
def NeutralAt (outer t more : Text) (offset : Nat) : Prop :=
  ∃ vs, Reads {} outer t more offset vs ∧ ∀ v ∈ vs, v.state.depth = 0 → Neutral v

namespace NeutralAt

variable {outer t u more : Text} {offset : Nat}

theorem append (ht : NeutralAt outer t (u ++ more) offset)
    (hu : NeutralAt (t.reverse ++ outer) u more (offset + t.length)) :
    NeutralAt outer (t ++ u) more offset := by
  obtain ⟨vs, hvs, hvsNeutral⟩ := ht
  obtain ⟨ws, hws, hwsNeutral⟩ := hu
  refine ⟨vs ++ ws, hvs.append hws, ?_⟩
  intro v hv
  exact (List.mem_append.1 hv).elim (hvsNeutral v) (hwsNeutral v)

/-- Plain characters that begin neither. -/
theorem plain (ht : ∀ c ∈ t, Plain c ∧ c ∉ ['=', 'a', 's']) (outer more : Text) (offset : Nat) :
    NeutralAt outer t more offset := by
  have hcode : State.inCode {} = true := rfl
  obtain ⟨vs, hreads, hvs⟩ := Reads.of_plain hcode (fun c hc => (ht c hc).1) outer more offset
  refine ⟨vs, hreads, fun v hv _ => neutral_of_char ?_⟩
  obtain ⟨-, a, b, htext, -⟩ := hvs v hv
  exact (ht v.char (by rw [htext]; simp)).2

/-- A name that is no asserting word. -/
theorem name (hident : ∀ c ∈ t, Text.isIdentChar c = true) (hword : ∀ w : AssertionWord, t ≠ w.text)
    (hmore : more.head?.any Text.isIdentChar = false) (outer : Text) (offset : Nat) :
    NeutralAt outer t more offset := by
  have hcode : State.inCode {} = true := rfl
  obtain ⟨vs, hreads, hvs⟩ :=
    Reads.of_plain hcode (fun c hc => plain_of_isIdentChar (hident c hc)) outer more offset
  refine ⟨vs, hreads, fun v hv _ => ⟨?_, fun w => ?_⟩⟩
  · obtain ⟨-, a, b, htext, -⟩ := hvs v hv
    have hc := hident v.char (by rw [htext]; simp)
    intro heq
    rw [heq] at hc
    exact absurd hc (by decide)
  · obtain ⟨-, a, b, htext, hpast, hrest⟩ := hvs v hv
    rw [Bool.eq_false_iff]
    intro hbegins
    have hletters : w.text.head?.any Text.isIdentChar = true ∧
        ∀ c ∈ w.text, Text.isIdentChar c = true := by
      cases w <;> decide
    rw [Visit.begins, hletters.1] at hbegins
    simp only [Bool.not_true, Bool.false_or, Bool.and_eq_true, Bool.not_eq_true',
      List.isPrefixOf_iff_prefix] at hbegins
    obtain ⟨⟨behind, hbehind⟩, hfront, hback⟩ := hbegins
    -- the word begins with the name and ends with it
    obtain rfl : a = [] := by
      rcases List.eq_nil_or_concat a with rfl | ⟨a, c, rfl⟩
      · rfl
      · have hc := hident c (by rw [htext]; simp)
        simp [hpast, hc] at hfront
    rw [← hbehind, List.drop_left] at hback
    rw [hrest, ← List.cons_append, ← List.nil_append (v.char :: b), ← htext] at hbehind
    have htaken := Text.takeWhile_isIdentChar hident hmore
    rw [← hbehind, Text.takeWhile_isIdentChar hletters.2 hback] at htaken
    exact hword w htaken.symm

/-- A string, whatever stands in it. -/
theorem string (q : Quote) (h : isEscaped q.char t = true) (outer more : Text) (offset : Nat) :
    NeutralAt outer (q.char :: t ++ [q.char]) more offset := by
  have hinert : Inert (· ∉ ['=', 'a', 's']) (q.char :: t ++ [q.char]) := .string q h
  obtain ⟨vs, hreads, hvs⟩ := hinert.reads outer more offset
  exact ⟨vs, hreads, fun v hv hdepth => neutral_of_char ((hvs v hv).outermost hdepth)⟩

/-- A bracket around a closed text. -/
theorem bracket (b : Bracket) (ht : Closed t) (hslash : LeavesSlashes t (b.closer :: more))
    (outer : Text) (offset : Nat) : NeutralAt outer (b.opener :: t ++ [b.closer]) more offset := by
  have hinner := ht.reads (State.Coherent.fresh.openBracket b offset) (by cases b <;> rfl)
    (opens_opener b outer) (parts_closer b more) hslash (offset + 1)
  refine ⟨_, Reads.enclosed .fresh rfl b hinner, ?_⟩
  intro v hv hdepth
  rw [List.mem_append, List.mem_cons, List.mem_singleton, List.mem_map] at hv
  rcases hv with (rfl | ⟨w, -, rfl⟩) | rfl
  · have hopener : b.opener ∉ ['=', 'a', 's'] := by
      cases b <;> decide
    exact neutral_of_char hopener
  · rw [Visit.depth_lift, State.depth_openBracket] at hdepth
    omega
  · rw [State.depth_openBracket] at hdepth
    omega

/-- No function is found in such a text. -/
theorem findOutermost?_arrow (h : NeutralAt [] t [] 0) :
    findOutermost? t "=>".toList 0 true = none := by
  obtain ⟨vs, hreads, hvs⟩ := h
  rw [Option.eq_none_iff_forall_ne_some]
  intro i hi
  obtain ⟨v, hv, hdepth, hbegins, -⟩ := exists_visit_of_findOutermost? hi
  rw [hreads.closed.2] at hv
  exact (hvs v hv hdepth).arrow (Visit.char_of_begins ['>'] hbegins)

/-- Nothing is asserted in such a text. -/
theorem assertion?_eq_none (h : NeutralAt [] t [] 0) : assertion? t = none := by
  obtain ⟨vs, hreads, hvs⟩ := h
  refine assertion?_of_visits fun w v hv hdepth => ?_
  rw [hreads.closed.2] at hv
  exact (hvs v hv hdepth).word w

end NeutralAt

/-! ## Primaries and calls on them -/

/-- A call of what is written in front of its arguments. -/
def callText (callee arguments : Text) : Text :=
  callee ++ ('(' :: arguments ++ [')'])

/-- A call of a member. -/
structure MemberCall where
  /-- The name of the member. -/
  name : Identifier
  /-- What is between the brackets. -/
  arguments : Text

/-- The call with its dot. -/
def MemberCall.text (m : MemberCall) : Text :=
  '.' :: callText m.name.text m.arguments

/-- Calls of members one after the other. -/
def chainText : List MemberCall → Text
  | [] => []
  | m :: ms => m.text ++ chainText ms

/-- An expression that is complete on its own. -/
inductive Primary where
  /-- A string. -/
  | string (quote : Quote) (body : Text)
  /-- An array, an object or an expression in brackets. -/
  | bracketed (b : Bracket) (content : Text)
  /-- A constructor call. -/
  | construction (name : Identifier) (arguments : Text)
  /-- A call that makes a symbol. -/
  | symbol (arguments : Text)
  /-- A call that makes a promise. -/
  | promise (arguments : Text)

namespace Primary

/-- The primary as written. -/
def text : Primary → Text
  | string quote body => quote.char :: body ++ [quote.char]
  | bracketed b content => b.opener :: content ++ [b.closer]
  | construction name arguments => "new ".toList ++ callText name.text arguments
  | symbol arguments => callText "Symbol".toList arguments
  | promise arguments => callText "Promise.resolve".toList arguments

/-- The primary without the comments in its brackets. -/
def uncommented : Primary → Primary
  | bracketed b content => bracketed b (stripComments content)
  | p => p

/-- The primary is complete: its string ends with its last quote, its brackets close what they
open, and its arguments have no comments. -/
def WellFormed : Primary → Prop
  | string quote body => isEscaped quote.char body = true
  | bracketed _ content => Closed content
  | construction _ arguments => Closed arguments ∧ stripComments arguments = arguments
  | symbol arguments => Closed arguments ∧ stripComments arguments = arguments
  | promise arguments => Closed arguments ∧ stripComments arguments = arguments

/-- With `more` behind it, no slash of the primary begins a literal that ends behind its brackets,
and no name of it is an asserting word. -/
def Apart (more : Text) : Primary → Prop
  | string _ _ => True
  | bracketed b content => LeavesSlashes content (b.closer :: more)
  | construction name arguments =>
    (∀ w : AssertionWord, name.text ≠ w.text) ∧ LeavesSlashes arguments (')' :: more)
  | symbol arguments => LeavesSlashes arguments (')' :: more)
  | promise arguments => LeavesSlashes arguments (')' :: more)

instance (t : Text) : Decidable (∀ w : AssertionWord, t ≠ w.text) :=
  decidable_of_iff (t ≠ AssertionWord.cast.text ∧ t ≠ AssertionWord.satisfies.text)
    ⟨fun h w => match w with
      | .cast => h.1
      | .satisfies => h.2, fun h => ⟨h .cast, h .satisfies⟩⟩

instance decidableWellFormed : (p : Primary) → Decidable p.WellFormed
  | string quote body => inferInstanceAs (Decidable (isEscaped quote.char body = true))
  | bracketed _ content => inferInstanceAs (Decidable (Closed content))
  | construction _ arguments | symbol arguments | promise arguments =>
    inferInstanceAs (Decidable (Closed arguments ∧ stripComments arguments = arguments))

instance decidableApart (more : Text) : (p : Primary) → Decidable (p.Apart more)
  | string _ _ => instDecidableTrue
  | bracketed b content => inferInstanceAs (Decidable (LeavesSlashes content (b.closer :: more)))
  | construction name arguments =>
    inferInstanceAs (Decidable ((∀ w : AssertionWord, name.text ≠ w.text) ∧
      LeavesSlashes arguments (')' :: more)))
  | symbol arguments | promise arguments =>
    inferInstanceAs (Decidable (LeavesSlashes arguments (')' :: more)))

/-- Is the primary recognised without a look at where it ends? -/
def isOpenEnded : Primary → Bool
  | construction _ _ => true
  | symbol _ => true
  | _ => false

end Primary

namespace MemberCall

/-- The arguments of the call are complete and have no comments. -/
def WellFormed (m : MemberCall) : Prop :=
  Closed m.arguments ∧ stripComments m.arguments = m.arguments

instance (m : MemberCall) : Decidable m.WellFormed :=
  inferInstanceAs (Decidable (_ ∧ _))

/-- No slash in the calls begins a literal that ends behind its brackets, and no member is named by
an asserting word. -/
def Apart : List MemberCall → Prop
  | [] => True
  | m :: ms => ((∀ w : AssertionWord, m.name.text ≠ w.text) ∧
      LeavesSlashes m.arguments (')' :: chainText ms)) ∧ Apart ms

instance decidableApart : (ms : List MemberCall) → Decidable (Apart ms)
  | [] => instDecidableTrue
  | m :: ms =>
    have := decidableApart ms
    inferInstanceAs (Decidable (((∀ w : AssertionWord, m.name.text ≠ w.text) ∧
      LeavesSlashes m.arguments (')' :: chainText ms)) ∧ Apart ms))

end MemberCall

/-! ## Reading them -/

section

variable {arguments more : Text}

/-- A call keeps everything. -/
theorem keepsAt_call {callee : Text} (hcallee : ∀ c ∈ callee, Plain c) (ha : Closed arguments)
    (hcomments : stripComments arguments = arguments)
    (hslash : LeavesSlashes arguments (')' :: more)) (outer : Text) (offset : Nat) :
    KeepsAt (callText callee arguments) {} outer (callText callee arguments) more offset := by
  have hinert : Inert (fun _ => True) callee := .plain fun c hc => ⟨hcallee c hc, trivial⟩
  have hname := (hinert.inertAt .fresh rfl outer ('(' :: arguments ++ [')'] ++ more) offset).keepsAt
    rfl
  have hbracket := ha.keepsAt_bracket .round hslash (callee.reverse ++ outer)
    (offset + callee.length)
  rw [hcomments] at hbracket
  exact hname.append hbracket

/-- No rule looks for anything in a call of a name. -/
theorem neutralAt_call {callee : Text} (hident : ∀ c ∈ callee, Text.isIdentChar c = true)
    (hword : ∀ w : AssertionWord, callee ≠ w.text) (ha : Closed arguments)
    (hslash : LeavesSlashes arguments (')' :: more)) (outer : Text) (offset : Nat) :
    NeutralAt outer (callText callee arguments) more offset :=
  (NeutralAt.name hident hword rfl outer offset).append (.bracket .round ha hslash _ _)

end

theorem keepsAt_chain {ms : List MemberCall} (hms : ∀ m ∈ ms, m.WellFormed)
    (hapart : MemberCall.Apart ms) (outer : Text) (offset : Nat) :
    KeepsAt (chainText ms) {} outer (chainText ms) [] offset := by
  induction ms generalizing outer offset with
  | nil => exact rfl
  | cons m ms ih =>
    obtain ⟨⟨-, hslash⟩, hlater⟩ := hapart
    obtain ⟨hclosed, hcomments⟩ := hms m List.mem_cons_self
    have hcallee : ∀ c ∈ '.' :: m.name.text, Plain c := by
      refine List.forall_mem_cons.2 ⟨by decide, fun c hc => plain_of_isIdentChar ?_⟩
      exact m.name.valid.2 c hc
    have hslash' : LeavesSlashes m.arguments (')' :: (chainText ms ++ [])) := by
      rwa [List.append_nil]
    have hcall : KeepsAt m.text {} outer m.text (chainText ms ++ []) offset :=
      keepsAt_call hcallee hclosed hcomments hslash' outer offset
    exact hcall.append (ih (fun n hn => hms n (List.mem_cons_of_mem m hn)) hlater _ _)

theorem neutralAt_chain {ms : List MemberCall} (hms : ∀ m ∈ ms, m.WellFormed)
    (hapart : MemberCall.Apart ms) (outer : Text) (offset : Nat) :
    NeutralAt outer (chainText ms) [] offset := by
  induction ms generalizing outer offset with
  | nil => exact .plain (by simp [chainText]) outer [] offset
  | cons m ms ih =>
    obtain ⟨⟨hword, hslash⟩, hlater⟩ := hapart
    have hslash' : LeavesSlashes m.arguments (')' :: (chainText ms ++ [])) := by
      rwa [List.append_nil]
    have hdot : NeutralAt outer ['.']
        (callText m.name.text m.arguments ++ (chainText ms ++ [])) offset :=
      .plain (by decide) outer _ offset
    have hcall := hdot.append (neutralAt_call m.name.valid.2 hword (hms m List.mem_cons_self).1
      hslash' _ _)
    exact hcall.append (ih (fun n hn => hms n (List.mem_cons_of_mem m hn)) hlater _ _)

namespace Primary

variable {p : Primary} {more : Text}

/-- What is left of a primary when its comments are taken out. -/
theorem keepsAt_text (hp : p.WellFormed) (hapart : p.Apart more) :
    KeepsAt p.uncommented.text {} [] p.text more 0 := by
  cases p with
  | string q body =>
    have hinert : Inert (fun _ => False) (q.char :: body ++ [q.char]) := .string q hp
    exact (hinert.inertAt .fresh rfl [] more 0).keepsAt rfl
  | bracketed b content => exact Closed.keepsAt_bracket hp b hapart [] 0
  | construction name arguments =>
    have hkeyword : Inert (fun _ => True) "new ".toList := .plain (by decide)
    have hfront := (hkeyword.inertAt .fresh rfl [] (callText name.text arguments ++ more) 0).keepsAt
      rfl
    have hname := name.forall_chars fun c => plain_of_isIdentChar
    exact hfront.append (keepsAt_call hname hp.1 hp.2 hapart.2 _ _)
  | symbol arguments => exact keepsAt_call (by decide) hp.1 hp.2 hapart [] 0
  | promise arguments => exact keepsAt_call (by decide) hp.1 hp.2 hapart [] 0

/-- No rule looks for anything in a primary. -/
theorem neutralAt_text (hp : p.WellFormed) (hapart : p.Apart more) :
    NeutralAt [] p.text more 0 := by
  cases p with
  | string q body => exact .string q hp [] more 0
  | bracketed b content => exact .bracket b hp hapart [] 0
  | construction name arguments =>
    have hkeyword : NeutralAt [] "new ".toList (callText name.text arguments ++ more) 0 :=
      .plain (by decide) [] _ 0
    exact hkeyword.append (neutralAt_call name.valid.2 hapart.1 hp.1 hapart.2 _ _)
  | symbol arguments =>
    have hword : ∀ w : AssertionWord, "Symbol".toList ≠ w.text := by
      intro w
      cases w <;> decide
    exact neutralAt_call (by decide) hword hp.1 hapart [] 0
  | promise arguments =>
    have hword : ∀ w : AssertionWord, "Promise".toList ≠ w.text ∧ "resolve".toList ≠ w.text := by
      intro w
      cases w <;> decide
    have hname : NeutralAt [] "Promise".toList
        (['.'] ++ callText "resolve".toList arguments ++ more) 0 :=
      .name (by decide) (fun w => (hword w).1) rfl [] 0
    have hdot : NeutralAt _ ['.'] (callText "resolve".toList arguments ++ more) 7 :=
      .plain (by decide) ("Promise".toList.reverse ++ []) _ 7
    exact hname.append (hdot.append (neutralAt_call (by decide) (fun w => (hword w).2) hp.1 hapart
      _ _))

/-- The first character of a primary. -/
theorem exists_cons (p : Primary) : ∃ c t, p.text = c :: t ∧ Text.isBlank c = false ∧ c ≠ 'a' ∧
    c ≠ 'f' ∧ c ≠ '\x60' := by
  cases p with
  | string q body => exact ⟨q.char, _, rfl, by cases q <;> decide⟩
  | bracketed b content => exact ⟨b.opener, _, rfl, by cases b <;> decide⟩
  | construction name arguments => exact ⟨'n', _, rfl, by decide⟩
  | symbol arguments => exact ⟨'S', _, rfl, by decide⟩
  | promise arguments => exact ⟨'P', _, rfl, by decide⟩

/-- The type that a primary has with calls of members behind it. -/
def callType : Primary → InferredType
  | construction name _ => .reference ((constructedTypes.lookup name.text).getD name.text)
  | symbol _ => .reference "symbol".toList
  | _ => .unknown

end Primary

theorem exists_chainText_concat {ms : List MemberCall} (hne : ms ≠ []) :
    ∃ front, chainText ms = front ++ [')'] := by
  induction ms with
  | nil => exact absurd rfl hne
  | cons m ms ih =>
    by_cases hms : ms = []
    · subst hms
      exact ⟨'.' :: (m.name.text ++ '(' :: m.arguments), by
        simp [chainText, MemberCall.text, callText]⟩
    · obtain ⟨front, hfront⟩ := ih hms
      exact ⟨m.text ++ front, by rw [chainText, hfront, List.append_assoc]⟩

theorem chainText_ne_nil {ms : List MemberCall} (hne : ms ≠ []) : chainText ms ≠ [] := by
  obtain ⟨front, hfront⟩ := exists_chainText_concat hne
  simp [hfront]

section

variable {p : Primary} {ms : List MemberCall}

/-- The last character of a primary with calls behind it. -/
theorem getLast?_memberCalls (h : p.isOpenEnded = true ∨ ms ≠ []) :
    (p.text ++ chainText ms).getLast? = some ')' := by
  by_cases hne : ms = []
  · subst hne
    have hopen := h.resolve_right (by simp)
    rw [chainText, List.append_nil]
    cases p with
    | string _ _ | bracketed _ _ | promise _ => cases hopen
    | construction name arguments =>
      rw [Primary.text, callText, ← List.append_assoc, ← List.append_assoc, List.getLast?_concat]
    | symbol arguments =>
      rw [Primary.text, callText, ← List.append_assoc, List.getLast?_concat]
  · obtain ⟨front, hfront⟩ := exists_chainText_concat hne
    rw [hfront, ← List.append_assoc, List.getLast?_concat]

/-- Neither a function nor an assertion nor a literal is called. -/
theorem ofExpression_memberCalls (hp : p.WellFormed) (hms : ∀ m ∈ ms, m.WellFormed)
    (hapart : p.Apart (chainText ms)) (hmsApart : MemberCall.Apart ms)
    (h : p.isOpenEnded = true ∨ ms ≠ []) (isConst : Bool) :
    ofExpression infer (p.text ++ chainText ms) isConst =
      ofPrimary infer (p.text ++ chainText ms) isConst := by
  have hapart' : p.Apart (chainText ms ++ []) := by
    rwa [List.append_nil]
  have hneutral := (Primary.neutralAt_text hp hapart').append (neutralAt_chain hms hmsApart _ _)
  have hlast := getLast?_memberCalls h
  obtain ⟨c, t, hcons, -, ha, hf, hbacktick⟩ := p.exists_cons
  have hhead : p.text ++ chainText ms = c :: (t ++ chainText ms) := by
    rw [hcons]
    rfl
  have hsingle : (c == '\'' || c == '"') = true →
      Literal.isSingle (c :: (t ++ chainText ms)) = false := by
    intro hc
    cases p with
    | string q body =>
      rw [← hhead]
      exact Literal.isSingle_string_append q hp (chainText_ne_nil (h.resolve_left nofun))
    | bracketed b content => cases hcons; cases b <;> cases hc
    | construction _ _ | symbol _ | promise _ => cases hcons; cases hc
  rw [hhead] at hlast hneutral ⊢
  have hasync : "async".toList.isPrefixOf (c :: (t ++ chainText ms)) = false := by
    simp [List.isPrefixOf, ha.symm]
  have hfunction : "function".toList.isPrefixOf (c :: (t ++ chainText ms)) = false := by
    simp [List.isPrefixOf, hf.symm]
  rw [ofExpression, isFunctionExpression_of_arrow hneutral.findOutermost?_arrow hasync hfunction,
    hneutral.assertion?_eq_none,
    ofLiteral?_eq_none hlast (by decide) (by decide) hsingle hbacktick]
  rfl

/-- A bracket in front of calls does not end the expression. -/
theorem isBracketed_memberCalls (b : Bracket) {content : Text} (hc : Closed content)
    (hslash : LeavesSlashes content (b.closer :: chainText ms)) (hne : ms ≠ []) :
    isBracketed (b.opener :: content ++ [b.closer] ++ chainText ms) b.opener = false := by
  have hlength := List.length_pos_iff.2 (chainText_ne_nil hne)
  have hmatch : matching? (b.opener :: content ++ [b.closer] ++ chainText ms) 0 =
      some (0 + 1 + content.length) := hc.matching?_bracket .nil b hslash
  rw [isBracketed, hmatch, Bool.and_eq_false_iff]
  right
  rw [beq_eq_false_iff_ne, ne_eq, Option.some.injEq]
  simp only [List.length_append, List.length_cons, List.length_nil]
  omega

/-- The name of a constructor is read up to its arguments. -/
theorem ofConstructor_call (name : Identifier) (more : Text) :
    ofConstructor (name.text ++ '(' :: more) =
      .reference ((constructedTypes.lookup name.text).getD name.text) := by
  obtain ⟨c, t, hcons, -⟩ := name.exists_cons
  have hblank : Text.isBlank c = false :=
    Text.isBlank_of_isIdentChar (name.valid.2 c (by simp [hcons]))
  have hskip : skipBlank (name.text ++ '(' :: more) 0 = 0 := by
    rw [hcons]
    exact Header.skipBlank_append hblank [] (t ++ '(' :: more)
  have hskip' : skipBlank ([] ++ (name.text ++ '(' :: more)) 0 = ([] : Text).length := hskip
  have hname := Header.readIdentifier_append hskip' name.valid.2 (by decide)
  have hbehind : (name.text ++ '(' :: more)[name.text.length]? = some '(' := by
    simp
  have hskipBehind : skipBlank (name.text ++ '(' :: more) name.text.length = name.text.length :=
    Header.skipBlank_append (by decide) name.text more
  have hmembers : readMembers (name.text ++ '(' :: more) name.text.length =
      ([], name.text.length) := by
    rw [readMembers, dif_neg]
    rw [hbehind]
    decide
  have hempty : name.text.isEmpty = false := by
    rw [hcons]
    rfl
  rw [List.nil_append, List.length_nil, Nat.zero_add] at hname
  simp [ofConstructor, readDotted, hname, hmembers, hempty, readGenerics, hskipBehind]

/-- A promise is made by a call that is the whole expression only. -/
theorem ofPromise_memberCalls {arguments : Text} (ha : Closed arguments)
    (hslash : LeavesSlashes arguments (')' :: chainText ms)) (hne : ms ≠ []) :
    ofPromise infer (callText "Promise.resolve".toList arguments ++ chainText ms) = .unknown := by
  have hlength := List.length_pos_iff.2 (chainText_ne_nil hne)
  have hcallee : Phrase "Promise.resolve".toList := .of_plain (by decide)
  have hmatch : matching? (callText "Promise.resolve".toList arguments ++ chainText ms)
      "Promise.resolve".toList.length =
        some ("Promise.resolve".toList.length + 1 + arguments.length) := by
    rw [callText, List.append_assoc]
    exact ha.matching?_bracket hcallee .round hslash
  have hend : (matching? (callText "Promise.resolve".toList arguments ++ chainText ms)
      "Promise.resolve".toList.length ==
        some ((callText "Promise.resolve".toList arguments ++ chainText ms).length - 1)) =
          false := by
    rw [hmatch, beq_eq_false_iff_ne, ne_eq, Option.some.injEq, callText]
    simp only [List.length_append, List.length_cons, List.length_nil]
    omega
  have hresolve : callArguments? (callText "Promise.resolve".toList arguments ++ chainText ms)
      "Promise.resolve".toList = none := by
    rw [callArguments?, hend, Bool.and_false, if_neg Bool.false_ne_true]
  have hreject : callArguments? (callText "Promise.resolve".toList arguments ++ chainText ms)
      "Promise.reject".toList = none := rfl
  have hall : callArguments? (callText "Promise.resolve".toList arguments ++ chainText ms)
      "Promise.all".toList = none := rfl
  generalize callText "Promise.resolve".toList arguments ++ chainText ms = expr at *
  simp only [ofPromise, hresolve, hreject, hall, Option.isSome_none, Bool.false_eq_true, if_false]

/-- The rule that is left for a primary with calls behind it. -/
theorem ofPrimary_memberCalls (hp : p.WellFormed) (hapart : p.Apart (chainText ms))
    (h : p.isOpenEnded = true ∨ ms ≠ []) (isConst : Bool) :
    ofPrimary infer (p.text ++ chainText ms) isConst = p.callType := by
  have hlast := getLast?_memberCalls h
  cases p with
  | string q body => cases q <;> rfl
  | bracketed b content =>
    have hnone : ∀ b' : Bracket,
        isBracketed (b.opener :: content ++ [b.closer] ++ chainText ms) b'.opener = false := by
      intro b'
      by_cases hb : b' = b
      · rw [hb]
        exact isBracketed_memberCalls b hp hapart (h.resolve_left Bool.false_ne_true)
      · have hhead : (some b.opener == some b'.opener) = false := by
          cases b <;> cases b' <;> first | rfl | exact absurd rfl hb
        exact Bool.and_eq_false_iff.2 (.inl hhead)
    have hsquare := hnone .square
    have hbrace := hnone .brace
    have hround := hnone .round
    show ofPrimary infer (b.opener :: content ++ [b.closer] ++ chainText ms) isConst = .unknown
    generalize hexpr : b.opener :: content ++ [b.closer] ++ chainText ms = expr at *
    rw [ofPrimary, show isBracketed expr '[' = false from hsquare,
      show isBracketed expr '{' = false from hbrace, show isBracketed expr '(' = false from hround,
      ← hexpr]
    cases b <;> rfl
  | construction name arguments =>
    obtain ⟨c, t, hcons, -⟩ := name.exists_cons
    have hblank : Text.isBlank c = false :=
      Text.isBlank_of_isIdentChar (name.valid.2 c (by simp [hcons]))
    have hrest : callText name.text arguments ++ chainText ms =
        name.text ++ '(' :: (arguments ++ [')'] ++ chainText ms) := by
      simp [callText]
    have hafter : afterWord? "new".toList ("new ".toList ++ callText name.text arguments ++
        chainText ms) = some (name.text ++ '(' :: (arguments ++ [')'] ++ chainText ms)) := by
      rw [List.append_assoc, hrest, hcons]
      exact congrArg some (Text.stripLeft_cons hblank _)
    have hconstructor := ofConstructor_call name (arguments ++ [')'] ++ chainText ms)
    show ofPrimary infer ("new ".toList ++ callText name.text arguments ++ chainText ms) isConst = _
    have hnone : ∀ b : Bracket, isBracketed ("new ".toList ++ callText name.text arguments ++
        chainText ms) b.opener = false := by
      intro b
      cases b <;> rfl
    generalize "new ".toList ++ callText name.text arguments ++ chainText ms = expr at *
    rw [ofPrimary, show isBracketed expr '[' = false from hnone .square,
      show isBracketed expr '{' = false from hnone .brace,
      show isBracketed expr '(' = false from hnone .round, hafter]
    exact hconstructor
  | symbol arguments =>
    have hsymbol : ofPrimary infer ((Primary.symbol arguments).text ++ chainText ms) isConst =
        if ((Primary.symbol arguments).text ++ chainText ms).getLast? == some ')' then
          .reference "symbol".toList else .unknown := rfl
    rw [hsymbol, hlast]
    rfl
  | promise arguments =>
    have hpromise := ofPromise_memberCalls hp.1 hapart (h.resolve_left Bool.false_ne_true)
    exact hpromise

/-- The comments that are taken out of a primary with calls behind it. -/
theorem stripComments_memberCalls (hp : p.WellFormed) (hms : ∀ m ∈ ms, m.WellFormed)
    (hapart : p.Apart (chainText ms)) (hmsApart : MemberCall.Apart ms) :
    stripComments (p.text ++ chainText ms) = p.uncommented.text ++ chainText ms := by
  have hapart' : p.Apart (chainText ms ++ []) := by
    rwa [List.append_nil]
  exact ((Primary.keepsAt_text hp hapart').append (keepsAt_chain hms hmsApart _ _)).stripComments_eq

theorem Primary.callType_uncommented (p : Primary) : p.uncommented.callType = p.callType := by
  cases p <;> rfl

theorem Primary.isOpenEnded_uncommented (p : Primary) :
    p.uncommented.isOpenEnded = p.isOpenEnded := by
  cases p <;> rfl

theorem infer_callType (hp : p.WellFormed) (hms : ∀ m ∈ ms, m.WellFormed)
    (hapart : p.Apart (chainText ms)) (hmsApart : MemberCall.Apart ms)
    (hbare : p.uncommented.WellFormed ∧ p.uncommented.Apart (chainText ms))
    (h : p.isOpenEnded = true ∨ ms ≠ []) (isConst : Bool) :
    infer (p.text ++ chainText ms) isConst = p.callType := by
  rw [← Primary.isOpenEnded_uncommented] at h
  have hlast := getLast?_memberCalls h
  obtain ⟨c, t, hcons, hblank, -⟩ := p.uncommented.exists_cons
  have htight : Text.Tight (p.uncommented.text ++ chainText ms) :=
    ⟨⟨c, by simp [hcons], hblank⟩, ⟨')', hlast, by decide, by decide⟩⟩
  rw [infer_eq, layer, stripComments_memberCalls hp hms hapart hmsApart, htight.stripSemicolon_eq]
  have hne : (p.uncommented.text ++ chainText ms).isEmpty = false := by
    simpa using htight.ne_nil
  simp only [hne, Bool.false_eq_true, if_false]
  rw [ofExpression_memberCalls hbare.1 hms hbare.2 hmsApart h,
    ofPrimary_memberCalls hbare.1 hbare.2 h, Primary.callType_uncommented]

/-- A call that is read alike with calls behind it is read alike alone. -/
theorem Primary.Apart.nil {more : Text} (h : p.Apart more) (hopen : p.isOpenEnded = true) :
    p.uncommented = p ∧ p.Apart [] := by
  cases p with
  | string _ _ | bracketed _ _ | promise _ => cases hopen
  | construction name arguments =>
    have hslash : LeavesSlashes arguments ([')'] ++ more) := h.2
    exact ⟨rfl, h.1, hslash.of_append⟩
  | symbol arguments =>
    have hslash : LeavesSlashes arguments ([')'] ++ more) := h
    exact ⟨rfl, hslash.of_append⟩

/-- **Only a whole expression is typed.**  With calls of members behind it, a string, a bracketed
expression or a promise has no type, whatever is in it and whatever is called; a constructor call
and a symbol have the type they have alone. -/
theorem infer_memberCalls (hp : p.WellFormed) (hms : ∀ m ∈ ms, m.WellFormed) (hne : ms ≠ [])
    (hapart : p.Apart (chainText ms)) (hmsApart : MemberCall.Apart ms)
    (hbare : p.uncommented.WellFormed ∧ p.uncommented.Apart (chainText ms)) (isConst : Bool) :
    infer (p.text ++ chainText ms) isConst =
      if p.isOpenEnded then infer p.text isConst else .unknown := by
  rw [infer_callType hp hms hapart hmsApart hbare (.inr hne)]
  by_cases hopen : p.isOpenEnded = true
  · obtain ⟨hsame, halone⟩ := hapart.nil hopen
    have hbareAlone : p.uncommented.WellFormed ∧ p.uncommented.Apart [] := by
      rw [hsame]
      exact ⟨hp, halone⟩
    have hfirst := infer_callType hp (List.forall_mem_nil _) halone trivial hbareAlone (.inl hopen)
      isConst
    rw [chainText, List.append_nil] at hfirst
    rw [if_pos hopen, hfirst]
  · rw [if_neg hopen]
    cases p with
    | string _ _ | bracketed _ _ | promise _ => rfl
    | construction _ _ | symbol _ => exact absurd rfl hopen

end

/-- Slashes, commas and comments in a primary and in the calls on it. -/
theorem infer_memberCalls_mapped :
    let ms : List MemberCall :=
      [⟨⟨"map".toList, by decide⟩, "(x) => x / 2 as number".toList⟩,
        ⟨⟨"join".toList, by decide⟩, "', '".toList⟩]
    let ps : List Primary :=
      [.string .single "it\\'s".toList, .bracketed .square "1, /* two */ 2".toList,
        .bracketed .brace " ratio: a / b ".toList, .bracketed .round "(x) => x".toList,
        .promise "1".toList]
    (∀ m ∈ ms, m.WellFormed) ∧ MemberCall.Apart ms ∧
      (∀ p ∈ ps, p.WellFormed ∧ p.Apart (chainText ms) ∧ p.uncommented.WellFormed ∧
        p.uncommented.Apart (chainText ms)) ∧
      ∀ p ∈ ps, ∀ isConst, infer (p.text ++ chainText ms) isConst = .unknown := by
  intro ms ps
  have hms : ∀ m ∈ ms, m.WellFormed := by decide +kernel
  have hmsApart : MemberCall.Apart ms := by decide +kernel
  have hps : ∀ p ∈ ps, p.WellFormed ∧ p.Apart (chainText ms) ∧ p.uncommented.WellFormed ∧
      p.uncommented.Apart (chainText ms) := by decide +kernel
  have hclosed : ∀ p ∈ ps, p.isOpenEnded = false := by decide +kernel
  refine ⟨hms, hmsApart, hps, fun p hp isConst => ?_⟩
  obtain ⟨hwell, hapart, hbare⟩ := hps p hp
  rw [infer_memberCalls hwell hms (by simp [ms]) hapart hmsApart hbare, hclosed p hp]
  rfl

/-- What a constructor makes has its type with a call behind it too, a member that is named like an
asserting word asserts, and a slash can begin a literal together with one of the arguments. -/
theorem infer_memberCalls_open :
    (infer "new Date().getTime()".toList true = .reference "Date".toList ∧
      infer "Symbol('a').toString()".toList false = .reference "symbol".toList ∧
      infer "[1].as(2)".toList true = .reference "(2)".toList) ∧
    (∀ t ∈ ["".toList, "'a'".toList, "1".toList, "2".toList, "i++ / 2".toList,
      "x / y as string".toList], Closed t ∧ stripComments t = t) ∧
    infer "(i++ / 2).f(x / y as string)".toList true = .reference "string".toList := by
  decide +kernel

end ModuleSurface.Narrowing
