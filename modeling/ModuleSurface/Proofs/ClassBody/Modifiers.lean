import ModuleSurface.ClassBody.Member
import ModuleSurface.Proofs.Callable.Header
import ModuleSurface.Proofs.Statement.Single

/-!
# Modifiers of class members

Modifiers are read off the front of a member word by word (`takeModifiers_modified`).  What is
written of the member depends on which of them are there, not on their order or number
(`memberLines_congr`): the lines begin with the ones that declarations keep, in a fixed order
(`modifierText_prefix`), and a private member has none (`memberLines_of_private`,
`memberLines_of_hashNamed`).
-/

namespace ModuleSurface.ClassBody

open ModuleSurface.Lexing
open ModuleSurface.Callable
open ModuleSurface.Narrowing

/-- A member behind modifiers. -/
def modified (ms : List Text) (core : Text) : Text :=
  Text.join " ".toList ms ++ ' ' :: core

/-- The text begins with something that can stand behind a modifier: neither white space nor a sign
that makes a name of the word in front of it. -/
def BeginsMember (core : Text) : Prop :=
  ∃ c ∈ core.head?, Text.isBlank c = false ∧ c ∉ nameFollowers

instance (core : Text) : Decidable (BeginsMember core) :=
  match core with
  | [] => isFalse fun ⟨_, hc, _⟩ => nomatch hc
  | c :: _ =>
    decidable_of_iff (Text.isBlank c = false ∧ c ∉ nameFollowers)
      ⟨fun h => ⟨c, rfl, h⟩, fun ⟨_, hc, h⟩ => Option.some.inj hc ▸ h⟩

/-- The modifiers that a member is read with. -/
def modifiersOf (member : Text) : List Text :=
  (takeModifiers (stripDecorators member)).1

/-- What a member is behind its modifiers. -/
def coreOf (member : Text) : Text :=
  (takeModifiers (stripDecorators member)).2

/-- A member behind modifiers as it is read: decorators go only where nothing is in front of
them. -/
def undecorated (ms : List Text) (core : Text) : Text :=
  if ms.isEmpty then stripDecorators core else core

/-- A member behind the star of a generator. -/
def behindStar (core : Text) : Text :=
  if core.head? == some '*' then Text.stripLeft (core.drop 1) else core

/-- What follows the name at the start of a text and the mark behind it. -/
def behindName (text : Text) : Text :=
  let rest := Text.stripLeft (text.drop (readName text).2)
  if rest.head? == some '?' || rest.head? == some '!' then Text.stripLeft (rest.drop 1) else rest

/-- Is the member, behind its modifiers, a constructor?  It has that name, and type parameters or
parameters follow. -/
def isConstructor (core : Text) : Bool :=
  let text := (takeAccessor (behindStar core)).2
  (readName text).1 == "constructor".toList &&
    ((behindName text).head? == some '(' || (behindName text).head? == some '<')

/-! ## Reading modifiers -/

theorem isIdentChar_of_mem_modifierWords :
    ∀ w ∈ modifierWords, ∀ c ∈ w, Text.isIdentChar c = true := by
  decide +kernel

theorem BeginsMember.followsModifier {core : Text} (h : BeginsMember core) :
    followsModifier core = true ∧ Text.stripLeft core = core := by
  obtain ⟨c, hc, hblank, hsign⟩ := h
  obtain ⟨r, rfl⟩ := List.head?_eq_some_iff.1 hc
  exact ⟨by simpa [ClassBody.followsModifier] using hsign, Text.stripLeft_cons hblank r⟩

/-- A modifier begins with a letter, and no such letter is a sign that follows a name. -/
theorem exists_cons_modifier {w : Text} (hw : w ∈ modifierWords) :
    ∃ c r, w = c :: r ∧ Text.isBlank c = false ∧ c ∉ nameFollowers ∧ c ≠ '@' := by
  have hheads : ∀ w ∈ modifierWords, w.head?.any (fun c =>
      !Text.isBlank c && !nameFollowers.contains c && c != '@') = true := by decide
  obtain ⟨c, hc, hgood⟩ := (Option.any_eq_true _ _).1 (hheads w hw)
  obtain ⟨r, rfl⟩ := List.head?_eq_some_iff.1 hc
  simp only [Bool.and_eq_true, Bool.not_eq_true', bne_iff_ne, ne_eq] at hgood
  obtain ⟨⟨hblank, hsign⟩, hat⟩ := hgood
  exact ⟨c, r, rfl, hblank, by simpa using hsign, hat⟩

theorem modified_singleton (w core : Text) : modified [w] core = w ++ ' ' :: core := by
  rw [modified, Text.join, List.intercalate_singleton]

theorem modified_cons (w v : Text) (ms : List Text) (core : Text) :
    modified (w :: v :: ms) core = w ++ ' ' :: modified (v :: ms) core := by
  rw [modified, modified, Text.join, List.intercalate_cons_cons]
  simp [Text.join]

/-- One modifier in front of something that goes on with the member. -/
theorem takeModifiers_cons {w rest : Text} (hw : w ∈ modifierWords) (hrest : BeginsMember rest) :
    takeModifiers (w ++ ' ' :: rest) = (w :: (takeModifiers rest).1, (takeModifiers rest).2) := by
  obtain ⟨c, r, rfl, -⟩ := exists_cons_modifier hw
  have hread : readIdentifier (c :: r ++ ' ' :: rest) 0 = (c :: r, (c :: r).length) :=
    Header.readIdentifier_start (by simp) (isIdentChar_of_mem_modifierWords _ hw) rfl
  have hbehind : Text.stripLeft ((c :: r ++ ' ' :: rest).drop (c :: r).length) = rest := by
    rw [List.drop_left]
    exact hrest.followsModifier.2
  rw [takeModifiers]
  simp only [hread, hbehind]
  rw [dif_pos ⟨List.contains_iff_mem.2 hw, hrest.followsModifier.1⟩]

theorem beginsMember_modified {ms : List Text} (hms : ∀ w ∈ ms, w ∈ modifierWords) (hne : ms ≠ [])
    (core : Text) : BeginsMember (modified ms core) := by
  obtain ⟨w, ms, rfl⟩ := List.exists_cons_of_ne_nil hne
  obtain ⟨c, r, rfl, hblank, hsign, -⟩ := exists_cons_modifier (hms w List.mem_cons_self)
  refine ⟨c, ?_, hblank, hsign⟩
  cases ms with
  | nil => rw [modified_singleton]; rfl
  | cons v ms => rw [modified_cons]; rfl

/-- **All modifiers in front of a member are read**, and then those that the member itself begins
with. -/
theorem takeModifiers_modified {ms : List Text} (hms : ∀ w ∈ ms, w ∈ modifierWords) (hne : ms ≠ [])
    {core : Text} (hcore : BeginsMember core) :
    takeModifiers (modified ms core) = (ms ++ (takeModifiers core).1, (takeModifiers core).2) := by
  induction ms with
  | nil => exact absurd rfl hne
  | cons w ms ih =>
    obtain ⟨hw, hms⟩ := List.forall_mem_cons.1 hms
    cases ms with
    | nil =>
      rw [modified_singleton, takeModifiers_cons hw hcore]
      rfl
    | cons v ms =>
      rw [modified_cons, takeModifiers_cons hw (beginsMember_modified hms (by simp) core),
        ih hms (by simp)]
      rfl

/-- Nothing in front of a modifier is taken for a decorator. -/
theorem stripDecorators_modified {ms : List Text} (hms : ∀ w ∈ ms, w ∈ modifierWords)
    (hne : ms ≠ []) (core : Text) : stripDecorators (modified ms core) = modified ms core := by
  obtain ⟨w, ms, rfl⟩ := List.exists_cons_of_ne_nil hne
  obtain ⟨c, r, rfl, hblank, -, hat⟩ := exists_cons_modifier (hms w List.mem_cons_self)
  obtain ⟨t, ht⟩ : ∃ t, modified ((c :: r) :: ms) core = c :: t := by
    cases ms with
    | nil => exact ⟨_, modified_singleton _ _⟩
    | cons v ms => exact ⟨_, modified_cons _ _ _ _⟩
  rw [ht]
  exact Statement.stripDecorators_eq (Text.stripLeft_cons hblank t) hat

theorem stripDecorators_blank (core : Text) :
    stripDecorators (' ' :: core) = stripDecorators core := by
  have hstrip : Text.stripLeft (' ' :: core) = Text.stripLeft core := rfl
  rw [stripDecorators.eq_def (' ' :: core), stripDecorators.eq_def core]
  split <;> rename_i h <;> rw [hstrip] at h <;> rw [h]

theorem modifiersOf_modified {ms : List Text} (hms : ∀ w ∈ ms, w ∈ modifierWords) {core : Text}
    (hcore : BeginsMember core) :
    modifiersOf (modified ms core) = ms ++ (takeModifiers (undecorated ms core)).1 ∧
      coreOf (modified ms core) = (takeModifiers (undecorated ms core)).2 := by
  unfold modifiersOf coreOf
  cases ms with
  | nil =>
    have hblank : stripDecorators (modified [] core) = undecorated [] core :=
      stripDecorators_blank core
    rw [hblank]
    exact ⟨rfl, rfl⟩
  | cons w ms =>
    rw [stripDecorators_modified hms (by simp), takeModifiers_modified hms (by simp) hcore]
    exact ⟨rfl, rfl⟩

/-! ## What depends on the modifiers -/

section

variable {ms ms' : List Text}

theorem modifierText_congr (h : ∀ w, ms.contains w = ms'.contains w) :
    modifierText ms = modifierText ms' := by
  have hcontains : ms.contains = ms'.contains := funext h
  rw [modifierText, modifierText, hcontains]

theorem callableLines_congr (h : ∀ w, ms.contains w = ms'.contains w) (isGenerator : Bool)
    (accessor name marker rest : Text) :
    callableLines ms isGenerator accessor name marker rest =
      callableLines ms' isGenerator accessor name marker rest := by
  simp only [callableLines, constructorLines, modifierText_congr h, h]

theorem propertyLine_congr (h : ∀ w, ms.contains w = ms'.contains w) (name marker rest : Text) :
    propertyLine ms name marker rest = propertyLine ms' name marker rest := by
  simp only [propertyLine, modifierText_congr h, h]

theorem namedLines_congr (h : ∀ w, ms.contains w = ms'.contains w) (isGenerator : Bool)
    (accessor text : Text) :
    namedLines ms isGenerator accessor text = namedLines ms' isGenerator accessor text := by
  simp only [namedLines, callableLines_congr h, propertyLine_congr h]

theorem exists_namedLines_eq (ms : List Text) (isGenerator : Bool) (accessor text : Text) :
    ∃ marker, namedLines ms isGenerator accessor text =
      if (readName text).1.isEmpty || (readName text).1.head? == some '#' then []
      else if (behindName text).head? == some '(' || (behindName text).head? == some '<' then
        callableLines ms isGenerator accessor (readName text).1 marker (behindName text)
      else [propertyLine ms (readName text).1 marker (behindName text)] :=
  ⟨_, rfl⟩

variable {member other : Text}

theorem memberLines_eq (member : Text) :
    memberLines member =
      if (modifiersOf member).contains "private".toList || (coreOf member).head? == some '#' ||
          (coreOf member).head? == some '{' then []
      else if isIndexMember (coreOf member) then
        [modifierText (modifiersOf member) ++
          Text.collapse (Text.stripSemicolon (coreOf member)) ++ ";".toList]
      else
        namedLines (modifiersOf member) ((coreOf member).head? == some '*')
          (takeAccessor (behindStar (coreOf member))).1
          (takeAccessor (behindStar (coreOf member))).2 := rfl

/-- **The lines of a member depend on which modifiers it has.** -/
theorem memberLines_congr (hsame : ∀ w, w ∈ modifiersOf member ↔ w ∈ modifiersOf other)
    (hcore : coreOf member = coreOf other) : memberLines member = memberLines other := by
  have hcontains : ∀ w, (modifiersOf member).contains w = (modifiersOf other).contains w := by
    intro w
    rw [Bool.eq_iff_iff, List.contains_iff_mem, List.contains_iff_mem]
    exact hsame w
  rw [memberLines_eq, memberLines_eq, hcore, hcontains, modifierText_congr hcontains,
    namedLines_congr hcontains]

theorem memberLines_of_private (h : "private".toList ∈ modifiersOf member) :
    memberLines member = [] := by
  rw [memberLines_eq, List.contains_iff_mem.2 h, Bool.true_or, Bool.true_or, if_pos rfl]

end

/-! ## Names with a hash -/

/-- A name with a hash in front of it, alone or behind the word of an accessor. -/
inductive HashName : Text → Prop
  | plain (t : Text) : HashName ('#' :: t)
  | accessed {word blanks : Text} (hword : word = "get".toList ∨ word = "set".toList)
      (hblanks : ∀ c ∈ blanks, Text.isBlank c = true) (t : Text) :
      HashName (word ++ (blanks ++ '#' :: t))

/-- A member with such a name, which can be a generator. -/
inductive HashNamed : Text → Prop
  | plain {text : Text} : HashName text → HashNamed text
  | starred {blanks text : Text} (hblanks : ∀ c ∈ blanks, Text.isBlank c = true) :
      HashName text → HashNamed ('*' :: (blanks ++ text))

/-- The word of an accessor is read up to the name behind it. -/
theorem readIdentifier_accessor {word blanks : Text}
    (hword : word = "get".toList ∨ word = "set".toList)
    (hblanks : ∀ c ∈ blanks, Text.isBlank c = true) (t : Text) :
    readIdentifier (word ++ (blanks ++ '#' :: t)) 0 = (word, word.length) := by
  refine Header.readIdentifier_start ?_ ?_ ?_
  · rcases hword with rfl | rfl <;> decide
  · rcases hword with rfl | rfl <;> decide
  · cases blanks with
    | nil => rfl
    | cons d r => simpa using Text.isIdentChar_of_isBlank (hblanks d List.mem_cons_self)

theorem takeAccessor_word {word blanks : Text} (hword : word = "get".toList ∨ word = "set".toList)
    (hblanks : ∀ c ∈ blanks, Text.isBlank c = true) (t : Text) :
    takeAccessor (word ++ (blanks ++ '#' :: t)) = (word, '#' :: t) := by
  have hbehind : Text.stripLeft ((word ++ (blanks ++ '#' :: t)).drop word.length) = '#' :: t := by
    rw [List.drop_left, Text.stripLeft, List.dropWhile_append_of_pos hblanks]
    rfl
  simp only [takeAccessor, readIdentifier_accessor hword hblanks, hbehind]
  exact if_pos ⟨hword, rfl⟩

namespace HashName

variable {text : Text}

theorem exists_head (h : HashName text) : ∃ c r, text = c :: r ∧ (c = '#' ∨ c = 'g' ∨ c = 's') := by
  cases h with
  | plain t => exact ⟨'#', t, rfl, .inl rfl⟩
  | accessed hword _ t =>
    rcases hword with rfl | rfl
    · exact ⟨'g', _, rfl, .inr (.inl rfl)⟩
    · exact ⟨'s', _, rfl, .inr (.inr rfl)⟩

theorem namedLines_eq_nil (h : HashName text) (ms : List Text) (isGenerator : Bool) :
    namedLines ms isGenerator (takeAccessor text).1 (takeAccessor text).2 = [] := by
  cases h with
  | plain t => rfl
  | accessed hword hblanks t =>
    rw [takeAccessor_word hword hblanks]
    rfl

/-- The word of an accessor is no modifier. -/
theorem contains_readIdentifier (h : HashName text) :
    modifierWords.contains (readIdentifier text 0).1 = false := by
  cases h with
  | plain t => rfl
  | accessed hword hblanks t =>
    rw [readIdentifier_accessor hword hblanks]
    rcases hword with rfl | rfl <;> decide

end HashName

namespace HashNamed

variable {core : Text}

theorem exists_head (h : HashNamed core) :
    ∃ c r, core = c :: r ∧ Text.isBlank c = false ∧ c ∉ ['@', '[', '{'] := by
  cases h with
  | plain h =>
    obtain ⟨c, r, rfl, rfl | rfl | rfl⟩ := h.exists_head <;> exact ⟨_, r, rfl, by decide, by decide⟩
  | starred _ _ => exact ⟨'*', _, rfl, by decide, by decide⟩

/-- No modifier is read off such a member. -/
theorem takeModifiers_eq (h : HashNamed core) : takeModifiers core = ([], core) := by
  obtain ⟨c, r, hcons, hblank, -⟩ := h.exists_head
  have hword : modifierWords.contains (readIdentifier core 0).1 = false := by
    cases h with
    | plain h => exact h.contains_readIdentifier
    | starred _ _ => rfl
  rw [takeModifiers, dif_neg (fun hmodifier => by rw [hmodifier.1] at hword; cases hword), hcons,
    Text.stripLeft_cons hblank]

/-- The name of such a member is not declared. -/
theorem namedLines_eq_nil (h : HashNamed core) (ms : List Text) (isGenerator : Bool) :
    namedLines ms isGenerator (takeAccessor (behindStar core)).1
      (takeAccessor (behindStar core)).2 = [] := by
  cases h with
  | plain h =>
    obtain ⟨c, r, hcons, hc⟩ := h.exists_head
    have hstar : behindStar core = core := by
      rw [behindStar, hcons]
      rcases hc with rfl | rfl | rfl <;> rfl
    rw [hstar]
    exact h.namedLines_eq_nil ms isGenerator
  | @starred blanks text hblanks h =>
    obtain ⟨c, r, hcons, hc⟩ := h.exists_head
    have hblank : ¬ Text.isBlank c = true := by
      rcases hc with rfl | rfl | rfl <;> decide
    have hstar : behindStar ('*' :: (blanks ++ text)) = text := by
      show (blanks ++ text).dropWhile Text.isBlank = text
      rw [List.dropWhile_append_of_pos hblanks, hcons, List.dropWhile_cons_of_neg hblank]
    rw [hstar]
    exact h.namedLines_eq_nil ms isGenerator

end HashNamed

theorem memberLines_of_hashNamed {member : Text} (h : HashNamed (coreOf member)) :
    memberLines member = [] := by
  obtain ⟨c, r, hcons, -, hc⟩ := h.exists_head
  have hindex : isIndexMember (coreOf member) = false := by
    have hne : (some c == some '[') = false := by
      rw [beq_eq_false_iff_ne]
      rintro ⟨⟩
      exact hc (by decide)
    rw [isIndexMember, hcons, List.head?_cons, hne, Bool.false_and]
  rw [memberLines_eq, hindex, h.namedLines_eq_nil]
  split <;> rfl

/-! ## What the lines begin with -/

/-- The modifiers that declarations keep are written in their order, each at most once. -/
theorem exists_kept (ms : List Text) :
    ∃ kept : List Text, kept.Sublist writtenModifiers ∧
      (∀ w, w ∈ kept ↔ w ∈ writtenModifiers ∧ w ∈ ms) ∧
      modifierText ms = kept.flatMap (· ++ " ".toList) := by
  refine ⟨writtenModifiers.filter ms.contains, List.filter_sublist, fun w => ?_, rfl⟩
  rw [List.mem_filter, List.contains_iff_mem]

theorem modifierText_prefix_callable {ms : List Text} {isGenerator : Bool}
    {accessor name marker rest line : Text} (hname : name ≠ "constructor".toList)
    (h : line ∈ callableLines ms isGenerator accessor name marker rest) :
    modifierText ms <+: line := by
  unfold callableLines at h
  cases hread : Signature.readAt rest 0 with
  | none =>
    rw [hread] at h
    cases h
  | some s =>
    simp only [hread, hname, if_false] at h
    split at h
    · rw [List.mem_singleton.1 h]
      simp only [List.append_assoc]
      exact List.prefix_append _ _
    · split at h <;>
      · rw [List.mem_singleton.1 h]
        simp only [List.append_assoc]
        exact List.prefix_append _ _

/-- **The lines of a member begin with the modifiers that are kept of it**, a constructor apart. -/
theorem modifierText_prefix {member line : Text} (hcore : isConstructor (coreOf member) = false)
    (h : line ∈ memberLines member) : modifierText (modifiersOf member) <+: line := by
  rw [memberLines_eq] at h
  split at h
  · cases h
  split at h
  · rw [List.mem_singleton.1 h, List.append_assoc]
    exact List.prefix_append _ _
  obtain ⟨marker, hnamed⟩ := exists_namedLines_eq (modifiersOf member)
    ((coreOf member).head? == some '*') (takeAccessor (behindStar (coreOf member))).1
    (takeAccessor (behindStar (coreOf member))).2
  rw [hnamed] at h
  split at h
  · cases h
  split at h
  · rename_i hopens
    refine modifierText_prefix_callable (fun hname => ?_) h
    rw [isConstructor] at hcore
    simp only [hname, hopens, beq_self_eq_true, Bool.and_true] at hcore
    cases hcore
  · rw [List.mem_singleton.1 h, propertyLine]
    simp only [List.append_assoc]
    exact List.prefix_append _ _

/-- **A member depends on the set of its modifiers.**

* With the same modifiers in another order it has the same lines.
* A private member has none, nor has one with a hash in front of its name.
* Unless it is a constructor, every line begins with those modifiers that declarations keep, in
  their order there, each once and only if it stands in front of the member, in `ms` or behind
  it. -/
theorem memberLines_modified {ms : List Text} (hms : ∀ w ∈ ms, w ∈ modifierWords) {core : Text}
    (hcore : BeginsMember core) :
    (∀ ms', ms'.Perm ms → memberLines (modified ms' core) = memberLines (modified ms core)) ∧
    ("private".toList ∈ ms ∨ HashNamed core → memberLines (modified ms core) = []) ∧
    (isConstructor (takeModifiers (undecorated ms core)).2 = false →
      ∃ kept : List Text, kept.Sublist writtenModifiers ∧
        (∀ w, w ∈ kept ↔
          w ∈ writtenModifiers ∧ (w ∈ ms ∨ w ∈ (takeModifiers (undecorated ms core)).1)) ∧
        ∀ line ∈ memberLines (modified ms core), kept.flatMap (· ++ " ".toList) <+: line) := by
  obtain ⟨hmodifiers, hrest⟩ := modifiersOf_modified hms hcore
  refine ⟨fun ms' hperm => ?_, ?_, fun hconstructor => ?_⟩
  · have hempty : undecorated ms' core = undecorated ms core := by
      rw [undecorated, undecorated, hperm.isEmpty_eq]
    obtain ⟨hmodifiers', hrest'⟩ :=
      modifiersOf_modified (fun w hw => hms w (hperm.mem_iff.1 hw)) hcore
    refine memberLines_congr (fun w => ?_) ?_
    · rw [hmodifiers, hmodifiers', List.mem_append, List.mem_append, hperm.mem_iff, hempty]
    · rw [hrest, hrest', hempty]
  · rintro (hprivate | hhash)
    · exact memberLines_of_private (hmodifiers ▸ List.mem_append_left _ hprivate)
    · obtain ⟨c, r, hcons, hblank, hc⟩ := hhash.exists_head
      have hbare : undecorated ms core = core := by
        rw [undecorated, hcons]
        split
        · exact Statement.stripDecorators_eq (Text.stripLeft_cons hblank r)
            (by rintro rfl; exact hc (by decide))
        · rfl
      rw [hbare, hhash.takeModifiers_eq] at hrest
      exact memberLines_of_hashNamed (hrest ▸ hhash)
  · obtain ⟨kept, hsublist, hkept, htext⟩ := exists_kept (modifiersOf (modified ms core))
    refine ⟨kept, hsublist, fun w => ?_, fun line hline => ?_⟩
    · rw [hkept, hmodifiers, List.mem_append]
    · rw [← htext]
      exact modifierText_prefix (hrest ▸ hconstructor) hline

/-- A modifier that is written twice, one that is not kept, and one that the member itself begins
with; and a generator whose name has a hash. -/
theorem memberLines_modified_repeated :
    let ms := ["readonly".toList, "public".toList, "static".toList, "readonly".toList]
    let core := "abstract get static(): X".toList
    ((∀ w ∈ ms, w ∈ modifierWords) ∧ BeginsMember core) ∧
    memberLines (modified ms.reverse core) = memberLines (modified ms core) ∧
    memberLines (modified ms core) = ["static abstract readonly get static(): X;".toList] ∧
    (∃ kept : List Text, kept.Sublist writtenModifiers ∧
      ∀ line ∈ memberLines (modified ms core), kept.flatMap (· ++ " ".toList) <+: line) ∧
    memberLines (modified ms "* #abstract() \x7b\x7d".toList) = [] := by
  intro ms core
  have hms : ∀ w ∈ ms, w ∈ modifierWords := by decide
  have hcore : BeginsMember core := by decide
  have hblank : ∀ c ∈ [' '], Text.isBlank c = true := by decide
  have hhash : HashNamed "* #abstract() \x7b\x7d".toList := .starred hblank (.plain _)
  obtain ⟨hperm, -, hkept⟩ := memberLines_modified hms hcore
  obtain ⟨kept, hsublist, -, hlines⟩ := hkept (by decide +kernel)
  exact ⟨⟨hms, hcore⟩, hperm _ ms.reverse_perm, by decide +kernel, ⟨kept, hsublist, hlines⟩,
    (memberLines_modified hms (by decide)).2.1 (.inr hhash)⟩

end ModuleSurface.ClassBody
