import ModuleSurface.Proofs.Callable.Listed
import ModuleSurface.Proofs.Declaration.Variable
import ModuleSurface.Proofs.Lexing.Counted
import ModuleSurface.Proofs.Lexing.Words
import ModuleSurface.Proofs.Text.Collapse

/-!
# Declarators

A declarator is written as a parameter is: a name, and behind it a type and a value if there are
any.

* `ofDeclarator?_text` — a declarator declares a variable with its name, its type and its value;
* `find?_behind_keyword`, `find?_behind_comma` — the declarators are looked for one behind the
  other, and only the first one could be found too early, inside the keyword;
* `ofDeclarators_cons`, `ofDeclarators_behind` — the variables of a list, each at its place.
-/

namespace ModuleSurface

open ModuleSurface.Lexing
open ModuleSurface.Callable
open ModuleSurface.Statement

/-! ## The assignment of a declarator -/

namespace Lexing

/-- What assigns nothing in a text assigns nothing in a larger one. -/
theorem Visit.assigns_lift {v : Visit} (h : v.assigns = false) (base : State) (offset : Nat)
    (outer more : Text) : (v.lift base offset outer more).assigns = false := by
  cases hpast : v.past <;> cases hrest : v.rest <;>
    simp_all [Visit.assigns, Visit.lift]

/-- In front of a type nothing assigns, nor does anything in it. -/
theorem exists_reads_typed {t more : Text} (ht : Closed t) (hangles : anglesAfter 0 (visits t) = 0)
    (hnone : findAssignment? t = none) (hmore : Parts more) (hslash : LeavesSlashes t more) :
    ∃ vs, Reads {} [] (": ".toList ++ t) more 0 vs ∧ anglesAfter 0 vs = 0 ∧
      ∀ v ∈ outermostFrom true 0 vs, v.assigns = false := by
  obtain ⟨vs, hreads, hvs⟩ := @Reads.of_plain {} ": ".toList rfl (by decide) [] (t ++ more) 0
  have hchar : ∀ v ∈ vs, v.char ∈ ": ".toList := by
    intro v hv
    obtain ⟨-, a, b, hsplit, -⟩ := hvs v hv
    rw [hsplit]
    simp
  have htype : Reads {} (": ".toList.reverse ++ []) t more (0 + ": ".toList.length) _ :=
    ht.reads .fresh rfl ⟨rfl, rfl⟩ hmore hslash _
  have hsigns : ∀ c ∈ ": ".toList, c ≠ '<' ∧ c ≠ '>' ∧ c ≠ '=' := by decide
  have hvsAngles : anglesAfter 0 vs = 0 :=
    anglesAfter_eq_self (fun v hv => ⟨(hsigns _ (hchar v hv)).1, (hsigns _ (hchar v hv)).2.1⟩) 0
  refine ⟨_, hreads.append htype, ?_, ?_⟩
  · rw [anglesAfter_append, hvsAngles, anglesAfter_lift (by simp), hangles]
  · intro v hv
    rw [outermostFrom_append, hvsAngles, List.mem_append, outermostFrom_lift rfl (by simp)] at hv
    rcases hv with hv | hv
    · have hne := (hsigns _ (hchar v (mem_of_mem_outermostFrom hv).1)).2.2
      simp [Visit.assigns, hne]
    · obtain ⟨w, hw, rfl⟩ := List.mem_map.1 hv
      refine Visit.assigns_lift ?_ _ _ _ _
      simpa using List.find?_eq_none.1 (Option.map_eq_none_iff.1 hnone) w hw

/-- Nothing assigns in front of a type or in it. -/
theorem findAssignment?_typed {t : Text} (ht : Closed t) (hangles : anglesAfter 0 (visits t) = 0)
    (hnone : findAssignment? t = none) : findAssignment? (": ".toList ++ t) = none := by
  obtain ⟨vs, hreads, hvs, hassigns⟩ :=
    exists_reads_typed ht hangles hnone (by decide) (leavesSlashes_nil t)
  have hfind := findAssignment?_of_reads hreads hvs hassigns
  rw [List.append_nil] at hfind
  rw [hfind, visitsFrom]
  rfl

/-- The equals sign behind a type assigns. -/
theorem findAssignment?_assigned {t v : Text} (ht : Closed t)
    (hangles : anglesAfter 0 (visits t) = 0) (hnone : findAssignment? t = none)
    (hslash : LeavesSlashes t (" = ".toList ++ v)) :
    findAssignment? (": ".toList ++ t ++ [' '] ++ '=' :: ' ' :: v) =
      some (": ".toList ++ t ++ [' ']).length := by
  have hparts : Parts (" = ".toList ++ v) := ⟨⟨by simp, by simp⟩, rfl⟩
  obtain ⟨vs, hreads, hvs, hassigns⟩ := exists_reads_typed ht hangles hnone hparts hslash
  have hreads' : Reads {} [] (": ".toList ++ t) (' ' :: '=' :: ' ' :: v) 0 vs := hreads
  have hequals := findAssignment?_equals hreads' hvs hassigns (by simp)
  simpa using hequals

end Lexing

namespace Callable.RawParameter

variable {d : RawParameter}

/-! ## Where a declarator is found -/

theorem exists_text_cons (hd : d.WellFormed) :
    ∃ c r, d.text = c :: r ∧ Text.isIdentChar c = true := by
  obtain ⟨c, r, hname⟩ := List.exists_cons_of_ne_nil hd.name.1
  exact ⟨c, r ++ (d.typePart ++ d.fallbackPart), by rw [text, hname]; rfl,
    hd.name.2 c (by rw [hname]; exact List.mem_cons_self)⟩

/-- A blank behind a name has the equals sign behind it. -/
theorem head?_of_text_eq (hd : d.WellFormed) {u w : Text}
    (hu : ∀ c ∈ u, Text.isIdentChar c = true) (h : d.text = u ++ ' ' :: w) :
    w.head? = some '=' := by
  have hblank : Text.isIdentChar ' ' = false := by decide
  cases htype : d.declaredType with
  | some t =>
    have hcolon : d.name ++ ':' :: (' ' :: t ++ d.fallbackPart) = u ++ ' ' :: w := by
      rw [← h, text, typePart, htype]
      rfl
    obtain rfl := Text.eq_of_append_cons hd.name.2 hu (by decide) hblank hcolon
    cases List.append_cancel_left hcolon
  | none =>
    cases hvalue : d.fallback with
    | some v =>
      have hequals : d.name ++ ' ' :: '=' :: ' ' :: v = u ++ ' ' :: w := by
        rw [← h, text, typePart, htype, fallbackPart, hvalue]
        rfl
      obtain rfl := Text.eq_of_append_cons hd.name.2 hu hblank hblank hequals
      cases List.append_cancel_left hequals
      rfl
    | none =>
      have hname : d.name = u ++ ' ' :: w := by
        rw [← h, text, typePart, htype, fallbackPart, hvalue]
        simp
      have hident := hd.name.2 ' ' (by rw [hname]; simp)
      rw [hblank] at hident
      cases hident

/-- Behind a keyword and a blank the declarator is found, if it stands nowhere in the keyword. -/
theorem find?_behind_keyword (hd : d.WellFormed) {keyword : Text}
    (hkeyword : ∀ c ∈ keyword, Text.isIdentChar c = true) (hne : ¬ d.text <:+: keyword)
    (more : Text) :
    Text.find? (keyword ++ ' ' :: (d.text ++ more)) d.text = some (keyword.length + 1) := by
  obtain ⟨c, r, htext, hc⟩ := exists_text_cons hd
  obtain ⟨n, hle, hfind⟩ := Text.findFrom_le d.text (keyword ++ [' ']) more 0
  obtain ⟨a, b, hsplit, rfl⟩ := Text.eq_of_findFrom hfind
  rw [List.append_assoc, List.singleton_append] at hsplit hfind
  rw [Text.find?, hfind, Nat.zero_add]
  rw [Nat.zero_add, Nat.zero_add, List.length_append, List.length_singleton] at hle
  rcases List.append_eq_append_iff.1 hsplit with ⟨u, rfl, hu⟩ | ⟨u, rfl, hu⟩
  · cases u with
    | nil =>
      -- the declarator does not begin with the blank
      rw [htext, List.nil_append, List.cons_append, List.cons_append, List.cons.injEq] at hu
      rw [← hu.1] at hc
      exact absurd hc (by decide)
    | cons e u =>
      simp only [List.length_append, List.length_cons] at hle ⊢
      congr 1
      omega
  · exfalso
    rcases List.append_eq_append_iff.1 hu with ⟨w, rfl, -⟩ | ⟨w, hw, hrest⟩
    · exact hne ⟨a, w, by simp⟩
    · cases w with
      | nil => exact hne ⟨a, [], by simp [hw]⟩
      | cons e w =>
        -- the declarator goes on behind the blank, but not as it begins
        rw [List.cons_append, List.cons.injEq] at hrest
        obtain ⟨rfl, hrest⟩ := hrest
        have hident : ∀ c ∈ u, Text.isIdentChar c = true :=
          fun c hc => hkeyword c (List.mem_append_right _ hc)
        obtain ⟨w', rfl⟩ := List.head?_eq_some_iff.1 (head?_of_text_eq hd hident hw)
        rw [htext, List.cons_append, List.cons_append, List.cons.injEq] at hrest
        rw [hrest.1] at hc
        exact absurd hc (by decide)

/-- Behind a comma and a blank the declarator is found. -/
theorem find?_behind_comma (hd : d.WellFormed) (more : Text) :
    Text.find? (", ".toList ++ (d.text ++ more)) d.text = some 2 := by
  obtain ⟨c, r, htext, hc⟩ := exists_text_cons hd
  have hne : c ∉ ", ".toList := by
    intro h
    have hall : ∀ c ∈ ", ".toList, Text.isIdentChar c = false := by decide
    rw [hall c h] at hc
    cases hc
  rw [Text.find?, Text.findFrom_append_of_not_mem d.text hne (by rw [htext]; rfl), htext,
    List.cons_append, Text.findFrom]
  simp

/-- The name ends where the type, the value or what follows them begins. -/
theorem any_head?_behind_name (d : RawParameter) {more : Text}
    (hmore : more.head?.any Text.isIdentChar = false) :
    (d.typePart ++ (d.fallbackPart ++ more)).head?.any Text.isIdentChar = false := by
  have hsigns : Text.isIdentChar ':' = false ∧ Text.isIdentChar ' ' = false := by decide
  cases htype : d.declaredType <;> cases hvalue : d.fallback <;>
    simp [typePart, fallbackPart, htype, hvalue, hsigns, hmore]

/-- A list of declarators has white space at neither end. -/
theorem trimmed_listText {ds : List RawParameter} (hne : ds ≠ []) (hds : ∀ d ∈ ds, d.WellFormed) :
    (listText ds).Trimmed := by
  induction ds with
  | nil => exact absurd rfl hne
  | cons d ds ih =>
    have hd := trimmed (hds d List.mem_cons_self)
    cases ds with
    | nil => simpa [listText, Text.join] using hd
    | cons e es =>
      have hrest := ih (by simp) fun f hf => hds f (List.mem_cons_of_mem _ hf)
      have hlist : listText (d :: e :: es) = d.text ++ (", ".toList ++ listText (e :: es)) := by
        simpa [listText] using join_row [] d.text e.text (es.map text) []
      obtain ⟨c, hc, hblank⟩ := hd.head
      obtain ⟨c', hc', hblank'⟩ := hrest.last
      rw [hlist]
      refine ⟨⟨c, ?_, hblank⟩, ⟨c', ?_, hblank'⟩⟩
      · rw [Option.mem_def, List.head?_append, Option.mem_def.1 hc]
        rfl
      · rw [Option.mem_def, List.getLast?_append, List.getLast?_append, Option.mem_def.1 hc']
        rfl

/-! ## What is read from a declarator -/

/-- The value is more than white space. -/
theorem strip_fallback_ne_nil (hd : d.WellFormed) : ∀ v ∈ d.fallback, Text.strip v ≠ [] := by
  intro v hv
  obtain ⟨c, hc, hblank⟩ := (trimmed hd).last
  have htext : d.text = d.name ++ d.typePart ++ [' ', '='] ++ ' ' :: v := by
    simp [text, fallbackPart, Option.mem_def.1 hv]
  rw [htext, List.getLast?_append, List.getLast?_cons] at hc
  have hmem : c ∈ v := by
    cases hlast : v.getLast? with
    | none =>
      rw [hlast] at hc
      obtain rfl : ' ' = c := Option.some.inj hc
      exact absurd hblank (by decide)
    | some e =>
      rw [hlast] at hc
      obtain rfl : e = c := Option.some.inj hc
      exact List.mem_of_getLast? hlast
  exact Text.strip_ne_nil hblank hmem

end Callable.RawParameter

namespace Declaration

open RawParameter

variable {d : RawParameter} {keyword : Text}

/-- The variable that a declarator at the offset `start` declares. -/
def ofRaw (keyword : Text) (start : Nat) (d : RawParameter) : Declaration where
  kind := .binding
  name := d.name
  raw := d.text
  modifiers := [keyword]
  declaredType := d.declaredType.bind fun t => nonempty? (Text.collapse t)
  value := d.fallback.map Text.strip
  start := start
  stop := start + d.text.length

/-- The type in a declarator whose name and value are taken off. -/
def declaredTypeOf (front : Text) : Option Text :=
  if (Text.strip front).head? == some ':' then nonempty? (Text.collapse ((Text.strip front).drop 1))
  else none

/-- White space around a type is not part of it. -/
theorem declaredTypeOf_typed {t back : Text} (hback : ∀ c ∈ back, Text.isBlank c = true) :
    declaredTypeOf (": ".toList ++ t ++ back) = nonempty? (Text.collapse t) := by
  have hcolon : Text.isBlank ':' = false := by decide
  have hstrip : Text.strip (": ".toList ++ t ++ back) =
      ':' :: Text.stripRight (' ' :: (t ++ back)) := by
    rw [Text.strip, List.append_assoc]
    show Text.stripRight (Text.stripLeft (':' :: (' ' :: (t ++ back)))) = _
    rw [Text.stripLeft_cons hcolon, Text.stripRight, Text.dropRightWhile_cons hcolon]
    rfl
  have hcollapse : Text.collapse (Text.stripRight (' ' :: (t ++ back))) = Text.collapse t := by
    rw [Text.collapse_stripRight, Text.collapse, Text.words_cons_blank (by decide),
      ← Text.collapse, Text.collapse_append_blanks hback]
  rw [declaredTypeOf, hstrip, List.head?_cons, List.drop_succ_cons, List.drop_zero, hcollapse]
  rfl

section

variable {name rest front back : Text}

/-- A declarator in which nothing assigns has no value. -/
theorem ofDeclarator?_unassigned (hne : name ≠ [])
    (hread : readIdentifier (name ++ rest) 0 = (name, name.length))
    (hrest : Text.stripLeft rest = front) (hmark : front.head? ≠ some '!')
    (hassign : findAssignment? front = none) (base : Declaration) :
    ofDeclarator? keyword (name ++ rest) base =
      some { base with
        kind := .binding, name := name, modifiers := [keyword]
        declaredType := declaredTypeOf front, value := none } := by
  have hname : name.isEmpty = false := by
    simpa using hne
  unfold ofDeclarator?
  simp only [hread, hname, List.drop_left, hrest, beq_eq_false_iff_ne.2 hmark, Bool.false_eq_true,
    if_false, hassign]
  rfl

/-- What is behind the sign that assigns is the value. -/
theorem ofDeclarator?_assigned (hne : name ≠ [])
    (hread : readIdentifier (name ++ rest) 0 = (name, name.length))
    (hrest : Text.stripLeft rest = front ++ '=' :: back)
    (hmark : (front ++ '=' :: back).head? ≠ some '!')
    (hassign : findAssignment? (front ++ '=' :: back) = some front.length) (base : Declaration) :
    ofDeclarator? keyword (name ++ rest) base =
      some { base with
        kind := .binding, name := name, modifiers := [keyword]
        declaredType := declaredTypeOf front, value := nonempty? (Text.strip back) } := by
  have hname : name.isEmpty = false := by
    simpa using hne
  have hback : (front ++ '=' :: back).drop (front.length + 1) = back := by
    rw [← List.drop_drop, List.drop_left, List.drop_one, List.tail_cons]
  unfold ofDeclarator?
  simp only [hread, hname, List.drop_left, hrest, beq_eq_false_iff_ne.2 hmark, Bool.false_eq_true,
    if_false, hassign, List.take_left, Option.bind_some, hback]
  rfl

end

/-- A declarator declares a variable with its name, its type and its value. -/
theorem ofDeclarator?_text (hd : d.WellFormed)
    (hnone : ∀ t ∈ d.declaredType, findAssignment? t = none)
    (hslash : ∀ t ∈ d.declaredType, LeavesSlashes t d.fallbackPart) (base : Declaration) :
    ofDeclarator? keyword d.text base =
      some { base with
        kind := .binding, name := d.name, modifiers := [keyword]
        declaredType := d.declaredType.bind fun t => nonempty? (Text.collapse t)
        value := d.fallback.map Text.strip } := by
  have hne := hd.name.1
  have hread : readIdentifier (d.name ++ (d.typePart ++ d.fallbackPart)) 0 =
      (d.name, d.name.length) := by
    refine Header.readIdentifier_start hne hd.name.2 ?_
    have hend : ([] : Text).head?.any Text.isIdentChar = false := rfl
    simpa using any_head?_behind_name d hend
  have hvalue : ∀ v ∈ d.fallback, nonempty? (Text.strip (' ' :: v)) = some (Text.strip v) := by
    intro v hv
    have hblank : Text.strip (' ' :: v) = Text.strip v := rfl
    simp [nonempty?, hblank, strip_fallback_ne_nil hd v hv]
  cases htype : d.declaredType with
  | none =>
    cases hfallback : d.fallback with
    | none =>
      have hrest : Text.stripLeft (d.typePart ++ d.fallbackPart) = [] := by
        rw [typePart, htype, fallbackPart, hfallback]
        rfl
      exact ofDeclarator?_unassigned hne hread hrest (by simp) (by decide +kernel) base
    | some v =>
      have hrest : Text.stripLeft (d.typePart ++ d.fallbackPart) = [] ++ '=' :: ' ' :: v := by
        rw [typePart, htype, fallbackPart, hfallback]
        rfl
      rw [text, ofDeclarator?_assigned hne hread hrest (by simp) (findAssignment?_cons v) base,
        hvalue v hfallback]
      rfl
  | some t =>
    obtain ⟨hclosed, hangles, -⟩ := hd.declaredType t htype
    cases hfallback : d.fallback with
    | none =>
      have hrest : Text.stripLeft (d.typePart ++ d.fallbackPart) = ": ".toList ++ t := by
        rw [typePart, htype, fallbackPart, hfallback, List.append_nil]
        rfl
      have htyped : declaredTypeOf (": ".toList ++ t ++ []) = nonempty? (Text.collapse t) :=
        declaredTypeOf_typed (by simp)
      rw [List.append_nil] at htyped
      rw [text, ofDeclarator?_unassigned hne hread hrest (by simp)
        (findAssignment?_typed hclosed hangles (hnone t htype)) base, htyped]
      rfl
    | some v =>
      have hrest : Text.stripLeft (d.typePart ++ d.fallbackPart) =
          ": ".toList ++ t ++ [' '] ++ '=' :: ' ' :: v := by
        rw [typePart, htype, fallbackPart, hfallback, List.append_assoc _ [' ']]
        rfl
      have hassign := findAssignment?_assigned hclosed hangles (hnone t htype) (v := v)
        (by simpa [fallbackPart, hfallback] using hslash t htype)
      rw [text, ofDeclarator?_assigned hne hread hrest (by simp) hassign base,
        declaredTypeOf_typed (by decide), hvalue v hfallback]
      rfl

/-! ## The variables of a list -/

/-- The variables that declarators in a row declare, the first of them at the offset `start`. -/
def inRow (keyword : Text) (start : Nat) : List RawParameter → List Declaration
  | [] => []
  | d :: ds => ofRaw keyword start d :: inRow keyword (start + d.text.length + 2) ds

/-- A declarator declares a variable: it is well formed, and nothing in its type assigns. -/
def Declarable (d : RawParameter) : Prop :=
  d.WellFormed ∧ ∀ t ∈ d.declaredType, findAssignment? t = none

instance (d : RawParameter) : Decidable (Declarable d) :=
  inferInstanceAs (Decidable (_ ∧ _))

/-- What stands in front of more of a row. -/
theorem join_cons_append (t : Text) (ts : List Text) (more : Text) :
    Text.join ", ".toList (t :: ts) ++ more = t ++ behind more ts := by
  cases ts with
  | nil => simp [Text.join, behind]
  | cons u us => simpa [behind] using join_row [] t u us more

section

variable {raw more : Text} {cursor n : Nat} {ds : List RawParameter} {ts : List Text}

/-- The first declarator of a row is the variable at the place where it is found. -/
theorem ofDeclarators_cons (hd : Declarable d)
    (hslash : ∀ t ∈ d.declaredType, LeavesSlashes t d.fallbackPart)
    (hfind : Text.find? (raw.drop cursor) d.text = some n) (keyword : Text) (start stop : Nat) :
    ofDeclarators keyword { kind := .exports, raw := raw, start := start, stop := stop } cursor
        (d.text :: ts) =
      Finding.one (ofRaw keyword (start + (cursor + n)) d) ++
        ofDeclarators keyword { kind := .exports, raw := raw, start := start, stop := stop }
          (cursor + n + d.text.length) ts := by
  have hnext : max cursor (cursor + n + d.text.length) = cursor + n + d.text.length := by
    omega
  rw [ofDeclarators]
  simp only [hfind, Option.map_some, Option.getD_some, movedTo, hnext,
    ofDeclarator?_text hd.1 hd.2 hslash]
  rfl

theorem slashes_of_cons (h : SlashesApart more (d :: ds)) :
    ∀ t ∈ d.declaredType, LeavesSlashes t d.fallbackPart :=
  fun t ht => (h.1.1 t ht).of_append

/-- Behind the first declarator each one is found behind the comma in front of it. -/
theorem ofDeclarators_behind (hds : ∀ d ∈ ds, Declarable d) (hslash : SlashesApart more ds)
    (hraw : raw.drop cursor = behind more (ds.map text)) (keyword : Text) (start stop : Nat) :
    ofDeclarators keyword { kind := .exports, raw := raw, start := start, stop := stop } cursor
        (ds.map text) =
      { declarations := inRow keyword (start + cursor + 2) ds } := by
  induction ds generalizing cursor with
  | nil => rfl
  | cons d ds ih =>
    have hd := hds d List.mem_cons_self
    have hrow : raw.drop cursor = ", ".toList ++ (d.text ++ behind more (ds.map text)) := by
      rw [hraw, List.map_cons, behind, List.append_assoc, join_cons_append]
      simp
    have hfind : Text.find? (raw.drop cursor) d.text = some 2 := by
      rw [hrow]
      exact find?_behind_comma hd.1 _
    have hnext : raw.drop (cursor + 2 + d.text.length) = behind more (ds.map text) := by
      rw [← List.drop_drop, ← List.drop_drop, hrow]
      exact List.drop_left
    rw [List.map_cons, ofDeclarators_cons hd (slashes_of_cons hslash) hfind,
      ih (fun e he => hds e (List.mem_cons_of_mem _ he)) hslash.2 hnext]
    have hplace : start + (cursor + 2 + d.text.length) + 2 =
        start + cursor + 2 + d.text.length + 2 := by
      omega
    rw [hplace, inRow, ← Nat.add_assoc]
    rfl

end

end Declaration

end ModuleSurface
