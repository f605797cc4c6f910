import ModuleSurface.ClassBody.Split
import ModuleSurface.Proofs.Lexing.Comments
import ModuleSurface.Proofs.Statement.Cases
import ModuleSurface.Proofs.Text.Strip

/-!
# Documentation comments

The documentation comment of a segment is one whole block comment (`docComment_of_mem`), and it is
still one when its lines are stripped and indented anew in front of a member: `exists_docLines`.
-/

namespace ModuleSurface.Statement

open ModuleSurface.Lexing

/-! ## Where a block comment ends -/

/-- The closing delimiter of a block comment is not in the text. -/
def Unclosed (t : Text) : Prop :=
  ¬ "*/".toList <:+: t

/-- The text ends with the closing delimiter of a block comment, and there is no other one in it. -/
def Closes (t : Text) : Prop :=
  ∃ u, t = u ++ ['*', '/'] ∧ Unclosed (u ++ ['*'])

/-- A documentation comment. -/
structure DocComment (t : Text) : Prop where
  /-- It begins with its opening delimiter. -/
  opener : ∃ rest, t = '/' :: '*' :: '*' :: rest
  /-- It ends with its closing delimiter. -/
  closes : Closes t

namespace Unclosed

variable {t : Text}

theorem of_isInfix {u : Text} (h : Unclosed t) (hu : u <:+: t) : Unclosed u :=
  fun hclose => h (hclose.trans hu)

theorem cons {c : Char} (hc : c ≠ '*') (h : Unclosed t) : Unclosed (c :: t) := by
  intro hclose
  rcases List.infix_cons_iff.1 hclose with hhere | hclose
  · exact hc (List.cons_prefix_cons.1 hhere).1.symm
  · exact h hclose

/-- A line break separates the two characters of a delimiter. -/
theorem newline {u : Text} (ht : Unclosed t) (hu : Unclosed u) : Unclosed (t ++ '\n' :: u) := by
  induction t with
  | nil => exact hu.cons (by decide)
  | cons c t ih =>
    intro hclose
    rcases List.infix_cons_iff.1 hclose with hhere | hclose
    · obtain ⟨rfl, hnext⟩ := List.cons_prefix_cons.1 hhere
      cases t with
      | nil => exact absurd (List.cons_prefix_cons.1 hnext).1 (by decide)
      | cons d t =>
        obtain ⟨rfl, -⟩ := List.cons_prefix_cons.1 hnext
        exact ht ⟨[], t, rfl⟩
    · exact ih (ht.of_isInfix (List.suffix_cons c t).isInfix) hclose

end Unclosed

namespace Closes

variable {t : Text}

theorem ne_nil (h : Closes t) : t ≠ [] := by
  obtain ⟨u, rfl, -⟩ := h
  simp

theorem cons {c : Char} (hc : c ≠ '*') (h : Closes t) : Closes (c :: t) := by
  obtain ⟨u, rfl, hu⟩ := h
  exact ⟨c :: u, rfl, hu.cons hc⟩

theorem newline {u : Text} (hu : Unclosed u) (h : Closes t) : Closes (u ++ '\n' :: t) := by
  obtain ⟨v, rfl, hv⟩ := h
  exact ⟨u ++ '\n' :: v, by simp, by simpa using hu.newline hv⟩

theorem strip (h : Closes t) : Closes (Text.strip t) := by
  obtain ⟨u, rfl, hu⟩ := h
  have hleft : Text.stripLeft (u ++ ['*', '/']) = Text.stripLeft u ++ ['*', '/'] := by
    rw [Text.stripLeft, List.dropWhile_append, Text.stripLeft]
    cases u.dropWhile Text.isBlank <;> rfl
  have hright : Text.stripRight (Text.stripLeft u ++ ['*', '/']) =
      Text.stripLeft u ++ ['*', '/'] := by
    rw [show Text.stripLeft u ++ ['*', '/'] = (Text.stripLeft u ++ ['*']) ++ ['/'] by simp]
    exact Text.stripRight_concat (by decide) _
  rw [Text.strip, hleft, hright]
  obtain ⟨front, hfront⟩ := Text.stripLeft_suffix u
  refine ⟨_, rfl, hu.of_isInfix ⟨front, [], ?_⟩⟩
  rw [List.append_nil, ← List.append_assoc, hfront]

end Closes

/-! ## The comment in front of a segment -/

/-- A documentation comment is a block comment. -/
theorem DocComment.exists_block {t : Text} (h : DocComment t) :
    ∃ body closed, t = (Comment.block body closed).text := by
  obtain ⟨⟨rest, rfl⟩, u, htext, hu⟩ := h
  obtain _ | ⟨a, _ | ⟨b, u⟩⟩ := u
  · simp at htext
  · simp at htext
  · obtain ⟨rfl, htail⟩ := List.cons.inj htext
    obtain ⟨rfl, htail⟩ := List.cons.inj htail
    have hclosed : Text.containsText u "*/".toList = false :=
      Text.containsText_eq_false_iff.2 (hu.of_isInfix ⟨['/', '*'], ['*'], by simp⟩)
    refine ⟨u, hclosed, ?_⟩
    rw [htail]
    simp [Comment.text]

/-- The delimiter that a search finds is the first one. -/
theorem unclosed_of_find? {a b : Text}
    (h : Text.find? (a ++ ("*/".toList ++ b)) "*/".toList = some a.length) :
    Unclosed (a ++ ['*']) := by
  refine Text.containsText_eq_false_iff.1 ?_
  rw [Text.containsText, Option.isSome_eq_false_iff, Option.isNone_iff_eq_none]
  cases hfind : Text.find? (a ++ ['*']) "*/".toList with
  | none => rfl
  | some m =>
    have hbounds := (Text.findFrom_bounds hfind).2
    have hlong := Text.findFrom_append hfind ('/' :: b)
    rw [List.append_assoc] at hlong
    rw [Text.find?] at h
    obtain rfl : m = a.length := Option.some.inj (hlong.symm.trans h)
    simp at hbounds

/-- The comment that is kept for the next segment. -/
theorem docComment_docOf {t : Text} {n : Nat} (hn : Text.find? t "*/".toList = some n) {doc : Text}
    (h : docOf (('/' :: '*' :: t).take (n + 4)) = some doc) : DocComment doc := by
  unfold docOf at h
  split at h
  · rename_i hdoc
    cases h
    obtain ⟨hopen, -⟩ := Bool.and_eq_true_iff.1 hdoc
    obtain ⟨rest, hrest⟩ := List.isPrefixOf_iff_prefix.1 hopen
    obtain ⟨a, b, rfl, hlength⟩ := Text.eq_of_findFrom hn
    rw [Nat.zero_add] at hlength
    subst hlength
    have htake : ('/' :: '*' :: (a ++ ("*/".toList ++ b))).take (a.length + 4) =
        '/' :: '*' :: a ++ ['*', '/'] := by
      simp [List.take_append, List.take_of_length_le]
    rw [htake] at hrest ⊢
    refine ⟨⟨rest, hrest.symm⟩, _, rfl, ?_⟩
    have hbody := unclosed_of_find? hn
    have hstar : (a ++ ['*']).head? = some '*' := by
      have hhead := congrArg (fun t => (t.drop 2).head?) hrest
      cases a with
      | nil => rfl
      | cons c a => exact hhead.symm
    refine Unclosed.cons (by decide) ?_
    intro hclose
    rcases List.infix_cons_iff.1 hclose with hhere | hclose
    · obtain ⟨u, hu⟩ := (List.cons_prefix_cons.1 hhere).2
      have hslash : (a ++ ['*']).head? = some '/' := congrArg List.head? hu.symm
      rw [hstar] at hslash
      cases hslash
    · exact hbody hclose
  · cases h

/-- The comment of the segment that is being read was kept for it, or is kept for the next one. -/
theorem docComment_readingAt {current : Option Reading} {pending : Option Text}
    (hcurrent : ∀ r, current = some r → ∀ doc, r.doc = some doc → DocComment doc)
    (hpending : ∀ doc, pending = some doc → DocComment doc) (s s' : State) (c : Char)
    (position : Nat) :
    ∀ doc, (readingAt current pending s s' c position).doc = some doc → DocComment doc := by
  intro doc hdoc
  have hsame : (readingAt current pending s s' c position).doc =
      (current.getD ⟨position, pending, []⟩).doc := by
    unfold readingAt
    split <;> rfl
  rw [hsame] at hdoc
  cases current with
  | none => exact hpending doc hdoc
  | some r => exact hcurrent r rfl doc hdoc

theorem docComment_pieces {l : Layout} (text : Text) (s : State) (current : Option Reading)
    (pending : Option Text) (leading : Bool) (past rest : Text) (position : Nat)
    (hcurrent : ∀ r, current = some r → ∀ doc, r.doc = some doc → DocComment doc)
    (hpending : ∀ doc, pending = some doc → DocComment doc) :
    ∀ segment, .segment segment ∈
        (segmentsFrom l text s current pending leading past rest position).pieces →
      ∀ doc, segment.doc = some doc → DocComment doc := by
  revert hcurrent hpending
  induction s, current, pending, leading, past, rest, position using
    segmentation_induction l text with
  | nil s current pending leading past position =>
    intro hcurrent _ segment hmem doc hdoc
    rw [segmentsFrom_nil] at hmem
    cases current with
    | none => cases hmem
    | some r =>
      cases List.mem_singleton.1 hmem
      exact hcurrent r rfl doc hdoc
  | skip s pending leading past c r position hskip ih =>
    rw [segmentsFrom_skip hskip]
    exact ih
  | line s pending leading past c r position hopen ih =>
    intro hcurrent _ segment hmem
    rw [segmentsFrom_line hopen, Segmentation.prepend] at hmem
    refine ih hcurrent (by simp) segment ?_
    rcases List.mem_append.1 hmem with hheader | hmem
    · cases leading <;> simp at hheader
    · exact hmem
  | block s pending leading past c r position n hopen hn ih =>
    intro hcurrent _
    rw [segmentsFrom_block hopen hn]
    obtain ⟨rfl, t, rfl⟩ := eq_of_delimiter '*' hopen.stands
    exact ih hcurrent fun doc hdoc => docComment_docOf hn hdoc
  | openBlock s pending leading past c r position hopen hn =>
    intro _ _ segment hmem
    rw [segmentsFrom_openBlock hopen hn] at hmem
    cases hmem
  | fault s current pending leading past c r position f hbegins hstep =>
    intro _ _ segment hmem
    rw [segmentsFrom_fault hbegins hstep] at hmem
    cases hmem
  | stop s current pending leading past c r position k s' stop hbegins hstep hstop ih =>
    intro hcurrent hpending segment hmem
    rw [segmentsFrom_read hbegins hstep, hstop] at hmem
    rcases List.mem_cons.1 hmem with heq | hmem
    · cases heq
      exact docComment_readingAt hcurrent hpending s s' c position
    · exact ih (by simp) (by simp) segment hmem
  | go s current pending leading past c r position k s' hbegins hstep hstop ih =>
    intro hcurrent hpending segment hmem
    rw [segmentsFrom_read hbegins hstep, hstop] at hmem
    refine ih ?_ (by simp) segment hmem
    rintro _ ⟨⟩
    exact docComment_readingAt hcurrent hpending s s' c position

/-- **The comment in front of a segment is one whole documentation comment.** -/
theorem docComment_of_mem {l : Layout} {text : Text} {segment : Segment}
    (h : .segment segment ∈ (segments l text).pieces) {doc : Text} (hdoc : segment.doc = some doc) :
    DocComment doc :=
  docComment_pieces text {} none none true [] text 0 (by simp) (by simp) segment h doc hdoc

/-! ## The comment in front of a member -/

/-- Lines of which the last one closes a block comment and no other one does. -/
inductive Closing : List Text → Prop
  | last {t : Text} : Closes t → Closing [t]
  | cons {t : Text} {ts : List Text} : Unclosed t → Closing ts → Closing (t :: ts)

namespace Closing

variable {ts : List Text}

theorem map {f : Text → Text} (hf : ∀ t, Unclosed t → Unclosed (f t))
    (hf' : ∀ t, Closes t → Closes (f t)) (h : Closing ts) : Closing (ts.map f) := by
  induction h with
  | last ht => exact .last (hf' _ ht)
  | cons ht _ ih => exact .cons (hf _ ht) ih

theorem map_tail {t : Text} {f : Text → Text} (hf : ∀ t, Unclosed t → Unclosed (f t))
    (hf' : ∀ t, Closes t → Closes (f t)) (h : Closing (t :: ts)) : Closing (t :: ts.map f) := by
  cases h with
  | last ht => exact .last ht
  | cons ht hts => exact .cons ht (hts.map hf hf')

theorem join (h : Closing ts) : Closes (Text.join "\n".toList ts) := by
  induction h with
  | last ht => rwa [Text.join, List.intercalate_singleton]
  | @cons t ts ht hts ih =>
    obtain ⟨u, us, rfl⟩ : ∃ u us, ts = u :: us := by
      cases hts <;> exact ⟨_, _, rfl⟩
    rw [Text.join, List.intercalate_cons_cons, List.append_assoc]
    exact ih.newline ht

end Closing

/-- A character that is in no delimiter separates what is in front of it from what is behind it. -/
theorem Closes.behind {a b : Text} {c : Char} (hc : c ≠ '*' ∧ c ≠ '/') (h : Closes (a ++ c :: b)) :
    Unclosed a ∧ b ≠ [] ∧ Closes b := by
  obtain ⟨u, hu, hunclosed⟩ := h
  rcases List.eq_nil_or_concat b with rfl | ⟨b, d, rfl⟩
  · have hlast := congrArg List.getLast? hu
    simp [hc.2] at hlast
  rw [List.concat_eq_append] at hu ⊢
  have hsplit : (a ++ c :: b) ++ [d] = (u ++ ['*']) ++ ['/'] := by simpa using hu
  obtain ⟨hfront, hd⟩ := List.append_inj' hsplit rfl
  obtain rfl : d = '/' := (List.cons.inj hd).1
  rcases List.eq_nil_or_concat b with rfl | ⟨b, e, rfl⟩
  · exact absurd ((List.cons.inj (List.append_inj' hfront rfl).2).1) hc.1
  rw [List.concat_eq_append] at hfront ⊢
  have hsplit' : (a ++ c :: b) ++ [e] = u ++ ['*'] := by simpa using hfront
  obtain ⟨rfl, he⟩ := List.append_inj' hsplit' rfl
  obtain rfl : e = '*' := (List.cons.inj he).1
  refine ⟨hunclosed.of_isInfix ⟨[], _, by simp; rfl⟩, by simp, b, by simp, ?_⟩
  exact hunclosed.of_isInfix ⟨a ++ [c], [], by simp⟩

theorem closing_linesFrom {current t : Text} (h : Closes (current.reverse ++ t)) (ht : t ≠ []) :
    Closing (Text.linesFrom current t) := by
  -- No line break is part of a delimiter, so the lines are cut outside of it.
  have hbreak : ∀ {c}, Text.isLineBreak c = true → c ≠ '*' ∧ c ≠ '/' := by
    rintro c hc
    constructor <;> rintro rfl <;> exact absurd hc (by decide)
  fun_induction Text.linesFrom current t with
  | case1 => exact absurd rfl ht
  | case2 => exact absurd rfl ht
  | case3 current c hc => exact absurd rfl (h.behind (hbreak hc)).2.1
  | case4 current c hc =>
    refine .last ?_
    simpa using h
  | case5 current c d t hcd ih =>
    obtain ⟨rfl, rfl⟩ : c = '\r' ∧ d = '\n' := by simpa using hcd
    obtain ⟨hcurrent, -, hbehind⟩ := h.behind (by decide)
    obtain ⟨-, hne, hrest⟩ := hbehind.behind (a := []) (by decide)
    exact .cons hcurrent (ih hrest hne)
  | case6 current c d t _ hc ih =>
    obtain ⟨hcurrent, hne, hrest⟩ := h.behind (hbreak hc)
    exact .cons hcurrent (ih hrest hne)
  | case7 current c d t _ _ ih =>
    refine ih ?_ (by simp)
    simpa using h

/-- The first line begins with what was read of it. -/
theorem exists_linesFrom {current : Text} (h : current ≠ []) (t : Text) :
    ∃ u others, Text.linesFrom current t = (current.reverse ++ u) :: others := by
  fun_induction Text.linesFrom current t with
  | case1 current hempty => exact absurd (List.isEmpty_iff.1 hempty) h
  | case2 current _ => exact ⟨[], [], by simp⟩
  | case3 current c _ => exact ⟨[], [], by simp⟩
  | case4 current c _ => exact ⟨[c], [], by simp⟩
  | case5 current c d t _ _ => exact ⟨[], _, by simp; rfl⟩
  | case6 current c d t _ _ _ => exact ⟨[], _, by simp; rfl⟩
  | case7 current c d t _ _ ih =>
    obtain ⟨u, others, heq⟩ := ih (by simp)
    exact ⟨c :: u, others, by simpa using heq⟩

namespace DocComment

variable {doc : Text}

theorem strip_eq (h : DocComment doc) : Text.strip doc = doc := by
  obtain ⟨⟨rest, hrest⟩, u, hu, -⟩ := h
  cases u with
  | nil =>
    rw [hu] at hrest
    cases hrest
  | cons c u =>
    rw [hu] at hrest ⊢
    obtain rfl : c = '/' := (List.cons.inj hrest).1
    have hends := Text.strip_eq_self (by decide : Text.isBlank '/' = false)
      (by decide : Text.isBlank '/' = false) (u ++ ['*'])
    simpa using hends

/-- The stripped lines of a documentation comment. -/
theorem exists_lines (h : DocComment doc) :
    ∃ u others, (Text.lines doc).map Text.strip = ('/' :: '*' :: '*' :: u) :: others ∧
      Closing (('/' :: '*' :: '*' :: u) :: others) := by
  have hlines : Closing (Text.linesFrom [] doc) := closing_linesFrom h.closes h.closes.ne_nil
  have hclosing : Closing ((Text.lines doc).map Text.strip) :=
    hlines.map (fun t ht => ht.of_isInfix (Text.strip_isInfix t)) (fun t ht => ht.strip)
  obtain ⟨⟨rest, rfl⟩, hcloses⟩ := h
  obtain ⟨d, t, rfl⟩ : ∃ d t, rest = d :: t := by
    cases rest with
    | nil =>
      obtain ⟨u, hu, -⟩ := hcloses
      have hlast := congrArg List.getLast? hu
      simp at hlast
    | cons d t => exact ⟨d, t, rfl⟩
  obtain ⟨u, others, hlines⟩ := exists_linesFrom (by simp : ['*', '*', '/'] ≠ []) (d :: t)
  have hfirst : Text.strip (['*', '*', '/'].reverse ++ u) =
      '/' :: '*' :: '*' :: Text.stripRight u := by
    show Text.dropRightWhile _ (Text.stripLeft ('/' :: '*' :: '*' :: u)) = _
    rw [Text.stripLeft_cons (by decide), Text.dropRightWhile_cons (by decide),
      Text.dropRightWhile_cons (by decide), Text.dropRightWhile_cons (by decide), Text.stripRight]
  have hmap : (Text.lines ('/' :: '*' :: '*' :: d :: t)).map Text.strip =
      ('/' :: '*' :: '*' :: Text.stripRight u) :: others.map Text.strip := by
    rw [← hfirst, ← List.map_cons, ← hlines]
    rfl
  exact ⟨_, _, hmap, hmap ▸ hclosing⟩

/-- **The lines of a documentation comment, indented anew, are a documentation comment.** -/
theorem exists_docLines (h : DocComment doc) :
    ∃ t, DocComment t ∧
      Text.join "\n".toList ((ClassBody.docLines doc []).map ("  ".toList ++ ·)) =
        "  ".toList ++ t := by
  obtain ⟨u, others, hlines, hclosing⟩ := h.exists_lines
  have hothers : Closing (('/' :: '*' :: '*' :: u) :: others.map fun line =>
      "  ".toList ++ ([] ++ if line.head? == some '*' then ' ' :: line else line)) := by
    refine hclosing.map_tail (fun line hline => ?_) (fun line hline => ?_)
    · refine .cons (by decide) (.cons (by decide) ?_)
      rw [List.nil_append]
      split
      · exact hline.cons (by decide)
      · exact hline
    · refine .cons (by decide) (.cons (by decide) ?_)
      rw [List.nil_append]
      split
      · exact hline.cons (by decide)
      · exact hline
  refine ⟨_, ⟨?_, hothers.join⟩, ?_⟩
  · cases others with
    | nil => exact ⟨u, by simp [Text.join]⟩
    | cons v others => exact ⟨_, by rw [List.map_cons, Text.join, List.intercalate_cons_cons]; rfl⟩
  · rw [ClassBody.docLines, h.strip_eq, hlines]
    cases others with
    | nil => simp [Text.join]
    | cons v others =>
      simp only [List.map_cons, List.map_map, Text.join, List.intercalate_cons_cons]
      rfl

end DocComment

end ModuleSurface.Statement
