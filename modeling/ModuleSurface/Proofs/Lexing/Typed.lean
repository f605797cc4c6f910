import ModuleSurface.Proofs.Lexing.Separated

/-!
# Commas where angle brackets count

A list of parameters is split at the commas outside every bracket, angle brackets included.  The
angle brackets are counted along the whole text, so whether a comma is seen depends on all of them
in front of it, the comparisons in default values too.  `PartedAt` says of a piece in its place
which of its commas are seen and how many angle brackets it leaves open.

* `PartedAt.append` — pieces one after the other, with the commas of both;
* `Closed.partedAt` — a closed text without commas of its own has none in its place;
* `PartedAt.splitTypedCommas` — a text is split at its commas into the texts between them.
-/

namespace ModuleSurface.Lexing

/-! ## Counting along the visits -/

/-- The angle brackets open behind the visits, if `angle` were open in front of them. -/
def anglesAfter (angle : Nat) (vs : List Visit) : Nat :=
  vs.foldl (fun angle v => v.angleAfter angle) angle

/-- The offsets of the commas among the visits that are outside every bracket, if `angle` angle
brackets were open in front of them. -/
def typedCommas (angle : Nat) (vs : List Visit) : List Nat :=
  ((outermostFrom true angle vs).filter (·.char == ',')).map (·.index)

theorem anglesAfter_append (angle : Nat) (vs ws : List Visit) :
    anglesAfter angle (vs ++ ws) = anglesAfter (anglesAfter angle vs) ws :=
  List.foldl_append

theorem outermostFrom_append (angle : Nat) (vs ws : List Visit) :
    outermostFrom true angle (vs ++ ws) =
      outermostFrom true angle vs ++ outermostFrom true (anglesAfter angle vs) ws := by
  induction vs generalizing angle with
  | nil => rfl
  | cons v vs ih =>
    have hangles : anglesAfter angle (v :: vs) = anglesAfter (v.angleAfter angle) vs := rfl
    rw [List.cons_append, outermostFrom, outermostFrom, hangles]
    simp only [if_true, ih]
    split <;> rfl

theorem typedCommas_append (angle : Nat) (vs ws : List Visit) :
    typedCommas angle (vs ++ ws) =
      typedCommas angle vs ++ typedCommas (anglesAfter angle vs) ws := by
  rw [typedCommas, outermostFrom_append, List.filter_append, List.map_append]
  rfl

/-- Without angle brackets the count stays. -/
theorem anglesAfter_eq_self {vs : List Visit} (h : ∀ v ∈ vs, v.char ≠ '<' ∧ v.char ≠ '>')
    (angle : Nat) : anglesAfter angle vs = angle := by
  induction vs with
  | nil => rfl
  | cons v vs ih =>
    obtain ⟨⟨hopen, hclose⟩, hvs⟩ := List.forall_mem_cons.1 h
    have hv : v.angleAfter angle = angle := by
      simp [Visit.angleAfter, Visit.opensAngle, Visit.closesAngle, hopen, hclose]
    rw [anglesAfter, List.foldl_cons, hv]
    exact ih hvs

theorem typedCommas_eq_nil {angle : Nat} {vs : List Visit}
    (h : ∀ v ∈ outermostFrom true angle vs, v.char ≠ ',') : typedCommas angle vs = [] := by
  rw [typedCommas, List.map_eq_nil_iff, List.filter_eq_nil_iff]
  intro v hv hcomma
  exact h v hv (beq_iff_eq.1 hcomma)

/-! ## A piece in a larger text -/

section

variable {base : State} {offset : Nat} {outer more : Text}

/-- A closing angle bracket closes in its place too, if no equals sign stands in front of the
piece. -/
theorem Visit.angleAfter_lift (houter : outer.head? ≠ some '=') (v : Visit) (angle : Nat) :
    (v.lift base offset outer more).angleAfter angle = v.angleAfter angle := by
  have hcloses : (v.lift base offset outer more).closesAngle = v.closesAngle := by
    cases hpast : v.past with
    | nil =>
      have hhead : (outer.head? != some '=') = true := by
        simpa using houter
      simp only [Visit.closesAngle, Visit.lift, hpast, List.nil_append, hhead]
      rfl
    | cons c past => simp [Visit.closesAngle, Visit.lift, hpast]
  rw [Visit.angleAfter, hcloses]
  rfl

theorem anglesAfter_lift (houter : outer.head? ≠ some '=') (angle : Nat) (vs : List Visit) :
    anglesAfter angle (vs.map (Visit.lift base offset outer more)) = anglesAfter angle vs := by
  induction vs generalizing angle with
  | nil => rfl
  | cons v vs ih =>
    rw [List.map_cons, anglesAfter, List.foldl_cons, Visit.angleAfter_lift houter]
    exact ih _

/-- Outside every bracket around the piece, what is outside brackets in it is so in its place. -/
theorem outermostFrom_lift (hbase : base.depth = 0) (houter : outer.head? ≠ some '=')
    (angle : Nat) (vs : List Visit) :
    outermostFrom true angle (vs.map (Visit.lift base offset outer more)) =
      (outermostFrom true angle vs).map (Visit.lift base offset outer more) := by
  induction vs generalizing angle with
  | nil => rfl
  | cons v vs ih =>
    rw [List.map_cons, outermostFrom, outermostFrom]
    simp only [if_true, Visit.angleAfter_lift houter, Visit.depth_lift, hbase, Nat.zero_add, ih]
    split <;> rfl

end

/-- Between `outer`, in reverse, and `more` the text leads from `base` back to that state and closes
only its own brackets; outside every bracket around it, its commas outside brackets are at the
offsets `commas`, and it leaves `left` angle brackets open. -/
def PartedAt (commas : List Nat) (left : Nat) (base : State) (outer t more : Text) (offset : Nat) :
    Prop :=
  ∃ vs, Reads base outer t more offset vs ∧ (∀ v ∈ vs, v.Inside base fun _ => True) ∧
    (base.depth = 0 → anglesAfter 0 vs = left ∧ typedCommas 0 vs = commas)

namespace PartedAt

variable {commas others : List Nat} {left : Nat} {base : State} {outer t u more : Text}
  {offset : Nat}

/-- **Pieces one after the other have the commas of both**, if the first closes its angle
brackets. -/
theorem append (ht : PartedAt commas 0 base outer t (u ++ more) offset)
    (hu : PartedAt others left base (t.reverse ++ outer) u more (offset + t.length)) :
    PartedAt (commas ++ others) left base outer (t ++ u) more offset := by
  obtain ⟨vs, hvs, hvsInside, hvsCommas⟩ := ht
  obtain ⟨ws, hws, hwsInside, hwsCommas⟩ := hu
  refine ⟨vs ++ ws, hvs.append hws, ?_, fun hbase => ?_⟩
  · intro v hv
    exact (List.mem_append.1 hv).elim (hvsInside v) (hwsInside v)
  · obtain ⟨hangles, hcommas⟩ := hvsCommas hbase
    obtain ⟨hangles', hothers⟩ := hwsCommas hbase
    rw [anglesAfter_append, typedCommas_append, hangles, hangles', hcommas, hothers]
    exact ⟨rfl, rfl⟩

/-- Plain characters that are neither commas nor angle brackets. -/
theorem plain (hbase : base.inCode = true)
    (ht : ∀ c ∈ t, Plain c ∧ c ≠ ',' ∧ c ≠ '<' ∧ c ≠ '>') (outer more : Text) (offset : Nat) :
    PartedAt [] 0 base outer t more offset := by
  obtain ⟨vs, hreads, hvs⟩ := Reads.of_plain hbase (fun c hc => (ht c hc).1) outer more offset
  have hchar : ∀ v ∈ vs, v.char ∈ t := by
    intro v hv
    obtain ⟨-, a, b, hsplit, -⟩ := hvs v hv
    rw [hsplit]
    simp
  refine ⟨vs, hreads, fun v hv => ⟨?_, fun b hb => ?_, fun _ => trivial⟩, fun _ => ⟨?_, ?_⟩⟩
  · rw [(hvs v hv).1]
  · have hplain := (ht _ (hchar v hv)).1
    rw [hb] at hplain
    cases b <;> exact absurd hplain (by decide)
  · exact anglesAfter_eq_self (fun v hv => (ht _ (hchar v hv)).2.2) 0
  · exact typedCommas_eq_nil fun v hv => (ht _ (hchar v (mem_of_mem_outermostFrom hv).1)).2.1

/-- A comma between pieces. -/
theorem comma (hbase : base.inCode = true) (outer more : Text) (offset : Nat) :
    PartedAt [offset] 0 base outer [','] more offset := by
  refine ⟨_, Reads.plain hbase (by decide) outer more offset, ?_, fun hdepth => ⟨rfl, ?_⟩⟩
  · intro v hv
    rw [List.mem_singleton.1 hv]
    refine ⟨Nat.le_refl _, fun b hb => ?_, fun _ => trivial⟩
    have hchar : ',' = b.closer := hb
    cases b <;> cases hchar
  · simp [typedCommas, outermostFrom, Visit.angleAfter, Visit.opensAngle, Visit.closesAngle, hdepth]

end PartedAt

/-- **A closed text without commas of its own has none in its place**, and it leaves as many angle
brackets open. -/
theorem Closed.partedAt {base : State} {outer t more : Text} (ht : Closed t)
    (hcommas : ∀ v ∈ outermost t true, v.char ≠ ',') (hb : base.Coherent)
    (hbase : base.inCode = true) (houter : RegexLiteral.Opens outer)
    (hequals : outer.head? ≠ some '=') (hmore : Parts more) (hslash : LeavesSlashes t more)
    (offset : Nat) : PartedAt [] (anglesAfter 0 (visits t)) base outer t more offset := by
  refine ⟨_, ht.reads hb hbase houter hmore hslash offset, ?_, fun hdepth => ⟨?_, ?_⟩⟩
  · intro v hv
    obtain ⟨w, hw, rfl⟩ := List.mem_map.1 hv
    exact Visit.inside_lift ht (fun _ _ _ => trivial) hw base offset outer more
  · rw [anglesAfter_lift hequals]
  · refine typedCommas_eq_nil fun v hv => ?_
    rw [outermostFrom_lift hdepth hequals] at hv
    obtain ⟨w, hw, rfl⟩ := List.mem_map.1 hv
    exact hcommas w hw

/-! ## Splitting -/

/-- The offsets of the commas between texts in a row that begins at `offset`. -/
def joints (offset : Nat) : List Text → List Nat
  | [] => []
  | [_] => []
  | t :: u :: us => (offset + t.length) :: joints (offset + t.length + 2) (u :: us)

/-- A row of texts cut at the commas between them. -/
theorem cutAt_joints {front : Text} (hfront : ∀ c ∈ front, Text.isBlank c = true) {ts : List Text}
    (hne : ts ≠ []) (hts : ∀ t ∈ ts, t.Trimmed) (offset : Nat) :
    (cutAt offset (front ++ Text.join ", ".toList ts) (joints (offset + front.length) ts)).map
      Text.strip = ts := by
  induction ts generalizing front offset with
  | nil => exact absurd rfl hne
  | cons t ts ih =>
    have hstrip := (hts t List.mem_cons_self).strip_between front [] hfront (by simp)
    rw [List.append_nil] at hstrip
    cases ts with
    | nil => rw [Text.join, List.intercalate_singleton, joints, cutAt, List.map_singleton, hstrip]
    | cons u us =>
      have hblank : ∀ c ∈ [' '], Text.isBlank c = true := by decide
      have hlater := ih hblank (by simp) (fun v hv => hts v (List.mem_cons_of_mem _ hv))
        (offset + front.length + t.length + 1)
      have htext : front ++ Text.join ", ".toList (t :: u :: us) =
          front ++ t ++ ',' :: ([' '] ++ Text.join ", ".toList (u :: us)) := by
        simpa using join_row front t u us []
      have htake : offset + front.length + t.length - offset = (front ++ t).length := by
        rw [List.length_append]
        omega
      have hdrop : offset + front.length + t.length + 1 - offset = (front ++ t).length + 1 := by
        rw [List.length_append]
        omega
      rw [htext, joints, cutAt, htake, hdrop, List.take_left, ← List.drop_drop, List.drop_left,
        List.map_cons, hstrip, List.drop_one, List.tail_cons]
      exact congrArg (t :: ·) hlater

theorem splitTypedCommas_eq (text : Text) :
    splitTypedCommas text =
      ((cutAt 0 text (typedCommas 0 (visits text))).map Text.strip).filter (!·.isEmpty) := rfl

/-- **A text is split into the texts between its commas.** -/
theorem PartedAt.splitTypedCommas {ts : List Text} {left : Nat} (hts : ∀ t ∈ ts, t.Trimmed)
    (h : PartedAt (joints 0 ts) left {} [] (Text.join ", ".toList ts) [] 0) :
    splitTypedCommas (Text.join ", ".toList ts) = ts := by
  obtain ⟨vs, hreads, -, hcommas⟩ := h
  obtain ⟨-, hcuts⟩ := hcommas rfl
  rw [← hreads.closed.2] at hcuts
  rw [splitTypedCommas_eq, hcuts]
  by_cases hne : ts = []
  · subst hne
    rfl
  · have hpieces := cutAt_joints (List.forall_mem_nil _) hne hts 0
    rw [List.nil_append, List.length_nil, Nat.add_zero] at hpieces
    rw [hpieces, List.filter_eq_self]
    intro t ht
    simpa using (hts t ht).ne_nil

end ModuleSurface.Lexing
