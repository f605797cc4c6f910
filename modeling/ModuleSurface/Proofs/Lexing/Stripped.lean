import ModuleSurface.Proofs.Lexing.Separated

/-!
# Taking the comments out of pieces

What is left of a text when its comments are taken out is put together from what is left of its
pieces, each in its place.

* `Closed.keepsAt` — a closed text keeps in its place what it keeps on its own;
* `KeepsAt.bracket` — a bracket around a piece keeps both of its ends.
-/

namespace ModuleSurface.Lexing

open Cursor

/-! ## Runs that keep the same -/

/-- A step keeps what it reads, unless it is in a comment. -/
theorem Cursor.Next.exists_read {p q : Cursor} (h : Next p q) :
    ∃ read, p.rest = read ++ q.rest ∧ p.pass.code =
      (if !p.state.context.isComment && !q.state.context.isComment then read else []) ++
        q.pass.code := by
  cases h with
  | @step s s' past c rest position k hstep =>
    refine ⟨(c :: rest).take k, (List.take_append_drop k (c :: rest)).symm, ?_⟩
    rw [Next.moments_eq hstep]
    cases hkept : !s.context.isComment && !s'.context.isComment <;>
      simp [Pass.code, advance, hkept]

/-- Two runs in lock step keep the same, where the second has the same text in front of it with
`more` behind, and is in a comment where the first is. -/
theorem Cursor.Run.exists_kept {more : Text} {f : Cursor → Cursor}
    (hrest : ∀ p, (f p).rest = p.rest ++ more) {p q : Cursor} {ps : List Cursor} (h : Run p ps q)
    (hmoved : Run (f p) (ps.map f) (f q))
    (hcomment : ∀ r ∈ q :: ps, (f r).state.context.isComment = r.state.context.isComment) :
    ∃ kept, p.pass.code = kept ++ q.pass.code ∧ (f p).pass.code = kept ++ (f q).pass.code := by
  induction h with
  | refl => exact ⟨[], rfl, rfl⟩
  | @cons p p' q ps hnext hrun ih =>
    cases hmoved with
    | @cons _ fp' _ _ hnextMoved hrunMoved =>
      -- the second run comes to the place that corresponds to the first one's
      have hplace : fp' = f p' ∧ p' ∈ q :: ps := by
        cases hrun with
        | refl =>
          cases hrunMoved
          exact ⟨rfl, List.mem_cons_self⟩
        | cons _ _ =>
          cases hrunMoved
          exact ⟨rfl, List.mem_cons_of_mem _ List.mem_cons_self⟩
      obtain ⟨rfl, hp'⟩ := hplace
      have hlater : ∀ r ∈ q :: ps, (f r).state.context.isComment = r.state.context.isComment := by
        intro r hr
        rcases List.mem_cons.1 hr with rfl | hr
        · exact hcomment _ List.mem_cons_self
        · exact hcomment _ (List.mem_cons_of_mem _ (List.mem_cons_of_mem _ hr))
      obtain ⟨kept, hkept, hkeptMoved⟩ := ih hrunMoved hlater
      obtain ⟨read, hread, hcode⟩ := hnext.exists_read
      obtain ⟨readMoved, hreadMoved, hcodeMoved⟩ := hnextMoved.exists_read
      obtain rfl : readMoved = read := by
        rw [hrest, hrest, hread, List.append_assoc] at hreadMoved
        exact (List.append_cancel_right hreadMoved).symm
      have hbefore := hcomment p (by simp)
      have hafter := hlater p' hp'
      rw [hcode, hcodeMoved, hkept, hkeptMoved, hbefore, hafter]
      exact ⟨_, (List.append_assoc _ _ _).symm, (List.append_assoc _ _ _).symm⟩

/-! ## Pieces -/

/-- Between `outer`, in reverse, and `more` a pass keeps `kept` of the text, and goes on behind it
in the state `base` in front of it. -/
def KeepsAt (kept : Text) (base : State) (outer t more : Text) (offset : Nat) : Prop :=
  (Cursor.pass ⟨base, outer, t ++ more, offset⟩).code =
    kept ++ (Cursor.pass ⟨base, t.reverse ++ outer, more, offset + t.length⟩).code

theorem InertAt.keepsAt {allowed : Char → Prop} {base : State} {outer t more : Text} {offset : Nat}
    (hbase : base.inCode = true) (h : InertAt allowed base outer t more offset) :
    KeepsAt t base outer t more offset := by
  obtain ⟨ps, hrun, hcomments, -⟩ := h
  obtain ⟨read, hread, hcode⟩ := hrun.code_eq hcomments (State.isComment_of_inCode hbase)
  obtain rfl : t = read := List.append_cancel_right hread
  exact hcode

/-- **A closed text keeps in its place what it keeps on its own.** -/
theorem Closed.keepsAt {base : State} {outer t more : Text} (ht : Closed t) (hb : base.Coherent)
    (hbase : base.inCode = true) (houter : RegexLiteral.Opens outer) (hmore : Parts more)
    (hslash : LeavesSlashes t more) (offset : Nat) :
    KeepsAt (stripComments t) base outer t more offset := by
  obtain ⟨ps, qs, hown, hrun, rfl, -⟩ := ht.exists_moved_run hb hbase houter hmore hslash offset
  have hcomment : ∀ s : State, s.Coherent →
      (base.within offset s).context.isComment = s.context.isComment := by
    intro s hs
    rw [State.context_within hs]
    split
    · rename_i hnormal
      rw [State.isComment_of_inCode hbase, hnormal]
      rfl
    · rfl
  have hrest : ∀ p : Cursor, ((p.extend more).lift base offset outer []).rest = p.rest ++ more :=
    fun p => List.append_nil _
  have hcomments : ∀ p ∈ (⟨(Lexing.pass t).state, t.reverse, [], t.length⟩ : Cursor) :: ps,
      ((p.extend more).lift base offset outer []).state.context.isComment =
        p.state.context.isComment := by
    intro p hp
    refine hcomment p.state ?_
    rcases List.mem_cons.1 hp with rfl | hp
    · exact coherent_pass t
    · exact hown.coherent_of_mem .fresh p hp
  have hstart : (⟨base, outer, t ++ more, offset⟩ : Cursor) =
      Cursor.lift base offset outer [] (Cursor.extend more ⟨{}, [], t, 0⟩) := by
    simp [Cursor.lift, Cursor.extend, State.within_neutral .fresh rfl rfl rfl]
  have hend : (⟨base, t.reverse ++ outer, more, offset + t.length⟩ : Cursor) =
      Cursor.lift base offset outer []
        (Cursor.extend more ⟨(Lexing.pass t).state, t.reverse, [], t.length⟩) := by
    simp [Cursor.lift, Cursor.extend, ht.within_eq]
  rw [hstart, hend] at hrun
  obtain ⟨kept, hkept, hmoved⟩ := hown.exists_kept hrest hrun hcomments
  rw [KeepsAt, stripComments_eq_code, hstart, hend, hkept, hmoved]
  simp [Cursor.pass, passFrom, Pass.code]

namespace KeepsAt

variable {kept kept' : Text} {base : State} {outer t u more : Text} {offset : Nat}

theorem append (ht : KeepsAt kept base outer t (u ++ more) offset)
    (hu : KeepsAt kept' base (t.reverse ++ outer) u more (offset + t.length)) :
    KeepsAt (kept ++ kept') base outer (t ++ u) more offset := by
  rw [KeepsAt, List.append_assoc, ht, hu, List.reverse_append, List.append_assoc,
    List.length_append, Nat.add_assoc, List.append_assoc]

/-- **A bracket around a piece keeps both of its ends.** -/
theorem bracket {b : Bracket} (hb : base.Coherent) (hbase : base.inCode = true)
    (h : KeepsAt kept (base.openBracket b offset) (b.opener :: outer) t (b.closer :: more)
      (offset + 1)) :
    KeepsAt (b.opener :: kept ++ [b.closer]) base outer (b.opener :: t ++ [b.closer]) more
      offset := by
  have hcode : (base.openBracket b offset).inCode = true := by
    cases b <;> exact hbase
  have hopen := code_of_step (State.step_opener hbase b outer (t ++ b.closer :: more) offset) hbase
    hcode
  have hclose := code_of_step (State.step_closer hcode (State.closesExpr_openBracket hb b offset)
    (t.reverse ++ b.opener :: outer) more (offset + 1 + t.length)) hcode
    (by rw [State.closeBracket_openBracket]; exact hbase)
  rw [State.closeBracket_openBracket] at hclose
  have hinner : (Cursor.pass (advance ⟨base, outer, b.opener :: (t ++ b.closer :: more), offset⟩ 1
      (base.openBracket b offset))).code = _ := h
  rw [hinner, hclose] at hopen
  have hstart : b.opener :: t ++ [b.closer] ++ more = b.opener :: (t ++ b.closer :: more) := by
    simp
  rw [KeepsAt, hstart, hopen]
  simp [advance, advancePast, Nat.add_comm, Nat.add_left_comm]

/-- What is left of a whole text. -/
theorem stripComments_eq (h : KeepsAt kept {} [] t [] 0) : stripComments t = kept := by
  rw [KeepsAt, List.append_nil] at h
  rw [stripComments_eq_code, h]
  simp [Cursor.pass, passFrom, Pass.code]

end KeepsAt

/-- Of a bracket around a closed text its ends are kept, and the text without its comments. -/
theorem Closed.keepsAt_bracket {content more : Text} (hc : Closed content) (b : Bracket)
    (hslash : LeavesSlashes content (b.closer :: more)) (outer : Text) (offset : Nat) :
    KeepsAt (b.opener :: stripComments content ++ [b.closer]) {} outer
      (b.opener :: content ++ [b.closer]) more offset := by
  have hcode : (State.openBracket {} b offset).inCode = true := by
    cases b <;> rfl
  exact .bracket .fresh rfl (hc.keepsAt (State.Coherent.fresh.openBracket b offset) hcode
    (opens_opener b outer) (parts_closer b more) hslash (offset + 1))

end ModuleSurface.Lexing
