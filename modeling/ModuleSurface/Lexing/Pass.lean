import ModuleSurface.Lexing.Step

/-!
# A whole pass

`passFrom` takes one step after the other until the text ends or a step fails, and keeps what it
went through.  `stripComments` is read off such a pass.
-/

namespace ModuleSurface.Lexing

/-- One step of a pass. -/
structure Moment where
  /-- The offset the step began at. -/
  index : Nat
  /-- The offset it ended at. -/
  stop : Nat
  /-- The characters it read. -/
  read : Text
  /-- The state in front of it. -/
  before : State
  /-- The state behind it. -/
  after : State
  deriving Repr

/-- What a pass went through and where it ended. -/
structure Pass where
  /-- The steps in order. -/
  moments : List Moment
  /-- The state at the end. -/
  state : State
  /-- Why the pass ended before the text did. -/
  fault : Option Fault
  /-- What was not read. -/
  unread : Text
  deriving Repr

/-- The text in reverse behind `k` more characters of `rest`. -/
def advancePast (past rest : Text) (k : Nat) : Text :=
  (rest.take k).reverse ++ past

/-- The pass over `rest`, which begins at `position` behind `past` in reverse. -/
def passFrom (s : State) (past rest : Text) (position : Nat) : Pass :=
  match rest with
  | [] => { moments := [], state := s, fault := none, unread := [] }
  | c :: r =>
    match _h : s.step past c r position with
    | .error f => { moments := [], state := s, fault := some f, unread := c :: r }
    | .ok (k, s') =>
      let p := passFrom s' (advancePast past (c :: r) k) ((c :: r).drop k) (position + k)
      let m : Moment :=
        { index := position, stop := position + k, read := (c :: r).take k
          before := s, after := s' }
      { p with moments := m :: p.moments }
termination_by s.weight rest.length
decreasing_by exact State.weight_step_lt _h

/-- The pass over a text with offsets counted from its start. -/
def State.feed (s : State) (text : Text) : Pass :=
  passFrom s [] text 0

/-- The pass over a whole source. -/
def pass (text : Text) : Pass :=
  State.feed {} text

/-! ## Comments -/

/-- The text without its comments.  What cannot be read stays as it is. -/
def stripComments (text : Text) : Text :=
  let p := pass text
  (p.moments.filter fun m =>
      !m.before.context.isComment && !m.after.context.isComment).flatMap (·.read) ++ p.unread

theorem length_reads_passFrom (s : State) (past rest : Text) (position : Nat) :
    ((passFrom s past rest position).moments.flatMap (·.read)).length +
      (passFrom s past rest position).unread.length = rest.length := by
  fun_induction passFrom s past rest position with
  | case1 => simp
  | case2 => simp
  | case3 s past position c r k s' h p m ih =>
    simp only [List.flatMap_cons, List.length_append]
    simp only [p] at ih ⊢
    simp only [m, List.length_take, List.length_drop] at ih ⊢
    omega

theorem length_flatMap_filter_le {α : Type} (keep : α → Bool) (f : α → Text) (l : List α) :
    ((l.filter keep).flatMap f).length ≤ (l.flatMap f).length := by
  induction l with
  | nil => simp
  | cons a l ih =>
    by_cases h : keep a = true <;> simp [h] <;> simp at ih <;> omega

/-- Removing comments never makes a text longer. -/
theorem length_stripComments_le (text : Text) : (stripComments text).length ≤ text.length := by
  have h := length_reads_passFrom {} [] text 0
  have hk := length_flatMap_filter_le
    (fun m : Moment => !m.before.context.isComment && !m.after.context.isComment) (·.read)
    (pass text).moments
  simp only [pass, State.feed] at hk
  simp only [stripComments, pass, State.feed, List.length_append]
  omega

end ModuleSurface.Lexing
