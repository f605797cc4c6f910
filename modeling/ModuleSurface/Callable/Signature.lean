import ModuleSurface.Callable.Reading

/-!
# Signatures of functions

A signature is what is left of a function when its body is taken away: type parameters, the raw
parameters, the written return type, and how the function is marked.  `readAt` reads everything
from the type parameters on; `parseFunction?` reads a whole function with its keyword.
-/

namespace ModuleSurface

open ModuleSurface.Lexing
open ModuleSurface.Callable

/-- The header of a function-like piece of source.  Types are kept as they were written. -/
structure Signature where
  /-- The type parameters with their angle brackets. -/
  generics : Option Text := none
  /-- The parameters as written. -/
  parameters : List Text := []
  /-- The return type as written. -/
  returnType : Option Text := none
  /-- Is the function marked `async`? -/
  isAsync : Bool := false
  /-- Is the function a generator? -/
  isGenerator : Bool := false
  /-- Does a body follow the header? -/
  hasBody : Bool := false
  /-- The documentation comment in front of the function. -/
  doc : Option Text := none
  deriving DecidableEq, Repr

namespace Signature

/-- The offset of the last block of curly brackets outside every other bracket, if the text ends
with one. -/
def lastBlock? (text : Text) : Option Nat :=
  if text.getLast? == some '}' then
    (((outermost text false).filter (·.char == '{')).getLast?).map (·.index)
  else none

/-- The text behind a parameter list, split into the return type and the body.  The body is the
last block; if only a colon stands before that block, it is an object type and no body. -/
def splitBody (after : Text) : Option Text × Option Text :=
  let text := Text.stripSemicolon after
  let typeOnly := if text.head? == some ':' then some (Text.strip (text.drop 1)) else none
  match lastBlock? text with
  | none => (typeOnly, none)
  | some start =>
    match Text.strip (text.take start) with
    | [] => (none, some (text.drop start))
    | c :: head =>
      let written := Text.strip head
      if c == ':' && !written.isEmpty then (some (Text.collapse written), some (text.drop start))
      else (typeOnly, none)

/-- The signature that begins at `i` with type parameters or the parameter list. -/
def readAt (text : Text) (i : Nat) : Option Signature :=
  let (generics, behind) := readGenerics text i
  let start := skipBlank text behind
  if text[start]? == some '(' then
    match matching? text start with
    | none => none
    | some stop =>
      let (returnType, body) := splitBody (text.drop (stop + 1))
      some
        { generics := generics
          parameters := splitTypedCommas (Text.slice text (start + 1) stop)
          returnType := returnType
          hasBody := body.isSome }
  else none

/-- The name and the signature of a function written with its keyword. -/
def parseFunction? (text : Text) : Option (Text × Signature) :=
  let whole := Text.strip text
  let isAsync := (afterAsync? whole).isSome
  let rest := (afterAsync? whole).getD whole
  let keyword := "function".toList
  if keyword.isPrefixOf rest then
    let i := skipBlank rest keyword.length
    let isGenerator := rest[i]? == some '*'
    let (name, behind) := readIdentifier rest (if isGenerator then i + 1 else i)
    (readAt rest behind).map fun s =>
      (name, { s with isAsync := isAsync, isGenerator := isGenerator })
  else none

/-- The return type of a function that has a body and no written return type. -/
def defaultReturnType (isAsync isGenerator : Bool) : Text :=
  match isAsync, isGenerator with
  | true, true => "AsyncGenerator<unknown, void, unknown>".toList
  | false, true => "Generator<unknown, void, unknown>".toList
  | true, false => "Promise<void>".toList
  | false, false => "void".toList

/-- No parameter is longer than the text the signature was read from. -/
theorem length_lt_of_mem_readAt {text p : Text} {i : Nat} {s : Signature}
    (h : readAt text i = some s) (hp : p ∈ s.parameters) : p.length < text.length := by
  simp only [readAt] at h
  split at h
  · rename_i hstart
    split at h
    · cases h
    · rename_i stop _
      cases h
      simp only [splitTypedCommas] at hp
      have h₁ := length_le_of_mem_splitOutermost hp
      have h₂ : skipBlank text (readGenerics text i).2 < text.length := by
        rw [beq_iff_eq] at hstart
        exact (List.getElem?_eq_some_iff.1 hstart).1
      simp only [Text.slice, List.length_drop, List.length_take] at h₁
      omega
  · cases h

end Signature

end ModuleSurface
