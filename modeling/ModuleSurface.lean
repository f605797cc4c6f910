import ModuleSurface.Callable.Offset
import ModuleSurface.Main
import ModuleSurface.Narrowing.Descent
import ModuleSurface.Proofs.Callable.Binding
import ModuleSurface.Proofs.Callable.Listed
import ModuleSurface.Proofs.ClassBody.Members
import ModuleSurface.Proofs.ClassBody.Modifiers
import ModuleSurface.Proofs.Declaration.Overloads
import ModuleSurface.Proofs.Files.Output
import ModuleSurface.Proofs.Files.Sources
import ModuleSurface.Proofs.Import.RoundTrip
import ModuleSurface.Proofs.Lexing.Fragments
import ModuleSurface.Proofs.Lexing.Matching
import ModuleSurface.Proofs.Lexing.Openings
import ModuleSurface.Proofs.Lexing.Reachable
import ModuleSurface.Proofs.Lexing.Words
import ModuleSurface.Proofs.Narrowing.Arrow
import ModuleSurface.Proofs.Narrowing.Elements
import ModuleSurface.Proofs.Narrowing.Member
import ModuleSurface.Proofs.Narrowing.Template
import ModuleSurface.Proofs.Narrowing.Termination
import ModuleSurface.Proofs.Narrowing.Widening
import ModuleSurface.Proofs.Outline.Comments
import ModuleSurface.Proofs.Outline.Controlled
import ModuleSurface.Proofs.Outline.Faults
import ModuleSurface.Proofs.Outline.Spans
import ModuleSurface.Proofs.Outline.Variables
import ModuleSurface.Proofs.Statement.Rounds
import ModuleSurface.Proofs.Surface.Bodies
import ModuleSurface.Proofs.Surface.Default
import ModuleSurface.Proofs.Surface.ReExport
import ModuleSurface.Proofs.Surface.Values
import ModuleSurface.Proofs.Surface.Verdict
