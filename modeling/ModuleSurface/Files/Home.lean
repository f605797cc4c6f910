import ModuleSurface.Files.Tree

/-!
# Home directories

A path may begin with a tilde and the name of a user, which stand for the home directory of the
user.  A tilde without a name stands for the one of the user at work.
-/

namespace ModuleSurface.Files

/-- The home directories in a list of accounts: a line for each user, with the name in the first and
the home directory in the sixth of seven fields between colons. -/
def accountHomes (accounts : Text) : Named FilePath :=
  (Text.lines accounts).filterMap fun line =>
    match line.splitOn ':' with
    | [name, _, _, _, _, home, _] => some (name, FilePath.parse home)
    | _ => none

/-- The path with the home directory of a user for a tilde and the name of the user in front.  There
is none if there is no such user. -/
def FileSystem.expandHome? (fs : FileSystem) (p : FilePath) : Option FilePath :=
  match p.isAbsolute, p.parts with
  | false, ('~' :: user) :: parts =>
    (fs.homes.lookup user).map fun home => { home with parts := home.parts ++ parts }
  | _, _ => some p

end ModuleSurface.Files
