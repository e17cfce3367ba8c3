/-
  Arguments kept in files.

  An argument that starts with `@` stands for the lines of the file it names,
  each an argument of its own, which may stand for a file in turn.  Empty lines
  say nothing.  Files can be nested sixteen deep.

  * `Argument.expand` is what one argument stands for, and `expandArguments`
    what a command line does, whose first argument names the program.
-/
import Tarball.FileSystem.Open
import Tarball.Text.Lines

namespace Tarball

namespace Argument

/-- How deep files of arguments can be nested. -/
def nestingLimit : Nat := 16

/-- The file that an argument names, if it stands for one. -/
def file? (arg : String) : Option String :=
  match arg.toList with
  | '@' :: name => some (String.ofList name)
  | _ => none

/-- The arguments in the text of a file. -/
def ofText (text : String) : List String :=
  ((textLines text.toList).filter (· ≠ [])).map String.ofList

/-- What an argument stands for, when files may be nested so much deeper. -/
def expand (fs : FileSystem) : Nat → String → Except Error (List String)
  | levels, arg =>
    match file? arg with
    | none => .ok [arg]
    | some file =>
      match levels with
      | 0 => .error (Cause.argumentsTooDeep file)
      | levels + 1 => do
        let text ← fs.readText (bytesOf file)
        let parts ← (ofText text).mapM (expand fs levels)
        pure parts.flatten

end Argument

/-- What the arguments of a command line stand for. -/
def expandArguments (fs : FileSystem) : List String → Except Error (List String)
  | [] => .ok []
  | program :: args => do
    let parts ← args.mapM (Argument.expand fs Argument.nestingLimit)
    pure (program :: parts.flatten)

end Tarball
