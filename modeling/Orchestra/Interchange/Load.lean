/-
  Loading programs from files.

  What a file system says about a name is either bytes or a reason why there are none.  The bytes
  are a program text only if they are valid UTF-8.
-/
import Orchestra.Interchange.Program

namespace Orchestra.Interchange

/-- Why a file cannot be read. -/
inductive ReadFailure where
  | missing
  | directory
  | notText
  /-- Another answer of the operating system, in its own words. -/
  | other (text : String)

def ReadFailure.message : ReadFailure → String
  | .missing => "No such file or directory (os error 2)"
  | .directory => "Is a directory (os error 21)"
  | .notText => "stream did not contain valid UTF-8"
  | .other text => text

/-- The program in the file `name` with the given content, and its source text. -/
def load (name : String) (content : Except ReadFailure ByteArray) :
    Except ProgramError (Expr × String) := do
  let failed (f : ReadFailure) : ProgramError := .unreadable name f.message
  let bytes ← content.mapError failed
  match String.fromUTF8? bytes with
  | none => throw (failed .notText)
  | some source => return (← parse name source, source)

end Orchestra.Interchange
