/-!
# Failing file operations

Why a file cannot be read or written, in the words of the operating system.
-/

namespace Backpatch.Command

/-- Why a file cannot be read or written. -/
inductive FileError
  | notFound
  | isDirectory
  | notDirectory
  | nameTooLong
  | notText
  | other (reason : String)
  deriving DecidableEq, Repr

def FileError.message : FileError → String
  | notFound => "No such file or directory (os error 2)"
  | isDirectory => "Is a directory (os error 21)"
  | notDirectory => "Not a directory (os error 20)"
  | nameTooLong => "File name too long (os error 36)"
  | notText => "stream did not contain valid UTF-8"
  | other reason => reason

end Backpatch.Command
