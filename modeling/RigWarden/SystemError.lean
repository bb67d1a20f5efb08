/-!
# Failures of the operating system

The causes that an operation on files or processes can give, with the text shown for each.
-/

namespace RigWarden

inductive SystemError where
  | notFound
  | execFormat
  | permissionDenied
  | alreadyExists
  | notDirectory
  | isDirectory
  | invalidArgument
  | noSpace
  | nameTooLong
  | notEmpty
  | tooManyLinks
  | nulInPath
  | nulInData
  | notText
  | noExecutable
  | workerRunning
  | other (text : String)
  deriving Repr, DecidableEq

namespace SystemError

def text : SystemError → String
  | notFound => "No such file or directory (os error 2)"
  | execFormat => "Exec format error (os error 8)"
  | permissionDenied => "Permission denied (os error 13)"
  | alreadyExists => "File exists (os error 17)"
  | notDirectory => "Not a directory (os error 20)"
  | isDirectory => "Is a directory (os error 21)"
  | invalidArgument => "Invalid argument (os error 22)"
  | noSpace => "No space left on device (os error 28)"
  | nameTooLong => "File name too long (os error 36)"
  | notEmpty => "Directory not empty (os error 39)"
  | tooManyLinks => "Too many levels of symbolic links (os error 40)"
  | nulInPath => "file name contained an unexpected NUL byte"
  | nulInData => "nul byte found in provided data"
  | notText => "stream did not contain valid UTF-8"
  | noExecutable => "executable not found"
  | workerRunning => "a worker is already running"
  | other text => text

end SystemError
end RigWarden
