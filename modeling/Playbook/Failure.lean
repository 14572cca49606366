import Playbook.Double.Decimal
import Playbook.Path

/-!
# Failures

What can go wrong: a setting that makes no sense, a library that is not there, or the file
system. Documents are never at fault. Each cause has one message.
-/
namespace Playbook

/-- Why the file system refused an operation. -/
inductive Fault
  | notFound
  | busy
  | alreadyExists
  | notADirectory
  | isADirectory
  | nameTooLong
  | tooManyLinks
  | nulByte
  | notUtf8
  | other (message : Text)
  deriving Repr, DecidableEq

def Fault.message : Fault → Text
  | notFound => "No such file or directory (os error 2)"
  | busy => "Device or resource busy (os error 16)"
  | alreadyExists => "File exists (os error 17)"
  | notADirectory => "Not a directory (os error 20)"
  | isADirectory => "Is a directory (os error 21)"
  | nameTooLong => "File name too long (os error 36)"
  | tooManyLinks => "Too many levels of symbolic links (os error 40)"
  | nulByte => "file name contained an unexpected NUL byte"
  | notUtf8 => "stream did not contain valid UTF-8"
  | other message => message

/-- Why a walk through a directory stopped. -/
inductive WalkFault
  | refused (path : Path) (fault : Fault)
  /-- It could not be told which place a path leads to. -/
  | placeless (fault : Fault)
  | loop (path ancestor : Path)
  deriving Repr, DecidableEq

def WalkFault.message : WalkFault → Text
  | refused path fault => "IO error for operation on " ++ path.text ++ ": " ++ fault.message
  | placeless fault => fault.message
  | loop path ancestor =>
    "File system loop found: " ++ path.text ++ " points to an ancestor " ++ ancestor.text

inductive Failure
  | invalidBudget (limit : Nat)
  | invalidThreshold (threshold : Double)
  | missingSource (path : Path)
  | invalidPath (path : Path)
  | disk (fault : Fault)
  | walk (fault : WalkFault)
  deriving Repr, DecidableEq

def Failure.message : Failure → Text
  | invalidBudget limit =>
    "Invalid size budget: " ++ Text.ofNat limit ++ ". Expected a positive number of characters"
  | invalidThreshold threshold =>
    "Invalid split threshold: " ++ threshold.toText ++ ". Expected a ratio in (0, 1]"
  | missingSource path => "Source directory not found: " ++ path.text
  | invalidPath path => "Path " ++ path.text ++ " is not inside the source tree"
  | disk fault => "IO error: " ++ fault.message
  | walk fault => "Directory traversal failed: " ++ fault.message

end Playbook
