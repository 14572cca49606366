import Playbook.CommandLine

/-!
# The program

Runs the command line on the disk. Each request of a script is one operation of the system; an
operation that fails gives its fault as the answer.
-/
namespace Playbook.Program

open Disk

/-- The fault for an error number of the system. -/
def faultOf (code : Nat) (details : String) : Fault :=
  match code with
  | 2 => .notFound
  | 16 => .busy
  | 17 => .alreadyExists
  | 20 => .notADirectory
  | 21 => .isADirectory
  | 36 => .nameTooLong
  | 40 => .tooManyLinks
  | _ => .other (details ++ " (os error " ++ Text.ofNat code ++ ")")

def faultOfError : IO.Error → Fault
  | .alreadyExists _ code details | .interrupted _ code details
  | .noFileOrDirectory _ code details | .invalidArgument _ code details
  | .permissionDenied _ code details | .resourceExhausted _ code details
  | .inappropriateType _ code details | .noSuchThing _ code details
  | .otherError code details | .resourceBusy code details | .resourceVanished code details
  | .unsupportedOperation code details | .hardwareFault code details
  | .unsatisfiedConstraints code details | .illegalOperation code details
  | .protocolError code details | .timeExpired code details => faultOf code.toNat details
  | .userError message => .other message
  | .unexpectedEof => .other "unexpected end of file"

def kindOf : IO.FS.FileType → Kind
  | .dir => .directory
  | .symlink => .link
  | .file => .file
  | .other => .special

/-- The directory entry that stands for a path as it is written. -/
def entryAt (p : Path) : IO.FS.DirEntry := ⟨String.ofList p.text, ""⟩

/-- The operation that a request stands for. -/
def operate : (request : Request) → IO request.Answer
  | .kind path true => do return kindOf (← (entryAt path).root.metadata).type
  | .kind path false => do return kindOf (← (entryAt path).root.symlinkMetadata).type
  | .place path => do return (← IO.FS.realPath (entryAt path).root).toString.toList
  | .list path => do
    let entries ← (entryAt path).root.readDir
    entries.toList.mapM fun e => do
      return (e.fileName.toList, kindOf (← e.path.symlinkMetadata).type)
  | .read path => IO.FS.readBinFile (entryAt path).root
  | .makeDirectory path => IO.FS.createDir (entryAt path).root
  | .create path => IO.FS.writeBinFile (entryAt path).root .empty
  | .write path contents => IO.FS.writeBinFile (entryAt path).root contents
  | .sync path => do (← IO.FS.Handle.mk (entryAt path).root .append).flush
  | .rename source target => IO.FS.rename (entryAt source).root (entryAt target).root

def answer (request : Request) : IO (Except Fault request.Answer) := do
  try return .ok (← operate request) catch e => return .error (faultOfError e)

def run {α : Type} : Script α → IO (Except Failure α)
  | .done a => return .ok a
  | .fail failure => return .error failure
  | .ask request next => do run (next (← answer request))

end Playbook.Program

def main (arguments : List String) : IO UInt32 := do
  match ← Playbook.Program.run (Playbook.CommandLine.run (arguments.map String.toList)) with
  | .ok outcome =>
    (← IO.getStdout).putStr (String.ofList outcome.out)
    (← IO.getStderr).putStr (String.ofList outcome.err)
    return outcome.code.toUInt32
  | .error failure =>
    (← IO.getStderr).putStr (String.ofList ("Error: " ++ failure.message ++ "\n"))
    return 1
