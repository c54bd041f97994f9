import ScriptEngine.CommandLine.Command
import Std.Time.DateTime.Timestamp
set_option autoImplicit false

/-!
# The program

Reads what the command line asks for and writes what comes of it.  What to
write, and with which code to end, is decided in
`ScriptEngine.CommandLine.Command`.
-/

namespace ScriptEngine.CommandLine

/-- More steps than any program takes before the machine it runs on is gone. -/
def stepLimit : Nat := Nat.pow 2 62

/-- What the system says of a file it does not give. -/
def fileError (e : IO.Error) : FileError :=
  match e with
  | .noFileOrDirectory .. => .notFound
  | .inappropriateType _ 20 _ | .inappropriateType _ 0xffffffec _ => .notADirectory
  | .inappropriateType _ 21 _ => .isADirectory
  | e => .other e.toString

/-- The text of a file. -/
def readText (path : String) : IO (Except FileError String) := do
  try
    match String.fromUTF8? (← IO.FS.readBinFile path) with
    | some text => return .ok text
    | none => return .error .notText
  catch e => return .error (fileError e)

/-- The files of a directory. -/
def readDirectory (path : String) : IO (Except FileError (List NamedText)) := do
  try
    let mut files := []
    for entry in ← (← IO.FS.realPath path).readDir do
      unless ← entry.path.isDir do
        files := ⟨entry.fileName, ← readText entry.path.toString⟩ :: files
    return .ok files
  catch e => return .error (fileError e)

/-- The files that a request needs. -/
def readFiles (r : Request) : IO Files := do
  match r with
  | .perform (.script path) _ =>
      let text ← readText path
      return ⟨fun _ => text, fun _ => .error .notADirectory⟩
  | .perform (.testDirectory path) _ =>
      let files ← readDirectory path
      return ⟨fun _ => .error .isADirectory, fun _ => files⟩
  | _ => return ⟨fun _ => .error .notFound, fun _ => .error .notFound⟩

/-- The time of day. -/
def readClock : IO Float := do
  let now ← Std.Time.Timestamp.now
  return Float.ofInt now.toNanosecondsSinceUnixEpoch.val / 1e9

/-- Writes both channels. -/
def put (output errors : String) : IO Unit := do
  let out ← IO.getStdout
  out.putStr output
  out.flush
  (← IO.getStderr).putStr errors

/-- Carries out lines as they are typed. -/
partial def converse (s : Settings) (input : IO.FS.Stream)
    (session : Session Console) : IO Unit := do
  put prompt ""
  let line ← input.getLine
  if line.isEmpty then return
  let s := { s with seconds := ← readClock }
  let (t, session) := shellLine s s.terminal session line
  put t.console.written t.errors
  converse s input session

end ScriptEngine.CommandLine

open ScriptEngine.CommandLine in
/-- The command line. -/
def main (arguments : List String) : IO UInt32 := do
  let seconds ← readClock
  match parse arguments with
  | .perform .shell switches =>
      let s : Settings := ⟨switches, stepLimit, seconds, TypedLine.read⟩
      put (banner ++ "\n") ""
      converse s (← IO.getStdin) (s.session s.terminal)
      return 0
  | request =>
      let around := ⟨← readFiles request, "", seconds⟩
      let t := execute stepLimit around arguments
      put t.output t.errors
      return t.exit.toUInt32
