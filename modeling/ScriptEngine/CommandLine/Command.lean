import ScriptEngine.CommandLine.Arguments
import ScriptEngine.CommandLine.Files
import ScriptEngine.CommandLine.TypedLine
import ScriptEngine.Session
import ScriptEngine.Text.Blank
set_option autoImplicit false

/-!
# Command line: commands

What each task does on a terminal.  The terminal is a value: what was written to
its two channels so far.  Programs write to the console, which is the first
channel; errors and log records go to the second.

A script that is refused, one that fails and a file that cannot be read are told
apart by the exit code.

How a terminal lets lines be edited is no matter of the commands: they are given a
function that says what becomes of a line (`Settings.readLine`).
-/

namespace ScriptEngine.CommandLine

/-! ## Terminals -/

/-- What has been written. -/
structure Terminal where
  console : Console := {}
  errors : String := ""

instance : Inhabited Terminal := ⟨{}⟩

namespace Terminal

/-- Writes to the console. -/
def write (t : Terminal) (text : String) : Terminal :=
  { t with console := { t.console with written := t.console.written ++ text } }

/-- Writes a line to the console. -/
def writeLine (t : Terminal) (text : String) : Terminal :=
  { t with console := t.console.writeLine text }

/-- Writes a line to the channel for errors. -/
def writeError (t : Terminal) (text : String) : Terminal :=
  { t with errors := t.errors ++ text ++ "\n" }

end Terminal

/-- What a command has written, and the code it ends with. -/
structure Transcript where
  exit : Nat
  output : String
  errors : String
  deriving DecidableEq, Repr, Inhabited

/-- Ends a command. -/
def Terminal.close (t : Terminal) (exit : Nat) : Transcript :=
  ⟨exit, t.console.written, t.errors⟩

/-! ## Exit codes -/

/-- The exit code for a test directory in which some script failed. -/
def exitTestsFailed : Nat := 1

/-- The exit code for arguments that make no sense. -/
def exitUsage : Nat := 2

/-- The exit code for files that cannot be read. -/
def exitIo : Nat := 74

/-- The exit code for an outcome. -/
def exitFor : Outcome → Nat
  | .value _ => 0
  | .error (.compile _) => 65
  | .error (.runtime _) => 70
  | .error (.io _) => exitIo
  | .unfinished => 70

/-! ## Log records -/

/-- The name of a part of the engine in the log. -/
def sourceName : LogSource → String
  | .compiler => "rue::compiler"
  | .machine => "rue::vm"

/-- A record as lines of the log.  Lines after the first are indented. -/
def recordText (r : LogRecord) : String :=
  "[" ++ Text.padRight 5 r.level.name ++ " " ++ sourceName r.source ++ "] " ++
    String.intercalate "\n    " (r.text.splitOn "\n")

/-- Writes the records of a program. -/
def Terminal.writeLog (t : Terminal) (log : Log) : Terminal :=
  log.foldl (fun t r => t.writeError (recordText r)) t

/-- Writes the error of a program, if there is one. -/
def Terminal.writeOutcome (t : Terminal) : Outcome → Terminal
  | .error e => t.writeError e.toText
  | .value _ | .unfinished => t

/-! ## Programs -/

/-- How programs are run. -/
structure Settings where
  switches : Switches
  /-- The most steps that one program may take. -/
  limit : Nat
  /-- The time of day. -/
  seconds : Float
  /-- What the terminal makes of a line that is typed. -/
  readLine : String → String

namespace Settings

/-- A terminal on which nothing has been written. -/
def terminal (s : Settings) : Terminal := { console := { seconds := s.seconds } }

/-- The least important records that are made.  Warnings always are. -/
def level (s : Settings) : LogLevel := s.switches.level?.getD .warn

/-- A session with the natives of the console. -/
def session (s : Settings) (t : Terminal) : Session Console :=
  (Session.start Console.host t.console s.switches s.level).install
    Console.natives

/-- Runs a program on the terminal, apart from writing its error. -/
def interpret (s : Settings) (t : Terminal) (session : Session Console)
    (source : String) : Outcome × Terminal × Session Console :=
  let machine := { session.machine with world := t.console }
  let (report, session) :=
    { session with machine }.interpret s.limit source
  let t := { t with console := session.machine.world }
  (report.outcome, t.writeLog report.log, session)

/-- Runs a source in a session of its own, unless it could not be read. -/
def runSource (s : Settings) (t : Terminal) (source : Except FileError String) :
    Outcome × Terminal :=
  match source with
  | .error e => (.error (.io e.message), t)
  | .ok text =>
      let (outcome, t, _) := s.interpret t (s.session t) text
      (outcome, t)

end Settings

/-! ## Scripts -/

/-- Ends a command whose file or directory could not be read. -/
def unreadable (what : String) (e : FileError) : Transcript :=
  (({} : Terminal).writeError
    ("error: could not read " ++ what ++ ": " ++ e.message)).close exitIo

/-- Runs the script at a path. -/
def runScript (s : Settings) (files : Files) (path : String) : Transcript :=
  match files.text path with
  | .error e => unreadable path e
  | .ok text =>
      let (outcome, t) := s.runSource s.terminal (.ok text)
      (t.writeOutcome outcome).close (exitFor outcome)

/-! ## Test directories -/

/-- How many scripts succeeded and how many did not. -/
structure Tally where
  passed : Nat := 0
  failed : Nat := 0
  deriving DecidableEq, Repr, Inhabited

/-- Runs one script and reports on it. -/
def runTest (s : Settings) (file : NamedText) (t : Terminal) (tally : Tally) :
    Terminal × Tally :=
  let (outcome, t) := s.runSource t file.text
  match outcome with
  | .value _ =>
      (t.writeLine ("[OK] " ++ file.name),
        { tally with passed := tally.passed + 1 })
  | outcome =>
      ((t.writeLine ("[FAILED] " ++ file.name)).writeOutcome outcome,
        { tally with failed := tally.failed + 1 })

/-- Runs every script of a directory, in the order of their names. -/
def runTests (s : Settings) (files : Files) (path : String) : Transcript :=
  match files.directory path with
  | .error e => unreadable ("directory " ++ path) e
  | .ok scripts =>
      let sorted := scripts.mergeSort fun a b => decide (a.name ≤ b.name)
      let (t, tally) :=
        sorted.foldl (fun (t, tally) file => runTest s file t tally)
          (s.terminal, ({} : Tally))
      let t :=
        t.writeLine
          (Text.decimal tally.passed ++ " passed, " ++ Text.decimal tally.failed ++
            " failed")
      t.close (if tally.failed = 0 then 0 else exitTestsFailed)

/-! ## The shell -/

/-- What the shell says first. -/
def banner : String := "Rue REPL. Ctrl-D to exit, :reset to forget globals."

/-- What the shell writes before it reads a line. -/
def prompt : String := "> "

/-- The lines of a text, without their ends.  A text that ends with a line end
has no empty line after it. -/
def linesOf (text : String) : List String :=
  let lines := text.splitOn "\n"
  if lines.getLast? = some "" then lines.dropLast else lines

/-- Carries out one line that was typed. -/
def shellLine (s : Settings) (t : Terminal) (session : Session Console)
    (line : String) : Terminal × Session Console :=
  let input := Text.trim (s.readLine line)
  if input.isEmpty then (t, session)
  else if input = ":reset" then (t, session.reset.install Console.natives)
  else
    let (outcome, t, session) := s.interpret t session input
    match outcome with
    | .value .nil => (t, session)
    | .value v => (t.writeLine v.toText, session)
    | outcome => (t.writeOutcome outcome, session)

/-- Carries out lines until there are no more.  A prompt is written before each
line and before the end. -/
def shellLines (s : Settings) :
    List String → Terminal → Session Console → Terminal
  | [], t, _ => t.write prompt
  | line :: later, t, session =>
      let (t, session) := shellLine s (t.write prompt) session line
      shellLines s later t session

/-- Reads programs from a terminal, one a line. -/
def runShell (s : Settings) (input : String) : Transcript :=
  let t := s.terminal.writeLine banner
  (shellLines s (linesOf input) t (s.session t)).close 0

/-! ## Help -/

/-- The name and version of the program. -/
def versionText : String := "rue 0.1.0"

/-- How the program is called. -/
def usageText : String := "Usage: rue [OPTIONS] [SCRIPT]"

/-- The explanation of all arguments. -/
def helpText : String :=
  String.intercalate "\n"
    ["The Rue scripting language", "", usageText, "",
     "Arguments:",
     "  [SCRIPT]  Script to run; starts a REPL when omitted", "",
     "Options:",
     "      --test-dir <DIR>  Run every script in a directory and report which ones failed",
     "      --print-code      Log the disassembly of each compiled function",
     "      --trace           Log every instruction as it executes",
     "      --trace-stack     Log the value stack alongside traced instructions",
     "      --profile         Log per-opcode execution counts and time after each run",
     "  -h, --help            Print help",
     "  -V, --version         Print version"]

/-- Ends a command whose arguments make no sense. -/
def refuse (e : UsageError) : Transcript :=
  (({} : Terminal).writeError
    ("error: " ++ e.message ++ "\n\n" ++ usageText ++
      "\n\nFor more information, try '--help'.")).close exitUsage

/-! ## All commands -/

/-- What a command finds when it starts. -/
structure Surroundings where
  files : Files
  /-- All that will be typed. -/
  input : String
  seconds : Float

/-- Carries out a task. -/
def perform (s : Settings) (around : Surroundings) : Task → Transcript
  | .script path => runScript s around.files path
  | .testDirectory path => runTests s around.files path
  | .shell => runShell s around.input

/-- Carries out what the arguments ask for.  No program takes more than `limit`
steps. -/
def execute (limit : Nat) (around : Surroundings) (arguments : List String)
    (readLine : String → String := TypedLine.read) : Transcript :=
  match parse arguments with
  | .perform task switches =>
      perform ⟨switches, limit, around.seconds, readLine⟩ around task
  | .help => (({} : Terminal).writeLine helpText).close 0
  | .version => (({} : Terminal).writeLine versionText).close 0
  | .refuse e => refuse e

end ScriptEngine.CommandLine
