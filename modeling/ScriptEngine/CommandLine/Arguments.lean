import ScriptEngine.Diagnostics.Log
set_option autoImplicit false

/-!
# Command line: arguments

The arguments name what is to be done: run a script, run every script of a
directory, or read programs from a terminal.  Options may stand anywhere, until
two hyphens end them.  Arguments are read from left to right, and the first that
is wrong, or that asks for help or the version, decides.
-/

namespace ScriptEngine.CommandLine

/-! ## Requests -/

/-- What is to be done. -/
inductive Task where
  | script (path : String)
  | testDirectory (path : String)
  | shell
  deriving DecidableEq, Repr, Inhabited

/-- Why the arguments make no sense. -/
inductive UsageError where
  | unknown (argument : String)
  | repeated (option : String)
  | missingValue (option : String)
  | superfluousValue (option : String)
  | emptyPath
  | conflict
  deriving DecidableEq, Repr, Inhabited

/-- The error in words. -/
def UsageError.message : UsageError → String
  | unknown argument => "unexpected argument '" ++ argument ++ "' found"
  | repeated option => "the argument '" ++ option ++ "' cannot be used multiple times"
  | missingValue option =>
      "a value is required for '" ++ option ++ "' but none was supplied"
  | superfluousValue option => "unexpected value for '" ++ option ++ "' found"
  | emptyPath => "a value is required but none was supplied"
  | conflict => "the argument '--test-dir <DIR>' cannot be used with '[SCRIPT]'"

/-- What the arguments ask for. -/
inductive Request where
  | perform (task : Task) (switches : Switches)
  | help
  | version
  | refuse (error : UsageError)
  deriving DecidableEq, Repr, Inhabited

/-! ## Reading arguments -/

/-- The options that take no value. -/
inductive Flag where
  | listCode | trace | traceStack | profile
  deriving DecidableEq, Repr, Inhabited

namespace Flag

/-- The option's name. -/
def name : Flag → String
  | listCode => "--print-code"
  | trace => "--trace"
  | traceStack => "--trace-stack"
  | profile => "--profile"

/-- The flag with a name. -/
def ofName? (name : String) : Option Flag :=
  [listCode, trace, traceStack, profile].find? fun f => f.name == name

end Flag

/-- The arguments read so far. -/
structure Collected where
  script : Option String := none
  directory : Option String := none
  flags : List Flag := []
  deriving DecidableEq, Repr, Inhabited

/-- The name of the option that takes a directory. -/
def directoryOption : String := "--test-dir"

namespace Collected

/-- Adds an argument that is no option. -/
def addScript (c : Collected) (path : String) : Except Request Collected :=
  if c.script.isSome then .error (.refuse (.unknown path))
  else if path.isEmpty then .error (.refuse .emptyPath)
  else .ok { c with script := some path }

/-- Adds the directory to test. -/
def addDirectory (c : Collected) (path : String) : Except Request Collected :=
  if c.directory.isSome then .error (.refuse (.repeated directoryOption))
  else if path.isEmpty then .error (.refuse .emptyPath)
  else .ok { c with directory := some path }

/-- Adds a flag. -/
def addFlag (c : Collected) (f : Flag) : Except Request Collected :=
  if c.flags.contains f then .error (.refuse (.repeated f.name))
  else .ok { c with flags := f :: c.flags }

/-- Adds an option whose name starts with two hyphens and which is not followed
by its value. -/
def addLong (c : Collected) (argument : String) : Except Request Collected :=
  let name := String.ofList (argument.toList.takeWhile (· != '='))
  let value? := (argument.toList.dropWhile (· != '=')).tail?.map String.ofList
  match name, value? with
  | "--help", none => .error .help
  | "--version", none => .error .version
  | "--test-dir", some path => c.addDirectory path
  | name, value? =>
      match Flag.ofName? name, value? with
      | some f, none => c.addFlag f
      | some f, some _ => .error (.refuse (.superfluousValue f.name))
      | none, _ => .error (.refuse (.unknown argument))

/-- Adds options of one letter, of which the first decides. -/
def addShort (argument : String) : Request :=
  match argument.toList.drop 1 with
  | 'h' :: _ => .help
  | 'V' :: _ => .version
  | _ => .refuse (.unknown argument)

/-- The argument can stand where a path is expected. -/
def isPath (argument : String) : Bool :=
  argument == "-" || argument.toList.head? != some '-'

/-- Adds one argument that takes no other one with it. -/
def add (c : Collected) (argument : String) : Except Request Collected :=
  if isPath argument then c.addScript argument
  else if argument.toList.take 2 = ['-', '-'] then c.addLong argument
  else .error (addShort argument)

/-- Adds arguments from left to right. -/
def addAll : Collected → List String → Except Request Collected
  | c, [] => .ok c
  | c, "--" :: paths => paths.foldlM addScript c
  | _, ["--test-dir"] => .error (.refuse (.missingValue directoryOption))
  | c, "--test-dir" :: path :: later =>
      if isPath path then
        match c.addDirectory path with
        | .ok c => c.addAll later
        | .error r => .error r
      else .error (.refuse (.missingValue directoryOption))
  | c, argument :: later =>
      match c.add argument with
      | .ok c => c.addAll later
      | .error r => .error r

/-- The diagnostics that the flags ask for.  Tracing the stack traces the
instructions too. -/
def switches (c : Collected) : Switches :=
  { listCode := c.flags.contains .listCode
    traceSteps := c.flags.contains .trace || c.flags.contains .traceStack
    traceStack := c.flags.contains .traceStack
    countOpcodes := c.flags.contains .profile }

/-- What is asked for once all arguments are read. -/
def request (c : Collected) : Request :=
  match c.script, c.directory with
  | some _, some _ => .refuse .conflict
  | some path, none => .perform (.script path) c.switches
  | none, some path => .perform (.testDirectory path) c.switches
  | none, none => .perform .shell c.switches

end Collected

/-- What the arguments ask for. -/
def parse (arguments : List String) : Request :=
  match Collected.addAll {} arguments with
  | .ok c => c.request
  | .error r => r

end ScriptEngine.CommandLine
