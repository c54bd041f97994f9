import ScriptEngine.Machine.Store
set_option autoImplicit false

/-!
# Machine: the host

A program acts on its surroundings through native functions only.  A host says
what each native does: from the arguments, the store and its own state it makes
a result, a store and a state.  What a native has done to the state stays done
even when its result is an error.

The standard host is a console with four natives.  Its state is the text written
so far and the time of day, which is what the console was told it is.
-/

namespace ScriptEngine

/-! ## Hosts -/

/-- What a call of a native leads to. -/
structure Reply (World : Type) where
  /-- The value, or what went wrong. -/
  result : Except String Value
  store : Store
  world : World

/-- The meaning of native functions over a kind of surroundings. -/
structure Host (World : Type) where
  call : Native → List Value → Store → World → Reply World

/-- A native by name and argument count. -/
abbrev Signature : Type := String × Option Nat

/-- A new native function. -/
def Signature.make (s : Signature) (store : Store) : Native × Store :=
  let (id, store) := store.freshId
  (⟨id, s.1, s.2⟩, store)

/-! ## The console -/

/-- A console. -/
structure Console where
  /-- What programs have written. -/
  written : String := ""
  /-- The time of day, in seconds since 1970. -/
  seconds : Float := 0

instance : Inhabited Console := ⟨{}⟩

namespace Console

/-- The natives that programs find on a console. -/
def natives : List Signature :=
  [("print", some 1), ("assert", some 1), ("type_of", some 1), ("clock", some 0)]

/-- The first argument. -/
def argument (name : String) (arguments : List Value) : Except String Value :=
  match arguments with
  | value :: _ => .ok value
  | [] => .error (name ++ "() expects 1 argument but got 0.")

/-- Fails on what is false, and is true otherwise. -/
def assert : Value → Except String Value
  | .boolean false | .nil => .error "Assert failed!"
  | _ => .ok (.boolean true)

/-- Writes a line. -/
def writeLine (c : Console) (text : String) : Console :=
  { c with written := c.written ++ text ++ "\n" }

/-- The result of a native, and the console after it. -/
def answer (c : Console) (name : String) (arguments : List Value) :
    Except String Value × Console :=
  match name with
  | "print" =>
      match argument name arguments with
      | .ok value => (.ok .nil, c.writeLine value.toText)
      | .error message => (.error message, c)
  | "assert" => ((argument name arguments).bind assert, c)
  | "type_of" =>
      ((argument name arguments).map fun value => .string value.typeName, c)
  | "clock" => (.ok (.number c.seconds), c)
  | _ => (.error ("No native function is called " ++ name ++ "."), c)

/-- The console as a host.  No native of it touches the store. -/
def host : Host Console where
  call native arguments store console :=
    let (result, console) := console.answer native.name arguments
    ⟨result, store, console⟩

end Console

end ScriptEngine
