import StackBackend.Decimal.Reader
import StackBackend.Json.Reader
import StackBackend.Listing.Printer
import StackBackend.Report
import StackBackend.Tree.Codec

namespace StackBackend

/-! The command line. Reading the arguments and working out the response are
pure; what remains is to read the source, print and save. -/

/-! ## Arguments

Options may stand before, between and after the other arguments. The value of an
option follows it, attached or as the next argument. After `--` nothing is an
option any more, and a lone hyphen never is. -/

structure CommandOption where
  long : String
  short : Option Char
  takesValue : Bool
deriving DecidableEq

structure Arguments where
  /-- The options by their long names, last first. -/
  options : List (String × Option String) := []
  /-- The other arguments, last first. -/
  operands : List String := []
  /-- An option that still needs its value. -/
  pending : Option String := none
  /-- Whether `--` has been seen. -/
  closed : Bool := false
deriving DecidableEq

namespace Arguments

def addOperand (arguments : Arguments) (operand : String) : Arguments :=
  { arguments with operands := operand :: arguments.operands }

def addOption (arguments : Arguments) (option : CommandOption) (attached : Option String) :
    Option Arguments :=
  match option.takesValue, attached with
  | false, none => some { arguments with options := (option.long, none) :: arguments.options }
  | false, some _ => none
  | true, none => some { arguments with pending := some option.long }
  | true, some value =>
      some { arguments with options := (option.long, some value) :: arguments.options }

/-- The value that is attached to the name of a long option. -/
def attachedValue? : List Char → Option String
  | '=' :: value => some (String.ofList value)
  | _ => none

/-- The value that is attached to the letter of a short option. -/
def attachedToLetter? : List Char → Option String
  | [] => none
  | '=' :: value => some (String.ofList value)
  | value => some (String.ofList value)

def step (options : List CommandOption) (arguments : Arguments) (argument : String) :
    Option Arguments :=
  if arguments.closed then
    some (arguments.addOperand argument)
  else
    match argument.toList, arguments.pending with
    | '-' :: _ :: _, some _ => none
    | _, some name =>
        some { arguments with
          options := (name, some argument) :: arguments.options
          pending := none }
    | ['-', '-'], none => some { arguments with closed := true }
    | '-' :: '-' :: text, none => do
        let name := String.ofList (text.takeWhile (· != '='))
        let option ← options.find? fun option => option.long == name
        arguments.addOption option (attachedValue? (text.dropWhile (· != '=')))
    | '-' :: letter :: text, none => do
        let option ← options.find? fun option => option.short == some letter
        arguments.addOption option (attachedToLetter? text)
    | _, none => some (arguments.addOperand argument)

/-- Reads the arguments of a command. An option may be given once only. -/
def read? (options : List CommandOption) (given : List String) : Option Arguments := do
  let arguments ← given.foldlM (step options) {}
  if arguments.pending.isNone ∧ (arguments.options.map Prod.fst).Nodup then
    some arguments
  else
    none

def isSet (arguments : Arguments) (name : String) : Bool :=
  (arguments.options.lookup name).isSome

/-- The value of an option. -/
def value? (arguments : Arguments) (name : String) : Option String :=
  (arguments.options.lookup name).join

/-- The value of an option with a number below `bound`; the outer option fails
on anything else. -/
def number? (arguments : Arguments) (name : String) (bound : Nat) : Option (Option Nat) :=
  match arguments.value? name with
  | none => some none
  | some text => (readBounded? bound text.toList).map some

end Arguments

/-! ## Commands -/

inductive Command where
  /-- Prints the code of a tree, or saves it in a file. -/
  | compile (destination : Option String) (options : CompileOptions)
  /-- Runs a listing or a tree. -/
  | run (asTree : Bool) (machine : MachineOptions) (options : CompileOptions)

structure Invocation where
  file : String
  command : Command

namespace Invocation

def noColor : CommandOption := ⟨"no-color", none, false⟩

def noMemoryManager : CommandOption := ⟨"no-memory-manager", none, false⟩

def compileOptions : List CommandOption :=
  [noColor, noMemoryManager, ⟨"output", some 'o', true⟩]

def runOptions : List CommandOption :=
  [noColor, noMemoryManager, ⟨"tree", none, false⟩, ⟨"memory-size", none, true⟩,
    ⟨"max-steps", none, true⟩]

/-- Numbers on the command line have 64 bits. -/
def numberBound : Nat := 0x10000000000000000

def readCompile? (given : List String) : Option Invocation := do
  let arguments ← Arguments.read? compileOptions given
  let [file] := arguments.operands | none
  if arguments.value? "output" = some "" then none
  return {
    file
    command := .compile (arguments.value? "output")
      { memoryManager := !arguments.isSet "no-memory-manager" } }

def readRun? (given : List String) : Option Invocation := do
  let arguments ← Arguments.read? runOptions given
  let [file] := arguments.operands | none
  let memorySize ← arguments.number? "memory-size" numberBound
  let stepLimit ← arguments.number? "max-steps" numberBound
  let defaults : MachineOptions := {}
  return {
    file
    command := .run (arguments.isSet "tree" || file.endsWith ".json")
      { memorySize := memorySize.getD defaults.memorySize, stepLimit }
      { memoryManager := !arguments.isSet "no-memory-manager" } }

def readsStandardInput (invocation : Invocation) : Bool :=
  invocation.file = "-"

/-- The name of the source in messages. -/
def sourceName (invocation : Invocation) : String :=
  if invocation.readsStandardInput then "<stdin>" else invocation.file

end Invocation

/-- What a command line asks for. -/
inductive Request where
  | version
  | invoke (invocation : Invocation)

namespace Request

/-- Reads a command, or the option that asks for the version. What follows that
option is not looked at, nor are letters attached to its own. -/
def readCommand? : List String → Option Request
  | "compile" :: given => (Invocation.readCompile? given).map .invoke
  | "run" :: given => (Invocation.readRun? given).map .invoke
  | "--version" :: _ => some .version
  | argument :: _ => if "-V".toList.isPrefixOf argument.toList then some .version else none
  | [] => none

/-- Reads a command line; nothing when it is misused. The option against colour
may also stand before the command. -/
def read? : List String → Option Request
  | "--no-color" :: given => readCommand? given
  | given => readCommand? given

end Request

/-! ## Responses -/

structure Response where
  exitCode : UInt8
  output : List UInt8 := []
  report : String := ""
  /-- A file to save: its path and its content. -/
  save : Option (String × String) := none

namespace Response

/-- The response to a misused command line. -/
def misuse : Response where
  exitCode := 2

/-- The response to the question for the version. -/
def version : Response where
  exitCode := 0
  output := "pika 0.1.0\n".toUTF8.toList

/-- The failure of a command that may have printed something before. -/
def failure (name : String) (error : RunError) (output : List UInt8) : Response where
  exitCode :=
    match error with
    | .memoryTooLarge => 101
    | _ => 1
  output
  report := error.report Glyphs.unicode name

def defect (defect : Defect) : Response where
  exitCode := 101
  report := defect.message ++ "\n"

/-- A failure to read or save a file. -/
def fileFailure (name description : String) : Response :=
  failure name (.input (name ++ ": " ++ description)) []

/-- The response to a run. -/
def ofSession (name : String) : Except RunError Session → Response
  | .error error => failure name error []
  | .ok session =>
      match session.failure? with
      | some error => failure name (.machine error) session.output
      | none => { exitCode := 0, output := session.output }

end Response

namespace Program

/-- Decodes the JSON text of a tree. -/
def ofText? (reading : NumberReading) (text : String) : Option Program := do
  decode? (← Json.ofText? reading text)

end Program

namespace Invocation

/-- Compiles the tree in a source and hands the code on. The numbers of the tree
are read in the scaled way. -/
def withCode (invocation : Invocation) (options : CompileOptions) (source : String)
    (next : Code → Response) : Response :=
  match Program.ofText? .scaled source with
  | none => Response.fileFailure invocation.sourceName "not a program tree"
  | some program =>
      match program.compile options with
      | .error defect => Response.defect defect
      | .ok code => next code

/-- The response to an invocation whose source could be read. -/
def respond (invocation : Invocation) (source : String) : Response :=
  match invocation.command with
  | .compile destination options =>
      invocation.withCode options source fun code =>
        match destination with
        | some path => { exitCode := 0, save := some (path, code.listing) }
        | none => { exitCode := 0, output := code.listing.toUTF8.toList }
  | .run true machine options =>
      invocation.withCode options source fun code =>
        Response.ofSession invocation.sourceName (code.execute machine)
  | .run false machine _ =>
      Response.ofSession invocation.sourceName (executeListing source machine)

end Invocation

end StackBackend
