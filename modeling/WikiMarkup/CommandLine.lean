import WikiMarkup.Json.Exchange
import WikiMarkup.Normalization

/-!
# The command line

The program reads a parse tree from the file it is given, normalizes it and prints its outline;
warnings go to the error stream. `--options FILE` names a file with settings, `--quiet` keeps
warnings back.

**Arguments** are read from the left, and the first one that asks for help or for the version, or
that is wrong, decides. `Request.ofArguments` is that reading. **Running** a request needs files and
what they mean; `CommandLine.run` takes the way to read a file and the formats as parameters and is
otherwise a function of the arguments.
-/

namespace WikiMarkup

namespace CommandLine

/-! ### Arguments -/

/-- The shape of an argument. -/
inductive Argument
  /-- Two dashes alone: no flags come after them. -/
  | endOfFlags
  /-- A flag with a long name and perhaps a value after an equals sign. -/
  | long (name : String) (value : Option String)
  /-- One or more flags of one letter. -/
  | short (letters : List Char)
  /-- Anything else, a dash alone included. -/
  | plain (content : String)

/-- The shape of an argument as it is given. -/
def Argument.ofString (argument : String) : Argument :=
  match argument.toList with
  | ['-', '-'] => .endOfFlags
  | '-' :: '-' :: rest =>
    let name := String.ofList (rest.takeWhile (· ≠ '='))
    match rest.dropWhile (· ≠ '=') with
    | [] => .long name none
    | _ :: value => .long name (some (String.ofList value))
  | '-' :: letter :: letters => .short (letter :: letters)
  | _ => .plain argument

/-- What the arguments so far ask for. -/
structure Request where
  /-- The file with the parse tree. -/
  input : Option String := none
  /-- The file with the settings. -/
  settings : Option String := none
  /-- Whether warnings are kept back. -/
  quiet : Bool := false

/-- Why the arguments ask for no run. -/
inductive Refusal
  /-- The arguments are wrong. -/
  | usage
  /-- The version is asked for. -/
  | version
  /-- Help is asked for. -/
  | help

namespace Request

/-- Takes up the name of the input, which may be given once. -/
def withInput (request : Request) (path : String) : Except Refusal Request :=
  if request.input.isSome then throw .usage else pure { request with input := some path }

/-- Takes up the name of the file with settings, which may be given once. -/
def withSettings (request : Request) (path : String) : Except Refusal Request :=
  if request.settings.isSome then throw .usage else pure { request with settings := some path }

/-- Takes up that warnings are kept back, which may be said once. -/
def withQuiet (request : Request) : Except Refusal Request :=
  if request.quiet then throw .usage else pure { request with quiet := true }

/-- Takes up flags of one letter, and tells whether the last one needs the next argument. -/
def withLetters (request : Request) : List Char → Except Refusal (Request × Bool)
  | [] => pure (request, false)
  | letter :: letters =>
    if letter = 'q' then do (← request.withQuiet).withLetters letters
    else if letter = 'V' then throw .version
    else if letter = 'h' then throw .help
    else if letter = 'o' then
      match letters with
      | [] => pure (request, true)
      | '=' :: path => do pure (← request.withSettings (String.ofList path), false)
      | path => do pure (← request.withSettings (String.ofList path), false)
    else throw .usage

/-- Takes up a flag with a long name, and tells whether it needs the next argument. -/
def withLong (request : Request) (name : String) :
    Option String → Except Refusal (Request × Bool)
  | none =>
    if name = "quiet" then do pure (← request.withQuiet, false)
    else if name = "version" then throw .version
    else if name = "help" then throw .help
    else if name = "options" then pure (request, true)
    else throw .usage
  | some value =>
    if name = "options" then do pure (← request.withSettings value, false) else throw .usage

/-- Takes up one or more flags, and tells whether the last one needs the next argument. -/
def withFlags (request : Request) : Argument → Except Refusal (Request × Bool)
  | .short letters => request.withLetters letters
  | .long name value => request.withLong name value
  | _ => throw .usage

/-- Takes up the arguments from the left. -/
def withArguments (request : Request) : List String → Except Refusal Request
  | [] => pure request
  | argument :: rest =>
    match Argument.ofString argument with
    | .plain path => do (← request.withInput path).withArguments rest
    | .endOfFlags => rest.foldlM withInput request
    | flags => do
      match ← request.withFlags flags, rest with
      | (request, false), rest => request.withArguments rest
      | (request, true), path :: rest =>
        match Argument.ofString path with
        | .plain path => (← request.withSettings path).withArguments rest
        | _ => throw .usage
      | (_, true), [] => throw .usage

/-- What the arguments ask for. -/
def ofArguments (arguments : List String) : Except Refusal Request :=
  withArguments {} arguments

end Request

/-! ### Running -/

/-- Why the text of a file cannot be had. -/
inductive FileError
  /-- Nothing has this path. -/
  | missing
  /-- The path is that of a directory. -/
  | directory
  /-- The path goes on after something that is not a directory. -/
  | notDirectory
  /-- The path, or a name in it, has more bytes than the system allows. -/
  | nameTooLong
  /-- Reading is not permitted. -/
  | denied
  /-- The bytes of the file are not UTF-8. -/
  | notText
  /-- Anything else the system says. -/
  | other (reason : String)

/-- The wording of a file error, with the number that the system gives it. -/
def FileError.message : FileError → String
  | missing => "No such file or directory (os error 2)"
  | directory => "Is a directory (os error 21)"
  | notDirectory => "Not a directory (os error 20)"
  | nameTooLong => "File name too long (os error 36)"
  | denied => "Permission denied (os error 13)"
  | notText => "stream did not contain valid UTF-8"
  | other reason => reason

/-- Why a run fails. -/
inductive Failure
  /-- A file cannot be read. -/
  | file (error : FileError)
  /-- A file does not hold what it should, as JSON. -/
  | json (expected : String)
  /-- The forest refuses an operation. -/
  | forest (error : Error)

/-- The wording of a failure. -/
def Failure.message : Failure → String
  | file error => s!"I/O error: {error.message}"
  | json expected => s!"JSON error: expected {expected}"
  | forest error => error.message

/-- What a run leaves behind. -/
structure Outcome where
  /-- The exit code. -/
  code : UInt32 := 0
  /-- What is printed. -/
  stdout : String := ""
  /-- What goes to the error stream. -/
  stderr : String := ""

/-- What a refusal leaves behind. -/
def Refusal.outcome : Refusal → Outcome
  | usage =>
    { code := 2
      stderr := "error: unusable arguments\n\nUsage: wikitree [OPTIONS] <INPUT>\n\n" ++
        "For more information, try '--help'.\n" }
  | version => { stdout := "wikitree 0.1.0\n" }
  | help =>
    { stdout := "Normalize a wiki parse tree\n\nUsage: wikitree [OPTIONS] <INPUT>\n\n" ++
        "Arguments:\n  <INPUT>  Parse tree as JSON\n\nOptions:\n" ++
        "  -o, --options <FILE>  Options file (JSON); missing fields keep their defaults\n" ++
        "  -q, --quiet           Suppress warnings on stderr\n" ++
        "  -h, --help            Print help\n" ++
        "  -V, --version         Print version\n" }

/-- The formats of the files. -/
structure Formats where
  /-- How parse trees are exchanged. -/
  trees : Exchange ParseTree := ParseTree.json
  /-- How settings are exchanged. -/
  settings : Exchange Settings := Settings.json

/-- What the contents of the files lead to: warnings and an outline, or a failure. -/
def normalizeText (formats : Formats) (settings : Settings) (quiet : Bool) (source : String) :
    Except Failure Outcome := do
  match formats.trees.forest? source with
  | none => throw (.json "a parse tree")
  | some forest =>
    match forest.normalize settings with
    | .error error _ => throw (.forest error)
    | .ok _ draft =>
      let warnings := if quiet then [] else draft.warnings
      pure
        { stdout := draft.forest.outline
          stderr := String.join (warnings.map fun warning => s!"warning: {warning.message}\n") }

section

variable {m : Type → Type} [Monad m] (read : String → m (Except FileError ByteArray))

/-- The text of a file. -/
def readText (path : String) : ExceptT Failure m String := do
  match ← read path with
  | .error error => throw (.file error)
  | .ok bytes =>
    match String.fromUTF8? bytes with
    | some content => pure content
    | none => throw (.file .notText)

/-- The settings in a file, or the usual ones if no file is named. -/
def readSettings (formats : Formats) : Option String → ExceptT Failure m Settings
  | none => pure default
  | some path => do
    match formats.settings.read? (← readText read path) with
    | some settings => pure settings
    | none => throw (.json "settings")

/-- Carries out a request for an input: settings are read before the input. -/
def carryOut (formats : Formats) (request : Request) (input : String) :
    ExceptT Failure m Outcome := do
  let settings ← readSettings read formats request.settings
  let source ← readText read input
  match normalizeText formats settings request.quiet source with
  | .ok outcome => pure outcome
  | .error failure => throw failure

/-- What the program does with its arguments. -/
def run (arguments : List String) (formats : Formats := {}) : m Outcome := do
  match Request.ofArguments arguments with
  | .error refusal => pure refusal.outcome
  | .ok request =>
    match request.input with
    | none => pure Refusal.usage.outcome
    | some input =>
      match ← (carryOut read formats request input).run with
      | .ok outcome => pure outcome
      | .error failure => pure { code := 1, stderr := s!"error: {failure.message}\n" }

end

end CommandLine

end WikiMarkup
