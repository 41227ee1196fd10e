/-!
# Command line arguments

The flags in front of the command set how much is logged; those behind `build`
say what is built. An option takes its value from behind an equals sign or from
the next argument, and two dashes end the options.
-/

namespace SelectionModel.CommandLine

/-- What to build, and where to put it. -/
structure BuildArguments where
  schemas : List String := []
  paths : List String := []
  extensions : Option (List String) := none
  semanticNames : Bool := true
  packageName : Option String := none
  output : Option String := none
  deriving DecidableEq, Repr

/-- The extensions of documents, when none are given. -/
def defaultExtensions : List String := ["graphql", "gql"]

/-- A call of the program. -/
structure Invocation where
  verbosity : Nat := 0
  quiet : Bool := false
  build : Option BuildArguments := none
  deriving DecidableEq, Repr

/-- Why arguments are not understood, or not to be acted on. -/
inductive UsageError where
  | unknownArgument (argument : String)
  | missingValue (option : String)
  | unexpectedValue (option : String)
  | repeated (option : String)
  | missing (option : String)
  | quietAndVerbose
  /-- Information about the program was asked for. -/
  | help
  deriving DecidableEq, Repr

def UsageError.message : UsageError → String
  | .unknownArgument argument => "unexpected argument '" ++ argument ++ "'"
  | .missingValue option => "a value is required for '" ++ option ++ "'"
  | .unexpectedValue option => "'" ++ option ++ "' takes no value"
  | .repeated option => "'" ++ option ++ "' cannot be used more than once"
  | .missing option => "'" ++ option ++ "' is required"
  | .quietAndVerbose => "'quiet' cannot be used with 'verbose'"
  | .help => "help was asked for"

/-- How the program is called. -/
def usage : String :=
  "Usage: graphql-ir [-q | -v...] build --schema <SCHEMA_FILE>... [OPTIONS] <FILE_OR_DIR_PATHS>..."

/-- Whether an argument has the form of an option. A single dash is a value. -/
def isOption (argument : String) : Bool := argument.startsWith "-" && argument != "-"

/-- Name and attached value of an argument that starts with two dashes. -/
def splitLong (argument : String) : List Char × Option String :=
  let (name, rest) := (argument.toList.drop 2).span (· != '=')
  match rest with
  | _ :: value => (name, some (String.ofList value))
  | [] => (name, none)

/-! ## Behind `build` -/

/-- The options of `build`. -/
inductive BuildOption where
  | schema
  | extensions
  | noSemanticNames
  | output
  | packageName
  deriving DecidableEq, Repr

namespace BuildOption

def word : BuildOption → String
  | .schema => "schema"
  | .extensions => "graphql-file-exts"
  | .noSemanticNames => "no-semantic-naming"
  | .output => "output"
  | .packageName => "package-name"

/-- The option of a long name. -/
def ofLong? (name : String) : Option BuildOption :=
  [schema, extensions, noSemanticNames, output, packageName].find? fun o => o.word == name

/-- The option of a letter. -/
def ofShort? (c : Char) : Option BuildOption :=
  if c = 's' then some .schema
  else if c = 'o' then some .output
  else none

end BuildOption

/-- Takes a file name, which must not be empty. -/
def fileName (option : String) (value : String) : Except UsageError String :=
  if value.isEmpty then .error (.missingValue option) else .ok value

/-- Records the value of an option. An option with one value is given once. -/
def BuildArguments.set (b : BuildArguments) (option : BuildOption) (value : String) :
    Except UsageError BuildArguments :=
  match option with
  | .schema => (fileName option.word value).map fun v => { b with schemas := b.schemas ++ [v] }
  | .extensions =>
    .ok { b with extensions := some (b.extensions.getD [] ++ value.splitOn ",") }
  | .output =>
    if b.output.isSome then .error (.repeated option.word)
    else (fileName option.word value).map fun v => { b with output := some v }
  | .packageName =>
    if b.packageName.isSome then .error (.repeated option.word)
    else .ok { b with packageName := some value }
  | .noSemanticNames => .error (.unexpectedValue option.word)

/-- Records the option that takes no value. -/
def BuildArguments.dropSemanticNames (b : BuildArguments) : Except UsageError BuildArguments :=
  if b.semanticNames then .ok { b with semanticNames := false }
  else .error (.repeated BuildOption.noSemanticNames.word)

/-- What the next arguments are read as. -/
inductive Expecting where
  | anything
  /-- The value of an option. -/
  | value (option : BuildOption)
  /-- More values of the schema option, as long as no option follows. -/
  | schemas
  /-- Nothing but paths. -/
  | paths

/-- Reads one letter of an argument that starts with one dash, with the rest of
the argument behind it, which is the value of the option if there is any. -/
def readLetter (b : BuildArguments) (letter : Char) (rest : List Char) :
    Except UsageError (BuildArguments × Expecting) :=
  if letter = 'h' then .error .help
  else
    match BuildOption.ofShort? letter with
    | none => .error (.unknownArgument (String.ofList ['-', letter]))
    | some option =>
      let value := match rest with
        | '=' :: value => value
        | value => value
      if rest.isEmpty then .ok (b, .value option)
      else (b.set option (String.ofList value)).map fun b => (b, .anything)

/-- Reads an argument that has the form of an option. -/
def readOption (b : BuildArguments) (argument : String) :
    Except UsageError (BuildArguments × Expecting) :=
  if argument = "--" then .ok (b, .paths)
  else if argument.startsWith "--" then
    let (name, value) := splitLong argument
    if name = "help".toList then .error .help
    else
      match BuildOption.ofLong? (String.ofList name), value with
      | none, _ => .error (.unknownArgument argument)
      | some .noSemanticNames, none => b.dropSemanticNames.map fun b => (b, .anything)
      | some option, none => .ok (b, .value option)
      | some option, some value => (b.set option value).map fun b => (b, .anything)
  else
    match argument.toList with
    | _ :: letter :: rest => readLetter b letter rest
    | _ => .error (.unknownArgument argument)

/-- Reads one argument behind `build`. -/
def readArgument (b : BuildArguments) (expecting : Expecting) (argument : String) :
    Except UsageError (BuildArguments × Expecting) :=
  let path := (fileName "path" argument).map fun p => { b with paths := b.paths ++ [p] }
  match expecting with
  | .anything =>
    if isOption argument then readOption b argument else path.map fun b => (b, .anything)
  | .value option =>
    if isOption argument then .error (.missingValue option.word)
    else (b.set option argument).map fun b =>
      (b, if option = .schema then .schemas else .anything)
  | .schemas =>
    if isOption argument then readOption b argument
    else (b.set .schema argument).map fun b => (b, .schemas)
  | .paths => path.map fun b => (b, .paths)

/-- Reads the arguments behind `build`. -/
def readBuild (b : BuildArguments) (expecting : Expecting) :
    List String → Except UsageError BuildArguments
  | [] =>
    match expecting with
    | .value option => .error (.missingValue option.word)
    | _ => .ok b
  | argument :: rest =>
    match readArgument b expecting argument with
    | .ok (b, expecting) => readBuild b expecting rest
    | .error e => .error e

/-- The arguments of `build`, of which a schema and a path are required. -/
def parseBuild (arguments : List String) : Except UsageError BuildArguments :=
  match readBuild {} .anything arguments with
  | .error e => .error e
  | .ok b =>
    if b.schemas.isEmpty then .error (.missing BuildOption.schema.word)
    else if b.paths.isEmpty then .error (.missing "path")
    else .ok b

/-! ## In front of the command -/

/-- Counts the letters behind one dash. -/
def readFlags (i : Invocation) : List Char → Except UsageError Invocation
  | [] => .ok i
  | c :: cs =>
    if c = 'v' then readFlags { i with verbosity := i.verbosity + 1 } cs
    else if c = 'q' then
      if i.quiet then .error (.repeated "quiet") else readFlags { i with quiet := true } cs
    else if c = 'h' ∨ c = 'V' then .error .help
    else .error (.unknownArgument (String.ofList ['-', c]))

/-- Reads all arguments. -/
def readInvocation (i : Invocation) : List String → Except UsageError Invocation
  | [] => .ok i
  | "--" :: rest =>
    match rest with
    | [] => .ok i
    | argument :: _ => .error (.unknownArgument argument)
  | "build" :: rest => (parseBuild rest).map fun b => { i with build := some b }
  | "help" :: command =>
    .error (match command with
      | [] => .help
      | ["build"] => .help
      | ["help"] => .help
      | unknown :: _ => .unknownArgument unknown)
  | "--help" :: _ => .error .help
  | "--version" :: _ => .error .help
  | "--verbose" :: rest => readInvocation { i with verbosity := i.verbosity + 1 } rest
  | "--quiet" :: rest =>
    if i.quiet then .error (.repeated "quiet") else readInvocation { i with quiet := true } rest
  | argument :: rest =>
    if isOption argument && !argument.startsWith "--" then
      match readFlags i (argument.toList.drop 1) with
      | .ok i => readInvocation i rest
      | .error e => .error e
    else .error (.unknownArgument argument)

/-- **What the arguments of the program ask for.** It cannot be quiet and verbose at once. -/
def parseArguments (arguments : List String) : Except UsageError Invocation :=
  match readInvocation {} arguments with
  | .error e => .error e
  | .ok i => if i.quiet && i.verbosity != 0 then .error .quietAndVerbose else .ok i

end SelectionModel.CommandLine
