import SelectionModel.CommandLine.Arguments
import SelectionModel.CommandLine.LogLevel
import SelectionModel.Json.Printer
import SelectionModel.Lowering.Definitions
import SelectionModel.Schema.Draft
import SelectionModel.Tree.Encoding

/-!
# The program

One call of the program: find the documents, put the schema together, build all
definitions and print their models as JSON. Files are looked up in a given
place, and what is to be written is part of the answer.
-/

namespace SelectionModel.CommandLine

/-- Why a build fails. -/
inductive Failure where
  | walk (path : String) (fault : PathFault)
  | schema (cause : SchemaError)
  | document (path : String) (cause : DocumentError)
  | registry (cause : RegistryError)
  | build (cause : BuildError)
  | write (path : String) (fault : String)

def Failure.message : Failure → String
  | .walk path fault =>
    "Failed to walk filesystem entities at/under " ++ Text.quoted path ++
      ": IO error for operation on " ++ path ++ ": " ++ fault.message ++ ": " ++ fault.message
  | .schema cause => "Failed to build the schema: " ++ cause.message
  | .document path cause => "Failed to load " ++ Text.quoted path ++ ": " ++ cause.message
  | .registry cause => "Failed to register fragment definitions: " ++ cause.message
  | .build cause => "Failed to build the IR: " ++ cause.message
  | .write path fault => "Failed to write " ++ Text.quoted path ++ ": " ++ fault

/-- A line that reports a failure. -/
def failureLine (message : String) : String := "❌ " ++ message

/-- A line that reports a success. -/
def successLine (message : String) : String := "✅ " ++ message

/-! ## Documents -/

/-- Whether a path has one of some extensions. -/
def hasExtension (extensions : List String) (path : String) : Bool :=
  match Path.extension? path with
  | some e => extensions.contains e
  | none => false

/-- The extensions to look for, without dots in front. -/
def BuildArguments.wantedExtensions (b : BuildArguments) : List String :=
  (b.extensions.getD defaultExtensions).map fun e => String.ofList (e.toList.dropWhile (· == '.'))

/-- **The documents at or below some paths**, path by path. -/
def findDocuments (find : Files) (extensions : List String) :
    List String → Except Failure (List (String × List UInt8))
  | [] => .ok []
  | path :: rest =>
    match find path with
    | .error fault => .error (.walk path fault)
    | .ok tree =>
      (findDocuments find extensions rest).map fun others =>
        ((tree.files path).filter fun f => hasExtension extensions f.1) ++ others

/-- Reads a document that was found. -/
def readDocument (file : String × List UInt8) : Except Failure Document :=
  match Document.ofBytes file.1 file.2 with
  | .ok d => .ok d
  | .error cause => .error (.document file.1 cause)

/-! ## Building -/

/-- An error as the failure of a build. -/
def orFail {ε α : Type} (failure : ε → Failure) : Except ε α → Except Failure α
  | .ok a => .ok a
  | .error e => .error (failure e)

/-- **The models of all definitions in the documents that arguments name.** -/
def buildModels (find : Files) (b : BuildArguments) : Except Failure DocumentModel := do
  let files ← findDocuments find b.wantedExtensions b.paths
  let draft ← orFail .schema (b.schemas.foldlM (SchemaDraft.loadFile find) SchemaDraft.empty)
  let schema ← orFail .schema draft.build
  let documents ← files.mapM readDocument
  let registry ← orFail .registry (Registry.ofDocuments documents)
  let builder : Builder := ⟨schema, registry, ⟨b.packageName, b.semanticNames⟩⟩
  orFail .build (builder.buildAll documents)

/-! ## Reports -/

/-- A text to be written to a file. -/
structure OutputFile where
  path : String
  text : String
  /-- The line that reports the success. -/
  note : String

/-- What a call of the program leaves behind. -/
structure Report where
  succeeded : Bool
  /-- What is printed, without the line break at its end. -/
  printed : Option String
  /-- The line that reports success or failure. -/
  status : Option String
  log : List LogLine
  output : Option OutputFile

/-- A report of a failure. -/
def Report.failed (message : String) (log : List LogLine) : Report :=
  ⟨false, none, some (failureLine message), log, none⟩

/-- The report once the output was or was not written. -/
def Report.finish (r : Report) (file : OutputFile) (fault : Option String) : Report :=
  match fault with
  | none => { r with status := some file.note }
  | some fault => Report.failed (Failure.write file.path fault).message r.log

/-- The line that reports what was written. -/
def writtenNote (path : String) (m : DocumentModel) : String :=
  successLine ("Wrote " ++ toString m.operations.length ++ " operation(s) and " ++
    toString m.fragments.length ++ " fragment(s) to " ++ Text.quoted path ++ ".")

/-- The message when there is nothing to do. -/
def noCommandMessage : String :=
  "No command given. To build IR, run " ++
    "`graphql-ir build --schema <SCHEMA_FILE> <FILE_OR_DIR_PATHS>...`."

/-- The report of a build. -/
def runBuild (find : Files) (b : BuildArguments) (log : List LogLine) : Report :=
  match buildModels find b with
  | .error failure => Report.failed failure.message log
  | .ok models =>
    let text := models.toJson.pretty
    match b.output with
    | none => ⟨true, some text, none, log, none⟩
    | some path => ⟨true, none, none, log, some ⟨path, text, writtenNote path models⟩⟩

/-- **One call of the program** with its arguments and the level that the
environment names. -/
def run (find : Files) (arguments : List String) (environmentLevel : Option String) :
    Except UsageError Report :=
  match parseArguments arguments with
  | .error e => .error e
  | .ok invocation =>
    let settings :=
      LogSettings.resolve invocation.verbosity invocation.quiet environmentLevel
    let start : List LogLine :=
      ⟨.trace, "Logging at level " ++ settings.level.word⟩ ::
        settings.warnings.map fun w => ⟨.warn, w⟩
    match invocation.build with
    | none => .ok (Report.failed noCommandMessage (settings.written start))
    | some b =>
      let log := start ++ [⟨.debug, "Looking for documents"⟩]
      .ok (runBuild find b (settings.written log))

end SelectionModel.CommandLine
