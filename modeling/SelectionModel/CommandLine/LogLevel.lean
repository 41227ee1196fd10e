import SelectionModel.Text.Digits
import SelectionModel.Text.Lines

/-!
# Log levels

How much is logged: as the flags say, otherwise as the environment says. A level
that the environment does not name properly is worth a warning.
-/

namespace SelectionModel.CommandLine

/-- How much is logged, from least to most. -/
inductive LogLevel where
  | error
  | warn
  | info
  | debug
  | trace
  deriving DecidableEq, Repr

namespace LogLevel

/-- The rank of a level: a line is written if its level ranks no higher than the chosen one. -/
def rank : LogLevel → Nat
  | .error => 0
  | .warn => 1
  | .info => 2
  | .debug => 3
  | .trace => 4

def word : LogLevel → String
  | .error => "ERROR"
  | .warn => "WARN"
  | .info => "INFO"
  | .debug => "DEBUG"
  | .trace => "TRACE"

/-- The level that a word in lower case names. -/
def ofWord? (word : String) : Option LogLevel :=
  match word with
  | "trace" => some .trace
  | "debug" => some .debug
  | "verbose" => some .debug
  | "info" => some .info
  | "warn" => some .warn
  | "error" => some .error
  | _ => none

end LogLevel

/-- A line of the log. -/
structure LogLine where
  level : LogLevel
  text : String
  deriving DecidableEq, Repr

/-- One character as the log shows it. Those that a terminal acts on, apart from
line breaks and tabs, are named by their codes. -/
def loggedChar (c : Char) : List Char :=
  if [0x07, 0x08, 0x0C, 0x1B, 0x7F].contains c.toNat then
    ['\\', 'x'] ++ Text.padZeros 2 (Text.hexDigits c.toNat)
  else if 0x80 ≤ c.toNat ∧ c.toNat ≤ 0x9F then
    ['\\', 'u', '\x7b'] ++ Text.hexDigits c.toNat ++ ['\x7d']
  else [c]

/-- The text of a line as the log shows it. -/
def LogLine.shown (l : LogLine) : String := String.ofList (l.text.toList.flatMap loggedChar)

/-- A level, and the warnings about how it was chosen. -/
structure LogSettings where
  level : LogLevel
  warnings : List String
  deriving DecidableEq, Repr

/-- The warning about a level that is not known. -/
def invalidLevelWarning (value : String) : String :=
  "Invalid `LOG_LEVEL` environment variable value: `" ++ value ++ "`"

/-- **The level to log at.** Flags win over the environment. -/
def LogSettings.resolve (verbosity : Nat) (quiet : Bool) (environment : Option String) :
    LogSettings :=
  match verbosity, quiet, environment with
  | 0, true, _ => ⟨.warn, []⟩
  | 0, false, none => ⟨.info, []⟩
  | 0, false, some value =>
    let value := Text.trim value.toList
    if value.isEmpty then ⟨.info, []⟩
    else
      match LogLevel.ofWord? (String.ofList (value.map Char.toLower)) with
      | some level => ⟨level, []⟩
      | none => ⟨.info, [invalidLevelWarning (String.ofList value)]⟩
  | 1, _, _ => ⟨.debug, []⟩
  | _, _, _ => ⟨.trace, []⟩

/-- The lines that are written at a level. -/
def LogSettings.written (s : LogSettings) (lines : List LogLine) : List LogLine :=
  lines.filter fun l => l.level.rank ≤ s.level.rank

end SelectionModel.CommandLine
