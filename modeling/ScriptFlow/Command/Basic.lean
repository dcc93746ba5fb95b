import ScriptFlow.Flow.Report

/-!
What the command line asks for, and what may be wrong with it.
-/

namespace ScriptFlow

inductive DumpFormat where
  | json
  | sexp
  deriving DecidableEq, Repr

namespace DumpFormat

def ofName? : String → Option DumpFormat
  | "json" => some json
  | "sexp" => some sexp
  | _ => none

end DumpFormat

inductive Command where
  | parse (format : DumpFormat)
  | report (analysis : Analysis) (function : Option String)
  | instrument (classify : Bool)
  deriving DecidableEq, Repr

inductive LogLevel where
  | warn
  | info
  | debug
  | trace
  deriving DecidableEq, Repr

namespace LogLevel

def ofCount : Nat → LogLevel
  | 0 => warn
  | 1 => info
  | 2 => debug
  | _ => trace

def name : LogLevel → String
  | warn => "warn"
  | info => "info"
  | debug => "debug"
  | trace => "trace"

end LogLevel

/-- Where the source is read from, how much is logged, and what is done. -/
structure Request where
  input : Option String
  level : LogLevel
  command : Command
  deriving DecidableEq, Repr

/-- Why a command line is no request; it may also ask for help or the version instead. -/
inductive ArgumentError where
  | invalidValue
  | unknownArgument
  | invalidSubcommand
  | conflict
  | tooManyValues
  | help
  | version
  | helpForMissing
  | missingSubcommand
  deriving DecidableEq, Repr

namespace ArgumentError

def label : ArgumentError → String
  | invalidValue => "InvalidValue"
  | unknownArgument => "UnknownArgument"
  | invalidSubcommand => "InvalidSubcommand"
  | conflict => "ArgumentConflict"
  | tooManyValues => "TooManyValues"
  | help => "DisplayHelp"
  | version => "DisplayVersion"
  | helpForMissing => "DisplayHelpOnMissingArgumentOrSubcommand"
  | missingSubcommand => "MissingSubcommand"

end ArgumentError
end ScriptFlow
