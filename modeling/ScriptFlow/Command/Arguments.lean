import ScriptFlow.Command.Basic

/-!
Reading the command line. Options and flags stand before the name of a subcommand, or behind it,
where the subcommand has some of its own. An option takes its value from its own argument, behind
`=` or, in the short form, right behind the letter; otherwise the next argument that is no option is
its value. Behind `--` nothing is an option, a value of one, or a subcommand.
-/

namespace ScriptFlow.Arguments

inductive Subcommand where
  | parse
  | reaching
  | live
  | instrument
  | help
  deriving DecidableEq, Repr

def Subcommand.ofName? : String → Option Subcommand
  | "parse" => some parse
  | "reaching" => some reaching
  | "live" => some live
  | "instrument" => some instrument
  | "help" => some help
  | _ => none

/-- Options take a value. -/
inductive Key where
  | input
  | format
  | function
  deriving DecidableEq, Repr

inductive Flag where
  | verbose
  | noClassify
  | help
  | version
  deriving DecidableEq, Repr

/-- What an argument can stand for where it is read: `none` is the place before any subcommand. -/
abbrev Place := Option Subcommand

def long? (place : Place) (name : String) : Option (Key ⊕ Flag) :=
  match name, place with
  | "input", _ => some (.inl .input)
  | "verbose", _ => some (.inr .verbose)
  | "help", _ => some (.inr .help)
  | "version", none => some (.inr .version)
  | "format", some .parse => some (.inl .format)
  | "function", some .reaching | "function", some .live => some (.inl .function)
  | "no-classify", some .instrument => some (.inr .noClassify)
  | _, _ => none

def short? (place : Place) (letter : Char) : Option (Key ⊕ Flag) :=
  match letter, place with
  | 'i', _ => some (.inl .input)
  | 'v', _ => some (.inr .verbose)
  | 'h', _ => some (.inr .help)
  | 'V', none => some (.inr .version)
  | _, _ => none

def accepts : Key → String → Bool
  | .input, value => !value.isEmpty
  | .format, value => (DumpFormat.ofName? value).isSome
  | .function, _ => true

/-- What has been read at one place. The last option may be `pending`: its value is still to come,
or is not checked before the next option or the end. -/
structure State where
  values : List (Key × String)
  verbosity : Nat
  noClassify : Bool
  pending : Option (Key × Option String)
  deriving DecidableEq, Repr

namespace State

def empty : State := ⟨[], 0, false, none⟩

def value? (state : State) (key : Key) : Option String := state.values.lookup key

def isEmpty (state : State) : Bool :=
  state.values.isEmpty && state.verbosity == 0 && !state.noClassify

/-- Checks a value: an option is given once at a place. -/
def give (state : State) (key : Key) (value : String) : Except ArgumentError State :=
  if (state.value? key).isSome then throw .conflict
  else if accepts key value then return { state with values := (key, value) :: state.values }
  else throw .invalidValue

/-- Checks the pending option; one without a value gets none any more. -/
def settle (state : State) : Except ArgumentError State :=
  match state.pending with
  | none => return state
  | some (_, none) => throw .invalidValue
  | some (key, some value) => { state with pending := none }.give key value

def option (state : State) (key : Key) (attached : Option String) : Except ArgumentError State := do
  let state ← state.settle
  match attached with
  | some value => state.give key value
  | none => return { state with pending := some (key, none) }

def flag (state : State) (flag : Flag) : Except ArgumentError State := do
  let state ← state.settle
  match flag with
  | .verbose => return { state with verbosity := state.verbosity + 1 }
  | .noClassify =>
    if state.noClassify then throw .conflict else return { state with noClassify := true }
  | .help => throw .help
  | .version => throw .version

end State

/-- Reads what follows two dashes: a name, and a value behind `=`. -/
def readLong (place : Place) (state : State) (letters : List Char) : Except ArgumentError State :=
  let name := String.ofList (letters.takeWhile (· != '='))
  let attached := match letters.dropWhile (· != '=') with
    | [] => none
    | _ :: value => some (String.ofList value)
  match long? place name, attached with
  | none, _ => throw .unknownArgument
  | some (.inl key), attached => state.option key attached
  | some (.inr _), some _ => throw .tooManyValues
  | some (.inr flag), none => state.flag flag

/-- Reads the letters behind a single dash: flags, up to an option that takes what follows it. -/
def readShort (place : Place) (state : State) : List Char → Except ArgumentError State
  | [] => return state
  | letter :: rest =>
      match short? place letter with
      | none => throw .unknownArgument
      | some (.inl key) =>
          state.option key (match rest with
            | [] => none
            | '=' :: value => some (String.ofList value)
            | value => some (String.ofList value))
      | some (.inr flag) => do readShort place (← state.flag flag) rest

/-- Why an argument that is neither option nor value cannot stand where it does. -/
def stray (place : Place) (trailing : Bool) (argument : String) : ArgumentError :=
  if place.isSome then .unknownArgument
  else if trailing && (Subcommand.ofName? argument).isSome then .unknownArgument
  else .invalidSubcommand

/-- What the arguments at one place say, and the subcommand that ends them with what follows it. -/
abbrev Reading := State × Option (Subcommand × List String)

def finish (state : State) : Except ArgumentError Reading := return (← state.settle, none)

def read (place : Place) (state : State) : List String → Except ArgumentError Reading
  | [] => finish state
  | argument :: rest =>
      match argument.toList with
      | ['-', '-'] =>
          match rest with
          | [] => finish state
          | next :: _ => throw (stray place true next)
      | '-' :: '-' :: letters => do read place (← readLong place state letters) rest
      | '-' :: letter :: letters => do read place (← readShort place state (letter :: letters)) rest
      | _ =>
          match state.pending, place, Subcommand.ofName? argument with
          | some (key, none), _, _ =>
              read place { state with pending := some (key, some argument) } rest
          | _, none, some subcommand => return (state, some (subcommand, rest))
          | _, _, _ => throw (stray place false argument)

/-- Help on a subcommand: one name at most, for subcommands have none of their own. -/
def helpFor : List String → ArgumentError
  | [] => .help
  | [name] => if (Subcommand.ofName? name).isSome then .help else .invalidSubcommand
  | _ => .invalidSubcommand

def command (subcommand : Subcommand) (state : State) : Except ArgumentError Command :=
  match subcommand with
  | .parse => return .parse (((state.value? .format).bind DumpFormat.ofName?).getD .json)
  | .reaching => return .report .reaching (state.value? .function)
  | .live => return .report .live (state.value? .function)
  | .instrument => return .instrument (!state.noClassify)
  | .help => throw .help

/-- Reads the arguments behind the program's name. What is given behind the subcommand counts
before what is given in front of it. -/
def parse (arguments : List String) : Except ArgumentError Request := do
  let (outer, found) ← read none .empty arguments
  match found with
  | none => throw (if outer.isEmpty then .helpForMissing else .missingSubcommand)
  | some (.help, rest) => throw (helpFor rest)
  | some (subcommand, rest) => do
      let (inner, _) ← read (some subcommand) .empty rest
      let outer ← outer.settle
      let verbosity := if inner.verbosity = 0 then outer.verbosity else inner.verbosity
      return ⟨(inner.value? .input).or (outer.value? .input), .ofCount verbosity,
        ← command subcommand inner⟩

end ScriptFlow.Arguments
