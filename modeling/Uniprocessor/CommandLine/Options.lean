import Uniprocessor.Basic
import Uniprocessor.Strategy.Lookup
import Uniprocessor.Text.Numeral
/-
  The options of the command line.

  Options may stand in any order; a repeated one, an unknown one, a value that cannot be read
  and a second file are misuse.  Short options may be written together, and the value of the
  last of them may follow at once, behind `=` or as the next argument.
-/

namespace Uniprocessor

namespace CommandLine

/-- The options that have been given. -/
structure Options where
  scenario : Option String
  strategy : Option Strategy
  maxTicks : Option Nat
  noAudit : Bool
  dumpTrace : Bool
  stats : Bool
  quiet : Bool
  listStrategies : Bool

/-- No options. -/
def Options.blank : Options := ⟨none, none, none, false, false, false, false, false⟩

/-- What the arguments ask for. -/
inductive Request where
  | run (options : Options)
  | help
  | misuse

/-- The outcome of reading an argument. -/
inductive Parsed where
  | options (o : Options)
  | help
  | misuse

/-- Sets a switch that was not given before. -/
def setSwitch (given : Bool) (o : Options) : Parsed := if given then .misuse else .options o

/-- The options without a value, by their long names. -/
def switch? (o : Options) (name : String) : Option Parsed :=
  if name = "no-audit" then some (setSwitch o.noAudit { o with noAudit := true })
  else if name = "dump-trace" then some (setSwitch o.dumpTrace { o with dumpTrace := true })
  else if name = "stats" then some (setSwitch o.stats { o with stats := true })
  else if name = "quiet" then some (setSwitch o.quiet { o with quiet := true })
  else if name = "list-strategies" then
    some (setSwitch o.listStrategies { o with listStrategies := true })
  else if name = "help" then some .help
  else none

/-- Sets the strategy. -/
def setStrategy (o : Options) (value : String) : Parsed :=
  if o.strategy.isSome then .misuse
  else match Strategy.find value with
    | .ok s => .options { o with strategy := some s }
    | .error _ => .misuse

/-- Sets the tick limit. -/
def setMaxTicks (o : Options) (value : String) : Parsed :=
  if o.maxTicks.isSome then .misuse
  else match Text.number? tickBound value.toList with
    | some n => .options { o with maxTicks := some n }
    | none => .misuse

/-- Sets the file. -/
def setScenario (o : Options) (path : String) : Parsed :=
  if o.scenario.isSome ∨ path = "" then .misuse
  else .options { o with scenario := some path }

/-- The options with a value, by their long names. -/
def valued? (name : String) : Option (Options → String → Parsed) :=
  if name = "strategy" then some setStrategy
  else if name = "max-ticks" then some setMaxTicks
  else none

/-- Reads arguments that are files, whatever they look like. -/
def readFiles (o : Options) : List String → Request
  | [] => .run o
  | a :: rest =>
    match setScenario o a with
    | .options o => readFiles o rest
    | .help => .help
    | .misuse => .misuse

/-- An argument, taken apart. -/
inductive Argument where
  /-- Everything behind it is a file. -/
  | separator
  /-- An option by its long name, with a value behind `=`. -/
  | long (name : String) (value : Option String)
  /-- Options by their letters. -/
  | short (letters : List Char)
  | file (path : String)

/-- Takes an argument apart. -/
def Argument.of (a : String) : Argument :=
  match a.toList with
  | ['-', '-'] => .separator
  | '-' :: '-' :: rest =>
    match rest.span (· ≠ '=') with
    | (name, []) => .long (String.ofList name) none
    | (name, _ :: value) => .long (String.ofList name) (some (String.ofList value))
  | '-' :: c :: rest => .short (c :: rest)
  | _ => .file a

/-- An argument as the value of the option before it: one that looks like an option is none. -/
def valueOf (a : String) : Option String :=
  match Argument.of a with
  | .file value => some value
  | _ => none

/-- What a group of letters comes to. -/
inductive Letters where
  | parsed (p : Parsed)
  /-- The strategy is the next argument. -/
  | awaitsStrategy (o : Options)

/-- Reads options by their letters. -/
def readLetters (o : Options) : List Char → Letters
  | [] => .parsed (.options o)
  | 'h' :: _ => .parsed .help
  | 's' :: [] => .awaitsStrategy o
  | 's' :: '=' :: value => .parsed (setStrategy o (String.ofList value))
  | 's' :: value => .parsed (setStrategy o (String.ofList value))
  | 'q' :: rest =>
    if o.quiet then .parsed .misuse else readLetters { o with quiet := true } rest
  | _ => .parsed .misuse

/-- Reads the arguments behind those that gave `o`. -/
def readArguments (o : Options) : List String → Request
  | [] => .run o
  | a :: rest =>
    match Argument.of a with
    | .separator => readFiles o rest
    | .file path => continueWith (setScenario o path) rest
    | .long name value =>
      match switch? o name, value with
      | some p, none => continueWith p rest
      | some _, some _ => .misuse
      | none, some v =>
        match valued? name with
        | some set => continueWith (set o v) rest
        | none => .misuse
      | none, none =>
        match valued? name, rest with
        | some set, b :: rest =>
          match valueOf b with
          | some v =>
            match set o v with
            | .options o => readArguments o rest
            | .help => .help
            | .misuse => .misuse
          | none => .misuse
        | _, _ => .misuse
    | .short letters =>
      match readLetters o letters with
      | .parsed p => continueWith p rest
      | .awaitsStrategy o =>
        match rest with
        | [] => .misuse
        | b :: rest =>
          match valueOf b with
          | some v =>
            match setStrategy o v with
            | .options o => readArguments o rest
            | .help => .help
            | .misuse => .misuse
          | none => .misuse
where
  /-- Goes on behind an argument that stands alone. -/
  continueWith (p : Parsed) (rest : List String) : Request :=
    match p with
    | .options o => readArguments o rest
    | .help => .help
    | .misuse => .misuse

/-- Reads all arguments.  A strategy from the environment counts if none is given. -/
def Request.of (strategySetting : Option String) (args : List String) : Request :=
  match readArguments .blank args with
  | .run o =>
    match o.strategy, strategySetting with
    | none, some value =>
      match setStrategy o value with
      | .options o => .run o
      | .help => .help
      | .misuse => .misuse
    | _, _ => .run o
  | r => r

end CommandLine

end Uniprocessor
