import Uniprocessor.CommandLine.Options
import Uniprocessor.Lifetime.Report
import Uniprocessor.Scenario.Parse
import Uniprocessor.Simulation
import Uniprocessor.Trace.Dump
import Uniprocessor.Trace.Summary
/-
  What a call of the program does: the file that it reads, and from the file's bytes the two
  outputs and the exit code.
-/

namespace Uniprocessor

namespace CommandLine

/-- The outcome of a call. -/
structure Report where
  exitCode : Nat
  output : String
  errors : String

/-- The settings of the environment. -/
structure Settings where
  scenario : Environment
  strategy : Option String
  logLevel : Option String
  noColour : Option String

/-- The reasons for which a file cannot be read. -/
inductive FileError where
  | notFound
  | notDirectory
  | isDirectory
  | nameTooLong
  | accessDenied
  | notText
  | other (message : String)

/-- The wording of a reason. -/
def FileError.message : FileError → String
  | .notFound => "No such file or directory (os error 2)"
  | .notDirectory => "Not a directory (os error 20)"
  | .isDirectory => "Is a directory (os error 21)"
  | .nameTooLong => "File name too long (os error 36)"
  | .accessDenied => "Permission denied (os error 13)"
  | .notText => "stream did not contain valid UTF-8"
  | .other message => message

/-- What a call does first. -/
inductive Plan where
  /-- Nothing is to be read. -/
  | finished (r : Report)
  /-- This file is to be read; its bytes decide the rest. -/
  | read (path : String) (go : Except FileError ByteArray → Report)

/-- A call that failed. -/
def failure (output message : String) : Report := ⟨1, output, "error: " ++ message ++ "\n"⟩

/-- How the program is called. -/
def usage : String :=
  "usage: uniprocessor [options] [scenario file]\n" ++
  "  -s, --strategy <name>   strategy, by key or name\n" ++
  "      --max-ticks <n>     stop after n ticks\n" ++
  "      --no-audit          do not check the rules after every tick\n" ++
  "      --dump-trace        print the trace to the error output\n" ++
  "      --stats             print a table of all processes\n" ++
  "  -q, --quiet             log errors only\n" ++
  "      --list-strategies   list the strategies and stop\n" ++
  "  -h, --help              print this text and stop\n"

/-- The list of strategies. -/
def strategyList : String :=
  String.join (Strategy.all.map fun s => Text.padRight 6 s.key ++ " " ++ s.name ++ "\n")

/-- What the log lets through: the level that the environment names, or else errors if the
call is quiet and information if not. -/
def threshold (quiet : Bool) : Option String → Threshold
  | none => some (if quiet then .error else .info)
  | some s => if s = "" then some .error else Level.ofText? s

/-- The text that some bytes stand for. -/
def decode (bytes : ByteArray) : Except FileError String :=
  match String.fromUTF8? bytes with
  | some s => .ok s
  | none => .error .notText

/-- A call that broke the rules of the simulation. -/
def crash (f : Fault) : Report := ⟨101, "", f.message ++ "\n"⟩

/-- The scenario under the options of the call. -/
def override (o : Options) (c : Scenario) : Scenario :=
  { c with
    maxTicks := o.maxTicks.getD c.maxTicks
    audit := c.audit && !o.noAudit }

/-- The outcome of a run, behind the log. -/
def conclude (o : Options) (s : Strategy) (log : String) (t : Trace) : Except Fault Report := do
  let stats ← if o.stats then do pure ((← Lifetimes.ofTrace t).report t) else pure ""
  let output := log ++ "strategy: " ++ s.name ++ "\n" ++ t.summary.text ++ "\n" ++ stats
  let dump := if o.dumpTrace then t.dump else ""
  if t.hasError then
    return ⟨1, output, dump ++ "error: simulation error: " ++ t.exit.text ++ "\n"⟩
  return ⟨0, output, dump⟩

/-- Plays what was loaded. -/
def play (o : Options) (render : List LogEntry → String) (warnings : List LogEntry)
    (l : Loaded) : Except Fault Report := do
  let strategy := (o.strategy <|> l.strategy).getD .standard
  let run ← simulate strategy (override o l.scenario)
  conclude o strategy (render (warnings ++ run.log)) run.trace

/-- Loads and plays the text of a file. -/
def playText (settings : Settings) (o : Options) (path text : String) : Except Fault Report := do
  let coloured := (settings.noColour.getD "").isEmpty
  let render := logText (threshold o.quiet settings.logLevel) coloured
  let loaded ← Loaded.load settings.scenario text
  match loaded.result with
  | .error e =>
    return failure (render loaded.log)
      ("failed to load scenario " ++ path ++ ": " ++ e.message ++ ": " ++ e.cause)
  | .ok l => play o render loaded.log l

/-- What a call does with the bytes of its file. -/
def playFile (settings : Settings) (o : Options) (path : String)
    (file : Except FileError ByteArray) : Report :=
  match file.bind decode with
  | .error e => failure "" ("failed to read " ++ path ++ ": " ++ e.message)
  | .ok text =>
    match playText settings o path text with
    | .error f => crash f
    | .ok r => r

/-- What a call does. -/
def plan (settings : Settings) (args : List String) : Plan :=
  match Request.of settings.strategy args with
  | .misuse => .finished ⟨2, "", usage⟩
  | .help => .finished ⟨0, usage, ""⟩
  | .run o =>
    if o.listStrategies then .finished ⟨0, strategyList, ""⟩
    else match o.scenario with
      | none => .finished (failure "" "missing required argument: <SCENARIO>")
      | some path => .read path (playFile settings o path)

end CommandLine

end Uniprocessor
