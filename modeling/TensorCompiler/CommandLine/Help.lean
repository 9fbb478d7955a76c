import TensorCompiler.CommandLine.Options

/-! # The texts about the command line

The help text in a short and a long form, the version, and the wording of faults in the arguments.
-/

namespace TensorCompiler.CommandLine

/-- An option as the help shows it. -/
structure HelpEntry where
  /-- The option with its value. -/
  usage : String
  summary : String
  /-- The value taken when the option is absent. -/
  preset : Option String := none
  /-- The values that can be chosen, with their meanings. -/
  choices : List (String × String) := []

/-- The options in the order of the help. -/
def helpEntries (long : Bool) : List HelpEntry :=
  [ { usage := "      --demo <DEMO>"
      summary := "Built-in program to compile"
      preset := some "mlp"
      choices := [("mlp", "relu(matmul(x, w) + b)"), ("conv", "relu(conv2d(x, w))"),
        ("warp", "Shared-to-register tile transfer on one warp")] },
    { usage := "  -o, --output <OUTPUT>", summary := "Output path for the module dump (default: stdout)" },
    { usage := "      --save-graphs <SAVE_GRAPHS>"
      summary := "Write a graph snapshot after every graph pass into this directory" },
    { usage := "      --profile", summary := "Print per-pass wall time" },
    { usage := "      --profile-log <PROFILE_LOG>", summary := "Also write the profile report to this file" },
    { usage := "      --block-size <BLOCK_SIZE>"
      summary := "Threads per block for grid kernels"
      preset := some "256" },
    { usage := "      --no-lower", summary := "Skip the module lowering pipeline" },
    { usage := "      --emit-graph", summary := "Dump the optimized graph to stderr" },
    { usage := "      --check", summary := "Evaluate the graph before and after optimization and compare" },
    { usage := "  -v, --verbose...", summary := "Increase log verbosity (-v, -vv, -vvv)" },
    { usage := "  -h, --help"
      summary := if long then "Print help (see a summary with '-h')" else "Print help (see more with '--help')" },
    { usage := "  -V, --version", summary := "Print version" } ]

/-- A text of the given width, filled with spaces. -/
def padTo (width : Nat) (text : String) : String :=
  text ++ String.ofList (List.replicate (width - text.length) ' ')

/-- An option on one line, its summary in the column behind the widest option. -/
def HelpEntry.line (column : Nat) (entry : HelpEntry) : String :=
  let preset := match entry.preset with
    | some value => " [default: " ++ value ++ "]"
    | none => ""
  let choices := if entry.choices.isEmpty then ""
    else " [possible values: " ++ ", ".intercalate (entry.choices.map Prod.fst) ++ "]"
  padTo column entry.usage ++ entry.summary ++ preset ++ choices ++ "\n"

/-- An option with its summary, choices and preset in paragraphs of their own. The line above the preset is
indented as the paragraphs are. -/
def HelpEntry.paragraphs (entry : HelpEntry) : String :=
  let margin := padTo 10 ""
  let width := (entry.choices.map fun choice => choice.1.length).foldl max 0
  let preset := match entry.preset with
    | some value => margin ++ "\n" ++ margin ++ "[default: " ++ value ++ "]\n"
    | none => ""
  let choices := if entry.choices.isEmpty then ""
    else "\n" ++ margin ++ "Possible values:\n" ++ String.join (entry.choices.map fun (name, meaning) =>
      margin ++ "- " ++ padTo (width + 2) (name ++ ":") ++ meaning ++ "\n")
  entry.usage ++ "\n" ++ margin ++ entry.summary ++ "\n" ++ choices ++ preset

/-- The help text. -/
def helpText (long : Bool) : String :=
  let entries := helpEntries long
  let column := (entries.map fun entry => entry.usage.length).foldl max 0 + 2
  let body := if long then "\n".intercalate (entries.map HelpEntry.paragraphs)
    else String.join (entries.map (HelpEntry.line column))
  "Command-line driver for the Tessel tensor compiler\n\nUsage: tessel [OPTIONS]\n\nOptions:\n" ++ body

/-- The version of the program. -/
def versionText : String :=
  "tessel-cli 0.1.0\n"

/-- A fault in the arguments, in words. -/
def Stop.describe : Stop → String
  | help long => helpText long
  | version => versionText
  | unknownArgument arg => "error: unexpected argument '" ++ arg ++ "' found\n"
  | missingValue option => "error: a value is required for '--" ++ option ++ "' but none was supplied\n"
  | unneededValue option => "error: unexpected value for '--" ++ option ++ "' found; no more were expected\n"
  | invalidValue option value => "error: invalid value '" ++ value ++ "' for '--" ++ option ++ "'\n"
  | repeated option => "error: the argument '--" ++ option ++ "' cannot be used multiple times\n"
  | missingOption option needed => "error: the argument '--" ++ option ++ "' requires '--" ++ needed ++ "'\n"

end TensorCompiler.CommandLine
