import TensorCompiler.Task.Worker

/-! # The options of the command line

The arguments are read from left to right. The first thing that settles the outcome wins: a fault, or a
request for help or for the version. An option that takes a value finds it behind an equals sign or in the
next argument; short options can be joined. Only the option for more messages may be repeated.
-/

namespace TensorCompiler.CommandLine

/-- The programs that can be compiled. -/
inductive Demo where
  /-- A dense layer. -/
  | mlp
  /-- A convolution. -/
  | conv
  /-- A copy from shared memory to the registers of a warp. -/
  | warp
  deriving Repr, DecidableEq

/-- What a run of the program is asked to do. -/
structure Options where
  demo : Demo := .mlp
  /-- The file for the module; none stands for standard output. -/
  output : Option String := none
  /-- The directory for a snapshot after each pass. -/
  saveGraphs : Option String := none
  /-- Whether the time of each pass is reported. -/
  profile : Bool := false
  /-- A file for the report. -/
  profileLog : Option String := none
  blockSize : UInt32 := Worker.defaultBlockSize
  noLower : Bool := false
  /-- Whether the optimized graph is shown. -/
  emitGraph : Bool := false
  /-- Whether the optimized graph is compared with the given one. -/
  check : Bool := false
  /-- How many messages are wanted. -/
  verbose : Nat := 0
  deriving Repr, DecidableEq

/-- What settles the outcome before anything is compiled. -/
inductive Stop where
  | help (long : Bool)
  | version
  | unknownArgument (arg : String)
  | missingValue (option : String)
  | unneededValue (option : String)
  | invalidValue (option value : String)
  | repeated (option : String)
  /-- An option without another one that it goes with. -/
  | missingOption (option needed : String)
  deriving Repr, DecidableEq

/-- The options, by what they set. -/
inductive Flag where
  | demo
  | output
  | saveGraphs
  | profile
  | profileLog
  | blockSize
  | noLower
  | emitGraph
  | check
  | verbose
  | help
  | version
  deriving Repr, DecidableEq

namespace Flag

/-- The name behind two dashes. -/
def long : Flag → String
  | demo => "demo"
  | output => "output"
  | saveGraphs => "save-graphs"
  | profile => "profile"
  | profileLog => "profile-log"
  | blockSize => "block-size"
  | noLower => "no-lower"
  | emitGraph => "emit-graph"
  | check => "check"
  | verbose => "verbose"
  | help => "help"
  | version => "version"

/-- The letter behind one dash. -/
def short? : Flag → Option Char
  | output => some 'o'
  | verbose => some 'v'
  | help => some 'h'
  | version => some 'V'
  | _ => none

def takesValue : Flag → Bool
  | demo | output | saveGraphs | profileLog | blockSize => true
  | _ => false

def all : List Flag :=
  [demo, output, saveGraphs, profile, profileLog, blockSize, noLower, emitGraph, check, verbose, help, version]

/-- The option of a long name. -/
def ofLong? (name : String) : Option Flag :=
  all.find? fun flag => flag.long == name

/-- The option of a letter. -/
def ofShort? (letter : Char) : Option Flag :=
  all.find? fun flag => flag.short? == some letter

end Flag

/-- The program of the given name. -/
def Demo.ofName? (name : String) : Option Demo :=
  if name = "mlp" then some .mlp
  else if name = "conv" then some .conv
  else if name = "warp" then some .warp
  else none

/-- A decimal number, which may have a plus sign in front. -/
def decimal? (text : String) : Option Nat :=
  let digits := match text.toList with
    | '+' :: digits => digits
    | digits => digits
  if digits.isEmpty || !digits.all Char.isDigit then none
  else some (digits.foldl (fun n c => n * 10 + (c.toNat - '0'.toNat)) 0)

/-- A block size: a positive number of 32 bits. -/
def blockSize? (text : String) : Option UInt32 :=
  (decimal? text).bind fun n => if 1 ≤ n ∧ n < UInt32.size then some (UInt32.ofNat n) else none

/-- A path: any text but the empty one. -/
def path? (text : String) : Option String :=
  if text.isEmpty then none else some text

/-- What has been read so far: the options and which of them were given. -/
structure Reading where
  options : Options := {}
  given : List Flag := []

namespace Reading

/-- Notes that an option is given, which most options may be only once. -/
def note (r : Reading) (flag : Flag) : Except Stop Reading :=
  if r.given.contains flag && flag != .verbose then .error (.repeated flag.long)
  else .ok { r with given := flag :: r.given }

/-- Sets an option that takes no value. -/
def setFlag (r : Reading) (flag : Flag) (isLong : Bool) : Except Stop Reading := do
  let r ← r.note flag
  match flag with
  | .help => throw (.help isLong)
  | .version => throw .version
  | .profile => pure { r with options := { r.options with profile := true } }
  | .noLower => pure { r with options := { r.options with noLower := true } }
  | .emitGraph => pure { r with options := { r.options with emitGraph := true } }
  | .check => pure { r with options := { r.options with check := true } }
  | .verbose => pure { r with options := { r.options with verbose := r.options.verbose + 1 } }
  | _ => pure r

/-- The options with the value of one of them read from its text. -/
def assign? (o : Options) (flag : Flag) (text : String) : Option Options :=
  match flag with
  | .demo => (Demo.ofName? text).map fun demo => { o with demo }
  | .output => (path? text).map fun path => { o with output := some path }
  | .saveGraphs => (path? text).map fun path => { o with saveGraphs := some path }
  | .profileLog => (path? text).map fun path => { o with profileLog := some path }
  | .blockSize => (blockSize? text).map fun blockSize => { o with blockSize }
  | _ => none

/-- Sets an option to a value. -/
def setValue (r : Reading) (flag : Flag) (text : String) : Except Stop Reading := do
  let r ← r.note flag
  match assign? r.options flag text with
  | some options => pure { r with options }
  | none => throw (.invalidValue flag.long text)

end Reading

/-- Whether an argument cannot be the value of the option before it: it begins with a dash and is not the
dash alone. -/
def looksLikeOption (arg : String) : Bool :=
  match arg.toList with
  | '-' :: _ :: _ => true
  | _ => false

/-- The state after a cluster of letters, with the option that still waits for its value. -/
def readShort (r : Reading) : List Char → Except Stop (Reading × Option Flag)
  | [] => .ok (r, none)
  | c :: rest =>
    match Flag.ofShort? c with
    | none => .error (.unknownArgument (String.singleton c))
    | some flag =>
      if flag.takesValue then
        match rest with
        | [] => .ok (r, some flag)
        | '=' :: value => do return (← r.setValue flag (String.ofList value), none)
        | value => do return (← r.setValue flag (String.ofList value), none)
      else do readShort (← r.setFlag flag false) rest

/-- The state after a long option, with the option if it still waits for its value. -/
def readLong (r : Reading) (arg : List Char) : Except Stop (Reading × Option Flag) :=
  let name := String.ofList (arg.takeWhile (· != '='))
  let value := match arg.dropWhile (· != '=') with
    | [] => none
    | _ :: value => some (String.ofList value)
  match Flag.ofLong? name, value with
  | none, _ => .error (.unknownArgument name)
  | some flag, some value =>
    if flag.takesValue then do return (← r.setValue flag value, none)
    else .error (.unneededValue name)
  | some flag, none =>
    if flag.takesValue then .ok (r, some flag)
    else do return (← r.setFlag flag true, none)

/-- The state after one argument, with the option that waits for the next argument as its value. -/
def readArgument (r : Reading) (arg : String) : Except Stop (Reading × Option Flag) :=
  match arg.toList with
  | '-' :: '-' :: long => readLong r long
  | '-' :: c :: short => readShort r (c :: short)
  | _ => .error (.unknownArgument arg)

/-- Reads the arguments, the first of them as the value of the option that waits for one. Behind two dashes
nothing may follow. -/
def readArguments (r : Reading) (waiting : Option Flag) : List String → Except Stop Reading
  | [] =>
    match waiting with
    | some flag => .error (.missingValue flag.long)
    | none => .ok r
  | arg :: args =>
    match waiting with
    | some flag =>
      if looksLikeOption arg then .error (.missingValue flag.long)
      else do readArguments (← r.setValue flag arg) none args
    | none =>
      if arg = "--" then
        match args with
        | [] => .ok r
        | extra :: _ => .error (.unknownArgument extra)
      else do
        let (r, waiting) ← readArgument r arg
        readArguments r waiting args

/-- The options that the arguments set. -/
def Options.ofArguments (args : List String) : Except Stop Options := do
  let r ← readArguments {} none args
  if r.options.profileLog.isSome && !r.options.profile then
    throw (.missingOption Flag.profileLog.long Flag.profile.long)
  else pure r.options

end TensorCompiler.CommandLine
