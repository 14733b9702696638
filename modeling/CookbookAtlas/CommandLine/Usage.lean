import CookbookAtlas.Decimal.Read
import CookbookAtlas.Path.Basic

/-! The arguments of the command line. Options may stand before or after the subcommand if they
are shared by all; each may be given once on either side. -/
namespace CookbookAtlas.CommandLine

inductive UsageFault
  | unknownArgument
  | invalidSubcommand
  | missingSubcommand
  | conflict
  | valueValidation
  | invalidValue
  | tooManyValues
  | help
  | version
  | helpOnMissing
deriving DecidableEq

inductive OptionId
  | verbose
  | quiet
  | config
  | noProgress
  | help
  | version
  | fetch
  | format
  | recipe
  | depth
  | path
deriving DecidableEq

structure OptionSpec where
  id : OptionId
  short : Option Char
  long : String
  takesValue : Bool

def sharedOptions : List OptionSpec :=
  [⟨.verbose, some 'v', "verbose", false⟩, ⟨.quiet, some 'q', "quiet", false⟩,
    ⟨.config, some 'c', "config", true⟩, ⟨.noProgress, none, "no-progress", false⟩,
    ⟨.help, some 'h', "help", false⟩]

def mainOptions : List OptionSpec := sharedOptions ++ [⟨.version, some 'V', "version", false⟩]

def reportOptions : List OptionSpec :=
  sharedOptions ++ [⟨.fetch, none, "fetch", false⟩, ⟨.format, some 'f', "format", true⟩]

def treeOptions : List OptionSpec :=
  reportOptions ++ [⟨.recipe, some 'r', "recipe", true⟩, ⟨.depth, some 'd', "depth", true⟩]

inductive Subcommand
  | deps
  | analyze
  | tree
deriving DecidableEq

def Subcommand.ofWord? : String → Option Subcommand
  | "deps" => some .deps
  | "analyze" => some .analyze
  | "tree" => some .tree
  | _ => none

def Subcommand.options : Subcommand → List OptionSpec
  | .deps | .analyze => reportOptions
  | .tree => treeOptions

/-- A whole number of at most 64 bits, with an optional plus sign. -/
def number? (text : String) : Option Nat :=
  let digits := match text.toList with
    | '+' :: cs | cs => cs
  if !digits.isEmpty && digits.all Text.isAsciiDigit &&
    decide (Decimal.ofDigits digits < Nat.pow 2 64) then
    some (Decimal.ofDigits digits)
  else none

/-- What was given on one side of the subcommand. The value of `pending` is checked when the next
argument is taken. -/
structure Given where
  values : List (OptionId × String)
  pending : Option (OptionId × Option String)
  onlyOperands : Bool
  hasOperand : Bool

namespace Given

def start : Given := ⟨[], none, false, false⟩

def has (g : Given) (id : OptionId) : Bool := g.values.any fun v => v.1 == id

def get? (g : Given) (id : OptionId) : Option String :=
  (g.values.find? fun v => v.1 == id).map Prod.snd

def checkValue (id : OptionId) (value : String) : Except UsageFault Unit :=
  match id with
  | .depth => if (number? value).isSome then .ok () else .error .valueValidation
  | .path => if value.isEmpty then .error .invalidValue else .ok ()
  | _ => .ok ()

def add (g : Given) (id : OptionId) (value : String) : Except UsageFault Given :=
  if g.has id then .error .conflict
  else match checkValue id value with
    | .ok () => .ok { g with values := g.values ++ [(id, value)] }
    | .error fault => .error fault

def settle (g : Given) : Except UsageFault Given :=
  match g.pending with
  | none => .ok g
  | some (_, none) => .error .invalidValue
  | some (id, some value) => { g with pending := none }.add id value

def takeFlag (g : Given) (id : OptionId) : Except UsageFault Given := do
  let g ← g.settle
  match id with
  | .help => throw .help
  | .version => throw .version
  | id => g.add id ""

def takeOption (g : Given) (id : OptionId) (attached : Option String) : Except UsageFault Given :=
  do
  let g ← g.settle
  match attached with
  | some value => g.add id value
  | none => return { g with pending := some (id, none) }

def takeLong (specs : List OptionSpec) (g : Given) (body : List Char) : Except UsageFault Given :=
  let name := body.takeWhile (· ≠ '=')
  let attached := if name.length < body.length
    then some (String.ofList (body.drop (name.length + 1))) else none
  match specs.find? fun s => s.long == String.ofList name with
  | none => .error .unknownArgument
  | some spec =>
    if spec.takesValue then g.takeOption spec.id attached
    else if attached.isSome then .error .tooManyValues
    else g.takeFlag spec.id

def takeShort (specs : List OptionSpec) (g : Given) : List Char → Except UsageFault Given
  | [] => .ok g
  | c :: rest =>
    match specs.find? fun s => s.short == some c with
    | none => .error .unknownArgument
    | some spec =>
      if spec.takesValue then
        match rest with
        | [] => g.takeOption spec.id none
        | '=' :: value | value => g.takeOption spec.id (some (String.ofList value))
      else match g.takeFlag spec.id with
        | .ok g => takeShort specs g rest
        | .error fault => .error fault

def awaiting? (g : Given) : Option OptionId :=
  match g.pending with
  | some (id, none) => some id
  | _ => none

def takeDashed (specs : List OptionSpec) (g : Given) (arg : String) :
    Option (Except UsageFault Given) :=
  if g.onlyOperands then none
  else match arg.toList with
    | ['-', '-'] => some (.ok { g with onlyOperands := true })
    | '-' :: '-' :: body => some (takeLong specs g body)
    | '-' :: c :: rest => some (takeShort specs g (c :: rest))
    | _ => none

end Given

structure Invocation where
  subcommand : Subcommand
  shared : Given
  own : Given

def readOwn (specs : List OptionSpec) (g : Given) : List String → Except UsageFault Given
  | [] => g.settle
  | arg :: rest =>
    match g.takeDashed specs arg with
    | some (.ok g) => readOwn specs g rest
    | some (.error fault) => .error fault
    | none =>
      match (if g.onlyOperands then none else g.awaiting?) with
      | some id => readOwn specs { g with pending := some (id, some arg) } rest
      | none =>
        if g.hasOperand then .error .unknownArgument
        else match g.settle with
          | .ok g => readOwn specs { g with pending := some (.path, some arg), hasOperand := true } rest
          | .error fault => .error fault

/-- Verbose and quiet exclude each other on either side of the subcommand. -/
def checkConflict (g : Given) : Except UsageFault Unit :=
  if g.has .verbose && g.has .quiet then .error .conflict else .ok ()

def readHelp : List String → UsageFault
  | [] => .help
  | [word] =>
    if (Subcommand.ofWord? word).isSome || word = "help" then .help else .invalidSubcommand
  | _ => .invalidSubcommand

def readSubcommand (g : Given) (command : Subcommand) (rest : List String) :
    Except UsageFault Invocation := do
  let own ← readOwn command.options .start rest
  checkConflict own
  let shared ← g.settle
  checkConflict shared
  return ⟨command, shared, own⟩

def withoutSubcommand (g : Given) : Except UsageFault Invocation := do
  let g ← g.settle
  if g.values.isEmpty then throw .helpOnMissing else throw .missingSubcommand

def readMain (g : Given) : List String → Except UsageFault Invocation
  | [] => withoutSubcommand g
  | arg :: rest =>
    match (if g.onlyOperands then none else g.awaiting?) with
    | some id =>
      match g.takeDashed mainOptions arg with
      | some (.ok g) => readMain g rest
      | some (.error fault) => .error fault
      | none => readMain { g with pending := some (id, some arg) } rest
    | none =>
      match Subcommand.ofWord? arg with
      | some command => if g.onlyOperands then .error .unknownArgument else readSubcommand g command rest
      | none =>
        if arg = "help" then .error (if g.onlyOperands then .unknownArgument else readHelp rest)
        else match g.takeDashed mainOptions arg with
          | some (.ok g) => readMain g rest
          | some (.error fault) => .error fault
          | none => .error .invalidSubcommand

def readArguments (args : List String) : Except UsageFault Invocation := readMain .start args

namespace Invocation

def isVerbose (i : Invocation) : Bool := i.shared.has .verbose || i.own.has .verbose

def isQuiet (i : Invocation) : Bool := i.shared.has .quiet || i.own.has .quiet

/-- The settings file asked for; the option after the subcommand goes first. -/
def config? (i : Invocation) : Option String := (i.own.get? .config).or (i.shared.get? .config)

def logLevel (i : Invocation) : String :=
  if i.isVerbose then "debug" else if i.isQuiet then "error" else "warn"

def path (i : Invocation) : Path := ⟨(i.own.get? .path).getD "."⟩

def fetch (i : Invocation) : Bool := i.own.has .fetch

def format (i : Invocation) : String :=
  (i.own.get? .format).getD (if i.subcommand = .tree then "tree" else "text")

def recipe? (i : Invocation) : Option String := i.own.get? .recipe

def depth? (i : Invocation) : Option Nat := (i.own.get? .depth).bind number?

end Invocation
end CookbookAtlas.CommandLine
