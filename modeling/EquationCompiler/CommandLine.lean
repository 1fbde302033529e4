import EquationCompiler.Run

/-!
# The command line

Options win over the settings file. An argument list is read from left to right,
and the first thing wrong with it, or a request for help or the version, decides.
-/
namespace EquationCompiler

/-- What the options say. -/
structure Options where
  config : Option String := none
  input : Option String := none
  declarations : Option String := none
  definitions : Option String := none
  declarationsTemplate : Option String := none
  definitionsTemplate : Option String := none
  policy : Option Policy := none
  dryRun : Bool := false
  deriving DecidableEq, Repr

inductive Command where
  | run (o : Options)
  | version
  | help
  /-- The arguments are no command. -/
  | misuse
  deriving DecidableEq, Repr

/-- An option that takes a value. -/
inductive ValueOption where
  | config
  | input
  | declarations
  | definitions
  | declarationsTemplate
  | definitionsTemplate
  | policy
  deriving DecidableEq, Repr

namespace ValueOption

def all : List ValueOption :=
  [config, input, declarations, definitions, declarationsTemplate, definitionsTemplate, policy]

def longName : ValueOption → String
  | config => "config"
  | input => "input"
  | declarations => "declarations"
  | definitions => "definitions"
  | declarationsTemplate => "declarations-template"
  | definitionsTemplate => "definitions-template"
  | policy => "policy"

def shortName? : ValueOption → Option Char
  | config => some 'c'
  | input => some 'i'
  | _ => none

def ofLong? (name : String) : Option ValueOption := all.find? (·.longName = name)

def ofShort? (c : Char) : Option ValueOption := all.find? (·.shortName? = some c)

/-- A path that was not given before. No path is empty. -/
def path? (given : Option String) (value : String) : Option String :=
  if given.isSome || value.isEmpty then none else some value

/-- Records the value of an option, which may be given once. -/
def record? (o : Options) (value : String) : ValueOption → Option Options
  | config => do return { o with config := ← path? o.config value }
  | input => do return { o with input := ← path? o.input value }
  | declarations => do return { o with declarations := ← path? o.declarations value }
  | definitions => do return { o with definitions := ← path? o.definitions value }
  | declarationsTemplate => do
    return { o with declarationsTemplate := ← path? o.declarationsTemplate value }
  | definitionsTemplate => do
    return { o with definitionsTemplate := ← path? o.definitionsTemplate value }
  | policy => do
    if o.policy.isSome then none
    else return { o with policy := some (← Policy.ofName? value) }

end ValueOption

namespace Command

/-- Whether an argument can be a value that stands by itself. -/
def isValue (arg : String) : Bool := !arg.startsWith "-" || arg = "-"

/-- What a group of short options leads to. -/
inductive Group where
  | flags
  | decided (c : Command)
  /-- The last option takes a value, which may follow in the same argument. -/
  | value (option : ValueOption) (attached : Option String)

/-- Reads a group of short options. -/
def readGroup : List Char → Group
  | [] => .flags
  | 'v' :: rest => readGroup rest
  | 'V' :: _ => .decided .version
  | 'h' :: _ => .decided .help
  | c :: rest =>
    match ValueOption.ofShort? c, rest with
    | some option, [] => .value option none
    | some option, '=' :: value => .value option (some (String.ofList value))
    | some option, value => .value option (some (String.ofList value))
    | none, _ => .decided .misuse

/-- What a long option leads to. Only options with values may have one attached. -/
def readLong (o : Options) (name : String) (attached : Option String) : Options ⊕ Group :=
  match ValueOption.ofLong? name with
  | some option => .inr (.value option attached)
  | none =>
    match name, attached with
    | "verbose", none => .inl o
    | "dry-run", none =>
      if o.dryRun then .inr (.decided .misuse) else .inl { o with dryRun := true }
    | "version", none => .inr (.decided .version)
    | "help", none => .inr (.decided .help)
    | _, _ => .inr (.decided .misuse)

/-- The name and the attached value of a long option. -/
def splitLong (cs : List Char) : String × Option String :=
  match Text.cut? '=' cs with
  | some (name, value) => (String.ofList name, some (String.ofList value))
  | none => (String.ofList cs, none)

/-- Reads arguments, given what the ones before said. An option that still lacks its value takes
the next argument. -/
def readFrom (o : Options) : Option ValueOption → List String → Command
  | none, [] => .run o
  | some _, [] => .misuse
  | some option, arg :: rest =>
    if isValue arg then
      match option.record? o arg with
      | some o => readFrom o none rest
      | none => .misuse
    else .misuse
  | none, arg :: rest =>
    let group (g : Group) : Command :=
      match g with
      | .flags => readFrom o none rest
      | .decided c => c
      | .value option none => readFrom o (some option) rest
      | .value option (some value) =>
        match option.record? o value with
        | some o => readFrom o none rest
        | none => .misuse
    match arg.toList with
    | ['-', '-'] => if rest.isEmpty then .run o else .misuse
    | '-' :: '-' :: long =>
      let (name, attached) := splitLong long
      match readLong o name attached with
      | .inl o => readFrom o none rest
      | .inr g => group g
    | '-' :: c :: short => group (readGroup (c :: short))
    | _ => .misuse

def ofArguments (args : List String) : Command := readFrom {} none args

end Command

/-- The settings with what the options say in the place of what they said before. -/
def Options.apply (o : Options) (s : Settings) : Settings where
  input := o.input.getD s.input
  declarations := o.declarations.getD s.declarations
  definitions := o.definitions.getD s.definitions
  declarationsTemplate := o.declarationsTemplate <|> s.declarationsTemplate
  definitionsTemplate := o.definitionsTemplate <|> s.definitionsTemplate
  policy := o.policy.getD s.policy

/-- What a command prints and the code it ends with. -/
structure Result where
  code : Nat
  output : String := ""
  errors : String := ""
  deriving DecidableEq, Repr

namespace Result

/-- A failure in some context, with the failures below it. -/
def ofFailure (context : String) (f : Failure) : Result where
  code := 1
  errors :=
    "Error: " ++ context ++ ": " ++ f.message ++ (f.source?.elim "" fun s => ": " ++ s) ++ "\n"

variable {α : Type} [Numeral α]

/-- An equation as a record with no substitutions. -/
def listingLine (e : Equation α) : String :=
  e.name ++ "(" ++ ", ".intercalate e.parameters ++ ") = " ++ e.expression.toFormula ++ "\n"

/-- The warnings, and then the equations of a dry run or the files written. -/
def ofOutcome (dryRun : Bool) (outcome : Outcome α) : Result where
  code := 0
  output :=
    if dryRun then String.join (outcome.report.equations.map listingLine)
    else String.join (outcome.written.map fun path => "Wrote " ++ path ++ "\n")
  errors :=
    String.join (outcome.report.diagnostics.map fun d => "Warning: " ++ d.message ++ "\n")

end Result

namespace Options
variable {m : Type → Type} [Monad m] [FileStore m]

/-- Finds the settings and runs with them. -/
def execute [TemplateEngine] (α : Type) [Numeral α] (o : Options) : m Result := do
  match ← (Settings.discover o.config).run with
  | .error f => return .ofFailure "Failed to load configuration" f
  | .ok s =>
    let s := o.apply s
    match ← (s.run α o.dryRun).run with
    | .error f => return .ofFailure ("Failed to generate from " ++ s.input) f
    | .ok outcome => return .ofOutcome o.dryRun outcome

end Options

namespace Command
variable {m : Type → Type} [Monad m] [FileStore m]

def versionText : String := "solver-codegen 0.1.0\n"

def usageText : String :=
  "Usage: solver-codegen [OPTIONS]\n\nOptions:\n" ++
  "  -v, --verbose...\n  -c, --config <CONFIG>\n  -i, --input <INPUT>\n" ++
  "      --declarations <DECLARATIONS>\n      --definitions <DEFINITIONS>\n" ++
  "      --declarations-template <DECLARATIONS_TEMPLATE>\n" ++
  "      --definitions-template <DEFINITIONS_TEMPLATE>\n" ++
  "      --policy <POLICY>  [possible values: abort, best-effort]\n      --dry-run\n" ++
  "  -h, --help\n  -V, --version\n"

/-- What the program does with its arguments. -/
def execute [TemplateEngine] (α : Type) [Numeral α] : Command → m Result
  | run o => o.execute α
  | version => return { code := 0, output := versionText }
  | help => return { code := 0, output := usageText }
  | misuse => return { code := 2, errors := usageText }

end Command

end EquationCompiler
