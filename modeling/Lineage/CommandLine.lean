import Lineage.Run.Basic
import Lineage.Settings.Loading

/-!
# The command line

Two commands: `annotate` runs on a corpus, `meta` puts the meta header into the files of a
directory. Each has options with values; an option is given at most once, and there are no other
arguments.

## Main definitions

- `Command.parse` reads the arguments
- `Command.execute` does what they say
- `program` does both and tells how it ended
-/

namespace Lineage

/-! ## Options -/

/-- What the value of an option must be. -/
inductive ValueKind where
  /-- A path that is not empty. -/
  | path
  /-- A natural number of at most 64 bits. -/
  | count
  deriving DecidableEq, Repr

/-- An option of a command. -/
structure CommandOption where
  long : String
  short : Option Char
  kind : ValueKind
  deriving DecidableEq, Repr

/-- Why the arguments lead to no command. -/
inductive ArgumentStop where
  /-- Help was asked for. -/
  | help
  /-- The arguments are wrong. -/
  | usage
  deriving DecidableEq, Repr

/-- The options that were given, by their long names. -/
abbrev Given := List (String × String)

/-- The number that a text of digits denotes, maybe behind a plus sign. -/
def count? (text : String) : Option Nat :=
  let digits :=
    match text.toList with
    | '+' :: rest => rest
    | cs => cs
  (digits? 10 digits).filter (· < Nat.pow 2 64)

/-- Whether a text is a value of a kind. -/
def ValueKind.accepts (kind : ValueKind) (text : String) : Bool :=
  match kind with
  | .path => text ≠ ""
  | .count => (count? text).isSome

/-- Notes the value of an option. -/
def CommandOption.give (o : CommandOption) (given : Given) (value : String) :
    Except ArgumentStop Given :=
  if (given.lookup o.long).isNone && o.kind.accepts value then .ok ((o.long, value) :: given)
  else .error .usage

/-- Whether an argument looks like an option, so that it is no value of another one. -/
def looksLikeOption (argument : String) : Bool :=
  argument.toList.head? = some '-' && argument ≠ "-"

/-- An option in an argument, with the value that stands in the same argument, if any. -/
def optionIn (options : List CommandOption) (argument : String) :
    Except ArgumentStop (CommandOption × Option String) :=
  match argument.toList with
  | '-' :: '-' :: text =>
    let name := String.ofList (text.takeWhile (· ≠ '='))
    let value :=
      match text.dropWhile (· ≠ '=') with
      | _ :: value => some (String.ofList value)
      | [] => none
    match options.find? (·.long = name) with
    | some o => .ok (o, value)
    | none => .error (if name = "help" ∧ value = none then .help else .usage)
  | '-' :: letter :: text =>
    let value :=
      match text with
      | [] => none
      | '=' :: value => some (String.ofList value)
      | value => some (String.ofList value)
    match options.find? (·.short = some letter) with
    | some o => .ok (o, value)
    | none => .error (if letter = 'h' then .help else .usage)
  | _ => .error .usage

/-- Reads options behind those that were given. -/
def givenFrom (options : List CommandOption) (given : Given) :
    List String → Except ArgumentStop Given
  | [] => .ok given
  | "--" :: rest => if rest.isEmpty then .ok given else .error .usage
  | argument :: rest =>
    match optionIn options argument with
    | .error stop => .error stop
    | .ok (o, some value) =>
      match o.give given value with
      | .ok given => givenFrom options given rest
      | .error stop => .error stop
    | .ok (o, none) =>
      match rest with
      | [] => .error .usage
      | value :: rest =>
        if looksLikeOption value then .error .usage
        else
          match o.give given value with
          | .ok given => givenFrom options given rest
          | .error stop => .error stop

/-! ## Commands -/

/-- What the program is asked to do. -/
inductive Command where
  /-- Runs on a corpus. -/
  | annotate (paths : RunPaths) (config report : Option Path) (workers maxPasses : Option Nat)
  /-- Puts the meta header into the files of a directory. -/
  | addHeaders (dir : Path) (config : Option Path)
  deriving DecidableEq, Repr

namespace Command

/-- The options of the command that runs on a corpus. -/
def annotateOptions : List CommandOption :=
  [⟨"corpus", some 'c', .path⟩, ⟨"out", some 'o', .path⟩, ⟨"authoritative", some 'a', .path⟩,
    ⟨"config", none, .path⟩, ⟨"report", none, .path⟩, ⟨"workers", none, .count⟩,
    ⟨"max-passes", none, .count⟩]

/-- The options of the command that adds headers. -/
def headerOptions : List CommandOption := [⟨"dir", some 'd', .path⟩, ⟨"config", none, .path⟩]

/-- The command with some options, unless a needed one is missing. -/
def ofAnnotateOptions (given : Given) : Except ArgumentStop Command :=
  let path? (name : String) : Option Path := (given.lookup name).map (⟨·⟩)
  let number? (name : String) : Option Nat := (given.lookup name).bind count?
  match path? "corpus", path? "out" with
  | some corpus, some output =>
    .ok (.annotate { corpus, output, authoritative := path? "authoritative" } (path? "config")
      (path? "report") (number? "workers") (number? "max-passes"))
  | _, _ => .error .usage

/-- The command with some options, unless a needed one is missing. -/
def ofHeaderOptions (given : Given) : Except ArgumentStop Command :=
  match given.lookup "dir" with
  | some dir => .ok (.addHeaders ⟨dir⟩ ((given.lookup "config").map (⟨·⟩)))
  | none => .error .usage

/-- Reads the arguments of the program. -/
def parse : List String → Except ArgumentStop Command
  | "annotate" :: rest => (givenFrom annotateOptions [] rest).bind ofAnnotateOptions
  | "meta" :: rest => (givenFrom headerOptions [] rest).bind ofHeaderOptions
  | ["help"] | ["help", "annotate"] | ["help", "meta"] | ["help", "help"] => .error .help
  | first :: _ =>
    match optionIn [] first with
    | .error stop => .error stop
    | .ok _ => .error .usage
  | [] => .error .usage

/-! ## Execution -/

section

variable {m : Type → Type} [Monad m] [Host m]

/-- Loads the settings that a file holds. -/
def loadSettings (path : Path) : ExceptT SettingsError m ValidSettings := do
  match ← ExceptT.lift (Host.read path) with
  | .error cause => throw (.unreadable cause)
  | .ok content =>
    match Utf8.decode content with
    | .error _ => throw (.unreadable .notText)
    | .ok text => MonadExcept.ofExcept (Settings.ofYaml text)

/-- The settings of a command: those of a file or the standard ones, with some of them replaced. -/
def settingsFor (config : Option Path) (workers maxPasses : Option Nat) :
    ExceptT SettingsError m ValidSettings := do
  let base ←
    match config with
    | some path => loadSettings path
    | none => pure .standard
  let s := base.toSettings
  let s := { s with
    scan.workers := workers.getD s.scan.workers
    sites.maxPasses := maxPasses.getD s.sites.maxPasses }
  MonadExcept.ofExcept s.validate

/-- Does what a command says. -/
def execute : Command → ExceptT Failure m Unit
  | .annotate paths config report workers maxPasses => do
    let s ← (settingsFor config workers maxPasses).adapt .settings
    let outcome ← run s paths
    match report with
    | some path => writeReport outcome path
    | none => return ()
  | .addHeaders dir config => do
    let s ← (settingsFor config none none).adapt .settings
    match s.sites.metaHeader with
    | some header =>
      let _ ← applyHeaders dir s.scan.sourceExtension header
      return ()
    | none => return ()

end

end Command

/-! ## The program -/

/-- How the program ends. -/
inductive Ending where
  | success
  | help
  | usage
  | failure (cause : Failure)
  deriving DecidableEq, Repr

namespace Ending

/-- The exit status: 0 after success and help, 1 after a failure and 2 where the arguments are
    wrong. -/
def status : Ending → Nat
  | .success | .help => 0
  | .failure _ => 1
  | .usage => 2

/-- The wording of the failure, if there was one. -/
def wording? : Ending → Option String
  | .failure cause => some cause.message
  | _ => none

end Ending

/-- Runs the program with some arguments. -/
def program {m : Type → Type} [Monad m] [Host m] (arguments : List String) : m Ending :=
  match Command.parse arguments with
  | .error .help => pure .help
  | .error .usage => pure .usage
  | .ok command => do
    match ← command.execute.run with
    | .ok () => pure .success
    | .error cause => pure (.failure cause)

end Lineage
