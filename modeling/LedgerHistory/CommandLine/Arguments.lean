/-!
# Arguments

The words of a command line. Options in front of a command hold for it too, unless it has its own. A
value that is a word of its own is checked when the next option follows or when all words are read, so
a request for help within a command goes before a wrong value in front of it.
-/

namespace LedgerHistory

/-- How reports are shown. -/
inductive ReportFormat
  | text
  | json
  deriving DecidableEq, Repr

def ReportFormat.ofName? : String → Option ReportFormat
  | "text" => some .text
  | "json" => some .json
  | _ => none

/-- What is to be done. -/
inductive Command
  /-- Records the extensions of an input file in an empty store. -/
  | project (input : String) (config : Option String)
  /-- Shows the tables. -/
  | schema
  /-- Shows the configuration in force. -/
  | config (config : Option String)
  deriving DecidableEq, Repr

/-- A command line that can be carried out. -/
structure CommandLine where
  command : Command
  verbose : Bool
  format : ReportFormat
  deriving DecidableEq, Repr

/-- Why there is nothing to carry out. -/
inductive Usage
  | help
  | version
  | misuse
  deriving DecidableEq, Repr

namespace CommandLine

/-- Where words stand: in front of a command or behind its name. -/
inductive Scope
  | general
  | project
  | schema
  | config
  deriving DecidableEq, Repr

/-- The scope behind the name of a command. -/
def Scope.ofCommand? : String → Option Scope
  | "project" => some .project
  | "schema" => some .schema
  | "config" => some .config
  | _ => none

/-- An option without a value. -/
inductive Switch
  | verbose
  | help
  | version
  deriving DecidableEq, Repr

/-- An option with a value. -/
inductive Setting
  | format
  | input
  | config
  deriving DecidableEq, Repr

/-- An option. -/
inductive Parameter
  | switch (s : Switch)
  | setting (s : Setting)
  deriving DecidableEq, Repr

/-- The option with a long name. -/
def Scope.long? (scope : Scope) : String → Option Parameter
  | "verbose" => some (.switch .verbose)
  | "help" => some (.switch .help)
  | "version" => if scope = .general then some (.switch .version) else none
  | "format" => some (.setting .format)
  | "input" => if scope = .project then some (.setting .input) else none
  | "config" => if scope = .project ∨ scope = .config then some (.setting .config) else none
  | _ => none

/-- The option with a short name. -/
def Scope.short? (scope : Scope) : Char → Option Parameter
  | 'v' => scope.long? "verbose"
  | 'h' => scope.long? "help"
  | 'V' => scope.long? "version"
  | 'i' => scope.long? "input"
  | 'c' => scope.long? "config"
  | _ => none

/-- The options of a scope as far as they have been read. -/
structure Given where
  verbose : Bool := false
  format : Option ReportFormat := none
  input : Option String := none
  config : Option String := none
  /-- The value that still has to be checked. -/
  unchecked : Option (Setting × String) := none

namespace Given

/-- Gives a setting its only value. A path must not be empty. -/
def set (g : Given) : Setting → String → Except Usage Given
  | .format, v =>
    match g.format, ReportFormat.ofName? v with
    | none, some format => .ok { g with format := some format }
    | _, _ => .error .misuse
  | .input, v => if g.input.isSome ∨ v = "" then .error .misuse else .ok { g with input := some v }
  | .config, v =>
    if g.config.isSome ∨ v = "" then .error .misuse else .ok { g with config := some v }

/-- Checks the value that still has to be checked. -/
def settle (g : Given) : Except Usage Given :=
  match g.unchecked with
  | none => .ok g
  | some (s, v) => { g with unchecked := none }.set s v

def turnOn (g : Given) : Switch → Except Usage Given
  | .verbose => if g.verbose then .error .misuse else .ok { g with verbose := true }
  | .help => .error .help
  | .version => .error .version

def command (g : Given) : Scope → Except Usage Command
  | .general => .error .misuse
  | .schema => .ok .schema
  | .config => .ok (.config g.config)
  | .project =>
    match g.input with
    | some input => .ok (.project input g.config)
    | none => .error .misuse

end Given

/-- Reads a long option behind its dashes. A setting without a value waits for the next word. -/
def readLong (scope : Scope) (g : Given) (word : List Char) :
    Except Usage (Given × Option Setting) := do
  let name := String.ofList (word.takeWhile (· ≠ '='))
  match scope.long? name, word.dropWhile (· ≠ '=') with
  | some (.switch s), [] => return (← (← g.settle).turnOn s, none)
  | some (.setting s), [] => return (← g.settle, some s)
  | some (.setting s), _ :: value => return (← (← g.settle).set s (String.ofList value), none)
  | _, _ => .error .misuse

/-- Reads short options behind their dash. What follows the name of a setting is its value; without one
it waits for the next word. -/
def readShort (scope : Scope) (g : Given) : List Char → Except Usage (Given × Option Setting)
  | [] => .ok (g, none)
  | c :: rest => do
    match scope.short? c with
    | none => .error .misuse
    | some (.switch s) => readShort scope (← (← g.settle).turnOn s) rest
    | some (.setting s) =>
      match rest with
      | [] => return (← g.settle, some s)
      | '=' :: value => return (← (← g.settle).set s (String.ofList value), none)
      | value => return (← (← g.settle).set s (String.ofList value), none)

/-- Whether a word is an option. A dash alone is a value. -/
def isOption (word : String) : Bool :=
  match word.toList with
  | '-' :: _ :: _ => true
  | _ => false

def readOption (scope : Scope) (g : Given) (word : String) :
    Except Usage (Given × Option Setting) :=
  match word.toList with
  | '-' :: '-' :: name => readLong scope g name
  | '-' :: c :: names => readShort scope g (c :: names)
  | _ => .error .misuse

/-- What the words behind a request for help ask for: at most one may follow, which names a command. -/
def helpOn : List String → Usage
  | [] => .help
  | [name] => if name = "help" ∨ (Scope.ofCommand? name).isSome then .help else .misuse
  | _ => .misuse

/-- Reads the words of a scope. In front of a command they end with its name, and the scope and the
words behind it are given too. After two dashes no option may follow. -/
def readWords (scope : Scope) (g : Given) :
    List String → Except Usage (Given × Option (Scope × List String))
  | [] => .ok (g, none)
  | word :: rest => do
    if word = "--" then
      if rest.isEmpty then return (g, none) else .error .misuse
    else if isOption word then
      let (g, waiting) ← readOption scope g word
      match waiting, rest with
      | none, rest => readWords scope g rest
      | some _, [] => .error .misuse
      | some s, value :: rest =>
        if isOption value then .error .misuse
        else readWords scope { g with unchecked := some (s, value) } rest
    else if scope = .general then
      match Scope.ofCommand? word with
      | some own => return (g, some (own, rest))
      | none => .error (if word = "help" then helpOn rest else .misuse)
    else .error .misuse

/-- Reads a command line. -/
def parse (words : List String) : Except Usage CommandLine := do
  match ← readWords .general {} words with
  | (_, none) => .error .misuse
  | (general, some (scope, words)) =>
    let (own, _) ← readWords scope {} words
    let own ← own.settle
    let command ← own.command scope
    let general ← general.settle
    return ⟨command, general.verbose || own.verbose, (own.format <|> general.format).getD .text⟩

end CommandLine

end LedgerHistory
