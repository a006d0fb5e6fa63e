import EventQuery.Config.Settings

/-!
# Arguments

The command line: options, a command and its argument. An option may
stand before or after the command; if it stands on both sides, the later
one counts. On one side it may stand only once. A double dash ends the
options.
-/

namespace EventQuery.Command

inductive Format where
  | text
  | json
  deriving DecidableEq, Repr

def Format.ofOption? : String → Option Format
  | "text" => some .text
  | "json" => some .json
  | _ => none

inductive Action where
  | translate (query : String)
  | parse (query : String)
  | batch (file : String)
  | repl
  deriving DecidableEq, Repr

/-- A command line that asks for work. -/
structure Invocation where
  config : String
  format : Format
  overrides : Overrides
  action : Action

/-- What a command line asks for. -/
inductive Request where
  | run (invocation : Invocation)
  | version
  | help
  /-- The command line cannot be used. -/
  | misuse

/-! ## Options -/

inductive OptionName where
  | config
  | logLevel
  | format
  | categoryField
  | fieldNames
  | extractParameters
  | strict
  | table
  | version
  | help
  deriving DecidableEq, Repr

namespace OptionName

def ofLong? : String → Option OptionName
  | "config" => some config
  | "log-level" => some logLevel
  | "format" => some format
  | "category-field" => some categoryField
  | "field-names" => some fieldNames
  | "extract-parameters" => some extractParameters
  | "strict" => some strict
  | "table" => some table
  | "version" => some version
  | "help" => some help
  | _ => none

def ofShort? : Char → Option OptionName
  | 'c' => some config
  | 'l' => some logLevel
  | 'f' => some format
  | 'V' => some version
  | 'h' => some help
  | _ => none

def takesValue : OptionName → Bool
  | config | logLevel | format | categoryField | fieldNames | table => true
  | extractParameters | strict | version | help => false

end OptionName

/-- The options given on one side of the command. -/
structure Given where
  config : Option String := none
  logLevel : Option String := none
  format : Option Format := none
  categoryField : Option String := none
  naming : Option Naming := none
  extractParameters : Bool := false
  strict : Bool := false
  table : Option String := none

namespace Given

/-- Fill a place that is still empty. -/
def fill {α : Type} (place value : Option α) : Option (Option α) :=
  match place, value with
  | none, some v => some (some v)
  | _, _ => none

/-- A path is not empty. -/
def path? (value : String) : Option String :=
  if value.isEmpty then none else some value

/-- Give an option its value. Fails if the value is not one for the
option, or if the option has one already. -/
def set (g : Given) (name : OptionName) (value : String) : Option Given :=
  match name with
  | .config => (fill g.config (path? value)).map fun v => { g with config := v }
  | .logLevel => (fill g.logLevel (some value)).map fun v => { g with logLevel := v }
  | .format => (fill g.format (Format.ofOption? value)).map fun v => { g with format := v }
  | .categoryField =>
    (fill g.categoryField (some value)).map fun v => { g with categoryField := v }
  | .fieldNames => (fill g.naming (Naming.ofOption? value)).map fun v => { g with naming := v }
  | .table => (fill g.table (some value)).map fun v => { g with table := v }
  | _ => none

/-- Raise a flag that is not yet raised. -/
def raise (g : Given) (name : OptionName) : Option Given :=
  match name with
  | .extractParameters =>
    if g.extractParameters then none else some { g with extractParameters := true }
  | .strict => if g.strict then none else some { g with strict := true }
  | _ => none

/-- Options of both sides; those after the command count. -/
def merge (before after : Given) : Given where
  config := after.config <|> before.config
  logLevel := after.logLevel <|> before.logLevel
  format := after.format <|> before.format
  categoryField := after.categoryField <|> before.categoryField
  naming := after.naming <|> before.naming
  extractParameters := before.extractParameters || after.extractParameters
  strict := before.strict || after.strict
  table := after.table <|> before.table

def overrides (g : Given) : Overrides where
  categoryField := g.categoryField
  naming := g.naming
  extractParameters := g.extractParameters
  strict := g.strict
  table := g.table

end Given

/-! ## Words -/

/-- The form of one word of the command line. -/
inductive Word where
  /-- `--` -/
  | escape
  /-- `--name` or `--name=value` -/
  | long (name : String) (value : Option String)
  /-- `-n`, `-nvalue` or `-n=value` -/
  | short (name : Char) (value : Option String)
  | plain

/-- Split at the first equals sign. -/
def splitEquals (s : List Char) : String × Option String :=
  match s.dropWhile (· != '=') with
  | _ :: value => (String.ofList (s.takeWhile (· != '=')), some (String.ofList value))
  | [] => (String.ofList s, none)

/-- The value attached to a short option. -/
def attached? : List Char → Option String
  | [] => none
  | '=' :: value => some (String.ofList value)
  | value => some (String.ofList value)

def Word.of (word : String) : Word :=
  match word.toList with
  | ['-', '-'] => .escape
  | '-' :: '-' :: s => let (name, value) := splitEquals s; .long name value
  | '-' :: c :: s => .short c (attached? s)
  | _ => .plain

/-- Can the word be the value of the option before it? -/
def Word.isPlain : Word → Bool
  | .plain => true
  | _ => false

/-! ## Reading -/

inductive ActionName where
  | translate
  | parse
  | batch
  | repl
  | help
  deriving DecidableEq, Repr

def ActionName.of? : String → Option ActionName
  | "translate" => some translate
  | "parse" => some parse
  | "batch" => some batch
  | "repl" => some repl
  | "help" => some help
  | _ => none

/-- The action of a command and its argument, if they go together. -/
def ActionName.action? : ActionName → Option String → Option Action
  | translate, some query => some (.translate query)
  | parse, some query => some (.parse query)
  | batch, some file => (Given.path? file).map .batch
  | repl, none => some .repl
  | _, _ => none

structure State where
  /-- Options before the command. -/
  before : Given := {}
  /-- Options on the current side. -/
  given : Given := {}
  command : Option ActionName := none
  argument : Option String := none
  /-- A double dash was seen. -/
  plainOnly : Bool := false

namespace State

/-- A word that is no option: the command, then its argument. -/
def plain (s : State) (word : String) : Option State :=
  match s.command with
  | none =>
    if s.plainOnly then none
    else
      (ActionName.of? word).map fun name =>
        { s with before := s.given, given := {}, command := some name }
  | some .repl => none
  | some _ =>
    match s.argument with
    | none => some { s with argument := some word }
    | some _ => none

/-- The request of a command line that is read to its end. -/
def finish (s : State) : Request :=
  match s.command.bind fun name => name.action? s.argument with
  | none => .misuse
  | some action =>
    let given := s.before.merge s.given
    .run
      { config := given.config.getD "merlin.yaml"
        format := given.format.getD .text
        overrides := given.overrides
        action := action }

/-- An option without a value. The version is an option of the program,
not of a command. -/
def flag (s : State) (name : OptionName) : Request ⊕ State :=
  match name with
  | .help => .inl .help
  | .version => if s.command.isSome then .inl .misuse else .inl .version
  | _ =>
    match s.given.raise name with
    | some given => .inr { s with given := given }
    | none => .inl .misuse

def set (s : State) (name : OptionName) (value : String) : Option State :=
  (s.given.set name value).map fun given => { s with given := given }

end State

/-- Is the word the command that asks for help? -/
def asksHelp (s : State) (word : String) : Bool :=
  s.command.isNone && !s.plainOnly && word == "help"

/-- Help is for the program or for one command, whose name must be all
that follows. -/
def helpOn : List String → Request
  | [] => .help
  | [name] => if (ActionName.of? name).isSome then .help else .misuse
  | _ => .misuse

/-- Read the words from left to right; the first that cannot be used ends
the reading. So does a short option without a value, whatever is attached
to it. -/
def read (s : State) : List String → Request
  | [] => s.finish
  | word :: rest =>
    let usePlain : Request :=
      if asksHelp s word then helpOn rest
      else
        match s.plain word with
        | some s => read s rest
        | none => .misuse
    let useOption (name : OptionName) (value : Option String) : Request :=
      if name.takesValue then
        match value, rest with
        | some v, rest =>
          match s.set name v with
          | some s => read s rest
          | none => .misuse
        | none, v :: rest =>
          if (Word.of v).isPlain then
            match s.set name v with
            | some s => read s rest
            | none => .misuse
          else .misuse
        | none, [] => .misuse
      else
        match value, s.flag name with
        | some _, _ => .misuse
        | none, .inl request => request
        | none, .inr s => read s rest
    if s.plainOnly then usePlain
    else
      match Word.of word with
      | .plain => usePlain
      | .escape => read { s with plainOnly := true } rest
      | .long name value =>
        match OptionName.ofLong? name with
        | some name => useOption name value
        | none => .misuse
      | .short c value =>
        match OptionName.ofShort? c with
        | some name => useOption name (if name.takesValue then value else none)
        | none => .misuse

def Request.ofArgs (args : List String) : Request := read {} args

end EventQuery.Command
