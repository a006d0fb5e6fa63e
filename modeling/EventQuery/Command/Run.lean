import EventQuery.Command.Batch
import EventQuery.Command.Files
import EventQuery.Command.Prompt
import EventQuery.Config.Json
import EventQuery.Query.Json

/-!
# The program

A run as a function: from the arguments, the files and the standard
input to the exit code and the two outputs.
-/

namespace EventQuery.Command

/-! ## Settings -/

/-- The settings of a configuration file; a missing file gives the
defaults. -/
def loadSettings (files : Files) (path : String) : Except Complaint Settings :=
  match files path with
  | .missing _ => .ok {}
  | .unreadable reason =>
    .error ⟨"IO error accessing " ++ Text.quoted path ++ ": " ++ reason, none⟩
  | .text contents =>
    match Settings.ofText? contents with
    | some s => .ok s
    | none => .error ⟨"Parse error in " ++ Text.quoted path ++ ": not a configuration", none⟩

/-- A schema that cannot be built is named again as the cause. -/
def problemComplaint : Settings.Problem → Complaint
  | .emptySchema => ⟨Settings.Problem.emptySchema.message, none⟩
  | .schema e => ⟨(Settings.Problem.schema e).message, some e.message⟩

def settingsOptions (s : Settings) : Except Complaint Options :=
  match s.options with
  | .ok o => .ok o
  | .error p => .error (problemComplaint p)

/-! ## Actions -/

def filterText (format : Format) (t : Filter) : String :=
  match format with
  | .json => (Json.object t.members).pretty ++ "\n"
  | .text => t.whereClause ++ "\n" ++ t.parameterLines

def runTranslate (o : Options) (strict : Bool) (format : Format) (query : String) : Outcome :=
  match Filter.ofTextWith o strict query with
  | .ok t => .done (filterText format t)
  | .error f => .failed "" ⟨"failed to translate " ++ Text.quoted query, some f.message⟩

def runParse (query : String) : Outcome :=
  match parse query with
  | .ok q => .done (q.json.pretty ++ "\n")
  | .error f => .failed "" ⟨f.message, none⟩

def runBatch (o : Options) (strict : Bool) (format : Format) (files : Files) (file : String) :
    Outcome :=
  match files file with
  | .text contents => batch o strict format contents
  | .missing reason => .failed "" ⟨"failed to read " ++ file, some reason⟩
  | .unreadable reason => .failed "" ⟨"failed to read " ++ file, some reason⟩

/-! ## Runs -/

def runInvocation (files : Files) (input : String) (i : Invocation) : Except Complaint Outcome := do
  let settings := (← loadSettings files i.config).override i.overrides
  let options ← settingsOptions settings
  match i.action with
  | .translate query => return runTranslate options settings.strict i.format query
  | .parse query => return runParse query
  | .batch file => return runBatch options settings.strict i.format files file
  | .repl => return .done (conversation options settings.strict settings.table input)

def versionText : String := "merlin 0.1.0\n"

def usage : String :=
  "Usage: merlin [OPTIONS] <COMMAND>\n\nCommands:\n"
    ++ "  translate  Translate one query into a SQL WHERE clause\n"
    ++ "  parse      Print the parse tree of a query as JSON\n"
    ++ "  batch      Translate every line of a file\n"
    ++ "  repl       Interactive translator; type \"exit\" to quit\n"

def run (files : Files) (input : String) (args : List String) : Outcome :=
  match Request.ofArgs args with
  | .version => .done versionText
  | .help => .done usage
  | .misuse => ⟨2, "", usage⟩
  | .run i =>
    match runInvocation files input i with
    | .ok outcome => outcome
    | .error complaint => .failed "" complaint

end EventQuery.Command
