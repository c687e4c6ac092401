import MatlabOutline.Dialect
import MatlabOutline.Text.Digit
import MatlabOutline.Text.Quoted

/-! The options of the command line. Long options may be shortened as long as only one fits, and a
value may be attached with an equals sign. Two dashes on their own end the options. -/
namespace MatlabOutline.Command
open Text

inductive Switch where
  | help | systemRoot | ignore | functionsHaveEnd | noFunctionsHaveEnd | html | json | progress
  | verbose
  deriving DecidableEq, Repr

namespace Switch

def all : List Switch :=
  [help, systemRoot, ignore, functionsHaveEnd, noFunctionsHaveEnd, html, json, progress, verbose]

def long : Switch → Text
  | help => "--help".toList
  | systemRoot => "--system-root".toList
  | ignore => "--ignore".toList
  | functionsHaveEnd => "--functions-have-end".toList
  | noFunctionsHaveEnd => "--no-functions-have-end".toList
  | html => "--html".toList
  | json => "--json".toList
  | progress => "--progress".toList
  | verbose => "--verbose".toList

/-- The name of a switch in messages. -/
def label : Switch → Text
  | help => "-h/--help".toList
  | s => s.long

def takesValue : Switch → Bool
  | systemRoot | ignore | html => true
  | _ => false

def ofName? (name : Text) : Option Switch :=
  if name = "-h".toList then some help else all.find? fun s => s.long = name

end Switch

/-- Why a command line is refused. -/
inductive UsageError where
  | ambiguous (argument : Text) (switches : List Switch)
  | missingValue (switch : Switch)
  | uselessValue (switch : Switch) (value : Text)
  | missingSource
  | unrecognized (arguments : List Text)
  deriving DecidableEq, Repr

namespace UsageError

def reason : UsageError → Text
  | ambiguous argument switches =>
    "ambiguous option: ".toList ++ argument ++ " could match ".toList ++
      joinWith ", ".toList (switches.map Switch.long)
  | missingValue switch => "argument ".toList ++ switch.label ++ ": expected one argument".toList
  | uselessValue switch value =>
    "argument ".toList ++ switch.label ++ ": ignored explicit argument ".toList ++ quoted value
  | missingSource => "the following arguments are required: source".toList
  | unrecognized arguments => "unrecognized arguments: ".toList ++ joinWith " ".toList arguments

/-- The last line of the report on a refused command line, newlines at its end left out. -/
def message (e : UsageError) : Text :=
  let report := "mattags: error: ".toList ++ e.reason
  (restOfLine (report.reverse.dropWhile (· == '\n'))).reverse

end UsageError

/-- An argument by itself: a value, a known switch with the value attached to it, a switch that
nobody knows, or the end of the options. -/
inductive Argument where
  | value (t : Text)
  | switch (s : Switch) (attached : Option Text)
  | unknown (t : Text)
  | separator
  deriving DecidableEq, Repr

namespace Argument

/-- A minus sign with digits, or with a decimal point and digits after it, and perhaps a newline
at the end. -/
def isNegativeNumber : Text → Bool
  | '-' :: t =>
    let body := if t.getLast? = some '\n' then t.dropLast else t
    let rest := body.dropWhile isDecimal
    match rest with
    | [] => !body.isEmpty
    | c :: u => c == '.' && !u.isEmpty && u.all isDecimal
  | _ => false

/-- The value attached to the short help switch, directly or with an equals sign. Letters that
repeat the switch are no value. -/
def attachedToHelp (t : Text) : Option Text :=
  let value := match t with
    | '=' :: u => u
    | u => u
  let rest := value.dropWhile (· == 'h')
  if t.isEmpty || (rest.isEmpty && !value.isEmpty) then none else some rest

/-- Cut an argument at its first equals sign. -/
def cutValue (t : Text) : Text × Option Text := (t.takeWhile (· != '='), afterFirst? '=' t)

/-- What a dash at the start can mean when no switch fits. -/
def withoutSwitch (t : Text) : Argument :=
  if isNegativeNumber t || t.contains ' ' then value t else unknown t

/-- Tell what kind of argument a text is, before the end of the options. -/
def classify (t : Text) : Except UsageError Argument :=
  match t with
  | '-' :: '-' :: _ =>
    let (name, attached) := cutValue t
    match Switch.ofName? t with
    | some s => .ok (switch s none)
    | none =>
      match Switch.ofName? name, Switch.all.filter fun s => name.isPrefixOf s.long with
      | some s, _ => .ok (switch s attached)
      | none, [] => .ok (withoutSwitch t)
      | none, [s] => .ok (switch s attached)
      | none, ss => .error (.ambiguous t ss)
  | '-' :: 'h' :: rest => .ok (switch .help (attachedToHelp rest))
  | '-' :: _ :: _ => .ok (withoutSwitch t)
  | _ => .ok (value t)

/-- Classify the arguments; all that follow the end of the options are values. -/
def classifyAll : List Text → Except UsageError (List Argument)
  | [] => .ok []
  | t :: ts =>
    if t = "--".toList then .ok (separator :: ts.map value)
    else do
      let a ← classify t
      let rest ← classifyAll ts
      return a :: rest

end Argument

/-- The options of a run. A root or an ignored path is `none` where the value of its switch was
lost. -/
structure Options where
  source : Text
  roots : List (Option Text)
  ignore : List (Option Text)
  dialect : Option Dialect
  html : Option Text
  json : Bool
  /-- Whether a progress bar is shown. The bar passes the paths through unchanged and writes to the
  error stream only, outside of what a run reports, so nothing else depends on it. -/
  progress : Bool
  verbose : Bool
  deriving DecidableEq, Repr

/-- What has been read of a command line: the options so far, the source if it was given, and the
arguments that found no place. -/
structure Reading where
  options : Options
  source : Option Text
  extras : List Text
  deriving DecidableEq, Repr

namespace Reading

def start : Reading := ⟨⟨[], [], [], none, none, false, false, false⟩, none, []⟩

def addExtra (r : Reading) (t : Text) : Reading := { r with extras := r.extras ++ [t] }

def setSource (r : Reading) (t : Text) : Reading := { r with source := some t }

/-- The value that arrives at a switch. Two dashes are taken for the end of the options, even
where they are attached, and are lost. -/
def arriving? (v : Text) : Option Text := if v = "--".toList then none else some v

/-- Take a switch with its value. An empty page directory is none. -/
def takeValue (r : Reading) (s : Switch) (v : Text) : Reading :=
  let o := r.options
  { r with options :=
      match s with
      | .systemRoot => { o with roots := o.roots ++ [arriving? v] }
      | .ignore => { o with ignore := o.ignore ++ [arriving? v] }
      | .html => { o with html := (arriving? v).filter fun d => !d.isEmpty }
      | _ => o }

/-- Take a switch without a value. Of two that settle the dialect the last counts. -/
def take (r : Reading) (s : Switch) : Reading :=
  let o := r.options
  { r with options :=
      match s with
      | .functionsHaveEnd => { o with dialect := some .closed }
      | .noFunctionsHaveEnd => { o with dialect := some .unclosed }
      | .json => { o with json := true }
      | .progress => { o with progress := true }
      | .verbose => { o with verbose := true }
      | _ => o }

end Reading

/-- What a command line asks for. -/
inductive Invocation where
  | help
  | run (options : Options)
  deriving DecidableEq, Repr

namespace Invocation

/-- Read classified arguments. The first value that no switch takes is the source, together with
the end of the options next to it. -/
def ofArguments (r : Reading) : List Argument → Except UsageError Invocation
  | [] =>
    match r.source, r.extras with
    | none, _ => .error .missingSource
    | some source, [] => .ok (run { r.options with source })
    | some _, extras => .error (.unrecognized extras)
  | .switch s (some v) :: rest =>
    if s.takesValue then ofArguments (r.takeValue s v) rest else .error (.uselessValue s v)
  | .switch s none :: rest =>
    if s.takesValue then
      match rest with
      | .value v :: rest => ofArguments (r.takeValue s v) rest
      | _ => .error (.missingValue s)
    else if s = .help then .ok help
    else ofArguments (r.take s) rest
  | .value v :: rest =>
    match r.source, rest with
    | none, .separator :: rest => ofArguments (r.setSource v) rest
    | none, rest => ofArguments (r.setSource v) rest
    | some _, rest => ofArguments (r.addExtra v) rest
  | .separator :: rest =>
    match r.source, rest with
    | none, .value v :: rest => ofArguments (r.setSource v) rest
    | _, rest => ofArguments (r.addExtra "--".toList) rest
  | .unknown t :: rest => ofArguments (r.addExtra t) rest

/-- Read a command line. -/
def parse (arguments : List Text) : Except UsageError Invocation := do
  ofArguments .start (← Argument.classifyAll arguments)

end Invocation
end MatlabOutline.Command
