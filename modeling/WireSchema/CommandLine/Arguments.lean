import WireSchema.Compile
import WireSchema.Files.Path
import WireSchema.Journal
import WireSchema.Resolution

/-!
# Arguments

The words of a command line and the settings they give.  Every setting takes one value, in
the next word or in the same one: `-i v`, `-iv`, `-i=v`, `--input v`, `--input=v`.
-/

namespace WireSchema

inductive Setting where
  | input
  | output
  | emit
  | logLevel
  | traceResolver
  | traceSorter
  deriving DecidableEq, Repr

/-- Why the words of a command line are not accepted, or what they ask for instead of a
    compilation. -/
inductive UsageFault where
  | missingRequired
  | invalidValue
  | emptyValue
  | unknownArgument
  | repeatedUse
  | help
  | version
  deriving DecidableEq, Repr

namespace Setting

def all : List Setting := [.input, .output, .emit, .logLevel, .traceResolver, .traceSorter]

def longName : Setting → String
  | .input => "input"
  | .output => "output"
  | .emit => "emit"
  | .logLevel => "log-level"
  | .traceResolver => "trace-resolver"
  | .traceSorter => "trace-sorter"

def ofLongName? (name : String) : Option Setting := all.find? fun s => s.longName == name

def ofShortName? (c : Char) : Option Setting :=
  if c == 'i' then some .input else if c == 'o' then some .output else none

def required : List Setting := [.input, .output]

def default? : Setting → Option String
  | .emit => some "c"
  | _ => none

end Setting

def Setting.accepts : Setting → String → Bool
  | .emit, value => (Target.ofName? value).isSome
  | .logLevel, value => (Level.ofName? value).isSome
  | _, _ => true

/-! ### Reading words -/

structure Usage where
  /-- The settings used, last one first, each with its value if it has one. -/
  uses : List (Setting × Option String) := []
  /-- The last setting used may take the next word as its value. -/
  waiting : Bool := false
  /-- No more settings can come. -/
  ended : Bool := false
  deriving DecidableEq, Repr

namespace Usage

/-- A value without the equal signs it starts with. -/
def valueOf (cs : List Char) : String := String.ofList (cs.dropWhile (· == '='))

def use (u : Usage) (setting : Setting) (value : Option String) : Usage :=
  { u with uses := (setting, value) :: u.uses, waiting := value.isNone }

def fill (u : Usage) (value : String) : Usage :=
  match u.uses with
  | (setting, _) :: rest =>
    { u with uses := (setting, some value) :: rest, waiting := false }
  | [] => u

/-- A word with a long name; `cs` is the word without its dashes. -/
def long (u : Usage) (cs : List Char) : Except UsageFault Usage :=
  let (name, value) := match Text.splitFirst? '=' cs with
    | some (name, value) => (String.ofList name, some (valueOf value))
    | none => (String.ofList cs, none)
  match Setting.ofLongName? name with
  | some setting => .ok (u.use setting value)
  | none =>
    if name == "help" then .error .help
    else if name == "version" then .error .version
    else .error .unknownArgument

def short (u : Usage) (c : Char) (rest : List Char) : Except UsageFault Usage :=
  match Setting.ofShortName? c with
  | some setting => .ok (u.use setting (if rest.isEmpty then none else some (valueOf rest)))
  | none =>
    if c == 'h' then .error .help
    else if c == 'V' then .error .version
    else .error .unknownArgument

/-- Take in a word.  A dash alone is a value, and two dashes end the settings. -/
def take (u : Usage) (word : String) : Except UsageFault Usage :=
  if u.ended then .error .unknownArgument
  else
    match word.toList with
    | ['-', '-'] => .ok { u with ended := true }
    | '-' :: '-' :: cs => u.long (cs.dropWhile (· == '-'))
    | '-' :: c :: rest => u.short c rest
    | _ => if u.waiting then .ok (u.fill word) else .error .unknownArgument

/-! ### Checking -/

def given (u : Usage) (setting : Setting) : List String :=
  u.uses.reverse.filterMap fun use => if use.1 = setting then use.2 else none

def count (u : Usage) (setting : Setting) : Nat := u.uses.countP fun use => use.1 = setting

/-- The values of a setting: those given, or else its default. -/
def values (u : Usage) (setting : Setting) : List String :=
  if (u.given setting).isEmpty then setting.default?.toList else u.given setting

def checkRequired (u : Usage) : Except UsageFault Unit :=
  if Setting.required.all fun s => decide (0 < u.count s) then .ok ()
    else .error .missingRequired

/-- A setting at the end of the words that still waits has some other value. -/
def checkWaiting (u : Usage) : Except UsageFault Unit :=
  match u.waiting, u.uses with
  | true, (setting, _) :: _ => do
    u.checkRequired
    if (u.values setting).isEmpty then .error .emptyValue else .ok ()
  | _, _ => .ok ()

/-- A setting that is used has a value, all its values are allowed, and it is used once. -/
def checkSetting (u : Usage) (setting : Setting) : Except UsageFault Unit :=
  if u.count setting = 0 then .ok ()
  else if (u.values setting).isEmpty then .error .emptyValue
  else if !(u.values setting).all setting.accepts then .error .invalidValue
  else if 1 < u.count setting then .error .repeatedUse
  else .ok ()

end Usage

/-! ### Arguments -/

structure Arguments where
  input : Path
  output : Path
  target : Target := .c
  level : Option Level := none
  traceResolver : Option String := none
  traceSorter : Option String := none
  deriving DecidableEq, Repr

namespace Arguments

def parse (words : List String) : Except UsageFault Arguments := do
  let u ← words.foldlM Usage.take {}
  u.checkWaiting
  u.checkRequired
  Setting.all.forM u.checkSetting
  let value (setting : Setting) : Option String := (u.values setting).head?
  return {
    input := ⟨(value .input).getD ""⟩
    output := ⟨(value .output).getD ""⟩
    target := ((value .emit).bind Target.ofName?).getD .c
    level := (value .logLevel).bind Level.ofName?
    traceResolver := value .traceResolver
    traceSorter := value .traceSorter }

/-- The selection that a trace setting asks for, or the message that its value spells
    none. -/
def selection (setting : Setting) (value : Option String) : Except String Selection :=
  match value with
  | none => .ok .off
  | some text =>
    match Selection.parse text with
    | some s => .ok s
    | none => .error ("Invalid value for --" ++ setting.longName ++ ": " ++ text)

def resolverSelection (a : Arguments) : Except String Selection :=
  selection .traceResolver a.traceResolver

def sorterSelection (a : Arguments) : Except String Selection :=
  selection .traceSorter a.traceSorter

end Arguments

end WireSchema
