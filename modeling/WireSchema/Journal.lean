/-!
# Notices and journals

A stage of the compiler writes notices as it works: log records and trace lines.  A
`Journal` is a computation together with the notices it has written, whether it succeeded
or failed.
-/

namespace WireSchema

/-! ### Notices -/

inductive Level where
  | error
  | warn
  | info
  | debug
  | trace
  deriving DecidableEq, Repr

/-- The rank of a level; a higher rank is less important. -/
def Level.rank : Level → Nat
  | .error => 1
  | .warn => 2
  | .info => 3
  | .debug => 4
  | .trace => 5

def Level.title : Level → String
  | .error => "ERROR"
  | .warn => "WARN"
  | .info => "INFO"
  | .debug => "DEBUG"
  | .trace => "TRACE"

def Level.name : Level → String
  | .error => "error"
  | .warn => "warn"
  | .info => "info"
  | .debug => "debug"
  | .trace => "trace"

def Level.all : List Level := [.error, .warn, .info, .debug, .trace]

def Level.ofName? (name : String) : Option Level :=
  all.find? fun level => level.name == name

inductive Stage where
  | schema
  | symbolTable
  | resolution
  | order
  | project
  deriving DecidableEq, Repr

def Stage.title : Stage → String
  | .schema => "yis::compiler::schema"
  | .symbolTable => "yis::compiler::semantics::symbol_table"
  | .resolution => "yis::compiler::semantics"
  | .order => "yis::compiler::semantics::dependency_sorter"
  | .project => "yis::project::project"

inductive TraceAction where
  | widthOf
  | valueOf
  | visit
  deriving DecidableEq, Repr

def TraceAction.title : TraceAction → String
  | .widthOf => "width_of"
  | .valueOf => "value_of"
  | .visit => "visit"

structure TraceLine where
  action : TraceAction
  number : Nat
  name : String
  deriving DecidableEq, Repr

def TraceLine.text (line : TraceLine) : String :=
  line.action.title ++ " <- #" ++ toString line.number ++ " " ++ line.name

inductive Notice where
  | log (level : Level) (stage : Stage) (message : String)
  | trace (line : TraceLine)
  deriving DecidableEq, Repr

/-! ### Journals -/

structure Journal (ε α : Type) where
  notices : List Notice
  outcome : Except ε α

namespace Journal

variable {ε α β : Type}

def done (a : α) : Journal ε α := ⟨[], .ok a⟩

def fail (e : ε) : Journal ε α := ⟨[], .error e⟩

/-- One computation after another; a failure is the end. -/
def andThen (x : Journal ε α) (f : α → Journal ε β) : Journal ε β :=
  match x.outcome with
  | .ok a => ⟨x.notices ++ (f a).notices, (f a).outcome⟩
  | .error e => ⟨x.notices, .error e⟩

instance : Monad (Journal ε) where
  pure := done
  bind := andThen

def ofExcept (outcome : Except ε α) : Journal ε α := ⟨[], outcome⟩

def write (notices : List Notice) : Journal ε Unit := ⟨notices, .ok ()⟩

def log (level : Level) (stage : Stage) (message : String) : Journal ε Unit :=
  write [.log level stage message]

/-- The same computation with its failure seen otherwise. -/
def mapError {δ : Type} (f : ε → δ) (x : Journal ε α) : Journal δ α :=
  ⟨x.notices, x.outcome.mapError f⟩

end Journal

end WireSchema
