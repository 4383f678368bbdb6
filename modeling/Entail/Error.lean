/-!
# Errors

An `Error` has a code, a message and, where there is more to say, a context and a hint.
`Error.display` is its text for a person. The codes fall into classes by their number: 1000 and up
for a store that does not fit its rules, 2000 for rule sets that cannot be maintained, 5000 for
malformed input, 7000 for settings and 9000 for anything else. An error with a `fatal` code leaves
the materialization unusable.
-/

namespace Entail

/-- The kinds of error. -/
inductive ErrorCode where
  /-- A fact that must be in the store is missing. -/
  | invariantViolation
  /-- A work structure could not grow. -/
  | resourceExhausted
  /-- The levels of the rules are no stratification. -/
  | invalidStratification
  /-- Negation without levels. -/
  | unstratifiableNegation
  /-- The strategy does not support the mode. -/
  | unsupportedMode
  /-- A variable of a rule is not bound. -/
  | unsafeRule
  /-- Malformed input. -/
  | validationError
  /-- Input in the wrong format. -/
  | invalidFormat
  /-- Settings that cannot be used. -/
  | configError
  /-- No such settings file. -/
  | configNotFound
  /-- Malformed settings. -/
  | invalidConfigSyntax
  /-- No such profile. -/
  | unknownProfile
  /-- Anything else. -/
  | internalError
  deriving DecidableEq, Repr, Inhabited

namespace ErrorCode

/-- Every code. -/
def all : List ErrorCode :=
  [invariantViolation, resourceExhausted, invalidStratification, unstratifiableNegation,
    unsupportedMode, unsafeRule, validationError, invalidFormat, configError, configNotFound,
    invalidConfigSyntax, unknownProfile, internalError]

/-- The number of a code. -/
def number : ErrorCode → Nat
  | invariantViolation => 1000
  | resourceExhausted => 1001
  | invalidStratification => 2000
  | unstratifiableNegation => 2001
  | unsupportedMode => 2002
  | unsafeRule => 2003
  | validationError => 5000
  | invalidFormat => 5001
  | configError => 7000
  | configNotFound => 7001
  | invalidConfigSyntax => 7002
  | unknownProfile => 7003
  | internalError => 9000

/-- The name of a code in written data. -/
def name : ErrorCode → String
  | invariantViolation => "INVARIANT_VIOLATION"
  | resourceExhausted => "RESOURCE_EXHAUSTED"
  | invalidStratification => "INVALID_STRATIFICATION"
  | unstratifiableNegation => "UNSTRATIFIABLE_NEGATION"
  | unsupportedMode => "UNSUPPORTED_MODE"
  | unsafeRule => "UNSAFE_RULE"
  | validationError => "VALIDATION_ERROR"
  | invalidFormat => "INVALID_FORMAT"
  | configError => "CONFIG_ERROR"
  | configNotFound => "CONFIG_NOT_FOUND"
  | invalidConfigSyntax => "INVALID_CONFIG_SYNTAX"
  | unknownProfile => "UNKNOWN_PROFILE"
  | internalError => "INTERNAL_ERROR"

/-- A short description of a code. -/
def description : ErrorCode → String
  | invariantViolation => "Invariant violation"
  | resourceExhausted => "Resource exhausted"
  | invalidStratification => "Invalid stratification"
  | unstratifiableNegation => "Unstratifiable negation"
  | unsupportedMode => "Unsupported reasoning mode"
  | unsafeRule => "Unsafe rule"
  | validationError => "Validation error"
  | invalidFormat => "Invalid format"
  | configError => "Configuration error"
  | configNotFound => "Configuration file not found"
  | invalidConfigSyntax => "Invalid configuration syntax"
  | unknownProfile => "Unknown profile"
  | internalError => "Internal error"

/-- Whether an error with this code leaves the materialization unusable. -/
def fatal : ErrorCode → Bool
  | invariantViolation | resourceExhausted | internalError => true
  | _ => false

/-- The code with a name. -/
def ofName? (name : String) : Option ErrorCode :=
  all.find? fun code => code.name == name

end ErrorCode

/-- What is known about the circumstances of an error. -/
structure ErrorContext where
  /-- Named details, one value for each name. -/
  fields : List (String × String) := []
  /-- The place where the error arose. -/
  location : Option String := none
  causes : List String := []
  deriving DecidableEq, Repr, Inhabited

namespace ErrorContext

/-- The context with `value` as the detail named `key`. -/
def field (c : ErrorContext) (key value : String) : ErrorContext :=
  { c with fields := c.fields.filter (·.1 != key) ++ [(key, value)] }

/-- The context with a place. -/
def located (c : ErrorContext) (location : String) : ErrorContext :=
  { c with location := some location }

/-- The context with one more cause. -/
def cause (c : ErrorContext) (text : String) : ErrorContext :=
  { c with causes := c.causes ++ [text] }

end ErrorContext

/-- Something that went wrong. -/
structure Error where
  code : ErrorCode
  message : String
  context : Option ErrorContext := none
  /-- How the error may be avoided. -/
  hint : Option String := none
  deriving DecidableEq, Repr, Inhabited

namespace Error

/-- The error with its context changed by `f`; an error without context starts from an empty one. -/
def inContext (e : Error) (f : ErrorContext → ErrorContext) : Error :=
  { e with context := some (f (e.context.getD {})) }

/-- The error with `value` as the detail named `key`. -/
def withField (e : Error) (key value : String) : Error :=
  e.inContext fun c => c.field key value

/-- The error with one more cause. -/
def withCause (e : Error) (text : String) : Error :=
  e.inContext fun c => c.cause text

/-- The error with a place. -/
def locatedAt (e : Error) (location : String) : Error :=
  e.inContext fun c => c.located location

/-- The error with a hint. -/
def withHint (e : Error) (hint : String) : Error :=
  { e with hint := some hint }

/-- A fact that the rules refer to is not in the store. -/
def invariantViolation (message : String) : Error := ⟨.invariantViolation, message, none, none⟩

/-- The structure `what` could not take `requested` entries. -/
def resourceExhausted (what : String) (requested : Nat) : Error :=
  ⟨.resourceExhausted, s!"{what} could not grow by {requested} entries", none, none⟩

/-- The levels of the rules are no stratification. -/
def invalidStratification (message : String) : Error :=
  ⟨.invalidStratification, message, none, none⟩

/-- Rules with negation cannot be maintained without levels. -/
def unstratifiableNegation (message : String) : Error :=
  ⟨.unstratifiableNegation, message, none,
    some "enable by_levels and give every rule a component level"⟩

/-- The strategy does not support the mode. -/
def unsupportedMode (message : String) : Error := ⟨.unsupportedMode, message, none, none⟩

/-- A rule has a variable that nothing binds. -/
def unsafeRule (message : String) : Error := ⟨.unsafeRule, message, none, none⟩

/-- Some input is malformed. -/
def validation (message : String) : Error := ⟨.validationError, message, none, none⟩

/-- The settings cannot be used. -/
def config (message : String) : Error := ⟨.configError, message, none, none⟩

/-- Anything else. -/
def internal (message : String) : Error := ⟨.internalError, message, none, none⟩

/-- Some settings are malformed. -/
def invalidConfig (message : String) : Error := ⟨.invalidConfigSyntax, message, none, none⟩

/-- Some input is not valid JSON. -/
def invalidJson (message : String) : Error :=
  withField ⟨.invalidFormat, message, none, none⟩ "format" "JSON"

/-- The text of a context: the place, then the causes on lines of their own. -/
def displayContext (c : ErrorContext) : String :=
  let place := match c.location with
    | some location => " at " ++ location
    | none => ""
  let causes := if c.causes.isEmpty then "" else
    "\nCaused by:" ++ String.join (c.causes.map ("\n  - " ++ ·))
  place ++ causes

/-- The text of an error. -/
def display (e : Error) : String :=
  let context := match e.context with
    | some c => displayContext c
    | none => ""
  let hint := match e.hint with
    | some hint => "\nHint: " ++ hint
    | none => ""
  "[" ++ toString e.code.number ++ "] " ++ e.message ++ context ++ hint

end Error

/-- What keeps a file from being read. -/
inductive Obstacle where
  /-- There is no such file. -/
  | notFound
  /-- Something on the way to the file is no directory. -/
  | notDirectory
  /-- There is something at the path, but it cannot be read. -/
  | other
  deriving DecidableEq, Repr, Inhabited

/-- Why a file cannot be read. -/
structure ReadFailure where
  obstacle : Obstacle
  message : String
  deriving DecidableEq, Repr, Inhabited

namespace ReadFailure

/-- There is no such file. -/
def notFound : ReadFailure := ⟨.notFound, "No such file or directory (os error 2)"⟩

/-- A file stands where the path needs a directory. -/
def notDirectory : ReadFailure := ⟨.notDirectory, "Not a directory (os error 20)"⟩

/-- The path leads to a directory. -/
def isDirectory : ReadFailure := ⟨.other, "Is a directory (os error 21)"⟩

/-- The error that a file which cannot be read amounts to. -/
def toError (f : ReadFailure) : Error :=
  ⟨if f.obstacle = .notFound then .configNotFound else .internalError, f.message, none, none⟩

end ReadFailure

/-- Why an operation gave no result. -/
inductive Failure where
  /-- The operation reports an error. -/
  | error (e : Error)
  /-- The caller asked for something that does not exist, such as a level beyond the last or a
  variable that its rule does not have. -/
  | misuse
  /-- The bound on the number of steps was too small. -/
  | exhausted
  deriving DecidableEq, Repr, Inhabited

/-- What a person is told about a failure. -/
def Failure.message : Failure → String
  | error e => e.display
  | misuse => "the request does not fit the store"
  | exhausted => "the bound on the number of steps was too small"

end Entail
