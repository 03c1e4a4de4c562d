import RunTable.EvalError

/-!
# Errors of a request

A request fails for a reason of its own, which is told to the caller word for word, or for a reason
inside the system, which is not. Reasons are kept as causes; their wording is decided here and
nowhere else.
-/

namespace RunTable

/-- What is wrong with the text of a filter. -/
inductive FilterFault where
  | notJson
  /-- The text is JSON of another kind than an object. -/
  | notObject (got : Json)
  | other (description : String)

/-- What is wrong with the text of a parameter. -/
inductive ParameterFault where
  /-- A page of no rows was asked for. -/
  | zero
  /-- The text is not a natural number of 64 bits. -/
  | notNatural (got : String)
  | notDirection
  | notRunId (got : String)
  | other (description : String)

/-- What is wrong with the stored column definitions. -/
inductive CatalogFault where
  | metricColumn (position : Nat)
  | customColumn (position : Nat)
  | other (description : String)

/-- Why a request has no answer. -/
inductive Error where
  | filterSyntax (fault : FilterFault)
  | parameter (name : String) (fault : ParameterFault)
  | store (cause : EvalError)
  | catalog (fault : CatalogFault)
  /-- A text that should be JSON is not. -/
  | json

def FilterFault.message : FilterFault → String
  | notJson => "query is not valid JSON"
  | notObject got => "query must be a JSON object, got " ++ got.text
  | other description => description

def ParameterFault.message : ParameterFault → String
  | zero => "must be at least 1"
  | notNatural got => "expected a non-negative integer, got `" ++ got ++ "`"
  | notDirection => "expected 1 or -1"
  | notRunId got => "`" ++ got ++ "` is not a run id"
  | other description => description

def CatalogFault.message : CatalogFault → String
  | metricColumn position => "metric column #" ++ Nat.repr position ++ " is malformed"
  | customColumn position => "custom column #" ++ Nat.repr position ++ " is malformed"
  | other description => description

namespace Error

def message : Error → String
  | filterSyntax fault => "Invalid filter syntax: " ++ fault.message
  | parameter name fault => "Invalid parameter `" ++ name ++ "`: " ++ fault.message
  | store cause => "Store execution failed: " ++ cause.message
  | catalog fault => "Column catalog error: " ++ fault.message
  | json => "JSON error"

/-- Whether the request is to blame. -/
def isClientError : Error → Bool
  | filterSyntax _ => true
  | parameter _ _ => true
  | _ => false

/-- What a caller is told of an error inside the system. -/
def internalMessage : String := "internal server error"

def publicMessage (e : Error) : String := if e.isClientError then e.message else internalMessage

def status (e : Error) : Nat := if e.isClientError then 400 else 500

end Error

end RunTable
