import StackCompiler.Token.Basic

/-!
# Remarks

A message about a stretch of the source text.
-/

namespace StackCompiler

inductive Severity where
  | error | warning
deriving DecidableEq, Repr

def Severity.text : Severity → String
  | error => "Error"
  | warning => "Warning"

structure Remark where
  severity : Severity
  position : Position
  -- The number of characters to underline.
  length : Nat
  message : String
deriving DecidableEq, Repr

namespace Remark

def ofToken (severity : Severity) (t : Token) (message : String) : Remark :=
  ⟨severity, t.position, t.width, message⟩

def isError (a : Remark) : Bool := a.severity = .error

def isWarning (a : Remark) : Bool := a.severity = .warning

def text (a : Remark) : String :=
  s!"{a.severity.text}: {a.message} ({a.position.text})"

end Remark

end StackCompiler
