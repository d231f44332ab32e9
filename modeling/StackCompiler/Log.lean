import StackCompiler.Code.Module
import StackCompiler.Diagnostic.Fault

/-!
# The log of a compilation

What happened, in order. Each event has a level and a text.
-/

namespace StackCompiler

inductive Log.Level where
  | error | warn | info | debug | trace
deriving DecidableEq, Repr

namespace Log.Level

def rank : Level → Nat
  | error => 1
  | warn => 2
  | info => 3
  | debug => 4
  | trace => 5

def text : Level → String
  | error => "ERROR"
  | warn => "WARN"
  | info => "INFO"
  | debug => "DEBUG"
  | trace => "TRACE"

end Log.Level

inductive Log.Event where
  | scopeCreated (name : String)
  | bound (kind : Symbol.Kind) (name : String) (storage : Storage)
  | warned (remark : Remark)
  | rejected (error : ParseError)
  | tree (root : Node)
  | mainFrame (slots : Nat)
  | functionStarts (scope : String) (position : Nat)
  | emitted (placed : Code.Placed)
  | moduleSized (bytes : Nat)
  | symbols (scopes : Scopes)
  | code (code : Code)

namespace Log.Event

def level : Event → Level
  | warned _ => .warn
  | emitted _ => .trace
  | _ => .debug

def text : Event → String
  | scopeCreated name => s!"create scope {name}"
  | bound kind name st => s!"{kind.text} '{name}' bound to {st.region.index}:{st.offset}"
  | warned a => a.text
  | rejected e => e.text
  | tree root => "syntax tree:\n" ++ root.text
  | mainFrame slots => s!"main frame: {slots} slot(s)"
  | functionStarts scope position => s!"function {scope} at {position}"
  | emitted p => p.text
  | moduleSized bytes => s!"module size {bytes} bytes"
  | symbols s => s.text
  | code c => c.text

end Log.Event

abbrev Log := Array Log.Event

def Log.lines (rank : Nat) (log : Log) : List String :=
  (log.toList.filter fun e => e.level.rank ≤ rank).map fun e => e.level.text ++ " " ++ e.text

end StackCompiler
