import StackCompiler.Yaml.Property
import StackCompiler.Yaml.Scalar

/-!
# Tokens

Tokens tell the structure of a document. That of indented blocks is made explicit by tokens at
their start and end.
-/

namespace StackCompiler.Yaml

inductive Token where
  | directive (d : Directive)
  | documentStart
  | documentEnd
  | blockSequenceStart
  | blockMappingStart
  | blockEnd
  | flowSequenceStart
  | flowSequenceEnd
  | flowMappingStart
  | flowMappingEnd
  | blockEntry
  | flowEntry
  | key
  | value
  | reference (name : String)
  | anchor (name : String)
  | tag (t : ShortTag)
  | scalar (style : Style) (text : String)
deriving DecidableEq, Repr

end StackCompiler.Yaml
