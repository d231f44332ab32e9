import StackCompiler.Program.Code

/-!
# Compiling

From the text of a program to the text of its module.
-/

namespace StackCompiler

inductive Error where
  | rejected (remarks : List Remark)
  | defect (d : Defect)
  | unwritable

def Error.message : Error → String
  | rejected remarks =>
    "compilation failed" ++ String.join (remarks.map fun r => "\n  " ++ r.text)
  | defect d => "internal compiler error: " ++ d.message
  | unwritable => "an error occurred when formatting an argument"

structure Dumps where
  tree : Bool
  symbols : Bool
  code : Bool
deriving DecidableEq, Repr

def Dumps.none : Dumps := ⟨false, false, false⟩

structure Compiled where
  moduleText : String
  remarks : List Remark

def compile (source : String) (dumps : Dumps) : Except Error Compiled × Log :=
  let parsed := parseSource source .empty
  match parsed.root with
  | none => (.error (.rejected parsed.remarks), parsed.log)
  | some root =>
    let log := if dumps.tree then parsed.log.push (.tree root) else parsed.log
    let generated := generate root parsed.scopes
    let log := log ++ generated.log
    match generated.code with
    | .error d => (.error (.defect d), log)
    | .ok code =>
      let built := code.build generated.scopes
      let log := match built.size with
        | some n => log.push (.moduleSized n)
        | none => log
      match built.result with
      | .error d => (.error (.defect d), log)
      | .ok text =>
        let log := if dumps.symbols then log.push (.symbols built.scopes) else log
        let log := if dumps.code then log.push (.code built.code) else log
        (.ok ⟨text, parsed.remarks⟩, log)

end StackCompiler
