import StackCompiler.Proofs.Assembly

/-!
# The code of statements, piece by piece

The code of a statement is made of the code of expressions, calls, assignments and input, of jumps
and of single operations. What holds of these, and is kept when code is put behind code, holds of
the code of all statements.
-/

namespace StackCompiler

/-- What holds of no code, and is kept when code is put behind code, holds of the code of some items
if it holds of each. -/
theorem flatMap_of_append {γ : Type} {Q : List Line → Prop} {items : List γ} {code : γ → List Line}
    (hn : Q []) (ha : ∀ {xs ys}, Q xs → Q ys → Q (xs ++ ys)) (h : ∀ n ∈ items, Q (code n)) :
    Q (items.flatMap code) := by
  induction items with
  | nil => exact hn
  | cons n items ih =>
    rw [List.flatMap_cons]
    exact ha (h n (by simp)) (ih fun m hm => h m (by simp [hm]))

namespace Scopes

variable {s : Scopes} {names : Names} {types : Symbol.Id → DataType} {Q : List Line → Prop}
  {ret : Option DataType} {routine : Emitter.Routine} {n : Node}

/-- A property of code that holds of the pieces of statements, and of what they make up. -/
structure Composes (s : Scopes) (names : Names) (types : Symbol.Id → DataType)
    (Q : List Line → Prop) : Prop where
  nil : Q []
  append : ∀ {xs ys}, Q xs → Q ys → Q (xs ++ ys)
  op : ∀ {o : Operation}, o ∈ [.bf, .br, .halt, .retn, .rval, .printValue, .newLine] → Q [.op o]
  value : ∀ {n}, s.IsExpression names n → Q (Assembly.values types n)
  call : ∀ {text id args arity}, names text = some id → s.Takes id args →
    (∀ a ∈ args, s.IsExpression names a) →
    Q (Assembly.call types id arity (Assembly.valuesOf types (Node.list .expressionList args)))
  assignment : ∀ {n}, s.IsAssignment names n → Q (Assembly.assignment types n)
  read : ∀ {n}, s.IsInputTarget names n → Q (Assembly.read types n)
  string : ∀ {text id}, s.resolveConstant ("\"" ++ text ++ "\"") = some id →
    Q [.address id, .op .printString]

namespace Composes

variable (hQ : s.Composes names types Q)
include hQ

theorem flatMap {γ : Type} {items : List γ} {code : γ → List Line} (h : ∀ n ∈ items, Q (code n)) :
    Q (items.flatMap code) :=
  flatMap_of_append hQ.nil hQ.append h

theorem assignments {start : List Node} (h : ∀ n ∈ start, s.IsAssignment names n) :
    Q (Assembly.assignments types (Node.list .assignList start)) := by
  rw [Assembly.assignments,
    Node.listed_list fun n hn => Node.kind_ne_of_not_list (h n hn).not_list rfl]
  exact hQ.flatMap fun n hn => hQ.assignment (h n hn)

theorem input {targets : List Node} (h : ∀ n ∈ targets, s.IsInputTarget names n) :
    Q (Assembly.input types
      (.mk .input none none (Node.list .variableList targets) none none)) := by
  rw [Assembly.input, Node.left, Node.listed_list fun n hn => (h n hn).kind_ne]
  exact hQ.flatMap fun n hn => hQ.read (h n hn)

theorem printEntry (h : s.IsPrintEntry names n) : Q (Assembly.printEntry types n) := by
  unfold Assembly.printEntry
  cases h with
  | string hp hs => exact hQ.string hp
  | value h =>
    rw [if_neg h.not_string]
    exact hQ.append (hQ.value h) (hQ.op (by decide))

theorem print {k : Node.Kind} {entries : List Node} (h : ∀ n ∈ entries, s.IsPrintEntry names n) :
    Q (Assembly.print types (.mk k none none (Node.list .printList entries) none none)) := by
  have hline : Q (if k = .println then [.op .newLine] else []) := by
    split
    · exact hQ.op (by decide)
    · exact hQ.nil
  rw [Assembly.print, Node.left,
    Node.listed_list fun n hn => Node.kind_ne_of_not_list (h n hn).not_list rfl]
  exact hQ.append (hQ.flatMap fun n hn => hQ.printEntry (h n hn)) hline

theorem returns {value : Option Node} (h : s.IsReturn names ret value) :
    Q (Assembly.returns types routine (.mk .returns none none value none none)) := by
  cases routine with
  | main => exact hQ.op (by decide)
  | function =>
    cases h with
    | main | void => exact hQ.op (by decide)
    | value hv he ht =>
      have hrval : Q [.op .rval] := hQ.op (by decide)
      exact hQ.append (hQ.value he) (hQ.append hrval (hQ.op (by decide)))

theorem blockOf {body : List Node} (h : ∀ m ∈ body, ∀ p, Q (Assembly.block types routine m p))
    (p : Nat) : Q (Assembly.blockOf types routine (Node.list .statements body) p) := by
  induction body generalizing p with
  | nil => exact hQ.nil
  | cons m body ih =>
    rw [Assembly.blockOf_list_cons]
    exact hQ.append (h m (by simp) p) (ih (fun m hm => h m (by simp [hm])) _)

theorem statement (hj : ∀ target, Q [.jump target]) (h : s.IsStatement names ret n) (p : Nat) :
    Q (Assembly.block types routine n p) := by
  have hbf : Q [.op .bf] := hQ.op (by decide)
  have hbr : Q [.op .br] := hQ.op (by decide)
  induction h generalizing p with
  | assignment h =>
    obtain ⟨hk, _, _, _, _, _, _⟩ := id h
    rw [Assembly.block_assignment hk]
    exact hQ.assignment h
  | forLoop hs ha he ht hb ih =>
    rw [Assembly.block_forLoop, Assembly.forLoop]
    exact hQ.append (hQ.assignments ha) (hQ.append (hj _) (hQ.append (hQ.value he) (hQ.append hbf
      (hQ.append (hQ.blockOf ih _) (hQ.append (hj _) hbr)))))
  | ifThen hs he ht hb ih =>
    rw [Assembly.block_ifThen]
    exact hQ.append (hj _) (hQ.append (hQ.value he) (hQ.append hbf (hQ.blockOf ih _)))
  | ifElse hs he ht hb ho ihb iho =>
    rw [Assembly.block_ifElse]
    exact hQ.append (hj _) (hQ.append (hQ.value he) (hQ.append hbf (hQ.append (hQ.blockOf ihb _)
      (hQ.append (hj _) (hQ.append hbr (hQ.blockOf iho _))))))
  | repeatLoop hs ha he ht hb ih =>
    rw [Assembly.block_repeatLoop]
    exact hQ.append (hQ.assignments ha) (hQ.append (hQ.blockOf ih _) (hQ.append (hj _)
      (hQ.append (hQ.value he) hbf)))
  | input hne ht =>
    rw [Assembly.block_input]
    exact hQ.input ht
  | print hk hne he =>
    rw [Assembly.block_print hk]
    exact hQ.print he
  | returns h =>
    rw [Assembly.block_returns]
    exact hQ.returns h
  | call hn hc ha =>
    rw [Assembly.block_callStatement]
    exact hQ.call hn hc ha

end Composes

end Scopes

end StackCompiler
