import StackCompiler.Declaration.Parser
import StackCompiler.Proofs.Logic
import StackCompiler.Statement.Parser

/-!
# Checks on symbols

Many steps of a parser only look at symbols, and make some. Such a step goes the same way whatever
tokens lie ahead, whatever was reported and however many parentheses are open, and leaves all of
that alone. If it fails, then not because it had to consume a token.
-/

namespace StackCompiler.Parser

variable {α β : Type} {p q : Parser α} {s s' : State}

/-- The state `u` with the symbols of `s`. -/
def State.onto (s u : State) : State := { u with scopes := s.scopes, function := s.function }

/-- The parser only concerns symbols. -/
def Aside (p : Parser α) : Prop :=
  ∀ s u : State, wp (fun e s' => e.fault ≠ .noProgress ∧ p (s.onto u) = .error e (s'.onto u)) p
    (fun a s' => p (s.onto u) = .ok a (s'.onto u)) s

namespace Aside

theorem of_ok (h : Aside p) {a : α} (hp : p s = .ok a s') :
    s' = s'.onto s ∧ ∀ u, p (s.onto u) = .ok a (s'.onto u) := by
  have hrun (u : State) : p (s.onto u) = .ok a (s'.onto u) := by
    have hu := h s u
    rwa [wp, hp] at hu
  have hself := hp.symm.trans (hrun s)
  injection hself with _ hs
  exact ⟨hs, hrun⟩

theorem of_error (h : Aside p) {e : ParseError} (hp : p s = .error e s') :
    s' = s'.onto s ∧ ∀ u, p (s.onto u) = .error e (s'.onto u) := by
  have hrun (u : State) : p (s.onto u) = .error e (s'.onto u) := by
    have hu := h s u
    rw [wp, hp] at hu
    exact hu.2
  have hself := hp.symm.trans (hrun s)
  injection hself with _ hs
  exact ⟨hs, hrun⟩

theorem pure (a : α) : Aside (pure a : Parser α) := fun _ _ => rfl

theorem fail (t : Token) {f : Fault} (hf : f ≠ .noProgress) : Aside (fail t f : Parser α) :=
  fun _ _ => ⟨hf, rfl⟩

theorem bind {f : α → Parser β} (hp : Aside p) (hf : ∀ a, Aside (f a)) : Aside (p >>= f) := by
  intro s u
  rw [wp_bind]
  refine wp_weaken (hp s u) (fun e s' h => ⟨h.1, bind_of_error h.2⟩) fun a s' h => ?_
  rw [bind_of_ok h]
  exact hf a s' u

theorem ite {c : Prop} [Decidable c] (h : Aside p) (h' : Aside q) :
    Aside (if c then p else q) := by
  split
  · exact h
  · exact h'

theorem forIn {f : α → Parser PUnit} (h : ∀ a, Aside (f a)) (as : List α) :
    Aside (forIn as PUnit.unit fun a _ => f a >>= fun _ => Pure.pure (.yield PUnit.unit)) := by
  induction as with
  | nil => exact pure _
  | cons a as ih =>
    simp only [List.forIn_cons, bind_assoc, pure_bind]
    exact (h a).bind fun _ => ih

end Aside

theorem aside_leaveScope : Aside leaveScope := fun _ _ => rfl

theorem aside_statementScope (construct : String) (t : Token) :
    Aside (statementScope construct t) := fun _ _ => rfl

theorem aside_resolve (name : String) : Aside (resolve name) := fun _ _ => rfl

theorem aside_symbol? (id : Symbol.Id) : Aside (symbol? id) := fun _ _ => rfl

theorem aside_addAttribute (id : Symbol.Id) (a : Symbol.Attribute) : Aside (addAttribute id a) :=
  fun _ _ => rfl

theorem aside_typeOf (n : Node) : Aside (typeOf n) := fun _ _ => rfl

theorem aside_typed (n : Node) (type : DataType) (t : Token) : Aside (typed n type t) :=
  fun _ _ => rfl

theorem aside_isImmutable (id : Symbol.Id) : Aside (isImmutable id) := fun _ _ => rfl

theorem aside_intern (key : String) (t : Token) (kind : Symbol.Kind) (type : DataType)
    (value : Symbol.Attribute) : Aside (intern key t kind type value) := by
  intro s u
  rw [intern, wp_modifyGet, modifyGet_eq]
  cases hr : s.scopes.resolveConstant key <;> simp only [State.onto, hr]

theorem aside_namesType (g : DataType → Bool) (id : Symbol.Id) : Aside (namesType g id) := by
  refine (aside_symbol? id).bind fun sym => ?_
  cases sym with
  | none => exact .pure _
  | some _ => exact .pure _

theorem aside_checkFresh (t : Token) : Aside (checkFresh t) := by
  intro s u
  have hfail : Aside (fail t (.duplicate t.text) : Parser Unit) := .fail t (by simp)
  exact hfail.ite (.pure ()) (c := s.scopes.declaresHere t.text) s u

theorem aside_checkBoolean (n : Node) (t : Token) : Aside (checkBoolean n t) :=
  (aside_typeOf n).bind fun _ => .ite (.pure ()) (.fail t (by simp))

theorem aside_logical (k : Node.Kind) (left right : Node) (first next op : Token) :
    Aside (logical k left right first next op) := by
  refine (aside_checkBoolean left first).bind fun _ => ?_
  exact (aside_checkBoolean right next).bind fun _ => aside_typed _ _ op

theorem aside_arithmetic (k : Node.Kind) (left right : Node) (first next op : Token) :
    Aside (arithmetic k left right first next op) := by
  refine (aside_typeOf left).bind fun _ => ?_
  refine (aside_typeOf right).bind fun _ => ?_
  refine .ite ?_ ((Aside.fail first (by simp)).bind fun _ => ?_)
  all_goals
    exact .ite (aside_typed _ _ op) ((Aside.fail next (by simp)).bind fun _ => aside_typed _ _ op)

theorem aside_compare (k : Node.Kind) (left right : Node) (op : Token) :
    Aside (compare k left right op) := by
  refine (aside_typeOf left).bind fun _ => ?_
  refine (aside_typeOf right).bind fun _ => ?_
  exact .ite (aside_typed _ _ op) ((Aside.fail op (by simp)).bind fun _ => aside_typed _ _ op)

theorem aside_checkArguments (args : List (Token × Node)) (params : List Symbol.Id) :
    Aside (checkArguments args params) := by
  induction args generalizing params with
  | nil => exact .pure _
  | cons arg args ih =>
    cases params with
    | nil => exact .pure _
    | cons id params =>
      refine (aside_symbol? id).bind fun _ => ?_
      refine (aside_typeOf arg.2).bind fun _ => ?_
      exact .ite (ih params) ((Aside.fail arg.1 (by simp)).bind fun _ => ih params)

theorem aside_integerLiteral (t : Token) (literal : String) : Aside (integerLiteral t literal) := by
  unfold integerLiteral
  cases Text.readWord? literal with
  | none => exact .fail t (by simp)
  | some v => exact (aside_intern literal t _ _ _).bind fun _ => .pure _

theorem aside_realLiteral (t : Token) (literal : String) : Aside (realLiteral t literal) := by
  unfold realLiteral
  cases Binary64.read? literal with
  | none => exact .fail t (by simp)
  | some v => exact (aside_intern literal t _ _ _).bind fun _ => .pure _

end StackCompiler.Parser
