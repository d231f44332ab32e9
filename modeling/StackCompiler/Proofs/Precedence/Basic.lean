import StackCompiler.Proofs.Rendering
import StackCompiler.Proofs.Scoping

/-!
# Expressions with as few parentheses as they need

A tree is written with parentheses around a child only where the child binds more weakly than its
place requires. The words `and`, `or` and `xor` are of one level and associate to the left; below
them stand `not` and a single relation, which does not associate; then sums and products, which
associate to the left; then powers, which associate to the right. A literal is an operand together
with its sign.

The tree that is written need not be bound to symbols, but for its names. Its types are those that
the rules of the language give it.
-/

namespace StackCompiler

open Word Grammar

namespace Grammar.Level

variable {L K : Level}

def rank : Level → Nat
  | exponent => 0
  | fact => 1
  | term => 2
  | expr => 3
  | comparison => 4
  | rel => 5
  | bool => 6

def below : Level → Option Level
  | exponent => none
  | fact => some exponent
  | term => some fact
  | expr => some term
  | comparison => some expr
  | rel => some comparison
  | bool => some rel

theorem rank_below (h : L.below = some K) : L.rank = K.rank + 1 := by
  cases L <;> cases h <;> rfl

theorem exists_below (h : 0 < L.rank) : ∃ K, L.below = some K := by
  cases L with
  | exponent => cases h
  | _ => exact ⟨_, rfl⟩

theorem rank_injective (h : L.rank = K.rank) : L = K := by
  cases L <;> cases K <;> first | rfl | cases h

end Grammar.Level

namespace Node.Kind

def level : Kind → Level
  | and | or | xor => .bool
  | not => .rel
  | equal | notEqual | greater | greaterEq | less | lessEq => .comparison
  | add | subtract => .expr
  | multiply | divide | modulo => .term
  | power => .fact
  | _ => .exponent

def leftLevel : Kind → Level
  | not => .comparison
  | equal | notEqual | greater | greaterEq | less | lessEq | add | subtract => .expr
  | multiply | divide | modulo => .term
  | power => .exponent
  | _ => .bool

def rightLevel : Kind → Level
  | and | or | xor => .rel
  | equal | notEqual | greater | greaterEq | less | lessEq => .expr
  | add | subtract => .term
  | multiply | divide | modulo | power => .fact
  | _ => .bool

def binary : List Kind := logical ++ relations ++ arithmetic

theorem ne_of_binary {k : Kind} (hk : k ∈ binary) : k ≠ reference ∧ k ≠ call := by
  constructor <;> rintro rfl <;> revert hk <;> decide

end Node.Kind

/-- The operators that can stand at a level, outside parentheses. -/
def Grammar.Level.operators (L : Level) : List Token.Kind :=
  (Node.Kind.binary.filter fun k => k.level.rank ≤ L.rank).map Node.Kind.operator

theorem Grammar.Level.mem_operators {L : Level} {w : Token.Kind} : w ∈ L.operators ↔
    ∃ k ∈ Node.Kind.binary, k.level.rank ≤ L.rank ∧ k.operator = w := by
  simp [operators, and_assoc]

theorem Grammar.Level.operators_mono {L K : Level} {w : Token.Kind} (h : K.rank ≤ L.rank)
    (hw : w ∈ K.operators) : w ∈ L.operators := by
  obtain ⟨k, hk, hr, ho⟩ := mem_operators.1 hw
  exact mem_operators.2 ⟨k, hk, Nat.le_trans hr h, ho⟩

/-- A phrase, in parentheses if they are needed. -/
def Word.parenthesised (needed : Bool) (ws : List Word) : List Word :=
  if needed then sign .leftParen :: (ws ++ [sign .rightParen]) else ws

namespace Node

def written : Node → Level → List Word
  | mk k v _ l _ r => fun level =>
    Word.parenthesised (level.rank < k.level.rank)
      (layout .empty k (v.getD "") none
        (match l with
        | some n => some fun _ => n.written k.leftLevel
        | none => none) none
        (match r with
        | some n => some fun _ => n.written k.rightLevel
        | none => none))

/-- How many parentheses are open at once, at most. Those of calls do not count. -/
def nesting : Node → Level → Nat
  | mk k _ _ l _ r => fun level =>
    max
      (match l with
      | some n => n.nesting k.leftLevel
      | none => 0)
      (match r with
      | some n => n.nesting k.rightLevel
      | none => 0) +
    if level.rank < k.level.rank then 1 else 0

end Node

namespace Node

variable {sym : Option Symbol.Id} {k : Kind} {text : String}

theorem written_mk {v : Option String} {l c r : Option Node} (L : Level) :
    (mk k v sym l c r).written L = parenthesised (L.rank < k.level.rank)
      (layout .empty k (v.getD "") none (l.map fun n _ => n.written k.leftLevel) none
        (r.map fun n _ => n.written k.rightLevel)) := by
  cases l <;> cases r <;> rfl

theorem layout_binary (hk : k ∈ Kind.binary) (f g : Bool → List Word) :
    layout .empty k "" none (some f) none (some g) = f false ++ sign k.operator :: g false := by
  fin_cases hk <;> rfl

theorem written_binary {l r : Node} (hk : k ∈ Kind.binary) (L : Level) :
    (mk k none sym (some l) none (some r)).written L =
      parenthesised (L.rank < k.level.rank)
        (l.written k.leftLevel ++ sign k.operator :: r.written k.rightLevel) :=
  congrArg (parenthesised _) (layout_binary hk _ _)

theorem written_list (args : List Node) :
    (list .expressionList args).elim [] (·.written .bool) =
      commas (args.map (·.written .bool)) := by
  induction args with
  | nil => rfl
  | cons a args ih =>
    rw [list_cons]
    cases args with
    | nil => simp [commas]
    | cons b args =>
      rw [List.map_cons, commas_cons _ (by simp), ← ih, list_cons]
      rfl

theorem written_call (args : List Node) (L : Level) :
    (mk .call (some text) sym (list .expressionList args) none none).written L =
      parenthesised (L.rank < Level.exponent.rank) (name text :: sign .leftParen ::
        (commas (args.map (·.written .bool)) ++ [sign .rightParen])) := by
  rw [← written_list]
  cases list .expressionList args <;> rfl

theorem nesting_call (args : List Node) (L : Level) :
    (mk .call (some text) sym (list .expressionList args) none none).nesting L =
      (list .expressionList args).elim 0 (·.nesting .bool) +
        if L.rank < Level.exponent.rank then 1 else 0 := by
  cases list .expressionList args with
  | none => rfl
  | some n => exact congrArg (· + _) (Nat.max_zero _)

theorem nesting_le_list {args : List Node} {a : Node} (ha : a ∈ args) :
    a.nesting .bool ≤ (list .expressionList args).elim 0 (·.nesting .bool) := by
  induction args with
  | nil => simp at ha
  | cons b args ih =>
    rw [list_cons]
    cases args with
    | nil =>
      obtain rfl := List.mem_singleton.1 ha
      exact Nat.le_refl _
    | cons c args =>
      rw [list_cons] at ih ⊢
      show _ ≤ max (b.nesting .bool) _ + 0
      rcases List.mem_cons.1 ha with rfl | ha
      · exact Nat.le_max_left _ _
      · exact Nat.le_trans (ih ha) (Nat.le_max_right _ _)

end Node

/-! ## No phrase is shorter -/

theorem Word.length_parenthesised (needed : Bool) (ws : List Word) :
    (parenthesised needed ws).length = ws.length + if needed then 2 else 0 := by
  cases needed <;> simp [parenthesised]

/-- Written at another level, a tree has a pair of parentheses more or less. -/
theorem Node.length_written_le_add (n : Node) (K L : Level) :
    (n.written K).length ≤ (n.written L).length + 2 := by
  obtain ⟨k, v, sym, l, c, r⟩ := n
  rw [written_mk, written_mk, length_parenthesised, length_parenthesised]
  split <;> split <;> omega

theorem Node.length_written_mono (n : Node) {K L : Level} (h : K.rank ≤ L.rank) :
    (n.written L).length ≤ (n.written K).length := by
  obtain ⟨k, v, sym, l, c, r⟩ := n
  rw [written_mk, written_mk, length_parenthesised, length_parenthesised]
  simp only [decide_eq_true_eq]
  split <;> split <;> omega

theorem Word.length_commas_le {args : List Phrase} {f : Node → List Word}
    (h : ∀ a ∈ args, (f a.1).length ≤ a.2.length) :
    (commas (args.map fun a => f a.1)).length ≤ (commas (args.map Prod.snd)).length := by
  induction args with
  | nil => exact Nat.le_refl _
  | cons a args ih =>
    have hfirst := h a List.mem_cons_self
    have hrest := ih fun b hb => h b (List.mem_cons_of_mem a hb)
    by_cases hargs : args = []
    · subst hargs
      simpa [commas] using hfirst
    · rw [List.map_cons, List.map_cons, commas_cons _ (by simpa using hargs),
        commas_cons _ (by simpa using hargs)]
      simp only [List.length_append, List.length_cons]
      omega

theorem Node.length_written_binary_le {k : Node.Kind} {sym : Option Symbol.Id} {l r : Node}
    {ws us : List Word} (hk : k ∈ Node.Kind.binary)
    (hl : (l.written k.leftLevel).length ≤ ws.length)
    (hr : (r.written k.rightLevel).length ≤ us.length) :
    ((Node.mk k none sym (some l) none (some r)).written k.level).length ≤
      (ws ++ sign k.operator :: us).length := by
  rw [written_binary hk, length_parenthesised]
  simp only [Nat.lt_irrefl, decide_false, Bool.false_eq_true, if_false, List.length_append,
    List.length_cons]
  omega

/-- Only the parentheses that are needed are written: nothing that stands for the tree at a level is
shorter. -/
theorem Grammar.Expr.length_written_le {L : Level} {n : Node} {ws : List Word} (h : Expr L n ws) :
    (n.written L).length ≤ ws.length := by
  induction h with
  | integer h => exact Nat.le_of_eq (congrArg List.length (literalWords_eq .integer h))
  | negativeInteger h =>
    exact Nat.le_of_eq (congrArg List.length (literalWords_negative .integer _))
  | real h => exact Nat.le_of_eq (congrArg List.length (literalWords_eq .real h))
  | negativeReal h => exact Nat.le_of_eq (congrArg List.length (literalWords_negative .real _))
  | trueLiteral | falseLiteral | reference => exact Nat.le_refl _
  | @call text sym args ha ih =>
    have h := length_commas_le (f := (·.written .bool)) ih
    rw [Node.written_call, length_parenthesised, List.map_map]
    simp only [Nat.lt_irrefl, decide_false, Bool.false_eq_true, if_false, List.length_append,
      List.length_cons, List.length_nil]
    exact Nat.add_le_add_right (Nat.add_le_add_right h _) 2
  | @group n ts h ih =>
    have := n.length_written_le_add .exponent .bool
    simp only [List.length_append, List.length_cons, List.length_nil]
    omega
  | fact h ih | term h ih | expr h ih | comparison h ih | rel h ih | bool h ih =>
    exact Nat.le_trans (Node.length_written_mono _ (by decide)) ih
  | power hl hr ihl ihr => exact Node.length_written_binary_le (by decide) ihl ihr
  | product hk hl hr ihl ihr =>
    fin_cases hk <;> exact Node.length_written_binary_le (by decide) ihl ihr
  | sum hk hl hr ihl ihr =>
    fin_cases hk <;> exact Node.length_written_binary_le (by decide) ihl ihr
  | relation hk hl hr ihl ihr =>
    fin_cases hk <;>
      exact Node.length_written_binary_le (by decide) ihl ihr
  | not h ih => exact Nat.succ_le_succ ih
  | logical hk hl hr ihl ihr =>
    fin_cases hk <;> exact Node.length_written_binary_le (by decide) ihl ihr

/-- A token of the kind does not continue what has been written: it is no operator of the level, and
behind a name it does not open arguments or an index. -/
structure Grammar.Level.Stops (L : Level) (ws : List Word) (w : Token.Kind) : Prop where
  operator : w ∉ L.operators
  name : ∀ text, ws.getLast? = some (Word.name text) → w ≠ .leftParen ∧ w ≠ .leftBracket

namespace Grammar.Level.Stops

variable {L K : Level} {ws us : List Word} {w : Token.Kind}

theorem mono (h : L.Stops ws w) (hr : K.rank ≤ L.rank) : K.Stops ws w :=
  ⟨fun hw => h.operator (operators_mono hr hw), h.name⟩

theorem last (h : L.Stops (us ++ ws) w) : L.Stops ws w := by
  refine ⟨h.operator, fun text hl => h.name text ?_⟩
  rw [List.getLast?_append, hl]
  rfl

theorem tail {v : Word} (h : L.Stops (v :: ws) w) : L.Stops ws w := by
  have h : L.Stops ([v] ++ ws) w := h
  exact h.last

theorem of_not_open (h : w ∉ L.operators) (hp : w ≠ .leftParen) (hb : w ≠ .leftBracket) :
    L.Stops ws w := ⟨h, fun _ _ => ⟨hp, hb⟩⟩

end Grammar.Level.Stops

/-- What a phrase of the level begins with: with `not` only from the level of `not` on. -/
def Grammar.Level.Begins (L : Level) (ws : List Word) : Prop :=
  ∃ w us, ws = w :: us ∧ w.kind ≠ .rightParen ∧
    (L.rank ≤ Level.comparison.rank → w.kind ≠ .keyword .not)

namespace Grammar.Level.Begins

variable {L K : Level} {ws : List Word}

theorem mono (h : K.Begins ws) (hr : K.rank ≤ L.rank) : L.Begins ws := by
  obtain ⟨w, us, hw, hp, hn⟩ := h
  exact ⟨w, us, hw, hp, fun hL => hn (Nat.le_trans hr hL)⟩

theorem append (h : L.Begins ws) (us : List Word) : L.Begins (ws ++ us) := by
  obtain ⟨w, vs, rfl, hp, hn⟩ := h
  exact ⟨w, vs ++ us, rfl, hp, hn⟩

theorem commas (h : L.Begins ws) (phrases : List (List Word)) :
    L.Begins (Word.commas (ws :: phrases)) := by
  by_cases hp : phrases = []
  · subst hp
    simpa [Word.commas] using h
  · rw [commas_cons ws hp]
    exact h.append _

end Grammar.Level.Begins

namespace Scopes

variable (s : Scopes)

/-- The tree is an expression that yields a value of the given type, where names stand for what they
stand for in `s`. -/
inductive Expresses : Node → DataType → Prop
  | integer {text : String} {sym : Option Symbol.Id} {n : Int}
      (hn : Text.readWord? text = some n) :
      Expresses (.mk .intLiteral (some text) sym none none none) .int
  | real {text : String} {sym : Option Symbol.Id} {x : Binary64}
      (hx : Binary64.read? text = some x) (hp : '.' ∈ text.toList) (hq : '"' ∉ text.toList) :
      Expresses (.mk .realLiteral (some text) sym none none none) .real
  | truth {k : Node.Kind} {sym : Option Symbol.Id} (hk : k = .trueLiteral ∨ k = .falseLiteral) :
      Expresses (.mk k none sym none none none) .bool
  | reference {text : String} {id : Symbol.Id} {t : DataType} (hn : s.resolve text = some id)
      (hv : s.IsVariable id t) : Expresses (variableNode text id) t
  | call {text : String} {id : Symbol.Id} {sym : Symbol} {args : List (Node × DataType)}
      (hn : s.resolve text = some id) (hs : s.symbol? id = some sym) (hk : sym.kind = .function)
      (hv : sym.valueType ≠ .void)
      (hp : (sym.parameters.map fun p => (s.symbol? p).bind Symbol.dataType?) =
        args.map fun a => some a.2)
      (ha : ∀ a ∈ args, Expresses a.1 a.2) :
      Expresses (.mk .call (some text) (some id)
        (Node.list .expressionList (args.map Prod.fst)) none none) sym.valueType
  | not {sym : Option Symbol.Id} {n : Node} (hn : Expresses n .bool) :
      Expresses (.mk .not none sym (some n) none none) .bool
  | logical {k : Node.Kind} {sym : Option Symbol.Id} {l r : Node} (hk : k ∈ Node.Kind.logical)
      (hl : Expresses l .bool) (hr : Expresses r .bool) :
      Expresses (.mk k none sym (some l) none (some r)) .bool
  | arithmetic {k : Node.Kind} {sym : Option Symbol.Id} {l r : Node} {t u : DataType}
      (hk : k ∈ Node.Kind.arithmetic) (hl : Expresses l t) (hr : Expresses r u) (ht : t.isNumeric)
      (hu : u.isNumeric) : Expresses (.mk k none sym (some l) none (some r)) (t.join u)
  | relation {k : Node.Kind} {sym : Option Symbol.Id} {l r : Node} {t u : DataType}
      (hk : k ∈ Node.Kind.relations) (hl : Expresses l t) (hr : Expresses r u)
      (hc : t.isNumeric ∧ u.isNumeric ∨ (k = .equal ∨ k = .notEqual) ∧ t = .bool ∧ u = .bool) :
      Expresses (.mk k none sym (some l) none (some r)) .bool

/-- The second tree, bound to the symbols of `s'`, is the first one: it has the same shape, kinds
and texts, its names are bound to the same symbols, and each node is bound to a symbol of the type
that the first tree has there. -/
inductive Mirrors (s' : Scopes) : Option Node → Option Node → Prop
  | none : Mirrors s' none none
  | node {k : Node.Kind} {v : Option String} {sym sym' : Option Symbol.Id}
      {l c r l' c' r' : Option Node} (hn : k = .reference ∨ k = .call → sym' = sym)
      (ht : k ≠ .expressionList →
        ∃ t, s.Expresses (.mk k v sym l c r) t ∧ s'.Typed (.mk k v sym' l' c' r') t)
      (hl : Mirrors s' l l') (hc : Mirrors s' c c') (hr : Mirrors s' r r') :
      Mirrors s' (some (.mk k v sym l c r)) (some (.mk k v sym' l' c' r'))

end Scopes

end StackCompiler
