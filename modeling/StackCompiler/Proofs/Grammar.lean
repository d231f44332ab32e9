import StackCompiler.Program.Parser
import StackCompiler.Proofs.Typing

/-!
# The grammar of the language

Which words a tree stands for. Expressions have a level for each strength of binding; an expression
in parentheses is the tree of what is inside them, so one tree can be written with more or fewer
parentheses. Types of variables and functions are those of their symbols.
-/

namespace StackCompiler

/-- A token without its place. -/
structure Word where
  kind : Token.Kind
  lexeme : Option String
deriving DecidableEq, Repr

def Token.word (t : Token) : Word := ⟨t.kind, t.lexeme⟩

namespace Word

def sign (k : Token.Kind) : Word := ⟨k, none⟩

def key (w : Keyword) : Word := ⟨.keyword w, none⟩

def name (text : String) : Word := ⟨.ident, some text⟩

@[simp] theorem sign_keyword (w : Keyword) : sign (.keyword w) = key w := rfl

def commas (phrases : List (List Word)) : List Word := [sign .comma].intercalate phrases

theorem commas_cons (x : List Word) {xs : List (List Word)} (h : xs ≠ []) :
    commas (x :: xs) = x ++ sign .comma :: commas xs := by
  rw [commas, List.intercalate_cons_of_ne_nil h, commas, List.append_assoc]
  rfl

theorem commas_concat (xs : List (List Word)) (x : List Word) :
    commas (xs ++ [x]) = xs.flatMap (· ++ [sign .comma]) ++ x := by
  induction xs with
  | nil => simp [commas]
  | cons y xs ih => rw [List.cons_append, commas_cons y (by simp), ih]; simp

/-- A keyword with what it introduces, or nothing if that is absent. -/
def headed (w : Keyword) (items : List Node) (phrase : List Word) : List Word :=
  if items = [] then [] else key w :: phrase

end Word

open Word

def Node.Kind.operator : Node.Kind → Token.Kind
  | .and => .keyword .and
  | .or => .keyword .or
  | .xor => .keyword .xor
  | .equal => .eqEq
  | .notEqual => .notEq
  | .greater => .greater
  | .greaterEq => .greaterEq
  | .less => .less
  | .lessEq => .lessEq
  | .add => .plus
  | .subtract => .minus
  | .multiply => .star
  | .divide => .slash
  | .modulo => .percent
  | .power => .caret
  | .assign => .assign
  | .addAssign => .plusEq
  | .subAssign => .minusEq
  | .mulAssign => .starEq
  | .divAssign => .slashEq
  | _ => .undefined

def DataType.word : DataType → Word
  | .int => key .int
  | .real => key .real
  | .bool => key .bool
  | .void => key .void
  | .struct text | .array text => name text
  | .string => ⟨.undefined, none⟩

namespace Grammar

inductive Level where
  | exponent | fact | term | expr | comparison | rel | bool

/-- A tree and the words it is written as. -/
abbrev Phrase := Node × List Word

inductive Expr : Level → Node → List Word → Prop
  | integer {text : String} {sym : Option Symbol.Id} (h : '-' ∉ text.toList) :
      Expr .exponent (.mk .intLiteral (some text) sym none none none) [⟨.integer, some text⟩]
  | negativeInteger {text : String} {sym : Option Symbol.Id} (h : '-' ∉ text.toList) :
      Expr .exponent (.mk .intLiteral (some ("-" ++ text)) sym none none none)
        [sign .minus, ⟨.integer, some text⟩]
  | real {text : String} {sym : Option Symbol.Id} (h : '-' ∉ text.toList) :
      Expr .exponent (.mk .realLiteral (some text) sym none none none) [⟨.real, some text⟩]
  | negativeReal {text : String} {sym : Option Symbol.Id} (h : '-' ∉ text.toList) :
      Expr .exponent (.mk .realLiteral (some ("-" ++ text)) sym none none none)
        [sign .minus, ⟨.real, some text⟩]
  | trueLiteral {sym : Option Symbol.Id} :
      Expr .exponent (.mk .trueLiteral none sym none none none) [key .trueWord]
  | falseLiteral {sym : Option Symbol.Id} :
      Expr .exponent (.mk .falseLiteral none sym none none none) [key .falseWord]
  | reference {text : String} {sym : Option Symbol.Id} :
      Expr .exponent (.mk .reference (some text) sym none none none) [name text]
  | call {text : String} {sym : Option Symbol.Id} {args : List Phrase}
      (ha : ∀ a ∈ args, Expr .bool a.1 a.2) :
      Expr .exponent
        (.mk .call (some text) sym (Node.list .expressionList (args.map Prod.fst)) none none)
        (name text :: sign .leftParen :: (commas (args.map Prod.snd) ++ [sign .rightParen]))
  | group {n : Node} {ts : List Word} (h : Expr .bool n ts) :
      Expr .exponent n (sign .leftParen :: (ts ++ [sign .rightParen]))
  | fact {n : Node} {ts : List Word} (h : Expr .exponent n ts) : Expr .fact n ts
  | power {sym : Option Symbol.Id} {l r : Node} {ts us : List Word} (hl : Expr .exponent l ts)
      (hr : Expr .fact r us) :
      Expr .fact (.mk .power none sym (some l) none (some r))
        (ts ++ sign Node.Kind.power.operator :: us)
  | term {n : Node} {ts : List Word} (h : Expr .fact n ts) : Expr .term n ts
  | product {k : Node.Kind} {sym : Option Symbol.Id} {l r : Node} {ts us : List Word}
      (hk : k ∈ [.multiply, .divide, .modulo]) (hl : Expr .term l ts) (hr : Expr .fact r us) :
      Expr .term (.mk k none sym (some l) none (some r)) (ts ++ sign k.operator :: us)
  | expr {n : Node} {ts : List Word} (h : Expr .term n ts) : Expr .expr n ts
  | sum {k : Node.Kind} {sym : Option Symbol.Id} {l r : Node} {ts us : List Word}
      (hk : k ∈ [.add, .subtract]) (hl : Expr .expr l ts) (hr : Expr .term r us) :
      Expr .expr (.mk k none sym (some l) none (some r)) (ts ++ sign k.operator :: us)
  | comparison {n : Node} {ts : List Word} (h : Expr .expr n ts) : Expr .comparison n ts
  | relation {k : Node.Kind} {sym : Option Symbol.Id} {l r : Node} {ts us : List Word}
      (hk : k ∈ Node.Kind.relations) (hl : Expr .expr l ts) (hr : Expr .expr r us) :
      Expr .comparison (.mk k none sym (some l) none (some r)) (ts ++ sign k.operator :: us)
  | rel {n : Node} {ts : List Word} (h : Expr .comparison n ts) : Expr .rel n ts
  | not {sym : Option Symbol.Id} {n : Node} {ts : List Word} (h : Expr .comparison n ts) :
      Expr .rel (.mk .not none sym (some n) none none) (key .not :: ts)
  | bool {n : Node} {ts : List Word} (h : Expr .rel n ts) : Expr .bool n ts
  | logical {k : Node.Kind} {sym : Option Symbol.Id} {l r : Node} {ts us : List Word}
      (hk : k ∈ Node.Kind.logical) (hl : Expr .bool l ts) (hr : Expr .rel r us) :
      Expr .bool (.mk k none sym (some l) none (some r)) (ts ++ sign k.operator :: us)

inductive Assignment : Node → List Word → Prop
  | intro {k : Node.Kind} {text : String} {sym sym' : Option Symbol.Id} {value : Node}
      {ts : List Word} (hk : k = .assign ∨ k ∈ Node.Kind.compoundAssignments)
      (hv : Expr .bool value ts) :
      Assignment (.mk k none sym (some (.mk .reference (some text) sym' none none none)) none
        (some value)) (name text :: sign k.operator :: ts)

inductive Target : Node → List Word → Prop
  | intro {text : String} {sym : Option Symbol.Id} :
      Target (.mk .reference (some text) sym none none none) [name text]

inductive PrintEntry : Node → List Word → Prop
  | string {text : String} {sym : Option Symbol.Id} :
      PrintEntry (.mk .string (some text) sym none none none) [⟨.string, some text⟩]
  | value {n : Node} {ts : List Word} (h : Expr .bool n ts) : PrintEntry n ts

/-- Statements. All but `for` and `if` end with a semicolon. -/
inductive Statement : Node → List Word → Prop
  | assignment {n : Node} {ts : List Word} (h : Assignment n ts) :
      Statement n (ts ++ [sign .semicolon])
  | input {targets : List Phrase} (hne : targets ≠ []) (ht : ∀ t ∈ targets, Target t.1 t.2) :
      Statement (.mk .input none none (Node.list .variableList (targets.map Prod.fst)) none none)
        (key .input :: (commas (targets.map Prod.snd) ++ [sign .semicolon]))
  | print {entries : List Phrase} (hne : entries ≠ []) (he : ∀ e ∈ entries, PrintEntry e.1 e.2) :
      Statement (.mk .print none none (Node.list .printList (entries.map Prod.fst)) none none)
        (key .print :: (commas (entries.map Prod.snd) ++ [sign .semicolon]))
  | println {entries : List Phrase} (hne : entries ≠ []) (he : ∀ e ∈ entries, PrintEntry e.1 e.2) :
      Statement (.mk .println none none (Node.list .printList (entries.map Prod.fst)) none none)
        (key .println :: (commas (entries.map Prod.snd) ++ [sign .semicolon]))
  | leave : Statement (.mk .returns none none none none none) [key .returnWord, sign .semicolon]
  | giveBack {n : Node} {ts : List Word} (h : Expr .bool n ts) :
      Statement (.mk .returns none none (some n) none none)
        (key .returnWord :: (ts ++ [sign .semicolon]))
  | call {text : String} {sym : Option Symbol.Id} {args : List Phrase}
      (ha : ∀ a ∈ args, Expr .bool a.1 a.2) :
      Statement
        (.mk .callStatement (some text) sym (Node.list .expressionList (args.map Prod.fst)) none
          none)
        (name text :: sign .leftParen ::
          (commas (args.map Prod.snd) ++ [sign .rightParen, sign .semicolon]))
  | forLoop {scope : String} {start body : List Phrase} {test : Node} {ts : List Word}
      (hs : ∀ a ∈ start, Assignment a.1 a.2) (ht : Expr .bool test ts) (hne : body ≠ [])
      (hb : ∀ b ∈ body, Statement b.1 b.2) :
      Statement
        (.mk .forLoop (some scope) none (Node.list .assignList (start.map Prod.fst)) (some test)
          (Node.list .statements (body.map Prod.fst)))
        (key .forWord :: sign .leftParen :: (commas (start.map Prod.snd) ++ sign .semicolon ::
          (ts ++ sign .rightParen :: (body.flatMap Prod.snd ++ [key .endWord]))))
  | ifThen {scope : String} {body : List Phrase} {test : Node} {ts : List Word}
      (ht : Expr .bool test ts) (hne : body ≠ []) (hb : ∀ b ∈ body, Statement b.1 b.2) :
      Statement
        (.mk .ifThen (some scope) none (some test) (Node.list .statements (body.map Prod.fst)) none)
        (key .ifWord :: sign .leftParen :: (ts ++ sign .rightParen ::
          (body.flatMap Prod.snd ++ [key .endWord])))
  | ifElse {scope : String} {body otherwise : List Phrase} {test : Node} {ts : List Word}
      (ht : Expr .bool test ts) (hne : body ≠ []) (hb : ∀ b ∈ body, Statement b.1 b.2)
      (hne' : otherwise ≠ []) (ho : ∀ b ∈ otherwise, Statement b.1 b.2) :
      Statement
        (.mk .ifElse (some scope) none (some test) (Node.list .statements (body.map Prod.fst))
          (Node.list .statements (otherwise.map Prod.fst)))
        (key .ifWord :: sign .leftParen :: (ts ++ sign .rightParen ::
          (body.flatMap Prod.snd ++ key .elseWord ::
            (otherwise.flatMap Prod.snd ++ [key .endWord]))))
  | repeatLoop {scope : String} {start body : List Phrase} {test : Node} {ts : List Word}
      (hs : ∀ a ∈ start, Assignment a.1 a.2) (hne : body ≠ [])
      (hb : ∀ b ∈ body, Statement b.1 b.2) (ht : Expr .bool test ts) :
      Statement
        (.mk .repeatLoop (some scope) none (Node.list .assignList (start.map Prod.fst))
          (Node.list .statements (body.map Prod.fst)) (some test))
        (key .repeatWord :: sign .leftParen :: (commas (start.map Prod.snd) ++ sign .rightParen ::
          (body.flatMap Prod.snd ++ key .untilWord :: (ts ++ [sign .semicolon]))))

def HasDataType (s : Scopes) (id : Symbol.Id) (t : DataType) : Prop :=
  ∃ sym, s.symbol? id = some sym ∧ sym.dataType? = some t

def HasReturnType (s : Scopes) (id : Symbol.Id) (t : DataType) : Prop :=
  ∃ sym, s.symbol? id = some sym ∧ sym.returnType? = some t

inductive Declaration (s : Scopes) : Node → List Word → Prop
  | intro {text : String} {id : Symbol.Id} {t : DataType} (ht : t.IsScalar)
      (hs : HasDataType s id t) :
      Declaration s (.mk .decl (some text) (some id) none none none)
        [name text, sign .colon, t.word]

inductive Constant : Node → List Word → Prop
  | intro {text : String} {sym : Option Symbol.Id} {value : Node} {ts : List Word}
      (hv : Expr .expr value ts) :
      Constant (.mk .init (some text) sym (some value) none none)
        (name text :: sign .assign :: ts)

inductive TypeDefinition (s : Scopes) : Node → List Word → Prop
  | array {text element : String} {sym sym' : Option Symbol.Id} {length : Node} {ts : List Word}
      (hl : Expr .expr length ts) :
      TypeDefinition s
        (.mk .arrayDef (some text) sym (some length) none
          (some (.mk .typeId (some element) sym' none none none)))
        (name text :: key .is :: key .array :: sign .leftBracket ::
          (ts ++ [sign .rightBracket, key .of, name element]))
  | record {text : String} {sym : Option Symbol.Id} {fields : List Phrase} (hne : fields ≠ [])
      (hf : ∀ f ∈ fields, Declaration s f.1 f.2) :
      TypeDefinition s
        (.mk .structDef (some text) sym (Node.list .structFields (fields.map Prod.fst)) none none)
        (name text :: key .is :: (commas (fields.map Prod.snd) ++ [key .endWord]))

inductive ArrayDeclaration (s : Scopes) : Node → List Word → Prop
  | intro {text type : String} {id : Symbol.Id} (hs : HasDataType s id (.array type)) :
      ArrayDeclaration s (.mk .arrayDecl (some text) (some id) none none none)
        [name text, sign .colon, name type]

inductive Function (s : Scopes) : Node → List Word → Prop
  | intro {text : String} {id : Symbol.Id} {params locals body : List Phrase} {t : DataType}
      (hp : ∀ p ∈ params, Declaration s p.1 p.2) (ht : t.IsScalar ∨ t = .void)
      (hs : HasReturnType s id t) (hl : ∀ l ∈ locals, Declaration s l.1 l.2) (hne : body ≠ [])
      (hb : ∀ b ∈ body, Statement b.1 b.2) :
      Function s
        (.mk .functionDef (some text) (some id) (Node.list .paramList (params.map Prod.fst))
          (Node.list .declList (locals.map Prod.fst)) (Node.list .statements (body.map Prod.fst)))
        (key .func :: name text :: sign .leftParen :: (commas (params.map Prod.snd) ++
          sign .rightParen :: sign .colon :: t.word :: (commas (locals.map Prod.snd) ++
            key .begin :: (body.flatMap Prod.snd ++ [key .endWord]))))

inductive Main (s : Scopes) : Node → List Word → Prop
  | intro {scope : String} {vars body : List Phrase}
      (hv : ∀ v ∈ vars, Declaration s v.1 v.2) (hne : body ≠ [])
      (hb : ∀ b ∈ body, Statement b.1 b.2) :
      Main s
        (.mk .main (some scope) none (Node.list .declList (vars.map Prod.fst)) none
          (Node.list .statements (body.map Prod.fst)))
        (key .main :: (commas (vars.map Prod.snd) ++ key .begin ::
          (body.flatMap Prod.snd ++ [key .endWord])))

inductive Program (s : Scopes) : Node → List Word → Prop
  | intro {text : String} {constants types arrays functions : List Phrase} {main : Node}
      {ts : List Word} (hc : ∀ c ∈ constants, Constant c.1 c.2)
      (ht : ∀ t ∈ types, TypeDefinition s t.1 t.2)
      (ha : ∀ a ∈ arrays, ArrayDeclaration s a.1 a.2) (hf : ∀ f ∈ functions, Function s f.1 f.2)
      (hm : Main s main ts) :
      Program s
        (.mk .program (some text) none
          (some (.mk .globals none none (Node.list .initList (constants.map Prod.fst))
            (Node.list .typeList (types.map Prod.fst))
            (Node.list .arrayDecls (arrays.map Prod.fst))))
          (Node.list .functions (functions.map Prod.fst)) (some main))
        (key .cd20 :: name text ::
          (headed .constants (constants.map Prod.fst) (commas (constants.map Prod.snd)) ++
          (headed .types (types.map Prod.fst) (types.flatMap Prod.snd) ++
          (headed .arrays (arrays.map Prod.fst) (commas (arrays.map Prod.snd)) ++
          (functions.flatMap Prod.snd ++ (ts ++ [key .cd20, name text]))))))

end Grammar

end StackCompiler
