import StackCompiler.Proofs.Grammar

/-!
# Writing trees as words

A tree is written in order, each node as the words of its kind around those of its children.
Parentheses that only group are no part of a tree: a text that the grammar derives from a tree is,
without them, what the tree is written as.
-/

namespace StackCompiler

open Word

/-! ## Trees as words -/

namespace Node

def Kind.isInline : Kind → Bool
  | .assign | .addAssign | .subAssign | .mulAssign | .divAssign | .input | .print | .println
  | .returns | .callStatement | .repeatLoop => true
  | _ => false

/-- A literal. Its sign is a word of its own. -/
def literalWords (k : Token.Kind) (text : String) : List Word :=
  match text.toList with
  | '-' :: rest => [sign .minus, ⟨k, some (String.ofList rest)⟩]
  | _ => [⟨k, some text⟩]

/-- The type that the symbol of a node was declared with. -/
def typeWords (s : Scopes) (sym : Option Symbol.Id) : List Word :=
  (((sym.bind s.symbol?).bind Symbol.dataType?).map DataType.word).toList

def returnWords (s : Scopes) (sym : Option Symbol.Id) : List Word :=
  (((sym.bind s.symbol?).bind Symbol.returnType?).map DataType.word).toList

/-- The words of a node around those of its children. What a child is written as depends on whether
it stands for a statement. -/
@[simp] def layout (s : Scopes) (k : Kind) (text : String) (sym : Option Symbol.Id)
    (left centre right : Option (Bool → List Word)) : List Word :=
  let l := left.elim [] (· false)
  let c := centre.elim [] (· false)
  let r := right.elim [] (· false)
  match k with
  | .program => key .cd20 :: name text :: (l ++ (c ++ (r ++ [key .cd20, name text])))
  | .globals =>
    left.elim [] (fun f => key .constants :: f false) ++
      (centre.elim [] (fun f => key .types :: f false) ++
        right.elim [] (fun f => key .arrays :: f false))
  | .functions | .typeList => l ++ r
  | .statements => left.elim [] (· true) ++ right.elim [] (· true)
  | .initList | .structFields | .arrayDecls | .paramList | .declList | .assignList
  | .variableList | .printList | .expressionList => l ++ sign .comma :: r
  | .init => name text :: sign .assign :: l
  | .arrayDef =>
    name text :: key .is :: key .array :: sign .leftBracket ::
      (l ++ sign .rightBracket :: key .of :: r)
  | .structDef => name text :: key .is :: (l ++ [key .endWord])
  | .decl | .arrayDecl => name text :: sign .colon :: typeWords s sym
  | .functionDef =>
    key .func :: name text :: sign .leftParen :: (l ++ sign .rightParen :: sign .colon ::
      (returnWords s sym ++ (c ++ key .begin :: (right.elim [] (· true) ++ [key .endWord]))))
  | .main => key .main :: (l ++ key .begin :: (right.elim [] (· true) ++ [key .endWord]))
  | .forLoop =>
    key .forWord :: sign .leftParen :: (l ++ sign .semicolon :: (c ++ sign .rightParen ::
      (right.elim [] (· true) ++ [key .endWord])))
  | .ifThen =>
    key .ifWord :: sign .leftParen :: (l ++ sign .rightParen ::
      (centre.elim [] (· true) ++ [key .endWord]))
  | .ifElse =>
    key .ifWord :: sign .leftParen :: (l ++ sign .rightParen :: (centre.elim [] (· true) ++
      key .elseWord :: (right.elim [] (· true) ++ [key .endWord])))
  | .repeatLoop =>
    key .repeatWord :: sign .leftParen :: (l ++ sign .rightParen ::
      (centre.elim [] (· true) ++ key .untilWord :: r))
  | .input => key .input :: l
  | .print => key .print :: l
  | .println => key .println :: l
  | .returns => key .returnWord :: l
  | .callStatement | .call =>
    name text :: sign .leftParen :: (l ++ [sign .rightParen])
  | .reference | .typeId => [name text]
  | .intLiteral => literalWords .integer text
  | .realLiteral => literalWords .real text
  | .string => [⟨.string, some text⟩]
  | .trueLiteral => [key .trueWord]
  | .falseLiteral => [key .falseWord]
  | .not => key .not :: l
  | k => l ++ sign k.operator :: r

/-- The words of a tree. A statement without a block has a semicolon behind it. -/
def words (s : Scopes) : Node → Bool → List Word
  | mk k v sym l c r => fun statement =>
    layout s k (v.getD "") sym
      (match l with
      | some n => some (n.words s)
      | none => none)
      (match c with
      | some n => some (n.words s)
      | none => none)
      (match r with
      | some n => some (n.words s)
      | none => none) ++
    if statement && k.isInline then [sign .semicolon] else []

variable {s : Scopes} {k : Kind} {v : Option String} {sym : Option Symbol.Id}
  {l c r : Option Node}

theorem words_mk (statement : Bool) : (mk k v sym l c r).words s statement =
    layout s k (v.getD "") sym (l.map (words s)) (c.map (words s)) (r.map (words s)) ++
      if statement && k.isInline then [sign .semicolon] else [] := by
  cases l <;> cases c <;> cases r <;> rfl

def wordsIn (s : Scopes) (statement : Bool) (n : Option Node) : List Word :=
  (n.map (words s)).elim [] (· statement)

@[simp] theorem wordsIn_none (statement : Bool) : wordsIn s statement none = [] := rfl

@[simp] theorem wordsIn_some (statement : Bool) (n : Node) :
    wordsIn s statement (some n) = n.words s statement := rfl

@[simp] theorem elim_words (statement : Bool) (n : Option Node) :
    n.elim [] ((fun f : Bool → List Word => f statement) ∘ words s) = wordsIn s statement n := by
  cases n <;> rfl

theorem words_statement {n : Node} (h : n.kind.isInline = true) :
    n.words s true = n.words s false ++ [sign .semicolon] := by
  obtain ⟨k, v, sym, l, c, r⟩ := n
  have hk : k.isInline = true := h
  simp [words_mk, hk]

def commaKinds : List Kind :=
  [.initList, .structFields, .arrayDecls, .paramList, .declList, .assignList, .variableList,
   .printList, .expressionList]

theorem words_commas (hk : k ∈ commaKinds) (items : List Node) :
    wordsIn s false (list k items) = commas (items.map fun n => n.words s false) := by
  induction items with
  | nil => rfl
  | cons a items ih =>
    rw [list_cons]
    cases hl : list k items with
    | none =>
      obtain rfl := list_eq_none.1 hl
      simp [commas]
    | some rest =>
      have hne : items.map (fun n => n.words s false) ≠ [] := by
        intro h
        rw [List.map_eq_nil_iff.1 h] at hl
        cases hl
      rw [hl, wordsIn_some] at ih
      rw [List.map_cons, commas_cons _ hne, ← ih, Option.elim_some, wordsIn_some]
      fin_cases hk <;>
        simp [binary, branch, words_mk]

theorem words_chain {b : Bool} (hk : (b = false ∧ (k = .functions ∨ k = .typeList)) ∨
    (b = true ∧ k = .statements)) (items : List Node) :
    wordsIn s b (list k items) = items.flatMap fun n => n.words s b := by
  induction items with
  | nil => rfl
  | cons a items ih =>
    rw [list_cons]
    cases hl : list k items with
    | none =>
      obtain rfl := list_eq_none.1 hl
      simp
    | some rest =>
      rw [hl, wordsIn_some] at ih
      rw [List.flatMap_cons, ← ih, Option.elim_some, wordsIn_some]
      rcases hk with ⟨rfl, rfl | rfl⟩ | ⟨rfl, rfl⟩ <;>
        simp [binary, branch, words_mk, Kind.isInline]

end Node

/-! ## Parentheses that group -/

/-- Whether a parenthesis behind a token belongs to a call, to the head of a function or to a
statement. All others group. -/
def opens : Option Token.Kind → Bool
  | some .ident | some (.keyword .forWord) | some (.keyword .ifWord)
  | some (.keyword .repeatWord) => true
  | _ => false

/-- Leaves out the parentheses that group. `before` is the kind of the word before, and `marks`
says of each open parenthesis whether it was kept. -/
def eraseGroups (before : Option Token.Kind) (marks : List Bool) : List Word → List Word
  | [] => []
  | w :: rest =>
    if w.kind = .leftParen then
      if opens before then w :: eraseGroups (some w.kind) (true :: marks) rest
      else eraseGroups (some w.kind) (false :: marks) rest
    else if w.kind = .rightParen then
      match marks with
      | false :: marks => eraseGroups (some w.kind) marks rest
      | _ => w :: eraseGroups (some w.kind) marks.tail rest
    else w :: eraseGroups (some w.kind) marks rest

section Erase

variable {before : Option Token.Kind} {marks : List Bool} {rest : List Word}

theorem erase_nil : eraseGroups before marks [] = [] := by
  cases marks <;> rfl

@[simp] theorem erase_key (w : Keyword) : eraseGroups before marks (key w :: rest) =
    key w :: eraseGroups (some (.keyword w)) marks rest := by
  simp [eraseGroups, key]

@[simp] theorem erase_name (text : String) : eraseGroups before marks (name text :: rest) =
    name text :: eraseGroups (some .ident) marks rest := by
  simp [eraseGroups, name]

@[simp] theorem erase_word {k : Token.Kind} {lexeme : Option String} (hl : k ≠ .leftParen)
    (hr : k ≠ .rightParen) : eraseGroups before marks (⟨k, lexeme⟩ :: rest) =
      ⟨k, lexeme⟩ :: eraseGroups (some k) marks rest := by
  simp [eraseGroups, hl, hr]

@[simp] theorem erase_sign {k : Token.Kind} (hl : k ≠ .leftParen) (hr : k ≠ .rightParen) :
    eraseGroups before marks (sign k :: rest) =
      sign k :: eraseGroups (some k) marks rest := erase_word hl hr

theorem erase_open (h : opens before = true) :
    eraseGroups before marks (sign .leftParen :: rest) =
      sign .leftParen :: eraseGroups (some .leftParen) (true :: marks) rest := by
  simp [eraseGroups, sign, h]

@[simp] theorem erase_close : eraseGroups before (true :: marks) (sign .rightParen :: rest) =
    sign .rightParen :: eraseGroups (some .rightParen) marks rest := by
  simp [eraseGroups, sign]

@[simp] theorem erase_openGroup (h : opens before = false) :
    eraseGroups before marks (sign .leftParen :: rest) =
      eraseGroups (some .leftParen) (false :: marks) rest := by
  simp [eraseGroups, sign, h]

@[simp] theorem erase_closeGroup : eraseGroups before (false :: marks) (sign .rightParen :: rest) =
    eraseGroups (some .rightParen) marks rest := by
  simp [eraseGroups, sign]

end Erase

namespace Grammar

/-- Behind a word that opens nothing, leaving out groups makes `us` of `ts`, whatever follows. -/
def Erases (ts us : List Word) : Prop :=
  ∀ before marks, opens before = false →
    ∃ last, ∀ rest, eraseGroups before marks (ts ++ rest) = us ++ eraseGroups last marks rest

/-- As `Erases`, behind any word. -/
def ErasesAll (ts us : List Word) : Prop :=
  ∀ before marks,
    ∃ last, ∀ rest, eraseGroups before marks (ts ++ rest) = us ++ eraseGroups last marks rest

section Lists

variable {f : Node → List Word} {phrases : List Phrase}

theorem erasesAll_nil : ErasesAll [] [] := fun before _ => ⟨before, fun _ => rfl⟩

theorem ErasesAll.erases {ts us : List Word} (h : ErasesAll ts us) : Erases ts us :=
  fun before marks _ => h before marks

theorem erases_commas (h : ∀ p ∈ phrases, Erases p.2 (f p.1)) :
    Erases (commas (phrases.map Prod.snd)) (commas (phrases.map fun p => f p.1)) := by
  induction phrases with
  | nil => exact erasesAll_nil.erases
  | cons p phrases ih =>
    cases phrases with
    | nil => simpa [commas] using h p (by simp)
    | cons q phrases =>
      intro before marks hb
      obtain ⟨a, ha⟩ := h p (by simp) before marks hb
      obtain ⟨b, hrest⟩ := ih (fun p hp => h p (List.mem_cons_of_mem _ hp)) (some .comma) marks rfl
      refine ⟨b, fun rest => ?_⟩
      rw [List.map_cons, commas_cons _ (by simp), List.map_cons (l := q :: phrases),
        commas_cons _ (by simp), List.append_assoc, List.cons_append, ha,
        erase_sign (by decide) (by decide), hrest, List.append_assoc, List.cons_append]

theorem erasesAll_flatMap (h : ∀ p ∈ phrases, ErasesAll p.2 (f p.1)) :
    ErasesAll (phrases.flatMap Prod.snd) (phrases.flatMap fun p => f p.1) := by
  induction phrases with
  | nil => exact erasesAll_nil
  | cons p phrases ih =>
    intro before marks
    obtain ⟨a, ha⟩ := h p (by simp) before marks
    obtain ⟨b, hb⟩ := ih (fun p hp => h p (List.mem_cons_of_mem _ hp)) a marks
    refine ⟨b, fun rest => ?_⟩
    rw [List.flatMap_cons, List.flatMap_cons, List.append_assoc, ha, hb, List.append_assoc]

end Lists

section Operators

variable {k : Node.Kind} {ts us vs ws : List Word}

theorem Erases.binary (hk : k.operator ≠ .leftParen ∧ k.operator ≠ .rightParen ∧
    opens (some k.operator) = false) (h : Erases ts us) (h' : Erases vs ws) :
    Erases (ts ++ sign k.operator :: vs) (us ++ sign k.operator :: ws) := by
  intro before marks hb
  obtain ⟨a, ha⟩ := h before marks hb
  obtain ⟨b, hb⟩ := h' (some k.operator) marks hk.2.2
  refine ⟨b, fun rest => ?_⟩
  rw [List.append_assoc, List.cons_append, ha, erase_sign hk.1 hk.2.1, hb, List.append_assoc,
    List.cons_append]

def operators : List Node.Kind :=
  Node.Kind.logical ++ Node.Kind.relations ++ Node.Kind.arithmetic ++
    .assign :: Node.Kind.compoundAssignments

theorem operator_ne (hk : k ∈ operators) : k.operator ≠ .leftParen ∧
    k.operator ≠ .rightParen ∧ opens (some k.operator) = false :=
  (by decide : ∀ k ∈ operators, k.operator ≠ .leftParen ∧ k.operator ≠ .rightParen ∧
    opens (some k.operator) = false) k hk

theorem words_operator {s : Scopes} {sym : Option Symbol.Id} {l r : Node} (hk : k ∈ operators) :
    (Node.mk k none sym (some l) none (some r)).words s false =
      l.words s false ++ sign k.operator :: r.words s false := by
  fin_cases hk <;> simp [Node.words_mk]

end Operators

section Expressions

variable {s : Scopes} {level : Level} {n : Node} {ts : List Word}

theorem literalWords_eq (k : Token.Kind) {text : String} (h : '-' ∉ text.toList) :
    Node.literalWords k text = [⟨k, some text⟩] := by
  unfold Node.literalWords
  split
  · next rest hr => simp [hr] at h
  · rfl

theorem literalWords_negative (k : Token.Kind) (text : String) :
    Node.literalWords k ("-" ++ text) = [sign .minus, ⟨k, some text⟩] := by
  have hl : ("-" ++ text).toList = '-' :: text.toList := by simp
  simp only [Node.literalWords, hl, String.ofList_toList]

theorem erases_word {k : Token.Kind} {lexeme : Option String} (hl : k ≠ .leftParen)
    (hr : k ≠ .rightParen) : ErasesAll [⟨k, lexeme⟩] [⟨k, lexeme⟩] :=
  fun _ _ => ⟨some k, fun _ => erase_word hl hr⟩

theorem erases_signed {k : Token.Kind} {lexeme : Option String} (hl : k ≠ .leftParen)
    (hr : k ≠ .rightParen) :
    ErasesAll [sign .minus, ⟨k, lexeme⟩] [sign .minus, ⟨k, lexeme⟩] :=
  fun _ _ => ⟨some k, fun _ => by simp [erase_word hl hr]⟩

theorem erases_operation {k : Node.Kind} {sym : Option Symbol.Id} {l r : Node}
    {us : List Word} (hk : k ∈ operators) (hl : Erases ts (l.words s false))
    (hr : Erases us (r.words s false)) : Erases (ts ++ sign k.operator :: us)
      ((Node.mk k none sym (some l) none (some r)).words s false) := by
  rw [words_operator hk]
  exact hl.binary (operator_ne hk) hr

theorem erases_list {k : Node.Kind} {items : List Phrase} (hk : k ∈ Node.commaKinds)
    (h : ∀ a ∈ items, Erases a.2 (a.1.words s false)) :
    Erases (commas (items.map Prod.snd))
      (Node.wordsIn s false (Node.list k (items.map Prod.fst))) := by
  rw [Node.words_commas hk, List.map_map]
  exact erases_commas (f := fun n => n.words s false) h

theorem erasesAll_call {args : List Phrase} (text : String)
    (h : ∀ a ∈ args, Erases a.2 (a.1.words s false)) :
    ErasesAll (name text :: sign .leftParen :: (commas (args.map Prod.snd) ++ [sign .rightParen]))
      (name text :: sign .leftParen ::
        (Node.wordsIn s false (Node.list .expressionList (args.map Prod.fst)) ++
          [sign .rightParen])) := by
  intro before marks
  obtain ⟨a, ha⟩ := erases_list (k := .expressionList) (by decide) h (some .leftParen)
    (true :: marks) rfl
  exact ⟨some .rightParen, fun rest => by
    simp [erase_open (show opens (some .ident) = true from rfl), ha]⟩

/-- Without its groups, an expression is what its tree is written as. -/
theorem Expr.erases (h : Expr level n ts) : Erases ts (n.words s false) := by
  induction h with
  | integer h =>
    simp only [Node.words_mk, Node.layout, Option.getD_some, literalWords_eq _ h]
    exact (erases_word (by decide) (by decide)).erases
  | negativeInteger h =>
    simp only [Node.words_mk, Node.layout, Option.getD_some, literalWords_negative]
    exact (erases_signed (by decide) (by decide)).erases
  | real h =>
    simp only [Node.words_mk, Node.layout, Option.getD_some, literalWords_eq _ h]
    exact (erases_word (by decide) (by decide)).erases
  | negativeReal h =>
    simp only [Node.words_mk, Node.layout, Option.getD_some, literalWords_negative]
    exact (erases_signed (by decide) (by decide)).erases
  | trueLiteral | falseLiteral | reference => exact (erases_word (by decide) (by decide)).erases
  | call ha ih => simpa [Node.words_mk] using (erasesAll_call _ ih).erases
  | group h ih =>
    intro before marks hb
    obtain ⟨a, ha⟩ := ih (some .leftParen) (false :: marks) rfl
    exact ⟨some .rightParen, fun rest => by simp [ha, hb]⟩
  | fact h ih | term h ih | expr h ih | comparison h ih | rel h ih | bool h ih => exact ih
  | power hl hr ihl ihr => exact erases_operation (by decide) ihl ihr
  | product hk hl hr ihl ihr =>
    exact erases_operation ((by decide : ∀ k ∈ [Node.Kind.multiply, .divide, .modulo],
      k ∈ operators) _ hk) ihl ihr
  | sum hk hl hr ihl ihr =>
    exact erases_operation ((by decide : ∀ k ∈ [Node.Kind.add, .subtract], k ∈ operators) _ hk)
      ihl ihr
  | relation hk hl hr ihl ihr => exact erases_operation (by simp [operators, hk]) ihl ihr
  | logical hk hl hr ihl ihr => exact erases_operation (by simp [operators, hk]) ihl ihr
  | not h ih =>
    intro before marks hb
    obtain ⟨a, ha⟩ := ih (some (.keyword .not)) marks rfl
    exact ⟨a, fun rest => by simp [Node.words_mk, ha]⟩

end Expressions

section Statements

variable {s : Scopes} {n : Node} {ts us : List Word}

theorem ErasesAll.semicolon (h : ErasesAll ts us) :
    ErasesAll (ts ++ [sign .semicolon]) (us ++ [sign .semicolon]) := by
  intro before marks
  obtain ⟨a, ha⟩ := h before marks
  exact ⟨some .semicolon, fun rest => by simp [ha]⟩

theorem Erases.keyed {w : Keyword} (hw : opens (some (.keyword w)) = false) (h : Erases ts us) :
    ErasesAll (key w :: ts) (key w :: us) := by
  intro before marks
  obtain ⟨a, ha⟩ := h (some (.keyword w)) marks hw
  exact ⟨a, fun rest => by simp [ha]⟩

theorem Assignment.erases (h : Assignment n ts) : ErasesAll ts (n.words s false) := by
  obtain @⟨k, text, sym, sym', value, ts, hk, hv⟩ := h
  have hk : k ∈ operators := by
    simp only [operators, List.mem_append, List.mem_cons]
    exact .inr hk
  intro before marks
  obtain ⟨hl, hr, ho⟩ := operator_ne hk
  obtain ⟨a, ha⟩ := hv.erases (s := s) (some k.operator) marks ho
  refine ⟨a, fun rest => ?_⟩
  rw [words_operator hk]
  simp [Node.words_mk, erase_sign hl hr, ha]

theorem Assignment.isInline (h : Assignment n ts) : n.kind.isInline = true := by
  obtain @⟨k, text, sym, sym', value, ts, hk, hv⟩ := h
  exact (by decide : ∀ k ∈ Node.Kind.assign :: Node.Kind.compoundAssignments,
    k.isInline = true) k (List.mem_cons.2 hk)

theorem PrintEntry.erases (h : PrintEntry n ts) : Erases ts (n.words s false) := by
  cases h with
  | string => exact (erases_word (by decide) (by decide)).erases
  | value h => exact h.erases

theorem Target.erases (h : Target n ts) : Erases ts (n.words s false) := by
  cases h
  exact (erases_word (by decide) (by decide)).erases

theorem erases_body {body : List Phrase} (h : ∀ b ∈ body, ErasesAll b.2 (b.1.words s true)) :
    ErasesAll (body.flatMap Prod.snd)
      (Node.wordsIn s true (Node.list .statements (body.map Prod.fst))) := by
  rw [Node.words_chain (.inr ⟨rfl, rfl⟩), List.flatMap_map]
  exact erasesAll_flatMap (f := fun n => n.words s true) h

theorem Statement.erases (h : Statement n ts) : ErasesAll ts (n.words s true) := by
  induction h with
  | assignment h =>
    rw [Node.words_statement h.isInline]
    exact h.erases.semicolon
  | input _ ht =>
    have hl := erases_list (s := s) (k := .variableList) (by decide) fun t h => (ht t h).erases
    simpa [Node.words_mk, Node.Kind.isInline] using
      (hl.keyed (w := .input) rfl).semicolon
  | print _ he =>
    have hl := erases_list (s := s) (k := .printList) (by decide) fun t h => (he t h).erases
    simpa [Node.words_mk, Node.Kind.isInline] using
      (hl.keyed (w := .print) rfl).semicolon
  | println _ he =>
    have hl := erases_list (s := s) (k := .printList) (by decide) fun t h => (he t h).erases
    simpa [Node.words_mk, Node.Kind.isInline] using
      (hl.keyed (w := .println) rfl).semicolon
  | leave =>
    simpa [Node.words_mk, Node.Kind.isInline] using
      (erasesAll_nil.erases.keyed (w := .returnWord) rfl).semicolon
  | giveBack h =>
    simpa [Node.words_mk, Node.Kind.isInline] using
      ((h.erases (s := s)).keyed (w := .returnWord) rfl).semicolon
  | call ha =>
    simpa [Node.words_mk, Node.Kind.isInline] using
      (erasesAll_call (s := s) _ fun a h => (ha a h).erases).semicolon
  -- a parenthesis behind a keyword groups nothing and stays
  | forLoop hs ht _ _ ihb =>
    intro before marks
    obtain ⟨a, ha⟩ := erases_list (s := s) (k := .assignList) (by decide)
      (fun a h => (hs a h).erases.erases) (some .leftParen) (true :: marks) rfl
    obtain ⟨b, hb⟩ := ht.erases (s := s) (some .semicolon) (true :: marks) rfl
    obtain ⟨c, hc⟩ := erases_body ihb (some .rightParen) marks
    exact ⟨some (.keyword .endWord), fun rest => by
      simp [Node.words_mk, Node.Kind.isInline,
        erase_open (show opens (some (.keyword .forWord)) = true from rfl), ha, hb, hc]⟩
  | ifThen ht _ _ ihb =>
    intro before marks
    obtain ⟨a, ha⟩ := ht.erases (s := s) (some .leftParen) (true :: marks) rfl
    obtain ⟨b, hb⟩ := erases_body ihb (some .rightParen) marks
    exact ⟨some (.keyword .endWord), fun rest => by
      simp [Node.words_mk, Node.Kind.isInline,
        erase_open (show opens (some (.keyword .ifWord)) = true from rfl), ha, hb]⟩
  | ifElse ht _ _ _ _ ihb iho =>
    intro before marks
    obtain ⟨a, ha⟩ := ht.erases (s := s) (some .leftParen) (true :: marks) rfl
    obtain ⟨b, hb⟩ := erases_body ihb (some .rightParen) marks
    obtain ⟨c, hc⟩ := erases_body iho (some (.keyword .elseWord)) marks
    exact ⟨some (.keyword .endWord), fun rest => by
      simp [Node.words_mk, Node.Kind.isInline,
        erase_open (show opens (some (.keyword .ifWord)) = true from rfl), ha, hb, hc]⟩
  | repeatLoop hs _ _ ht ihb =>
    intro before marks
    obtain ⟨a, ha⟩ := erases_list (s := s) (k := .assignList) (by decide)
      (fun a h => (hs a h).erases.erases) (some .leftParen) (true :: marks) rfl
    obtain ⟨b, hb⟩ := erases_body ihb (some .rightParen) marks
    obtain ⟨c, hc⟩ := ht.erases (s := s) (some (.keyword .untilWord)) marks rfl
    exact ⟨some .semicolon, fun rest => by
      simp [Node.words_mk, Node.Kind.isInline,
        erase_open (show opens (some (.keyword .repeatWord)) = true from rfl), ha, hb, hc]⟩

end Statements

/-! ## Declarations -/

section Declarations

variable {s : Scopes} {n : Node} {ts us : List Word}

theorem typeWord_ne (t : DataType) : t.word.kind ≠ .leftParen ∧ t.word.kind ≠ .rightParen := by
  cases t <;> simp [DataType.word, key, name]

theorem opens_type {t : DataType} (h : t.IsScalar ∨ t = .void) :
    opens (some t.word.kind) = false := by
  rcases h with (rfl | rfl | rfl) | rfl <;> rfl

theorem erase_type {before : Option Token.Kind} {marks : List Bool} {rest : List Word}
    (t : DataType) : eraseGroups before marks (t.word :: rest) =
      t.word :: eraseGroups (some t.word.kind) marks rest :=
  erase_word (typeWord_ne t).1 (typeWord_ne t).2

theorem HasDataType.typeWords {id : Symbol.Id} {t : DataType} (h : HasDataType s id t) :
    Node.typeWords s (some id) = [t.word] := by
  obtain ⟨sym, hs, ht⟩ := h
  simp [Node.typeWords, hs, ht]

theorem HasReturnType.returnWords {id : Symbol.Id} {t : DataType} (h : HasReturnType s id t) :
    Node.returnWords s (some id) = [t.word] := by
  obtain ⟨sym, hs, ht⟩ := h
  simp [Node.returnWords, hs, ht]

theorem Declaration.erases (h : Declaration s n ts) : ErasesAll ts (n.words s false) := by
  obtain ⟨_, hs⟩ := h
  exact fun _ _ => ⟨_, fun rest => by
    simp [Node.words_mk, hs.typeWords, erase_type]
    rfl⟩

theorem ArrayDeclaration.erases (h : ArrayDeclaration s n ts) :
    ErasesAll ts (n.words s false) := by
  obtain ⟨hs⟩ := h
  exact fun _ _ => ⟨some .ident, fun rest => by
    simp [Node.words_mk, hs.typeWords, DataType.word]⟩

theorem Constant.erases (h : Constant n ts) : ErasesAll ts (n.words s false) := by
  obtain ⟨hv⟩ := h
  intro before marks
  obtain ⟨a, ha⟩ := hv.erases (s := s) (some .assign) marks rfl
  exact ⟨a, fun rest => by simp [Node.words_mk, ha]⟩

theorem TypeDefinition.erases (h : TypeDefinition s n ts) : ErasesAll ts (n.words s false) := by
  intro before marks
  cases h with
  | array hl =>
    obtain ⟨a, ha⟩ := hl.erases (s := s) (some .leftBracket) marks rfl
    exact ⟨some .ident, fun rest => by simp [Node.words_mk, ha]⟩
  | record _ hf =>
    obtain ⟨a, ha⟩ := erases_list (k := .structFields) (by decide)
      (fun f h => (hf f h).erases.erases) (some (.keyword .is)) marks rfl
    exact ⟨some (.keyword .endWord), fun rest => by simp [Node.words_mk, ha]⟩

theorem Function.erases (h : Function s n ts) : ErasesAll ts (n.words s false) := by
  obtain @⟨text, id, params, locals, body, t, hp, ht, hs, hl, _, hb⟩ := h
  intro before marks
  obtain ⟨a, ha⟩ := erases_list (k := .paramList) (by decide)
    (fun p h => (hp p h).erases.erases) (some .leftParen) (true :: marks) rfl
  obtain ⟨b, hb'⟩ := erases_list (k := .declList) (by decide)
    (fun l h => (hl l h).erases.erases) (some t.word.kind) marks (opens_type ht)
  obtain ⟨c, hc⟩ := erases_body (s := s) (fun b h => (hb b h).erases) (some (.keyword .begin)) marks
  exact ⟨some (.keyword .endWord), fun rest => by
    simp [Node.words_mk, erase_open (show opens (some .ident) = true from rfl),
      hs.returnWords, erase_type, ha, hb', hc]⟩

theorem Main.erases (h : Main s n ts) : ErasesAll ts (n.words s false) := by
  obtain ⟨hv, _, hb⟩ := h
  intro before marks
  obtain ⟨a, ha⟩ := erases_list (k := .declList) (by decide)
    (fun v h => (hv v h).erases.erases) (some (.keyword .main)) marks rfl
  obtain ⟨b, hb⟩ := erases_body (s := s) (fun b h => (hb b h).erases) (some (.keyword .begin)) marks
  exact ⟨some (.keyword .endWord), fun rest => by
    simp [Node.words_mk, ha, hb]⟩

theorem words_headed (w : Keyword) (k : Node.Kind) (items : List Node) :
    (Node.list k items).elim [] ((fun f : Bool → List Word => key w :: f false) ∘ Node.words s) =
      headed w items (Node.wordsIn s false (Node.list k items)) := by
  cases items with
  | nil => rfl
  | cons a items => simp [headed, Node.list_cons]

theorem Erases.headed {w : Keyword} (items : List Node) (hw : opens (some (.keyword w)) = false)
    (h : Erases ts us) :
    ErasesAll (Word.headed w items ts) (Word.headed w items us) := by
  by_cases hi : items = []
  · simpa [Word.headed, hi] using erasesAll_nil
  · simpa [Word.headed, hi] using h.keyed hw

/-- Without its groups, a program is what its tree is written as. -/
theorem Program.erase_eq (h : Program s n ts) : eraseGroups none [] ts = n.words s false := by
  obtain @⟨text, constants, types, arrays, functions, main, ts, hc, ht, ha, hf, hm⟩ := h
  obtain ⟨a, hc⟩ := (erases_list (s := s) (k := .initList) (by decide) fun c h =>
    (hc c h).erases.erases).headed (w := .constants) (constants.map Prod.fst) rfl (some .ident) []
  obtain ⟨b, ht⟩ := (erasesAll_flatMap (f := fun n => n.words s false) fun t h =>
    (ht t h).erases).erases.headed (w := .types) (types.map Prod.fst) rfl a []
  obtain ⟨c, ha⟩ := (erases_list (s := s) (k := .arrayDecls) (by decide) fun a h =>
    (ha a h).erases.erases).headed (w := .arrays) (arrays.map Prod.fst) rfl b []
  obtain ⟨d, hf⟩ := (erasesAll_flatMap (f := fun n => n.words s false) fun f h =>
    (hf f h).erases) c []
  obtain ⟨e, hm⟩ := hm.erases d []
  simp [Node.words_mk, hc, ht, ha, hf, hm, words_headed, Node.words_chain,
    List.flatMap_map, erase_nil]

end Declarations

end Grammar

end StackCompiler
