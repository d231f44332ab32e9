import StackCompiler.Proofs.Declaring
import StackCompiler.Proofs.Logic

/-!
# How far a parser has come

A parser is compared with the state in which it was started. At any time, and also when it fails,
it has moved on in the same stream, has reported warnings about tokens on its way, has left alone
what symbols and scopes there were, and has not closed a scope that it did not open.

The literals of the nodes that were read are those of the tokens that were consumed, in the same
order, and the pool holds each of them from the first time on.
-/

namespace StackCompiler

/-- A literal: the kind of its node, and its text with its sign. -/
structure Literal where
  kind : Node.Kind
  text : String
deriving DecidableEq, Repr

namespace Token.Kind

def isLiteral : Kind → Bool
  | integer | real | string => true
  | _ => false

/-- Whether a token of the kind can be the last one of an operand. -/
def endsOperand : Kind → Bool
  | ident | integer | real | rightParen | keyword .trueWord | keyword .falseWord => true
  | _ => false

/-- Whether an operand can follow a token of the kind, and a minus behind it is a sign. -/
def isPlain (k : Kind) : Bool := !k.isLiteral && !k.endsOperand && k ≠ .minus

theorem isLiteral_of_isPlain {k : Kind} (h : k.isPlain = true) : k.isLiteral = false := by
  simp only [isPlain, Bool.and_eq_true, Bool.not_eq_true'] at h
  exact h.1.1

theorem endsOperand_of_isPlain {k : Kind} (h : k.isPlain = true) : k.endsOperand = false := by
  simp only [isPlain, Bool.and_eq_true, Bool.not_eq_true'] at h
  exact h.1.2

theorem ne_minus_of_isPlain {k : Kind} (h : k.isPlain = true) : k ≠ .minus := by
  simp only [isPlain, Bool.and_eq_true, decide_eq_true_eq] at h
  exact h.2

end Token.Kind

namespace TokenStream

variable (s : TokenStream)

def token (k : Nat) : Token := s.tokens.getD k (.eof s.finish)

/-- Whether the token before the `k`-th one ends an operand. -/
def operandBefore : Nat → Bool
  | 0 => false
  | k + 1 => (s.token k).kind.endsOperand

/-- Whether the token before the `k`-th one is a minus that does not join two operands. -/
def signBefore : Nat → Bool
  | 0 => false
  | k + 1 => (s.token k).kind = .minus && !s.operandBefore k

/-- The literal that the `k`-th token is, if it is one. -/
def literal? (k : Nat) : Option Literal :=
  let t := s.token k
  let signed := if s.signBefore k then "-" ++ t.text else t.text
  match t.kind with
  | .integer => some ⟨.intLiteral, signed⟩
  | .real => some ⟨.realLiteral, signed⟩
  | .string => some ⟨.string, t.text⟩
  | _ => none

def literals (n : Nat) : List Literal := (List.range n).filterMap s.literal?

theorem literals_succ (n : Nat) : s.literals (n + 1) = s.literals n ++ (s.literal? n).toList := by
  rw [literals, List.range_succ, List.filterMap_append, ← literals]
  cases h : s.literal? n <;> simp [h]

variable {s}

theorem literal?_eq_none {k : Nat} (h : (s.token k).kind.isLiteral = false) :
    s.literal? k = none := by
  unfold literal?
  dsimp only
  split <;> simp_all [Token.Kind.isLiteral]

end TokenStream

namespace Node

def Kind.isLiteral : Kind → Bool
  | intLiteral | realLiteral | string => true
  | _ => false

def literals (n : Node) : List Node := n.nodes.filter fun m => m.kind.isLiteral

def literalsIn (n : Option Node) : List Node := n.elim [] literals

@[simp] theorem literalsIn_none : literalsIn none = [] := rfl

@[simp] theorem literalsIn_some (n : Node) : literalsIn (some n) = n.literals := rfl

def literal (n : Node) : Literal := ⟨n.kind, n.valueText⟩

/-- The text under which the pool holds a literal. A string stands there with its quotes. -/
def poolKey (n : Node) : String :=
  match n.kind with
  | .string => "\"" ++ n.valueText ++ "\""
  | _ => n.valueText

variable {k : Kind}

theorem literals_mk (hk : k.isLiteral = false) (v : Option String) (s : Option Symbol.Id)
    (l c r : Option Node) :
    (mk k v s l c r).literals = literalsIn l ++ literalsIn c ++ literalsIn r := by
  have helim : ∀ n : Option Node, (n.elim [] nodes).filter (fun m => m.kind.isLiteral) =
      literalsIn n := by
    intro n
    cases n <;> rfl
  rw [literals, nodes_mk, List.filter_cons_of_neg (by simp [kind, hk]), List.filter_append,
    List.filter_append, helim, helim, helim]

theorem literals_withValue {n : Node} (hk : n.kind.isLiteral = false) (v : String) :
    (n.withValue v).literals = n.literals := by
  obtain ⟨k, v', s, l, c, r⟩ := n
  simp only [kind] at hk
  rw [withValue, literals_mk hk, literals_mk hk]

theorem literalsIn_list (hk : k.isLiteral = false) (items : List Node) :
    literalsIn (list k items) = items.flatMap literals := by
  induction items with
  | nil => rfl
  | cons a items ih =>
    rw [list_cons, literalsIn_some, List.flatMap_cons, ← ih]
    cases list k items with
    | none => simp
    | some rest =>
      rw [Option.elim_some, binary, branch, literals_mk hk]
      simp

end Node

/-- The table with a new entry, if it has none of that name. -/
def SymbolTable.insertNew (t : SymbolTable) (name : String) (id : Symbol.Id) : SymbolTable :=
  if (t.resolve name).isSome then t else t.insert name id

def SymbolTable.pool (t : SymbolTable) (n : Node) : SymbolTable :=
  n.symbol.elim t (t.insertNew n.poolKey)

/-! ## Scopes -/

namespace Scopes

/-- The index of a scope leads to a table of its name. -/
def Indexed (s : Scopes) : Prop :=
  ∀ (name : String) (i : Nat), s.index[name]? = some i → ∃ t, s.tables[i]? = some t ∧ t.scope = name

/-- The symbols of `o` are there in `s` as they were, and so are the names of its scopes. -/
structure Retains (o s : Scopes) : Prop where
  size : o.symbols.size ≤ s.symbols.size
  symbols : ∀ id < o.symbols.size, s.symbol? id = o.symbol? id
  indexed : o.Indexed → s.Indexed
  named : o.Indexed → ∀ (i : Nat) (t : SymbolTable), o.tables[i]? = some t →
    ∃ u, s.tables[i]? = some u ∧ u.scope = t.scope

variable {o s : Scopes}

namespace Retains

theorem refl (s : Scopes) : s.Retains s :=
  ⟨Nat.le_refl _, fun _ _ => rfl, id, fun _ _ t ht => ⟨t, ht, rfl⟩⟩

/-- What neither makes a scope nor takes the name of one. -/
theorem step {s' : Scopes} (h : o.Retains s) (hsize : s.symbols.size ≤ s'.symbols.size)
    (hsym : ∀ id < o.symbols.size, s'.symbol? id = s.symbol? id) (hindex : s'.index = s.index)
    (htab : ∀ (i : Nat) (t : SymbolTable), s.tables[i]? = some t →
      ∃ u, s'.tables[i]? = some u ∧ u.scope = t.scope) : o.Retains s' := by
  refine ⟨Nat.le_trans h.size hsize, fun id hid => (hsym id hid).trans (h.symbols id hid),
    fun ho name i hi => ?_, fun ho i t ht => ?_⟩
  · rw [hindex] at hi
    obtain ⟨t, ht, hname⟩ := h.indexed ho name i hi
    obtain ⟨u, hu, hut⟩ := htab i t ht
    exact ⟨u, hu, hut.trans hname⟩
  · obtain ⟨u, hu, hut⟩ := h.named ho i t ht
    obtain ⟨w, hw, hwu⟩ := htab i u hu
    exact ⟨w, hw, hwu.trans hut⟩

theorem exists_table_create {name : String} (hs : s.Indexed) (i : Nat) (t : SymbolTable)
    (ht : s.tables[i]? = some t) :
    ∃ u, (s.create name).tables[i]? = some u ∧ u.scope = t.scope := by
  have hlt := (Array.getElem?_eq_some_iff.1 ht).1
  unfold Scopes.create
  split
  · next j hj =>
    obtain ⟨u, hu, hname⟩ := hs name j hj
    by_cases hij : j = i
    · subst hij
      rw [ht, Option.some.injEq] at hu
      exact ⟨.empty name, by simp [push, hlt], by rw [hu, hname]; rfl⟩
    · exact ⟨t, by simpa [push, hij] using ht, rfl⟩
  · refine ⟨t, ?_, rfl⟩
    simpa [push, Array.getElem?_push_lt hlt, ← Array.getElem?_eq_getElem hlt] using ht

theorem indexed_create (hs : s.Indexed) (name : String) : (s.create name).Indexed := by
  intro other i hi
  cases hn : s.index[name]? with
  | some j =>
    obtain ⟨t, ht, hother⟩ : ∃ t, s.tables[i]? = some t ∧ t.scope = other := by
      refine hs other i ?_
      simpa only [Scopes.create, hn, push] using hi
    obtain ⟨u, hu, hut⟩ := exists_table_create hs i t ht
    exact ⟨u, hu, hut.trans hother⟩
  | none =>
    simp only [Scopes.create, hn, push, Std.TreeMap.getElem?_insert] at hi
    split at hi
    · next heq =>
      cases hi
      exact ⟨.empty name, by simp [Scopes.create, hn, push], Std.LawfulEqCmp.eq_of_compare heq⟩
    · obtain ⟨t, ht, hother⟩ := hs other i hi
      obtain ⟨u, hu, hut⟩ := exists_table_create hs i t ht
      exact ⟨u, hu, hut.trans hother⟩

theorem create (h : o.Retains s) (name : String) : o.Retains (s.create name) := by
  have hsym := create_symbols s name
  refine ⟨by rw [hsym]; exact h.size, fun id hid => ?_,
    fun ho => indexed_create (h.indexed ho) name, fun ho i t ht => ?_⟩
  · rw [symbol?_create]
    exact h.symbols id hid
  · obtain ⟨u, hu, hut⟩ := h.named ho i t ht
    obtain ⟨w, hw, hwu⟩ := exists_table_create (h.indexed ho) i u hu
    exact ⟨w, hw, hwu.trans hut⟩

theorem leave (h : o.Retains s) : o.Retains s.leave := ⟨h.size, h.symbols, h.indexed, h.named⟩

theorem add (h : o.Retains s) (sym : Symbol) : o.Retains (s.add sym).2 := by
  refine h.step (by simp [Scopes.add]) (fun id hid => ?_) rfl fun i t ht => ⟨t, ht, rfl⟩
  have hlt : id < s.symbols.size := Nat.lt_of_lt_of_le hid h.size
  simp only [Scopes.add, symbol?]
  rw [Array.getElem?_push_lt hlt, Array.getElem?_eq_getElem hlt]

theorem addConstant (h : o.Retains s) (key : String) (sym : Symbol) :
    o.Retains (s.addConstant key sym).2 := by
  have ha := h.add { sym with scope := poolName }
  exact ⟨ha.size, ha.symbols, ha.indexed, ha.named⟩

theorem bind (h : o.Retains s) (name : String) (id : Symbol.Id) : o.Retains (s.bind name id) := by
  unfold Scopes.bind
  split
  · next i rest hst =>
    refine h.step (Nat.le_refl _) (fun _ _ => rfl) rfl fun j t ht => ?_
    simp only [Array.getElem?_modify, ht, Option.map_some]
    split
    · exact ⟨_, rfl, SymbolTable.insert_scope t name id⟩
    · exact ⟨t, rfl, rfl⟩
  · exact h

theorem place (h : o.Retains s) (sym : Symbol) (region : Option Region) :
    o.Retains (s.place sym region).2 := by
  rw [place_snd]
  cases region with
  | none => exact h
  | some r =>
    obtain ⟨hsym, htab, hind, -, -⟩ := allocate_symbols s r sym.isParameter
    refine h.step (by simp [hsym]) (fun id _ => ?_) hind fun i t ht => ⟨t, ?_, rfl⟩
    · simp only [Option.elim_some, symbol?, hsym]
    · simpa only [Option.elim_some, htab] using ht

theorem declare (h : o.Retains s) (sym : Symbol) (region : Option Region) :
    o.Retains (s.declare sym region).2 :=
  ((h.place sym region).add _).bind _ _

theorem addAttribute (h : o.Retains s) {id : Symbol.Id} (hid : o.symbols.size ≤ id)
    (a : Symbol.Attribute) : o.Retains (s.addAttribute id a) := by
  refine h.step (by simp [Scopes.addAttribute, modify]) (fun j hj => ?_) rfl
    fun i t ht => ⟨t, ht, rfl⟩
  have hne : id ≠ j := Nat.ne_of_gt (Nat.lt_of_lt_of_le hj hid)
  simp [Scopes.addAttribute, modify, symbol?, Array.getElem?_modify, hne]

end Retains

theorem declare_frame (s : Scopes) (sym : Symbol) (region : Option Region) :
    (s.declare sym region).1 = s.symbols.size ∧ (s.declare sym region).2.stack = s.stack ∧
      (s.declare sym region).2.constants = s.constants := by
  have hbind : ∀ (s : Scopes) (name : String) (id : Symbol.Id),
      (s.bind name id).stack = s.stack ∧ (s.bind name id).constants = s.constants := by
    intro s name id
    unfold Scopes.bind
    split <;> exact ⟨rfl, rfl⟩
  have hplace : (s.place sym region).2.symbols = s.symbols ∧
      (s.place sym region).2.stack = s.stack ∧ (s.place sym region).2.constants = s.constants := by
    rw [place_snd]
    cases region with
    | none => exact ⟨rfl, rfl, rfl⟩
    | some r =>
      obtain ⟨hsym, -, -, hst, hc⟩ := allocate_symbols s r sym.isParameter
      exact ⟨hsym, hst, hc⟩
  exact ⟨congrArg Array.size hplace.1, (hbind _ _ _).1.trans hplace.2.1,
    (hbind _ _ _).2.trans hplace.2.2⟩

end Scopes

namespace Parser

variable {α : Type}

/-- What can be said of a state in which a parser is or has failed, when it was started in `o`. The
open scopes are `st`, and the tokens `ts` have been seen since. -/
structure Follows (o : State) (st : List Nat) (ts : List Token) (s : State) : Prop where
  stream : s.stream = { o.stream with index := s.stream.index }
  index : o.stream.index ≤ s.stream.index
  seen : ∀ t ∈ ts, ∃ k, o.stream.index ≤ k ∧ k ≤ s.stream.index ∧ t = o.stream.token k
  /-- There is a warning for each of some marks, which are a number of a token and a notice. -/
  warnings : ∃ marks : List (Nat × Notice),
    s.diagnostics.toList =
      o.diagnostics.toList ++ marks.map (fun m => .warning (o.stream.token m.1) m.2) ∧
    (marks.map Prod.fst).Pairwise (· ≤ ·) ∧
    ∀ m ∈ marks, o.stream.index ≤ m.1 ∧ m.1 ≤ s.stream.index
  stack : s.scopes.stack = st
  base : o.scopes.stack <:+ st
  scopes : o.scopes.Retains s.scopes

/-- As `Follows`, when nothing has failed. The literals `ls` are those that were read. -/
structure At (o : State) (st : List Nat) (ts : List Token) (ls : List Node) (s : State) : Prop
    extends Follows o st ts s where
  literals : o.stream.literals s.stream.index =
    o.stream.literals o.stream.index ++ ls.map Node.literal
  pool : s.scopes.constants = ls.foldl SymbolTable.pool o.scopes.constants

/-- What holds when a parser has failed that was started in `o`. -/
def Broken (o : State) (e : ParseError) (s : State) : Prop :=
  ∃ st ts, Follows o st ts s ∧ e.token ∈ ts

/-- Started in `s`, the parser adds the literals of what it reads to `ls`. -/
abbrev Tracks (o : State) (st : List Nat) (ts : List Token) (ls : List Node) (L : α → List Node)
    (p : Parser α) (s : State) : Prop :=
  wp (Broken o) p (fun a s' => At o st ts (ls ++ L a) s') s

/-- An operand can come next, and a minus would be its sign. -/
def Due (o s : State) : Prop :=
  o.stream.operandBefore s.stream.index = false ∧ o.stream.signBefore s.stream.index = false

/-- An operand has just been read. -/
def Done (o s : State) : Prop := o.stream.operandBefore s.stream.index = true

variable {o s s' : State} {st : List Nat} {ts : List Token} {ls : List Node} {t : Token}
  {E : ParseError → State → Prop}

/-- The log, the function and the depth do not matter. -/
theorem Follows.congr (h : Follows o st ts s) (hs : s'.stream = s.stream)
    (hd : s'.diagnostics = s.diagnostics) (hsc : s'.scopes = s.scopes) : Follows o st ts s' := by
  obtain ⟨stream, index, seen, warnings, stack, base, scopes⟩ := h
  rw [← hs] at stream index seen warnings
  rw [← hd] at warnings
  rw [← hsc] at stack scopes
  exact ⟨stream, index, seen, warnings, stack, base, scopes⟩

theorem Follows.current (h : Follows o st ts s) :
    s.stream.current = o.stream.token s.stream.index := by
  rw [h.stream]
  rfl

theorem Follows.see (h : Follows o st ts s) : Follows o st (s.stream.current :: ts) s := by
  refine { h with seen := fun t ht => ?_ }
  rcases List.mem_cons.1 ht with rfl | ht
  · exact ⟨s.stream.index, h.index, Nat.le_refl _, h.current⟩
  · exact h.seen t ht

theorem Follows.advance (h : Follows o st ts s) :
    Follows o st ts s.advance := by
  obtain ⟨marks, hd, hsorted, hmarks⟩ := h.warnings
  refine { h with
    stream := ?_, index := Nat.le_succ_of_le h.index, seen := fun t ht => ?_, warnings := ?_ }
  · rw [State.advance, h.stream]
    rfl
  · obtain ⟨k, hk, hk', rfl⟩ := h.seen t ht
    exact ⟨k, hk, Nat.le_succ_of_le hk', rfl⟩
  · exact ⟨marks, hd, hsorted, fun m hm => ⟨(hmarks m hm).1, Nat.le_succ_of_le (hmarks m hm).2⟩⟩

theorem Follows.broken {f : Fault} (h : Follows o st ts s) (ht : t ∈ ts) : Broken o ⟨t, f⟩ s :=
  ⟨st, ts, h, ht⟩

namespace At

theorem congr (h : At o st ts ls s) (hs : s'.stream = s.stream)
    (hd : s'.diagnostics = s.diagnostics) (hsc : s'.scopes = s.scopes) : At o st ts ls s' :=
  ⟨h.toFollows.congr hs hd hsc, hs ▸ h.literals, hsc ▸ h.pool⟩

theorem mono {ts' : List Token} (h : At o st ts ls s) (hts : ∀ t ∈ ts', t ∈ ts) :
    At o st ts' ls s :=
  { h with seen := fun t ht => h.seen t (hts t ht) }

theorem tail (h : At o st (t :: ts) ls s) : At o st ts ls s :=
  h.mono fun _ ht => List.mem_cons_of_mem t ht

theorem see (h : At o st ts ls s) : At o st (s.stream.current :: ts) ls s :=
  ⟨h.toFollows.see, h.literals, h.pool⟩

theorem advance (h : At o st ts ls s) (hk : s.stream.kind.isLiteral = false) :
    At o st ts ls s.advance := by
  refine ⟨h.toFollows.advance, ?_, h.pool⟩
  rw [TokenStream.kind, h.current] at hk
  show o.stream.literals (s.stream.index + 1) = _
  rw [TokenStream.literals_succ, TokenStream.literal?_eq_none hk, h.literals]
  simp

theorem due (h : At o st ts ls s) (hk : s.stream.kind.isPlain = true) :
    Due o s.advance := by
  rw [TokenStream.kind, h.current] at hk
  refine ⟨Token.Kind.endsOperand_of_isPlain hk, ?_⟩
  show (_ && _) = false
  rw [Bool.and_eq_false_iff]
  exact .inl (decide_eq_false (Token.Kind.ne_minus_of_isPlain hk))

theorem fail {Q : α → State → Prop} {f : Fault} (h : At o st ts ls s) (ht : t ∈ ts) :
    wp (Broken o) (Parser.fail t f) Q s :=
  h.toFollows.broken ht

theorem unexpected {Q : α → State → Prop} (h : At o st ts ls s) (what : String) :
    wp (Broken o) (Parser.unexpected what) Q s :=
  h.toFollows.see.broken List.mem_cons_self

theorem noProgress {Q : α → State → Prop} (h : At o st ts ls s) :
    wp (Broken o) Parser.noProgress Q s :=
  h.toFollows.see.broken List.mem_cons_self

end At

end Parser

end StackCompiler
