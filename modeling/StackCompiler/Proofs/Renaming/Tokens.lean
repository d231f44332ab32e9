import Mathlib.Data.List.Forall2
import StackCompiler.Proofs.Correspondence.Basic
import StackCompiler.Proofs.Spelling.Basic

/-!
# Sources that differ in layout and in names

Two sources have the same tokens but for the places of the tokens and the spelling of identifiers.
Equal identifiers of one stand where equal identifiers of the other do, and no two tokens of a
source share a place; so the names that scopes are made under are equal in one source exactly where
they are in the other.
-/

namespace StackCompiler

namespace Position

variable {p q : Position}

def Before (p q : Position) : Prop := p.line < q.line ∨ p.line = q.line ∧ p.column < q.column

theorem Before.trans {o : Position} (h : o.Before p) (h' : p.Before q) : o.Before q := by
  unfold Before at *
  omega

theorem Before.ne (h : p.Before q) : p ≠ q := by
  rintro rfl
  unfold Before at h
  omega

theorem before_next (p : Position) (c : Char) : p.Before (p.next c) := by
  unfold Before next
  split
  · exact .inl (Nat.lt_succ_self _)
  · exact .inr ⟨rfl, Nat.lt_succ_self _⟩

theorem text_toList (p : Position) :
    p.text.toList = Nat.toDigits 10 p.line ++ ':' :: Nat.toDigits 10 p.column := by
  simp [text, ToString.toString]

theorem not_mem_toDigits {c : Char} (n : Nat) (hc : c.isDigit = false) :
    c ∉ Nat.toDigits 10 n := by
  intro h
  rw [Nat.isDigit_of_mem_toDigits (by decide) (by decide) h] at hc
  cases hc

theorem at_not_mem_text (p : Position) : '@' ∉ p.text.toList := by
  rw [text_toList]
  simp [not_mem_toDigits]

end Position

theorem append_cons_inj {α : Type} {x : α} {a b c d : List α} (hb : x ∉ b) (hd : x ∉ d)
    (h : a ++ x :: b = c ++ x :: d) : a = c ∧ b = d := by
  rcases List.append_eq_append_iff.1 h with ⟨e, rfl, he⟩ | ⟨e, rfl, he⟩
  · cases e with
    | nil => simpa using he
    | cons y e =>
      rw [List.cons_append, List.cons.injEq] at he
      exact absurd (he.2 ▸ by simp) hb
  · cases e with
    | nil => simpa using he.symm
    | cons y e =>
      rw [List.cons_append, List.cons.injEq] at he
      exact absurd (he.2 ▸ by simp) hd

theorem Position.text_inj {p q : Position} (h : p.text = q.text) : p = q := by
  have h := congrArg String.toList h
  rw [text_toList, text_toList] at h
  obtain ⟨hl, hc⟩ := append_cons_inj (not_mem_toDigits _ (by decide))
    (not_mem_toDigits _ (by decide)) h
  have inj {m n : Nat} (h : Nat.toDigits 10 m = Nat.toDigits 10 n) : m = n := by
    rw [← Nat.ofDigitChars_ten_toDigits (n := m), h, Nat.ofDigitChars_ten_toDigits]
  obtain ⟨line, column⟩ := p
  obtain ⟨line', column'⟩ := q
  rw [mk.injEq]
  exact ⟨inj hl, inj hc⟩

namespace Lexer

theorem drop_position (n : Nat) (l : Lexer) :
    (l.drop n).position = l.position ∨ l.position.Before (l.drop n).position := by
  induction n generalizing l with
  | zero => exact .inl rfl
  | succ n ih =>
    obtain ⟨rest, p⟩ := l
    cases rest with
    | nil => exact .inl rfl
    | cons c rest =>
      refine .inr ?_
      rcases ih ⟨rest, p.next c⟩ with h | h
      · rw [drop, h]
        exact p.before_next c
      · exact (p.before_next c).trans h

theorem drop_succ_position {l : Lexer} (n : Nat) (h : l.rest ≠ []) :
    l.position.Before (l.drop (n + 1)).position := by
  obtain ⟨rest, p⟩ := l
  cases rest with
  | nil => exact absurd rfl h
  | cons c rest =>
    rcases drop_position n ⟨rest, p.next c⟩ with h | h
    · rw [drop, h]
      exact p.before_next c
    · exact (p.before_next c).trans h

theorem skipTrivia_position (l : Lexer) :
    l.skipTrivia.position = l.position ∨ l.position.Before l.skipTrivia.position := by
  fun_induction skipTrivia l with
  | case1 l n h ih =>
    rcases ih with ih | ih <;> rcases drop_position n l with hd | hd
    · exact .inl (ih.trans hd)
    · exact .inr (ih ▸ hd)
    · exact .inr (hd ▸ ih)
    · exact .inr (hd.trans ih)
  | case2 l h => exact .inl rfl

theorem next_position (l : Lexer) : l.next.1.position = l.skipTrivia.position := by
  unfold next
  dsimp only
  split <;> rfl

theorem next_rest_position {l : Lexer} (h : l.next.1.kind ≠ .eof) :
    l.next.1.position.Before l.next.2.position := by
  unfold next at *
  dsimp only at *
  split at h
  · exact absurd rfl h
  · next c rest hr =>
    exact drop_succ_position _ (by simp [hr])

theorem tokensAfter_sorted (acc : List Token) (l : Lexer)
    (hacc : acc.Pairwise fun t u => u.position.Before t.position)
    (hl : ∀ t ∈ acc, t.position.Before l.position) :
    (l.tokensAfter acc).Pairwise fun t u => t.position.Before u.position := by
  have hcons (l : Lexer) {acc : List Token} (hacc : acc.Pairwise fun t u => u.position.Before t.position)
      (hl : ∀ t ∈ acc, t.position.Before l.position) :
      (l.next.1 :: acc).Pairwise fun t u => u.position.Before t.position := by
    refine List.pairwise_cons.2 ⟨fun t ht => ?_, hacc⟩
    rw [next_position]
    rcases skipTrivia_position l with h | h
    · rw [h]
      exact hl t ht
    · exact (hl t ht).trans h
  fun_induction tokensAfter acc l with
  | case1 acc l t h => exact List.pairwise_reverse.2 (hcons l hacc hl)
  | case2 acc l t h ih =>
    refine ih (hcons l hacc hl) fun u hu => ?_
    rcases List.mem_cons.1 hu with rfl | hu
    · exact next_rest_position h
    · have hn := (List.pairwise_cons.1 (hcons l hacc hl)).1 u hu
      exact hn.trans (next_rest_position h)

end Lexer

theorem tokensOf_sorted (source : String) :
    (tokensOf source).Pairwise fun t u => t.position.Before u.position :=
  Lexer.tokensAfter_sorted [] _ .nil (by simp)

theorem tokensOf_position_inj {source : String} {i j : Nat} {t u : Token}
    (hi : (tokensOf source)[i]? = some t) (hj : (tokensOf source)[j]? = some u)
    (h : t.position = u.position) : i = j := by
  obtain ⟨hlt, rfl⟩ := List.getElem?_eq_some_iff.1 hi
  obtain ⟨hlt', rfl⟩ := List.getElem?_eq_some_iff.1 hj
  have hs := List.pairwise_iff_getElem.1 (tokensOf_sorted source)
  rcases Nat.lt_trichotomy i j with h' | heq | h'
  · exact absurd h (hs i j hlt hlt' h').ne
  · exact heq
  · exact absurd h.symm (hs j i hlt' hlt h').ne

theorem tokensOf_spelled {source : String} {t : Token} (h : t ∈ tokensOf source) : t.Spelled := by
  obtain ⟨ts, e, heq, hts, he, -⟩ := tokensOf_eq source
  rw [heq] at h
  rcases List.mem_append.1 h with h | h
  · exact (hts t h).1
  · rw [List.mem_singleton.1 h]
    exact he

/-- The same token up to its place, with an identifier renamed. -/
structure Token.Renamed (f : String → String) (t u : Token) : Prop where
  kind : u.kind = t.kind
  lexeme : u.lexeme = if t.kind = .ident then t.lexeme.map f else t.lexeme

instance (f : String → String) (t u : Token) : Decidable (t.Renamed f u) :=
  decidable_of_iff
    (u.kind = t.kind ∧ u.lexeme = if t.kind = .ident then t.lexeme.map f else t.lexeme)
    ⟨fun h => ⟨h.1, h.2⟩, fun h => ⟨h.kind, h.lexeme⟩⟩

def identifiers (ts : List Token) : List String :=
  (ts.filter fun t => t.kind = .ident).map Token.text

/-- The tokens `us` are the tokens `ts` with all identifiers renamed, different ones to different
ones. -/
structure Renames (f : String → String) (ts us : List Token) : Prop where
  tokens : List.Forall₂ (Token.Renamed f) ts us
  injective : ∀ a ∈ identifiers ts, ∀ b ∈ identifiers ts, f a = f b → a = b

/-- A source and a renamed one. -/
structure Renaming where
  source : String
  target : String
  rename : String → String
  renames : Renames rename (tokensOf source) (tokensOf target)

namespace Renaming

variable (r : Renaming)

/-- The tokens stand at the same index of their sources. -/
def SameToken (t u : Token) : Prop :=
  ∃ i : Nat, (tokensOf r.source)[i]? = some t ∧ (tokensOf r.target)[i]? = some u

/-- The names are those of identifiers at the same index. -/
def SameName (a b : String) : Prop :=
  ∃ t u, r.SameToken t u ∧ t.kind = .ident ∧ t.text = a ∧ u.text = b

variable {r} {t t' u u' : Token} {a a' b b' : String}

theorem SameToken.renamed (h : r.SameToken t u) : t.Renamed r.rename u := by
  obtain ⟨i, ht, hu⟩ := h
  obtain ⟨hi, rfl⟩ := List.getElem?_eq_some_iff.1 ht
  obtain ⟨hj, rfl⟩ := List.getElem?_eq_some_iff.1 hu
  exact r.renames.tokens.get hi hj

theorem SameToken.kind (h : r.SameToken t u) : u.kind = t.kind := h.renamed.kind

theorem SameToken.text (h : r.SameToken t u) (hk : t.kind ≠ .ident) : u.text = t.text := by
  rw [Token.text, h.renamed.lexeme, if_neg hk]
  rfl

theorem SameToken.spelled (h : r.SameToken t u) : t.Spelled := by
  obtain ⟨i, ht, -⟩ := h
  exact tokensOf_spelled (List.mem_of_getElem? ht)

theorem SameToken.position_iff (h : r.SameToken t u) (h' : r.SameToken t' u') :
    t.position = t'.position ↔ u.position = u'.position := by
  obtain ⟨i, ht, hu⟩ := h
  obtain ⟨j, ht', hu'⟩ := h'
  refine ⟨fun hp => ?_, fun hp => ?_⟩
  · obtain rfl := tokensOf_position_inj ht ht' hp
    obtain rfl := Option.some.inj (hu.symm.trans hu')
    rfl
  · obtain rfl := tokensOf_position_inj hu hu' hp
    obtain rfl := Option.some.inj (ht.symm.trans ht')
    rfl

theorem SameToken.name (h : r.SameToken t u) (hk : t.kind = .ident) : r.SameName t.text u.text :=
  ⟨t, u, h, hk, rfl, rfl⟩

theorem SameName.eq (h : r.SameName a b) : b = r.rename a := by
  obtain ⟨t, u, h, hk, rfl, rfl⟩ := h
  rw [Token.text, h.renamed.lexeme, if_pos hk, h.spelled.carried (by rw [hk]; rfl)]
  rfl

theorem SameName.mem (h : r.SameName a b) : a ∈ identifiers (tokensOf r.source) := by
  obtain ⟨t, u, ⟨i, ht, -⟩, hk, rfl, -⟩ := h
  exact List.mem_map_of_mem (List.mem_filter.2 ⟨List.mem_of_getElem? ht, by simpa using hk⟩)

theorem SameName.eq_iff (h : r.SameName a b) (h' : r.SameName a' b') : a = a' ↔ b = b' := by
  rw [h.eq, h'.eq]
  exact ⟨congrArg _, r.renames.injective a h.mem a' h'.mem⟩

theorem SameName.at_not_mem (h : r.SameName a b) : '@' ∉ a.toList ∧ '@' ∉ b.toList := by
  obtain ⟨t, u, hs, hk, rfl, rfl⟩ := h
  obtain ⟨i, ht, hu⟩ := id hs
  exact ⟨(lexed_tokensOf _ t (List.mem_of_getElem? ht)).at_not_mem hk,
    (lexed_tokensOf _ u (List.mem_of_getElem? hu)).at_not_mem (hs.kind.trans hk)⟩

end Renaming

/-! ## Names of scopes -/

/-- Names of scopes that are made of names and tokens which `N` and `T` relate. -/
inductive ScopeNames (N : String → String → Prop) (T : Token → Token → Prop) :
    String → String → Prop
  | global : ScopeNames N T Parser.globalScope Parser.globalScope
  | main : ScopeNames N T Parser.mainScope Parser.mainScope
  | function {a b : String} (h : N a b) :
      ScopeNames N T (Parser.functionScope a) (Parser.functionScope b)
  | record {a b : String} (h : N a b) : ScopeNames N T ("__struct__" ++ a) ("__struct__" ++ b)
  | statement {a b construct : String} {t u : Token} (h : ScopeNames N T a b)
      (hc : ':' ∉ construct.toList) (ht : T t u) :
      ScopeNames N T (a ++ "::" ++ construct ++ "@" ++ t.position.text)
        (b ++ "::" ++ construct ++ "@" ++ u.position.text)

namespace ScopeNames

variable {N : String → String → Prop} {T : Token → Token → Prop} {a a' b b' : String}

theorem flip (h : ScopeNames N T a b) : ScopeNames (flip N) (flip T) b a := by
  induction h with
  | global => exact .global
  | main => exact .main
  | function h => exact .function h
  | record h => exact .record h
  | statement _ hc ht ih => exact .statement ih hc ht

/-- How the name of a scope starts. Those of statements are told apart by the place in them. -/
def start (a : String) : Option (List Char) :=
  if '@' ∈ a.toList then none else some (a.toList.take 3)

theorem start_global : start Parser.globalScope = some ['g', 'l', 'o'] := by
  simp [start, Parser.globalScope]

theorem start_main : start Parser.mainScope = some ['m', 'a', 'i'] := by
  simp [start, Parser.mainScope]

theorem start_function (ha : '@' ∉ a.toList) :
    start (Parser.functionScope a) = some ['_', '_', 'f'] := by
  simp [start, Parser.functionScope, ha]

theorem start_record (ha : '@' ∉ a.toList) : start ("__struct__" ++ a) = some ['_', '_', 's'] := by
  simp [start, ha]

theorem start_statement (a construct : String) (p : Position) :
    start (a ++ "::" ++ construct ++ "@" ++ p.text) = none := by
  simp [start]

theorem append_inj {c : String} (h : c ++ a = c ++ b) : a = b := by
  have h := congrArg String.toList h
  rw [String.toList_append, String.toList_append, List.append_cancel_left_eq] at h
  exact String.toList_inj.1 h

/-- The name of a statement's scope tells the scope around it, the construct and the place. -/
theorem statement_inj {c c' : String} {p p' : Position} (hc : ':' ∉ c.toList)
    (hc' : ':' ∉ c'.toList) (h : a ++ "::" ++ c ++ "@" ++ p.text = a' ++ "::" ++ c' ++ "@" ++ p'.text) :
    a = a' ∧ c = c' ∧ p = p' := by
  have h := congrArg String.toList h
  simp only [String.toList_append] at h
  have hat (b c : String) (p : Position) : b.toList ++ "::".toList ++ c.toList ++ "@".toList ++
      p.text.toList = (b.toList ++ "::".toList ++ c.toList) ++ '@' :: p.text.toList := by simp
  rw [hat, hat] at h
  obtain ⟨h, hp⟩ := append_cons_inj p.at_not_mem_text p'.at_not_mem_text h
  have hcolon (b c : String) : b.toList ++ "::".toList ++ c.toList =
      (b.toList ++ [':']) ++ ':' :: c.toList := by simp
  rw [hcolon, hcolon] at h
  obtain ⟨h, hcc⟩ := append_cons_inj hc hc' h
  exact ⟨String.toList_inj.1 (List.append_cancel_right h), String.toList_inj.1 hcc,
    Position.text_inj (String.toList_inj.1 hp)⟩

theorem unique (hN : ∀ a b, N a b → '@' ∉ a.toList)
    (hu : ∀ a b a' b', N a b → N a' b' → a = a' → b = b')
    (hT : ∀ t u t' u', T t u → T t' u' → t.position = t'.position → u.position = u'.position)
    (h : ScopeNames N T a b) (h' : ScopeNames N T a' b') (he : a = a') : b = b' := by
  -- the start of a name tells which rule it comes from
  have hs := congrArg start he
  induction h generalizing a' b' with
  | global =>
    rw [start_global] at hs
    cases h' with
    | global => rfl
    | main => cases hs
    | function h' => simp [start_function (hN _ _ h')] at hs
    | record h' => simp [start_record (hN _ _ h')] at hs
    | statement _ _ _ => simp [start_statement] at hs
  | main =>
    rw [start_main] at hs
    cases h' with
    | global => cases hs
    | main => rfl
    | function h' => simp [start_function (hN _ _ h')] at hs
    | record h' => simp [start_record (hN _ _ h')] at hs
    | statement _ _ _ => simp [start_statement] at hs
  | function h =>
    rw [start_function (hN _ _ h)] at hs
    cases h' with
    | global | main => cases hs
    | function h' => rw [hu _ _ _ _ h h' (append_inj he)]
    | record h' => simp [start_record (hN _ _ h')] at hs
    | statement _ _ _ => simp [start_statement] at hs
  | record h =>
    rw [start_record (hN _ _ h)] at hs
    cases h' with
    | global | main => cases hs
    | function h' => simp [start_function (hN _ _ h')] at hs
    | record h' => rw [hu _ _ _ _ h h' (append_inj he)]
    | statement _ _ _ => simp [start_statement] at hs
  | statement h hc ht ih =>
    rw [start_statement] at hs
    cases h' with
    | global | main => cases hs
    | function h' => simp [start_function (hN _ _ h')] at hs
    | record h' => simp [start_record (hN _ _ h')] at hs
    | statement h' hc' ht' =>
      obtain ⟨ha, hcc, hp⟩ := statement_inj hc hc' he
      rw [ih h' ha (congrArg start ha), hcc, hT _ _ _ _ ht ht' hp]

end ScopeNames

namespace Renaming

/-- The names are those of scopes made at the same point of the sources. -/
abbrev SameScope (r : Renaming) : String → String → Prop := ScopeNames r.SameName r.SameToken

theorem scope_eq_iff {r : Renaming} {a a' b b' : String} (h : r.SameScope a b)
    (h' : r.SameScope a' b') : a = a' ↔ b = b' := by
  refine ⟨ScopeNames.unique (fun _ _ h => h.at_not_mem.1) (fun _ _ _ _ h h' => (h.eq_iff h').1)
    (fun _ _ _ _ h h' => (h.position_iff h').1) h h', ?_⟩
  exact ScopeNames.unique (N := flip r.SameName) (fun _ _ h => SameName.at_not_mem h |>.2)
    (fun _ _ _ _ h h' => (SameName.eq_iff h h').2)
    (fun _ _ _ _ h h' => (SameToken.position_iff h h').2) h.flip h'.flip

theorem getElem?_tokensOf {source : String} {k : Nat} (hk : k < (tokensOf source).length) :
    (tokensOf source)[k]? = some ((TokenStream.ofSource (tokensOf source)).ahead k) := by
  simp [TokenStream.ahead, TokenStream.token, TokenStream.ofSource, hk]

variable (r : Renaming)

theorem sameToken_ahead {k : Nat} (hk : k ≤ (tokensOf r.source).length - 1) :
    r.SameToken ((TokenStream.ofSource (tokensOf r.source)).ahead k)
      ((TokenStream.ofSource (tokensOf r.target)).ahead k) := by
  obtain ⟨n, hlength, -⟩ := exists_length_tokensOf r.source
  refine ⟨k, getElem?_tokensOf ?_, getElem?_tokensOf ?_⟩
  · omega
  · rw [← r.renames.tokens.length_eq]
    omega

/-- The streams of a source and of a renamed one correspond. -/
def correspondence : Correspondence where
  left := .ofSource (tokensOf r.source)
  right := .ofSource (tokensOf r.target)
  count := (tokensOf r.source).length - 1
  ends := by
    obtain ⟨n, hlength, hends⟩ := exists_length_tokensOf r.source
    rwa [hlength]
  reported := []
  SameName := r.SameName
  SameScope := r.SameScope
  kind _ hk := (r.sameToken_ahead hk).kind
  text _ hk := (r.sameToken_ahead hk).text
  name _ hk := (r.sameToken_ahead hk).name
  name_iff := SameName.eq_iff
  scope_iff := scope_eq_iff
  scope_global := .global
  scope_main := .main
  scope_function := .function
  scope_record := .record
  scope_statement h hc hk := .statement h hc (r.sameToken_ahead hk)

theorem sameToken_of_correspondence {t u : Token} (h : r.correspondence.SameToken t u) :
    r.SameToken t u := by
  obtain ⟨k, hk, rfl, rfl⟩ := h
  exact r.sameToken_ahead hk

end Renaming

end StackCompiler
