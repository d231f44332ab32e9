import Mathlib.Data.Nat.Find
import StackCompiler.Proofs.Reports

/-!
# Streams that correspond

Two streams have tokens of the same kinds ahead, up to the first end and that end; behind it they
may go on differently. The tokens may be at other places, and identifiers may be spelled in another
way, as long as equal names stand where equal ones do.

If the tokens are the same as well, the correspondence is exact, and relates nothing but equal
things.
-/

namespace StackCompiler

namespace TokenStream

def ahead (s : TokenStream) (k : Nat) : Token := s.token (s.index + k)

/-- There are `n` tokens before the first end. -/
structure EndsAfter (s : TokenStream) (n : Nat) : Prop where
  eof : (s.ahead n).kind = .eof
  proper : ∀ k < n, (s.ahead k).kind ≠ .eof

theorem kind_token_of_le {s : TokenStream} {k : Nat} (h : s.tokens.size ≤ k) :
    (s.token k).kind = .eof := by
  rw [token, Array.getD_eq_getD_getElem?, Array.getElem?_eq_none h]
  rfl

theorem exists_endsAfter (s : TokenStream) : ∃ n, s.EndsAfter n := by
  have hend : ∃ n, (s.ahead n).kind = .eof :=
    ⟨s.tokens.size, kind_token_of_le (Nat.le_add_left ..)⟩
  exact ⟨Nat.find hend, Nat.find_spec hend, fun k hk => Nat.find_min hend hk⟩

/-- The tokens before the end are all that a stream can be further on by. -/
theorem EndsAfter.remaining_lt_iff {a : TokenStream} {n m m' : Nat} (h : a.EndsAfter n)
    (hm' : m' ≤ n) : ({ a with index := a.index + m' } : TokenStream).remaining <
      ({ a with index := a.index + m } : TokenStream).remaining ↔ m < m' := by
  simp only [remaining]
  refine ⟨fun hlt => by omega, fun hlt => ?_⟩
  have hsize : a.index + m < a.tokens.size := by
    refine Nat.lt_of_not_le fun hle => ?_
    exact h.proper m (Nat.lt_of_lt_of_le hlt hm') (kind_token_of_le hle)
  omega

end TokenStream

theorem ahead_ofSource (source : String) (k : Nat) :
    (TokenStream.ofSource (tokensOf source)).ahead k = (Lexer.ofString source).nth k := by
  rw [TokenStream.ahead, TokenStream.token_ofSource]
  exact congrArg _ (Nat.zero_add k)

/-- Before the end of a source there are all of its tokens but the last. -/
theorem exists_length_tokensOf (source : String) : ∃ n, (tokensOf source).length = n + 1 ∧
    (TokenStream.ofSource (tokensOf source)).EndsAfter n := by
  obtain ⟨slices, tail, hp⟩ := (Lexer.ofString source).exists_splits [] rfl
  refine ⟨slices.length, by simp [hp.listed], ?_, fun k hk => ?_⟩
  · rw [ahead_ofSource]
    exact (hp.isEof _).2 (Nat.le_refl _)
  · rw [ahead_ofSource]
    exact mt (hp.isEof k).1 (Nat.not_le.2 hk)

/-- Two streams whose tokens up to the first end correspond. -/
structure Correspondence where
  left : TokenStream
  right : TokenStream
  /-- The number of tokens before the end. -/
  count : Nat
  ends : left.EndsAfter count
  /-- What was reported before the streams are read. -/
  reported : List Diagnostic
  SameName : String → String → Prop
  /-- Relates names of scopes. -/
  SameScope : String → String → Prop
  kind : ∀ k ≤ count, (right.ahead k).kind = (left.ahead k).kind
  text : ∀ k ≤ count, (left.ahead k).kind ≠ .ident → (right.ahead k).text = (left.ahead k).text
  name : ∀ k ≤ count, (left.ahead k).kind = .ident →
    SameName (left.ahead k).text (right.ahead k).text
  name_iff : ∀ {a b a' b'}, SameName a b → SameName a' b' → (a = a' ↔ b = b')
  scope_iff : ∀ {a b a' b'}, SameScope a b → SameScope a' b' → (a = a' ↔ b = b')
  scope_global : SameScope Parser.globalScope Parser.globalScope
  scope_main : SameScope Parser.mainScope Parser.mainScope
  scope_function : ∀ {a b}, SameName a b →
    SameScope (Parser.functionScope a) (Parser.functionScope b)
  scope_record : ∀ {a b}, SameName a b → SameScope ("__struct__" ++ a) ("__struct__" ++ b)
  scope_statement : ∀ {a b construct k}, SameScope a b → ':' ∉ construct.toList → k ≤ count →
    SameScope (a ++ "::" ++ construct ++ "@" ++ (left.ahead k).position.text)
      (b ++ "::" ++ construct ++ "@" ++ (right.ahead k).position.text)

namespace Correspondence

variable (r : Correspondence)

theorem ends_right : r.right.EndsAfter r.count where
  eof := (r.kind _ (Nat.le_refl _)).trans r.ends.eof
  proper k hk := r.kind k (Nat.le_of_lt hk) ▸ r.ends.proper k hk

/-- The tokens stand at the same place of their streams. -/
def SameToken (t u : Token) : Prop :=
  ∃ k ≤ r.count, t = r.left.ahead k ∧ u = r.right.ahead k

/-- Only equal things correspond. -/
structure Exact : Prop where
  token : ∀ k ≤ r.count, r.left.ahead k = r.right.ahead k
  name : ∀ a b, r.SameName a b ↔ a = b
  scope : ∀ a b, r.SameScope a b ↔ a = b

variable {r} {t u : Token}

theorem SameToken.kind (h : r.SameToken t u) : u.kind = t.kind := by
  obtain ⟨k, hk, rfl, rfl⟩ := h
  exact r.kind k hk

theorem SameToken.text (h : r.SameToken t u) (hk : t.kind ≠ .ident) : u.text = t.text := by
  obtain ⟨k, hle, rfl, rfl⟩ := h
  exact r.text k hle hk

theorem SameToken.name (h : r.SameToken t u) (hk : t.kind = .ident) :
    r.SameName t.text u.text := by
  obtain ⟨k, hle, rfl, rfl⟩ := h
  exact r.name k hle hk

theorem SameToken.scope (h : r.SameToken t u) {a b construct : String} (hab : r.SameScope a b)
    (hc : ':' ∉ construct.toList) :
    r.SameScope (a ++ "::" ++ construct ++ "@" ++ t.position.text)
      (b ++ "::" ++ construct ++ "@" ++ u.position.text) := by
  obtain ⟨k, hle, rfl, rfl⟩ := h
  exact r.scope_statement hab hc hle

@[grind →] theorem SameToken.eq (h : r.SameToken t u) (hx : r.Exact) : t = u := by
  obtain ⟨k, hk, rfl, rfl⟩ := h
  exact hx.token k hk

/-- Streams with the same tokens up to the first end. -/
def same {a b : TokenStream} {n : Nat} (hends : a.EndsAfter n)
    (hsame : ∀ k ≤ n, a.ahead k = b.ahead k) (reported : List Diagnostic) : Correspondence where
  left := a
  right := b
  count := n
  ends := hends
  reported := reported
  SameName := Eq
  SameScope := Eq
  kind k hk := congrArg Token.kind (hsame k hk).symm
  text k hk _ := congrArg Token.text (hsame k hk).symm
  name k hk _ := congrArg Token.text (hsame k hk)
  name_iff h h' := by rw [h, h']
  scope_iff h h' := by rw [h, h']
  scope_global := rfl
  scope_main := rfl
  scope_function h := by rw [h]
  scope_record h := by rw [h]
  scope_statement h _ hk := by rw [h, hsame _ hk]

theorem exact_same {a b : TokenStream} {n : Nat} (hends : a.EndsAfter n)
    (hsame : ∀ k ≤ n, a.ahead k = b.ahead k) (reported : List Diagnostic) :
    (same hends hsame reported).Exact :=
  ⟨hsame, fun _ _ => Iff.rfl, fun _ _ => Iff.rfl⟩

end Correspondence

end StackCompiler
