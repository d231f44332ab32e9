import StackCompiler.Token.Lexer

/-!
# What tokens carry

An identifier is made of letters and numeric characters, so it has no mark that scope names use
for places. A real has a point and no quote, so it cannot be taken for another kind of literal.
-/

namespace StackCompiler

namespace Token

/-- The characters of the token are those its kind allows. -/
structure Lexed (t : Token) : Prop where
  ident : t.kind = .ident → t.text.toList.all Lexer.isWordChar
  real : t.kind = .real → '.' ∈ t.text.toList ∧ '"' ∉ t.text.toList

theorem Lexed.at_not_mem {t : Token} (h : t.Lexed) (hk : t.kind = .ident) :
    '@' ∉ t.text.toList := by
  intro hm
  exact absurd (List.all_eq_true.1 (h.ident hk) _ hm) (by decide +kernel)

theorem lexed_eof (p : Position) : (eof p).Lexed := ⟨nofun, nofun⟩

end Token

namespace Lexer

/-- The characters of a token at the head of a text are those its kind allows. -/
structure Cut.Lexed (t : Cut) : Prop where
  ident : t.kind = .ident → ∃ cs, t.lexeme = some cs ∧ cs.all isWordChar
  real : t.kind = .real → ∃ cs, t.lexeme = some cs ∧ '.' ∈ cs ∧ '"' ∉ cs

namespace Cut

theorem lexed_of_kind {t : Cut} (hi : t.kind ≠ .ident) (hr : t.kind ≠ .real) : t.Lexed :=
  ⟨fun h => absurd h hi, fun h => absurd h hr⟩

theorem lexed_compound {single withEq : Token.Kind} (rest : List Char)
    (h : ∀ k ∈ [single, withEq], k ≠ .ident ∧ k ≠ .real) : (compound single withEq rest).Lexed := by
  unfold compound
  split
  · exact lexed_of_kind (h withEq (by simp)).1 (h withEq (by simp)).2
  · exact lexed_of_kind (h single (by simp)).1 (h single (by simp)).2

theorem lexed_word {c : Char} (rest : List Char) (hc : Text.isLetter c) : (word c rest).Lexed := by
  unfold word
  dsimp only
  split
  · exact lexed_of_kind (by simp) (by simp)
  · refine ⟨fun _ => ⟨_, rfl, ?_⟩, nofun⟩
    simp [isWordChar, hc, List.all_takeWhile]

theorem isDigit_quote : Text.isDigit '"' = false := by decide

theorem not_mem_digits {c : Char} (hc : Text.isDigit c = false) (cs : List Char) :
    c ∉ cs.takeWhile Text.isDigit := by
  intro h
  have := List.all_eq_true.1 List.all_takeWhile _ h
  simp [hc] at this

theorem lexed_number {c : Char} (rest : List Char) (hc : Text.isDigit c) : (number c rest).Lexed := by
  have hq : '"' ≠ c := by rintro rfl; simp [isDigit_quote] at hc
  unfold number
  dsimp only
  split
  · next d after _ =>
    split
    · next hd =>
      have hd : '"' ≠ d := by rintro rfl; simp [isDigit_quote] at hd
      refine ⟨nofun, fun _ => ⟨_, rfl, by simp, ?_⟩⟩
      simp [hq, hd, not_mem_digits isDigit_quote]
    · exact lexed_of_kind (by simp) (by simp)
  · exact lexed_of_kind (by simp) (by simp)

theorem lexed_string (rest : List Char) : (string rest).Lexed := by
  unfold string
  dsimp only
  split <;> exact lexed_of_kind (by simp) (by simp)

end Cut

theorem lexed_cut (c : Char) (rest : List Char) : (cut c rest).Lexed := by
  unfold cut
  split
  case h_19 => exact Cut.lexed_string rest
  case h_20 =>
    split
    · next hc => exact Cut.lexed_number rest hc
    · split
      · next hc => exact Cut.lexed_word rest hc
      · exact Cut.lexed_of_kind (by simp [Cut.undefined]) (by simp [Cut.undefined])
  case h_11 | h_12 | h_13 | h_14 | h_15 | h_16 | h_17 | h_18 => exact Cut.lexed_compound rest (by simp)
  all_goals exact Cut.lexed_of_kind (by simp [Cut.single]) (by simp [Cut.single])

theorem lexed_next (l : Lexer) : l.next.1.Lexed := by
  unfold next
  dsimp only
  split
  · exact Token.lexed_eof _
  · next c rest _ =>
    have h := lexed_cut c rest
    refine ⟨fun hk => ?_, fun hk => ?_⟩
    · obtain ⟨cs, hcs, h⟩ := h.ident hk
      simpa [Token.text, hcs] using h
    · obtain ⟨cs, hcs, h⟩ := h.real hk
      simpa [Token.text, hcs] using h

theorem lexed_tokensAfter (acc : List Token) (l : Lexer) (hacc : ∀ t ∈ acc, t.Lexed) :
    ∀ t ∈ l.tokensAfter acc, t.Lexed := by
  have hcons (l : Lexer) {acc : List Token} (hacc : ∀ t ∈ acc, t.Lexed) :
      ∀ t ∈ l.next.1 :: acc, t.Lexed := by
    simpa using ⟨lexed_next l, hacc⟩
  fun_induction tokensAfter acc l with
  | case1 acc l t h => simpa only [List.mem_reverse] using hcons l hacc
  | case2 acc l t h ih => exact ih (hcons l hacc)

end Lexer

theorem lexed_tokensOf (source : String) : ∀ t ∈ tokensOf source, t.Lexed :=
  Lexer.lexed_tokensAfter [] _ (by simp)

end StackCompiler
