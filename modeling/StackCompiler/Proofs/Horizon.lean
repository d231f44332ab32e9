import StackCompiler.Proofs.Correspondence.Programs

/-!
# Reading up to the end of a source

The parser consumes tokens up to the first end of a source, and not the end. So what it builds and
reports depends on the tokens up to there only. A source may therefore be cut into tokens as they
are needed or beforehand.
-/

namespace StackCompiler

/-- The streams have the same tokens ahead, up to the first end and with it. -/
def TokenStream.SameToEnd (a b : TokenStream) : Prop :=
  ∃ n, a.EndsAfter n ∧ ∀ k ≤ n, a.ahead k = b.ahead k

section

variable (before : List Diagnostic) (scopes : Scopes)

theorem parseOnto_congr {a b : TokenStream} (h : a.SameToEnd b) :
    parseOnto before a scopes = parseOnto before b scopes := by
  obtain ⟨n, hends, hsame⟩ := h
  have hstart := Correspondence.SameState.start hends hsame
    ⟨a, scopes, before.toArray, #[], none, 0⟩ List.toList_toArray
  exact (Correspondence.sameParsed hstart).exact (Correspondence.exact_same hends hsame before)

theorem stopIndex_le_of_endsAfter {stream : TokenStream} {n : Nat} (h : stream.EndsAfter n) :
    stopIndex before stream scopes ≤ stream.index + n := by
  have hstart := Correspondence.SameState.start h (fun _ _ => rfl)
    ⟨stream, scopes, before.toArray, #[], none, 0⟩ List.toList_toArray
  have hrun := Correspondence.alike_program _ _ hstart
  have hindex {s t : Parser.State}
      (hs : (Correspondence.same h (fun _ _ => rfl) before).SameState s t) :
      s.stream.index ≤ stream.index + n := by
    obtain ⟨m, hm, hleft, -⟩ := hs.stream
    rw [hleft]
    exact Nat.add_le_add_left hm _
  unfold stopIndex runOnto
  generalize Parser.program _ = x at hrun
  generalize Parser.program _ = y at hrun
  cases hrun with
  | ok _ hs => exact hindex hs
  | error _ hs => exact hindex hs

theorem kind_ne_eof_of_lt_stopIndex {stream : TokenStream} {k : Nat} (hk : stream.index ≤ k)
    (hstop : k < stopIndex before stream scopes) : (stream.token k).kind ≠ .eof := by
  obtain ⟨n, hn⟩ := stream.exists_endsAfter
  have hle := stopIndex_le_of_endsAfter before scopes hn
  have hproper := hn.proper (k - stream.index) (by omega)
  rwa [TokenStream.ahead, Nat.add_sub_cancel' hk] at hproper

end

theorem sameToEnd_ofTokens (source : String) :
    (TokenStream.ofSource (tokensOf source)).SameToEnd (.ofTokens (tokensOf source)) := by
  obtain ⟨n, hlength, hends⟩ := exists_length_tokensOf source
  refine ⟨n, hends, fun k hk => ?_⟩
  have hlt : k < (tokensOf source).length := by omega
  simp [TokenStream.ahead, TokenStream.token, TokenStream.ofSource, TokenStream.ofTokens, hlt]

/-- The parser consumes no end, so no more tokens than there are before the first one, and all that
it leaves behind depends on the tokens up to the first end only. The tokens of a source may thus be
taken from the lexer one by one, or be listed before. -/
theorem parse_stopsAtEnd :
    (∀ before stream scopes k, stream.index ≤ k → k < stopIndex before stream scopes →
      (stream.token k).kind ≠ .eof) ∧
    (∀ before stream scopes, ∃ n, stream.EndsAfter n ∧
      stopIndex before stream scopes ≤ stream.index + n) ∧
    (∀ before a b scopes, a.SameToEnd b →
      parseOnto before a scopes = parseOnto before b scopes) ∧
    ∀ source scopes,
      (∀ k, (TokenStream.ofSource (tokensOf source)).ahead k = (Lexer.ofString source).nth k) ∧
      parseSource source scopes = parse (.ofTokens (tokensOf source)) scopes ∧
      stopIndex [] (.ofSource (tokensOf source)) scopes < (tokensOf source).length := by
  refine ⟨fun before stream scopes k => kind_ne_eof_of_lt_stopIndex before scopes,
    fun before stream scopes => ?_, fun before a b scopes => parseOnto_congr before scopes,
    fun source scopes => ⟨ahead_ofSource source, ?_, ?_⟩⟩
  · obtain ⟨n, hn⟩ := stream.exists_endsAfter
    exact ⟨n, hn, stopIndex_le_of_endsAfter before scopes hn⟩
  · exact parseOnto_congr [] scopes (sameToEnd_ofTokens source)
  · obtain ⟨n, hlength, hends⟩ := exists_length_tokensOf source
    have hle := stopIndex_le_of_endsAfter [] scopes hends
    rw [hlength]
    exact Nat.lt_succ_of_le (Nat.zero_add n ▸ hle)

/-- A program that breaks off in a statement. -/
def brokenOff : List Token := tokensOf "CD20 p main x : int begin x = 1 +"

/-- What would complete the program, but for the end before it. -/
def completion : List Token := tokensOf "2; end CD20 p"

theorem parse_stopsAtEnd_brokenOff :
    (TokenStream.ofTokens brokenOff).SameToEnd (.ofTokens (brokenOff ++ completion)) ∧
    (parseOnto [] (.ofTokens brokenOff) .empty).diagnostics.length = 1 ∧
    parseOnto [] (.ofTokens brokenOff) .empty =
      parseOnto [] (.ofTokens (brokenOff ++ completion)) .empty := by
  have hsame : (TokenStream.ofTokens brokenOff).SameToEnd (.ofTokens (brokenOff ++ completion)) :=
    ⟨11, ⟨by decide +kernel, by decide +kernel⟩, by decide +kernel⟩
  exact ⟨hsame, by decide +kernel, parse_stopsAtEnd.2.2.1 [] _ _ .empty hsame⟩

end StackCompiler
