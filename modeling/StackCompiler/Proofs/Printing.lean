import StackCompiler.Proofs.Partition
import StackCompiler.Proofs.Spelling.Basic

/-!
# Printing tokens

Tokens that are written one behind the other, each with a newline behind it and then anything that
is skipped, are read as the same tokens again. A newline ends every token, so it does not matter
what comes next; and what a token is can be told from its own characters.
-/

namespace StackCompiler

/-- How a token of the kind, which carries `lexeme`, is spelled. -/
def Token.Kind.spell (k : Token.Kind) : Option (List Char) → List Char
  | some cs => if k = .string then '"' :: cs ++ ['"'] else cs
  | none => k.text.toList

/-- The characters that the token carries, in quotes if it is a string. Operators, delimiters and
keywords carry none and are spelled as messages show them. -/
def Token.spelling (t : Token) : List Char := t.kind.spell (t.lexeme.map String.toList)

/-- A blank, or a comment that ends. -/
inductive Lexer.IsClosed : List Char → Prop
  | blank {c : Char} (h : Text.isBlank c = true) : IsClosed [c]
  | line {body : List Char} (h : '\n' ∉ body) : IsClosed ('/' :: '-' :: '-' :: body ++ ['\n'])
  | block {body : List Char} (h : ¬ closing <:+: body) :
      IsClosed ('/' :: '*' :: '*' :: body ++ closing)

/-- What may stand behind a token: a newline, then blanks and comments. -/
structure Separator where
  pieces : List (List Char)
  closed : ∀ piece ∈ pieces, Lexer.IsClosed piece

namespace Separator

def text (s : Separator) : List Char := '\n' :: s.pieces.flatten

def newline : Separator := ⟨[], by simp⟩

@[simp] theorem pieces_newline : newline.pieces = [] := rfl

end Separator

/-- The tokens one behind the other, the `k`-th of them with the separator `seps k` behind it. -/
def printed (seps : Nat → Separator) (ts : List Token) : List Char :=
  (ts.mapIdx fun k t => t.spelling ++ (seps k).text).flatten

theorem printed_cons (seps : Nat → Separator) (t : Token) (ts : List Token) :
    printed seps (t :: ts) = t.spelling ++
      '\n' :: ((seps 0).pieces.flatten ++ printed (fun k => seps (k + 1)) ts) := by
  simp [printed, Separator.text, List.mapIdx_cons]

theorem printed_newline (ts : List Token) :
    printed (fun _ => .newline) ts = ts.flatMap fun t => t.spelling ++ ['\n'] := by
  induction ts with
  | nil => rfl
  | cons t ts ih => simp [printed_cons, ih]

/-- The tokens of a source without the mark of its end. -/
def properTokens (source : String) : List Token :=
  (tokensOf source).filter fun t => t.kind ≠ .eof

/-! ## Skipping separators -/

namespace Lexer

variable {c : Char} {rest body cs : List Char} {p : Char → Bool}

theorem closingLength_cons (h : ¬ closing <+: c :: rest) :
    closingLength (c :: rest) = closingLength rest + 1 := by
  rw [closingLength.eq_def]
  split
  · next after heq => exact absurd ⟨after, heq.symm⟩ h
  · next heq => rw [(List.cons.inj heq).2]
  · next heq => cases heq

/-- What ends a comment does not overlap itself. -/
theorem closing_prefix_of_append (h : closing <+: c :: body ++ closing ++ rest) :
    closing <+: c :: body := by
  obtain ⟨after, h⟩ := h
  rcases body with _ | ⟨d, _ | ⟨e, body⟩⟩
  · simp [closing] at h
  · simp [closing] at h
  · simp only [closing, List.cons_append, List.cons.injEq] at h
    obtain ⟨hc, hd, he, -⟩ := h
    exact ⟨body, by rw [← hc, ← hd, ← he]; rfl⟩

theorem closingLength_append (h : ¬ closing <:+: body) (rest : List Char) :
    closingLength (body ++ closing ++ rest) = body.length + 3 := by
  induction body with
  | nil => rfl
  | cons c body ih =>
    rw [List.infix_cons_iff, not_or] at h
    have hfirst : ¬ closing <+: c :: (body ++ closing ++ rest) :=
      fun hp => h.1 (closing_prefix_of_append hp)
    rw [List.cons_append, List.cons_append, closingLength_cons hfirst, ih h.2, List.length_cons]

theorem triviaLength_append {piece : List Char} (h : IsClosed piece) (rest : List Char) :
    triviaLength (piece ++ rest) = some piece.length := by
  cases h with
  | @blank c h =>
    have hslash : c ≠ '/' := by
      rintro rfl
      exact absurd h (by decide)
    unfold triviaLength
    split
    · next heq => exact absurd (List.cons.inj heq).1 hslash
    · next heq => exact absurd (List.cons.inj heq).1 hslash
    · next heq =>
      obtain ⟨rfl, -⟩ := List.cons.inj heq
      simp [h]
    · next heq => cases heq
  | @line body h =>
    have htake : (body ++ '\n' :: rest).takeWhile (· ≠ '\n') = body := by
      rw [List.takeWhile_append_of_pos, List.takeWhile_cons_of_neg (by simp), List.append_nil]
      intro c hc
      have : c ≠ '\n' := fun he => h (he ▸ hc)
      simpa using this
    have htext : '/' :: '-' :: '-' :: body ++ ['\n'] ++ rest =
        '/' :: '-' :: '-' :: (body ++ '\n' :: rest) := by simp
    rw [htext, triviaLength, htake]
    simp
  | @block body h =>
    have htext : '/' :: '*' :: '*' :: body ++ closing ++ rest =
        '/' :: '*' :: '*' :: (body ++ closing ++ rest) := by simp
    rw [htext, triviaLength, closingLength_append h]
    simp [closing]

/-- No blank and no comment starts with `c`, unless it is a slash before a dash or a star. -/
theorem triviaLength_none (hb : Text.isBlank c = false)
    (h : c = '/' → ∀ d ∈ rest.head?, d ≠ '-' ∧ d ≠ '*') : triviaLength (c :: rest) = none := by
  unfold triviaLength
  split
  · next heq =>
    obtain ⟨hc, hrest⟩ := List.cons.inj heq
    exact absurd rfl (h hc '-' (by simp [hrest])).1
  · next heq =>
    obtain ⟨hc, hrest⟩ := List.cons.inj heq
    exact absurd rfl (h hc '*' (by simp [hrest])).2
  · next heq =>
    rw [← (List.cons.inj heq).1, hb]
    rfl
  · rfl

theorem skipTrivia_rest {l : Lexer} {pieces : List (List Char)}
    (hp : ∀ piece ∈ pieces, IsClosed piece) (hl : l.rest = pieces.flatten ++ rest)
    (hr : triviaLength rest = none) : l.skipTrivia.rest = rest := by
  induction pieces generalizing l with
  | nil =>
    rw [List.flatten_nil, List.nil_append] at hl
    rw [skipTrivia]
    split
    · next n hn =>
      rw [hl, hr] at hn
      cases hn
    · exact hl
  | cons piece pieces ih =>
    have hlen : triviaLength l.rest = some piece.length := by
      rw [hl, List.flatten_cons, List.append_assoc]
      exact triviaLength_append (hp piece List.mem_cons_self) _
    rw [skipTrivia]
    split
    · next n hn =>
      obtain rfl : piece.length = n := Option.some.inj (hlen.symm.trans hn)
      refine ih (fun p h => hp p (List.mem_cons_of_mem _ h)) ?_
      rw [drop_rest, hl, List.flatten_cons, List.append_assoc, List.drop_left]
    · next hn =>
      rw [hlen] at hn
      cases hn

/-! ## Tokens that stand alone -/

/-- The spelling of the token, with a newline behind it, is read as the token, whatever follows. -/
def Cut.Stands (t : Cut) : Prop :=
  ∃ c more, t.kind.spell t.lexeme = c :: more ∧ ∀ tail,
    triviaLength (c :: (more ++ '\n' :: tail)) = none ∧
      cut c (more ++ '\n' :: tail) = ⟨t.kind, t.lexeme, more.length⟩

theorem takeWhile_until {d : Char} (h : ∀ c ∈ cs, p c = true) (hd : p d = false)
    (tail : List Char) : (cs ++ d :: tail).takeWhile p = cs := by
  rw [List.takeWhile_append_of_pos h, List.takeWhile_cons_of_neg (by simp [hd]), List.append_nil]

theorem of_mem_takeWhile : ∀ c ∈ cs.takeWhile p, p c = true :=
  List.all_eq_true.1 List.all_takeWhile

theorem cut_ordinary (hc : isSpecial c = false) (rest : List Char) :
    cut c rest = if Text.isDigit c then .number c rest
      else if Text.isLetter c then .word c rest else .undefined c rest := by
  unfold cut
  split
  case h_20 => rfl
  all_goals exact absurd hc (by decide)

theorem ne_slash (hc : isSpecial c = false) : c ≠ '/' := by
  rintro rfl
  exact absurd hc (by decide)

namespace Cut

theorem stands_single {k : Token.Kind} (hk : k.text.toList = [c])
    (hc : ∀ rest, cut c rest = single k) (hb : Text.isBlank c = false) : (single k).Stands := by
  refine ⟨c, [], hk, fun tail => ⟨triviaLength_none hb ?_, hc _⟩⟩
  rintro - d hd
  obtain rfl : '\n' = d := by simpa using hd
  decide

theorem stands_compound {k withEq : Token.Kind} (hk : k.text.toList = [c])
    (he : withEq.text.toList = [c, '=']) (hc : ∀ rest, cut c rest = compound k withEq rest)
    (hb : Text.isBlank c = false) (rest : List Char) : (compound k withEq rest).Stands := by
  unfold compound
  split
  · refine ⟨c, ['='], he, fun tail => ⟨triviaLength_none hb ?_, hc _⟩⟩
    rintro - d hd
    obtain rfl : '=' = d := by simpa using hd
    decide
  · refine ⟨c, [], hk, fun tail => ⟨triviaLength_none hb ?_, hc _⟩⟩
    rintro - d hd
    obtain rfl : '\n' = d := by simpa using hd
    decide

theorem stands_string (rest : List Char) : (string rest).Stands := by
  unfold string
  dsimp only
  generalize hbody : rest.takeWhile (fun c => c ≠ '"' && c ≠ '\n') = body
  have hin : ∀ c ∈ body, (c ≠ '"' && c ≠ '\n') = true := hbody ▸ of_mem_takeWhile
  have hnone (tail : List Char) : triviaLength ('"' :: tail) = none :=
    triviaLength_none (by decide) (by simp)
  split
  · refine ⟨'"', body ++ ['"'], rfl, fun tail => ⟨hnone _, ?_⟩⟩
    have htake := takeWhile_until hin (d := '"') rfl ('\n' :: tail)
    show string (body ++ ['"'] ++ '\n' :: tail) = _
    rw [List.append_assoc, List.singleton_append]
    unfold string
    dsimp only
    rw [htake, List.drop_left, List.length_append]
    rfl
  · refine ⟨'"', body, rfl, fun tail => ⟨hnone _, ?_⟩⟩
    have htake := takeWhile_until hin (d := '\n') rfl tail
    show string (body ++ '\n' :: tail) = _
    unfold string
    dsimp only
    rw [htake, List.drop_left]
    rfl

theorem Stands.of_ordinary {t : Cut} {more : List Char} (ht : t.kind.spell t.lexeme = c :: more)
    (hc : isSpecial c = false) (hb : Text.isBlank c = false)
    (hcut : ∀ tail, cut c (more ++ '\n' :: tail) = ⟨t.kind, t.lexeme, more.length⟩) : t.Stands :=
  ⟨c, more, ht, fun tail => ⟨triviaLength_none hb fun h => absurd h (ne_slash hc), hcut tail⟩⟩

theorem stands_number (hc : isSpecial c = false) (hb : Text.isBlank c = false)
    (hd : Text.isDigit c = true) (rest : List Char) : (number c rest).Stands := by
  have hcut (cs : List Char) : cut c cs = number c cs := by rw [cut_ordinary hc, if_pos hd]
  have hwhole : ∀ d ∈ rest.takeWhile Text.isDigit, Text.isDigit d = true := of_mem_takeWhile
  -- a point that no digit follows is not part of the number
  have hinteger : (Cut.mk .integer (some (c :: rest.takeWhile Text.isDigit))
      (rest.takeWhile Text.isDigit).length).Stands := by
    refine .of_ordinary rfl hc hb fun tail => ?_
    rw [hcut]
    unfold number
    dsimp only
    rw [takeWhile_until hwhole (by decide), List.drop_left]
    rfl
  unfold number
  dsimp only
  split
  · next d after _ =>
    split
    · next hdigit =>
      refine .of_ordinary rfl hc hb fun tail => ?_
      have hafter : ∀ d ∈ after.takeWhile Text.isDigit, Text.isDigit d = true := of_mem_takeWhile
      rw [hcut, List.append_assoc, List.cons_append, List.cons_append]
      unfold number
      dsimp only
      rw [takeWhile_until hwhole (by decide), List.drop_left]
      refine (if_pos hdigit).trans ?_
      rw [takeWhile_until hafter (by decide)]
    · exact hinteger
  · exact hinteger

theorem isWordChar_newline : isWordChar '\n' = false := by decide +kernel

theorem stands_keyword (k : Keyword) (n : Nat) : (Cut.mk (.keyword k) none n).Stands := by
  obtain ⟨c, more, htext, hc, hb, hd, hl, hall, hk⟩ : ∃ c more, k.text.toList = c :: more ∧
      isSpecial c = false ∧ Text.isBlank c = false ∧ Text.isDigit c = false ∧
      Text.isLetter c = true ∧ more.all isWordChar = true ∧
      Keyword.ofWord? (c :: more) = some k := by
    cases k <;> exact ⟨_, _, rfl, by decide, by decide, by decide, by decide, by decide, by decide⟩
  have hmore : ∀ d ∈ more, isWordChar d = true := List.all_eq_true.1 hall
  refine .of_ordinary htext hc hb fun tail => ?_
  rw [cut_ordinary hc, hd, hl]
  show word c (more ++ '\n' :: tail) = _
  unfold word
  dsimp only
  rw [takeWhile_until hmore isWordChar_newline, hk]

theorem stands_word (hc : isSpecial c = false) (hb : Text.isBlank c = false)
    (hd : Text.isDigit c = false) (hl : Text.isLetter c = true) (rest : List Char) :
    (word c rest).Stands := by
  have hmore : ∀ d ∈ rest.takeWhile isWordChar, isWordChar d = true := of_mem_takeWhile
  unfold word
  dsimp only
  split
  · next k hk => exact stands_keyword k _
  · next hk =>
    refine .of_ordinary rfl hc hb fun tail => ?_
    rw [cut_ordinary hc, hd, hl]
    show word c (rest.takeWhile isWordChar ++ '\n' :: tail) = _
    unfold word
    dsimp only
    rw [takeWhile_until hmore isWordChar_newline, hk]

theorem stands_undefined (hc : isSpecial c = false) (hb : Text.isBlank c = false)
    (hd : Text.isDigit c = false) (hl : Text.isLetter c = false) (rest : List Char) :
    (undefined c rest).Stands := by
  have hmore : ∀ d ∈ rest.takeWhile isUndefinedChar, isUndefinedChar d = true := of_mem_takeWhile
  refine .of_ordinary rfl hc hb fun tail => ?_
  rw [cut_ordinary hc, hd, hl]
  show undefined c (rest.takeWhile isUndefinedChar ++ '\n' :: tail) = _
  unfold undefined
  dsimp only
  rw [takeWhile_until hmore (by decide +kernel)]

end Cut

theorem stands_cut (hb : Text.isBlank c = false) (rest : List Char) : (cut c rest).Stands := by
  unfold cut
  split
  case h_19 => exact Cut.stands_string rest
  case h_20 =>
    have hs : isSpecial c = false := by simp_all [isSpecial]
    split
    · next hd => exact Cut.stands_number hs hb hd rest
    · next hd =>
      rw [Bool.not_eq_true] at hd
      split
      · next hl => exact Cut.stands_word hs hb hd hl rest
      · next hl =>
        rw [Bool.not_eq_true] at hl
        exact Cut.stands_undefined hs hb hd hl rest
  case h_11 | h_12 | h_13 | h_14 | h_15 | h_16 | h_17 | h_18 =>
    exact Cut.stands_compound rfl rfl (fun _ => rfl) hb rest
  all_goals exact Cut.stands_single rfl (fun _ => rfl) hb

theorem triviaLength_skipTrivia (l : Lexer) : triviaLength l.skipTrivia.rest = none := by
  fun_induction skipTrivia l with
  | case1 l n h ih => exact ih
  | case2 l h => exact h

theorem not_blank_of_triviaLength (h : triviaLength (c :: rest) = none) :
    Text.isBlank c = false := by
  rw [Bool.eq_false_iff]
  intro hb
  have := triviaLength_append (.blank hb) rest
  rw [List.singleton_append, h] at this
  cases this

end Lexer

/-- The token, spelled and with a newline behind it, is read again. -/
def Token.Stands (t : Token) : Prop :=
  ∃ n, (Lexer.Cut.mk t.kind (t.lexeme.map String.toList) n).Stands

namespace Lexer

theorem stands_next {l : Lexer} (h : l.next.1.kind ≠ .eof) : l.next.1.Stands := by
  have hnone := l.triviaLength_skipTrivia
  unfold next at h ⊢
  dsimp only at h ⊢
  split at h
  · exact absurd rfl h
  · next c rest hrest =>
    rw [hrest] at hnone
    have hcut := stands_cut (not_blank_of_triviaLength hnone) rest
    refine ⟨(cut c rest).more, ?_⟩
    simpa [Function.comp_def] using hcut

theorem stands_tokensAfter (acc : List Token) (l : Lexer)
    (hacc : ∀ t ∈ acc, t.kind ≠ .eof → t.Stands) :
    ∀ t ∈ l.tokensAfter acc, t.kind ≠ .eof → t.Stands := by
  have hcons (l : Lexer) {acc : List Token} (hacc : ∀ t ∈ acc, t.kind ≠ .eof → t.Stands) :
      ∀ t ∈ l.next.1 :: acc, t.kind ≠ .eof → t.Stands := by
    intro t ht
    rcases List.mem_cons.1 ht with rfl | ht
    · exact stands_next
    · exact hacc t ht
  fun_induction tokensAfter acc l with
  | case1 acc l t h => simpa only [List.mem_reverse] using hcons l hacc
  | case2 acc l t h ih => exact ih (hcons l hacc)

section Reading

variable {l : Lexer} {pieces : List (List Char)} (hp : ∀ piece ∈ pieces, IsClosed piece)
include hp

theorem next_of_spelling {t : Token} {tail : List Char} (ht : t.Stands)
    (hl : l.rest = pieces.flatten ++ (t.spelling ++ '\n' :: tail)) :
    l.next.1.word = t.word ∧ l.next.2.rest = '\n' :: tail := by
  obtain ⟨n, c, more, hspell, hread⟩ := ht
  obtain ⟨hnone, hcut⟩ := hread tail
  have hspelling : t.spelling = c :: more := hspell
  rw [hspelling, List.cons_append] at hl
  have hskip := skipTrivia_rest hp hl hnone
  unfold next
  simp only [hskip, hcut, drop_rest]
  refine ⟨?_, ?_⟩
  · simp [Token.word, Function.comp_def]
  · rw [List.drop_succ_cons, List.drop_left]

theorem next_of_pieces (hl : l.rest = pieces.flatten) : l.next.1 = .eof l.skipTrivia.position := by
  have hskip : l.skipTrivia.rest = [] := skipTrivia_rest hp (by rw [hl, List.append_nil]) rfl
  unfold next
  simp only [hskip]

end Reading

theorem tokensAfter_printed {ts : List Token} (hts : ∀ t ∈ ts, t.Stands ∧ t.kind ≠ .eof)
    (seps : Nat → Separator) (acc : List Token) {l : Lexer} {pieces : List (List Char)}
    (hp : ∀ piece ∈ pieces, IsClosed piece) (hl : l.rest = pieces.flatten ++ printed seps ts) :
    (l.tokensAfter acc).map Token.word = (acc.reverse ++ ts).map Token.word ++ [⟨.eof, none⟩] := by
  induction ts generalizing seps acc l pieces with
  | nil =>
    have hnext := next_of_pieces hp (hl.trans (List.append_nil _))
    have heof : l.next.1.kind = .eof := by rw [hnext]; rfl
    rw [tokensAfter, dif_pos heof, hnext]
    simp [Token.word, Token.eof]
  | cons t ts ih =>
    obtain ⟨hstands, hkind⟩ := hts t List.mem_cons_self
    rw [printed_cons] at hl
    obtain ⟨hword, hrest⟩ := next_of_spelling hp hstands hl
    have hne : ¬ l.next.1.kind = .eof := by
      rw [show l.next.1.kind = t.kind from congrArg Word.kind hword]
      exact hkind
    -- the newline and the rest of the separator are what is skipped before the next token
    have hclosed : ∀ piece ∈ ['\n'] :: (seps 0).pieces, IsClosed piece := by
      intro piece h
      rcases List.mem_cons.1 h with rfl | h
      · exact .blank (by decide)
      · exact (seps 0).closed piece h
    have hread := ih (fun u hu => hts u (List.mem_cons_of_mem t hu)) (fun k => seps (k + 1))
      (l.next.1 :: acc) hclosed hrest
    rw [tokensAfter, dif_neg hne, hread]
    simp [hword]

end Lexer

theorem tokensOf_words (source : String) :
    (tokensOf source).map Token.word = (properTokens source).map Token.word ++ [⟨.eof, none⟩] := by
  obtain ⟨ts, e, heq, hts, he, hkind⟩ := tokensOf_eq source
  have hfilter : properTokens source = ts := by
    rw [properTokens, heq, List.filter_append, List.filter_eq_self.2]
    · simp [hkind]
    · intro t ht
      simpa using (hts t ht).2
  have hlast : e.word = ⟨.eof, none⟩ := by
    rw [Token.word, hkind, he.bare (by rw [hkind]; rfl)]
  rw [hfilter, heq, List.map_append, List.map_singleton, hlast]

/-- Reading what was printed of a source gives the words of the source, whatever is put between the
tokens; in particular if each of them is put on a line of its own. -/
theorem tokensOf_printed (source : String) :
    (∀ seps : Nat → Separator,
      (tokensOf (.ofList (printed seps (properTokens source)))).map Token.word =
        (tokensOf source).map Token.word) ∧
    (tokensOf (.ofList ((properTokens source).flatMap fun t => t.spelling ++ ['\n']))).map
        Token.word = (tokensOf source).map Token.word := by
  have hproper : ∀ t ∈ properTokens source, t.Stands ∧ t.kind ≠ .eof := by
    intro t ht
    obtain ⟨hmem, hkind⟩ := List.mem_filter.1 ht
    have hne : t.kind ≠ .eof := by simpa using hkind
    exact ⟨Lexer.stands_tokensAfter [] _ (by simp) t hmem hne, hne⟩
  have hread (seps : Nat → Separator) :
      (tokensOf (.ofList (printed seps (properTokens source)))).map Token.word =
        (tokensOf source).map Token.word := by
    have hnil : ∀ piece ∈ ([] : List (List Char)), Lexer.IsClosed piece := by simp
    rw [tokensOf_words source]
    exact Lexer.tokensAfter_printed hproper seps [] hnil String.toList_ofList
  exact ⟨hread, printed_newline _ ▸ hread fun _ => .newline⟩

end StackCompiler
