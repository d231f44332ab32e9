import StackCompiler.Token.Lexer

/-!
# The tokens of a source cover it

The text of a source is its tokens, one after the other, with gaps between them that hold blanks
and comments only. A gap is described by what may stand in it, a token by how it is written, and
its place by the text before it.
-/

namespace StackCompiler

namespace Position

/-- The place behind a text at the start of a source. The line is one more than the newlines of the
text, the column one more than the characters since the last of them. -/
def behind (text : List Char) : Position :=
  ⟨1 + text.count '\n', 1 + (text.reverse.takeWhile (· ≠ '\n')).length⟩

theorem behind_concat (text : List Char) (c : Char) :
    behind (text ++ [c]) = (behind text).next c := by
  unfold behind next
  by_cases hc : c = '\n'
  · simp [hc, Nat.add_assoc]
  · simp [hc, Nat.add_comm]

theorem after_behind (before text : List Char) :
    (behind before).after text = behind (before ++ text) := by
  induction text generalizing before with
  | nil => simp [after]
  | cons c text ih =>
    show ((behind before).next c).after text = _
    rw [← behind_concat, ih, List.append_assoc]
    rfl

end Position

/-! ## Gaps -/

namespace Lexer

def closing : List Char := ['*', '*', '/']

/-- The text is a blank or a comment, and `rest` is what follows it. A comment that only the end of
the source ends has nothing behind it. -/
inductive IsSkipped (rest : List Char) : List Char → Prop
  | blank {c : Char} (h : Text.isBlank c = true) : IsSkipped rest [c]
  | line {body : List Char} (h : '\n' ∉ body) :
      IsSkipped rest ('/' :: '-' :: '-' :: body ++ ['\n'])
  | lastLine {body : List Char} (h : '\n' ∉ body) (hr : rest = []) :
      IsSkipped rest ('/' :: '-' :: '-' :: body)
  /-- The comment ends where it can end first. -/
  | block {body : List Char} (h : ∀ p q, body ++ closing = p ++ closing ++ q → q = []) :
      IsSkipped rest ('/' :: '*' :: '*' :: body ++ closing)
  | lastBlock {body : List Char} (h : ¬ closing <:+: body) (hr : rest = []) :
      IsSkipped rest ('/' :: '*' :: '*' :: body)

/-- The text is made of blanks and comments, and `rest` is what follows it. -/
inductive IsGap (rest : List Char) : List Char → Prop
  | nil : IsGap rest []
  | cons {piece gap : List Char} (h : IsSkipped (gap ++ rest) piece) (hg : IsGap rest gap) :
      IsGap rest (piece ++ gap)

/-- The length of a comment that may run over several lines is measured up to where it can end
first. -/
theorem closingLength_cases (cs : List Char) :
    (∃ body rest, cs = body ++ closing ++ rest ∧ closingLength cs = body.length + 3 ∧
      ∀ p q, body ++ closing = p ++ closing ++ q → q = []) ∨
    ¬ closing <:+: cs ∧ closingLength cs = cs.length := by
  fun_induction closingLength cs with
  | case1 rest =>
    refine .inl ⟨[], rest, rfl, rfl, fun p q h => ?_⟩
    have := congrArg List.length h
    simp only [List.length_append, List.length_nil] at this
    exact List.eq_nil_of_length_eq_zero (by omega)
  | case2 c rest hc ih =>
    rcases ih with ⟨body, after, rfl, hlen, hfirst⟩ | ⟨hnone, hlen⟩
    · refine .inl ⟨c :: body, after, rfl, by rw [hlen, List.length_cons], fun p q h => ?_⟩
      cases p with
      | nil =>
        obtain ⟨hstar, hbody⟩ : c = '*' ∧ body ++ closing = '*' :: '/' :: q := List.cons.inj h
        exact absurd (by rw [hbody]; rfl) (hc (q ++ after) hstar)
      | cons d p =>
        rw [List.cons_append, List.cons_append, List.cons_append, List.cons.injEq] at h
        exact hfirst p q h.2
    · refine .inr ⟨fun h => ?_, by rw [hlen, List.length_cons]⟩
      rcases List.infix_cons_iff.1 h with ⟨tail, ht⟩ | h
      · obtain ⟨hstar, hrest⟩ : '*' = c ∧ '*' :: '/' :: tail = rest := List.cons.inj ht
        exact hc tail hstar.symm hrest.symm
      · exact hnone h
  | case3 => exact .inr ⟨by decide, rfl⟩

theorem newline_not_mem_takeWhile (cs : List Char) :
    '\n' ∉ cs.takeWhile (· ≠ '\n') := by
  intro h
  have := List.all_eq_true.1 List.all_takeWhile _ h
  simp at this

theorem isSkipped_of_triviaLength {cs : List Char} {n : Nat} (h : triviaLength cs = some n) :
    IsSkipped (cs.drop n) (cs.take n) := by
  unfold triviaLength at h
  split at h
  · next rest =>
    have hbody := newline_not_mem_takeWhile rest
    have hsplit : rest.takeWhile (· ≠ '\n') ++ rest.dropWhile (· ≠ '\n') = rest :=
      List.takeWhile_append_dropWhile
    generalize rest.takeWhile (· ≠ '\n') = body at h hbody hsplit
    cases h
    -- the text ends with the comment, or the comment with a newline
    cases hd : rest.dropWhile (· ≠ '\n') with
    | nil =>
      rw [hd, List.append_nil] at hsplit
      subst hsplit
      have hlen : ('/' :: '-' :: '-' :: body).length ≤ body.length + 4 := by
        simp only [List.length_cons]
        omega
      rw [List.take_of_length_le hlen, List.drop_eq_nil_of_le hlen]
      exact .lastLine hbody rfl
    | cons c tail =>
      have hc : c = '\n' := by
        have h := List.head?_dropWhile_not (· ≠ '\n') rest
        rw [hd] at h
        simpa using h
      subst hc
      rw [hd] at hsplit
      subst hsplit
      have htext : '/' :: '-' :: '-' :: (body ++ '\n' :: tail) =
          ('/' :: '-' :: '-' :: body ++ ['\n']) ++ tail := by simp
      rw [htext, List.take_left' (by simp), List.drop_left' (by simp)]
      exact .line hbody
  · next rest =>
    cases h
    rcases closingLength_cases rest with ⟨body, after, rfl, hlen, hfirst⟩ | ⟨hnone, hlen⟩
    · have htext : '/' :: '*' :: '*' :: (body ++ closing ++ after) =
          ('/' :: '*' :: '*' :: body ++ closing) ++ after := by simp
      rw [hlen, htext, List.take_left' (by simp [closing]), List.drop_left' (by simp [closing])]
      exact .block hfirst
    · have hle : ('/' :: '*' :: '*' :: rest).length ≤ closingLength rest + 3 := by
        simp only [List.length_cons]
        omega
      rw [List.take_of_length_le hle, List.drop_eq_nil_of_le hle]
      exact .lastBlock hnone rfl
  · next c rest _ _ =>
    split at h
    · next hb =>
      cases h
      exact .blank hb
    · cases h
  · cases h

theorem position_drop (n : Nat) (l : Lexer) :
    (l.drop n).position = l.position.after (l.rest.take n) := by
  induction n generalizing l with
  | zero => rfl
  | succ n ih =>
    obtain ⟨rest, p⟩ := l
    cases rest with
    | nil => rfl
    | cons c rest => exact ih ⟨rest, p.next c⟩

theorem exists_gap (l : Lexer) : ∃ gap, l.rest = gap ++ l.skipTrivia.rest ∧
    IsGap l.skipTrivia.rest gap ∧ l.skipTrivia.position = l.position.after gap := by
  fun_induction skipTrivia l with
  | case1 l n h ih =>
    obtain ⟨gap, hrest, hgap, hpos⟩ := ih
    rw [drop_rest] at hrest
    refine ⟨l.rest.take n ++ gap, ?_, .cons ?_ hgap, ?_⟩
    · rw [List.append_assoc, ← hrest, List.take_append_drop]
    · rw [← hrest]
      exact isSkipped_of_triviaLength h
    · rw [hpos, position_drop, Position.after, Position.after, Position.after, List.foldl_append]
  | case2 l h => exact ⟨[], rfl, .nil, rfl⟩

end Lexer

/-- How a token of the kind, which carries `lexeme`, is written. -/
def Token.Kind.Writes (k : Token.Kind) (lexeme : Option (List Char)) (span : List Char) : Prop :=
  match k with
  | .ident | .integer | .real | .undefined => lexeme = some span
  | .string => ∃ body, lexeme = some body ∧ span = '"' :: body ++ ['"']
  | .keyword w => lexeme = none ∧ span.map Char.toLower = w.text.toList.map Char.toLower
  | .eof => False
  | k => lexeme = none ∧ span = k.text.toList

/-- The token is written as `span`. -/
def Token.IsWritten (t : Token) (span : List Char) : Prop :=
  t.kind.Writes (t.lexeme.map String.toList) span

/-- A word is a keyword when the case of its letters is all that they differ in. -/
theorem Keyword.toLower_of_ofWord? {word : List Char} {w : Keyword} (h : ofWord? word = some w) :
    word.map Char.toLower = w.text.toList.map Char.toLower := by
  have hs := List.find?_some h
  simp only [decide_eq_true_eq] at hs
  have htext : w.text.toList.map Char.toLower = w.spelling.toList := by
    cases w <;> decide
  rw [htext, hs, String.toList_ofList]

namespace Token.IsWritten

variable {t : Token} {span : List Char}

theorem kind_ne_eof (h : t.IsWritten span) : t.kind ≠ .eof := by
  intro hk
  rw [IsWritten, hk] at h
  exact h

theorem width_eq (h : t.IsWritten span) (hne : span ≠ []) : t.width = span.length := by
  have hpos := List.length_pos_iff.2 hne
  obtain ⟨k, lexeme, p⟩ := t
  unfold IsWritten at h
  cases k with
  | eof => exact absurd h id
  | string =>
    obtain ⟨body, hb, rfl⟩ := h
    obtain ⟨s, rfl, rfl⟩ := Option.map_eq_some_iff.1 hb
    simp [width, String.length_toList]
  | keyword w =>
    obtain ⟨hn, hw⟩ := h
    obtain rfl := Option.map_eq_none_iff.1 hn
    have hlen := congrArg List.length hw
    rw [List.length_map, List.length_map, String.length_toList] at hlen
    exact hlen.symm
  | ident | integer | real | undefined =>
    obtain ⟨s, rfl, rfl⟩ := Option.map_eq_some_iff.1 h
    rw [String.length_toList] at hpos ⊢
    exact Nat.max_eq_left hpos
  | _ =>
    obtain ⟨hn, rfl⟩ := h
    obtain rfl := Option.map_eq_none_iff.1 hn
    rfl

end Token.IsWritten

namespace Lexer

/-- The token is written as the text that is cut off for it. -/
structure Cut.Fits (t : Cut) (cs : List Char) : Prop where
  length : t.more < cs.length
  writes : t.kind.Writes t.lexeme (cs.take (t.more + 1))

namespace Cut

variable (c : Char) (rest : List Char)

theorem take_takeWhile (p : Char → Bool) (cs : List Char) :
    cs.take (cs.takeWhile p).length = cs.takeWhile p :=
  (List.prefix_iff_eq_take.1 (List.takeWhile_prefix p)).symm

theorem fits_word : (word c rest).Fits (c :: rest) := by
  have hlen := (List.takeWhile_prefix (p := isWordChar) (l := rest)).length_le
  unfold word
  dsimp only
  split
  · next w hw =>
    refine ⟨Nat.lt_succ_of_le hlen, rfl, ?_⟩
    rw [List.take_succ_cons, take_takeWhile]
    exact Keyword.toLower_of_ofWord? hw
  · refine ⟨Nat.lt_succ_of_le hlen, ?_⟩
    rw [List.take_succ_cons, take_takeWhile]
    rfl

theorem fits_number : (number c rest).Fits (c :: rest) := by
  have hlen := (List.takeWhile_prefix (p := Text.isDigit) (l := rest)).length_le
  have hinteger : (Cut.mk .integer (some (c :: rest.takeWhile Text.isDigit))
      (rest.takeWhile Text.isDigit).length).Fits (c :: rest) := by
    refine ⟨Nat.lt_succ_of_le hlen, ?_⟩
    rw [List.take_succ_cons, take_takeWhile]
    rfl
  unfold number
  dsimp only
  split
  · next d after hdrop =>
    split
    · -- the digits, the point and the digits behind it are the head of the text
      have hpre : rest.takeWhile Text.isDigit ++ '.' :: d :: after.takeWhile Text.isDigit <+:
          rest := by
        obtain ⟨tail, htail⟩ := List.takeWhile_prefix Text.isDigit (l := after)
        refine ⟨tail, ?_⟩
        rw [List.append_assoc, List.cons_append, List.cons_append, htail, ← hdrop]
        exact List.prefix_iff_eq_append.1 (List.takeWhile_prefix Text.isDigit)
      refine ⟨Nat.lt_succ_of_le hpre.length_le, ?_⟩
      rw [List.take_succ_cons, ← List.prefix_iff_eq_take.1 hpre]
      rfl
    · exact hinteger
  · exact hinteger

theorem fits_string : (string rest).Fits ('"' :: rest) := by
  unfold string
  dsimp only
  generalize hb : rest.takeWhile (fun c => c ≠ '"' && c ≠ '\n') = body
  have hpre : body <+: rest := hb ▸ List.takeWhile_prefix _
  split
  · next after hdrop =>
    have hrest : rest = body ++ '"' :: after := by
      rw [← hdrop, List.prefix_iff_eq_append.1 hpre]
    refine ⟨?_, body, rfl, ?_⟩
    · rw [hrest]
      simp
    · show ('"' :: rest).take (body.length + 2) = _
      rw [hrest, List.take_succ_cons, List.take_append, List.take_of_length_le (by omega)]
      simp
  · refine ⟨Nat.lt_succ_of_le hpre.length_le, ?_⟩
    rw [List.take_succ_cons, ← List.prefix_iff_eq_take.1 hpre]
    rfl

theorem fits_undefined : (undefined c rest).Fits (c :: rest) := by
  have hlen := (List.takeWhile_prefix (p := isUndefinedChar) (l := rest)).length_le
  refine ⟨Nat.lt_succ_of_le hlen, ?_⟩
  show some _ = some _
  rw [List.take_succ_cons, undefined, take_takeWhile]

theorem fits_single {k : Token.Kind} (h : k.Writes none [c]) : (single k).Fits (c :: rest) :=
  ⟨Nat.succ_pos _, h⟩

theorem fits_compound {k withEq : Token.Kind} (h : k.Writes none [c])
    (h' : withEq.Writes none [c, '=']) : (compound k withEq rest).Fits (c :: rest) := by
  unfold compound
  split
  · exact ⟨by simp, h'⟩
  · exact fits_single c _ h

end Cut

theorem fits_cut (c : Char) (rest : List Char) : (cut c rest).Fits (c :: rest) := by
  unfold cut
  split
  case h_19 => exact Cut.fits_string rest
  case h_20 =>
    split
    · exact Cut.fits_number c rest
    · split
      · exact Cut.fits_word c rest
      · exact Cut.fits_undefined c rest
  case h_11 | h_12 | h_13 | h_14 | h_15 | h_16 | h_17 | h_18 =>
    exact Cut.fits_compound _ rest ⟨rfl, rfl⟩ ⟨rfl, rfl⟩
  all_goals exact Cut.fits_single _ rest ⟨rfl, rfl⟩

end Lexer

/-! ## Slices -/

/-- A token with the gap before it and the text that it is written as. -/
structure Slice where
  gap : List Char
  span : List Char
  token : Token

namespace Slice

def text (s : Slice) : List Char := s.gap ++ s.span

def texts (slices : List Slice) : List Char := slices.flatMap text

/-- The slice is right between `before` and `after`. -/
structure Fits (s : Slice) (before after : List Char) : Prop where
  gap : Lexer.IsGap (s.span ++ after) s.gap
  nonempty : s.span ≠ []
  written : s.token.IsWritten s.span
  position : s.token.position = .behind (before ++ s.gap)
  width : s.token.width = s.span.length

end Slice

namespace Lexer

variable {l : Lexer} {before tail : List Char} {slices : List Slice}

/-- The token that the `k`-th call gives, counted from 0. -/
def nth : Lexer → Nat → Token
  | l, 0 => l.next.1
  | l, k + 1 => l.next.2.nth k

theorem next_cases (hl : l.position = .behind before) :
    (IsGap [] l.rest ∧ l.next.1 = .eof (.behind (before ++ l.rest)) ∧ l.next.2.rest = [] ∧
      l.next.2.position = .behind (before ++ l.rest)) ∨
    ∃ s : Slice, l.rest = s.text ++ l.next.2.rest ∧ s.token = l.next.1 ∧
      s.Fits before l.next.2.rest ∧ l.next.2.position = .behind (before ++ s.text) := by
  obtain ⟨gap, hrest, hgap, hpos⟩ := l.exists_gap
  rw [hl, Position.after_behind] at hpos
  unfold next
  dsimp only
  split
  · next hnil =>
    rw [hnil, List.append_nil] at hrest
    rw [hnil] at hgap
    exact .inl ⟨hrest ▸ hgap, by rw [hpos, hrest], hnil, by rw [hpos, hrest]⟩
  · next c rest hcons =>
    obtain ⟨hlen, hwrites⟩ := fits_cut c rest
    rw [hcons] at hrest hgap
    generalize cut c rest = t at hlen hwrites
    have hsplit := List.take_append_drop (t.more + 1) (c :: rest)
    have hne : (c :: rest).take (t.more + 1) ≠ [] := by simp
    have hwritten : Token.IsWritten ⟨t.kind, t.lexeme.map String.ofList, l.skipTrivia.position⟩
        ((c :: rest).take (t.more + 1)) := by
      show t.kind.Writes ((t.lexeme.map String.ofList).map String.toList) _
      simpa [Function.comp_def] using hwrites
    refine .inr ⟨⟨gap, (c :: rest).take (t.more + 1), _⟩, ?_, rfl,
      ⟨?_, hne, hwritten, hpos, hwritten.width_eq hne⟩, ?_⟩
    · rw [hrest, drop_rest, hcons, Slice.text, List.append_assoc, hsplit]
    · rw [drop_rest, hcons, hsplit]
      exact hgap
    · rw [position_drop, hcons, hpos, Position.after_behind, Slice.text, List.append_assoc]

theorem nth_of_nil (h : l.rest = []) (k : Nat) : l.nth k = .eof l.position := by
  have hskip : l.skipTrivia = l := by
    rw [skipTrivia]
    split
    · next n hn => exact absurd h (ne_nil_of_triviaLength hn)
    · rfl
  have hnext : l.next = (.eof l.position, l) := by
    unfold next
    simp [hskip, h]
  induction k with
  | zero => rw [nth, hnext]
  | succ k ih => rw [nth, hnext, ih]

/-- What a lexer behind the text `before` makes of the text that is left. -/
structure Splits (l : Lexer) (before : List Char) (slices : List Slice) (tail : List Char) :
    Prop where
  text : l.rest = Slice.texts slices ++ tail
  gap : IsGap [] tail
  fits : ∀ as s bs, slices = as ++ s :: bs →
    s.Fits (before ++ Slice.texts as) (Slice.texts bs ++ tail)
  tokens : ∀ k, l.nth k =
    ((slices.map Slice.token)[k]?).getD (.eof (.behind (before ++ l.rest)))

theorem Splits.cons {s : Slice} (h : l.next.2.Splits (before ++ s.text) slices tail)
    (hrest : l.rest = s.text ++ l.next.2.rest) (ht : s.token = l.next.1)
    (hs : s.Fits before l.next.2.rest) : l.Splits before (s :: slices) tail := by
  refine ⟨?_, h.gap, fun as u bs heq => ?_, fun k => ?_⟩
  · rw [hrest, h.text, ← List.append_assoc]
    rfl
  · cases as with
    | nil =>
      obtain ⟨rfl, rfl⟩ := List.cons.inj heq
      rw [← h.text]
      simpa [Slice.texts] using hs
    | cons a as =>
      obtain ⟨rfl, htail⟩ := List.cons.inj heq
      simpa [Slice.texts] using h.fits as u bs htail
  · cases k with
    | zero => simp [nth, ht]
    | succ k => simpa [nth, hrest] using h.tokens k

theorem exists_splits (l : Lexer) (before : List Char) (hl : l.position = .behind before) :
    ∃ slices tail, l.Splits before slices tail := by
  induction hn : l.rest.length using Nat.strongRecOn generalizing l before with
  | _ n ih =>
    subst hn
    rcases next_cases hl with ⟨hgap, ht, hrest, hpos⟩ | ⟨s, hrest, ht, hs, hpos⟩
    · refine ⟨[], l.rest, rfl, hgap, by simp, fun k => ?_⟩
      cases k with
      | zero => simp [nth, ht]
      | succ k => simp [nth, nth_of_nil hrest, hpos]
    · have hlt : l.next.2.rest.length < l.rest.length := by
        refine length_next_lt ?_
        rw [← ht]
        exact hs.written.kind_ne_eof
      obtain ⟨slices, tail, h⟩ := ih _ hlt l.next.2 _ hpos rfl
      exact ⟨s :: slices, tail, h.cons hrest ht hs⟩

theorem Splits.kind_ne_eof (h : l.Splits before slices tail) :
    ∀ t ∈ slices.map Slice.token, t.kind ≠ .eof := by
  intro t ht
  obtain ⟨s, hs, rfl⟩ := List.mem_map.1 ht
  obtain ⟨as, bs, hsplit⟩ := List.append_of_mem hs
  exact (h.fits as s bs hsplit).written.kind_ne_eof

section

variable {l : Lexer} {ts : List Token} {p : Position}
  (h : ∀ k, l.nth k = ts[k]?.getD (.eof p)) (hts : ∀ t ∈ ts, t.kind ≠ .eof)
include h hts

theorem kind_nth (k : Nat) : (l.nth k).kind = .eof ↔ ts.length ≤ k := by
  rw [h k]
  by_cases hk : k < ts.length
  · have hne := hts _ (List.getElem_mem hk)
    rw [List.getElem?_eq_getElem hk]
    exact ⟨fun he => absurd he hne, fun hle => absurd hk (Nat.not_lt.2 hle)⟩
  · rw [List.getElem?_eq_none (Nat.not_lt.1 hk)]
    exact ⟨fun _ => Nat.not_lt.1 hk, fun _ => rfl⟩

theorem tokensAfter_splits (acc : List Token) :
    l.tokensAfter acc = acc.reverse ++ ts ++ [.eof p] := by
  induction ts generalizing l acc with
  | nil =>
    have hnext : l.next.1 = .eof p := h 0
    have heof : l.next.1.kind = .eof := by rw [hnext]; rfl
    rw [tokensAfter, dif_pos heof, hnext, List.reverse_cons, List.append_nil]
  | cons t ts ih =>
    have hnext : l.next.1 = t := h 0
    have hne : ¬ l.next.1.kind = .eof := hnext ▸ hts t List.mem_cons_self
    have hrest := ih (fun k => h (k + 1)) (fun u hu => hts u (List.mem_cons_of_mem t hu))
    rw [tokensAfter, dif_neg hne, hrest, hnext, List.reverse_cons, List.append_assoc acc.reverse]
    rfl

end

namespace Splits

variable {source : String} {slices : List Slice} {tail : List Char}
  (h : (ofString source).Splits [] slices tail)
include h

theorem isEof (k : Nat) : ((ofString source).nth k).kind = .eof ↔ slices.length ≤ k := by
  rw [kind_nth h.tokens h.kind_ne_eof, List.length_map]

theorem listed : tokensOf source = slices.map Slice.token ++ [.eof (.behind source.toList)] :=
  tokensAfter_splits h.tokens h.kind_ne_eof []

end Splits

end Lexer

/-- The source is the texts of the slices and then a last gap. The calls of the lexer give the
tokens of the slices and then the end of the source for ever. -/
structure Partition (source : String) (slices : List Slice) (tail : List Char) : Prop where
  text : source.toList = Slice.texts slices ++ tail
  gap : Lexer.IsGap [] tail
  fits : ∀ as s bs, slices = as ++ s :: bs → s.Fits (Slice.texts as) (Slice.texts bs ++ tail)
  /-- A slice's span lies between two places of the source that fall on characters. -/
  bounds : ∀ as s bs, slices = as ++ s :: bs → ∃ start stop : source.Pos, start < stop ∧
    start.Splits (.ofList (Slice.texts as ++ s.gap))
      (.ofList (s.span ++ Slice.texts bs ++ tail)) ∧
    stop.Splits (.ofList (Slice.texts as ++ s.gap ++ s.span)) (.ofList (Slice.texts bs ++ tail))
  tokens : ∀ k, (Lexer.ofString source).nth k =
    ((slices.map Slice.token)[k]?).getD (.eof (.behind source.toList))
  isEof : ∀ k, ((Lexer.ofString source).nth k).kind = .eof ↔ slices.length ≤ k
  listed : tokensOf source = slices.map Slice.token ++ [.eof (.behind source.toList)]

theorem exists_bounds {source : String} {before span after : List Char}
    (h : source.toList = before ++ span ++ after) (hne : span ≠ []) :
    ∃ start stop : source.Pos, start < stop ∧
      start.Splits (.ofList before) (.ofList (span ++ after)) ∧
      stop.Splits (.ofList (before ++ span)) (.ofList after) := by
  have hsource : source = .ofList before ++ .ofList (span ++ after) := by
    rw [← String.ofList_append, ← List.append_assoc, ← h, String.ofList_toList]
  have hsource' : source = .ofList (before ++ span) ++ .ofList after := by
    rw [← String.ofList_append, ← h, String.ofList_toList]
  have hstart := String.Pos.splits_ofEqAppend hsource
  have hstop := String.Pos.splits_ofEqAppend hsource'
  refine ⟨_, _, ?_, hstart, hstop⟩
  have hspan : (String.ofList span).utf8ByteSize ≠ 0 := by
    rw [Ne, String.utf8ByteSize_eq_zero_iff]
    simpa using hne
  rw [String.Pos.lt_iff, String.Pos.Raw.lt_iff, hstart.offset_eq_rawEndPos,
    hstop.offset_eq_rawEndPos, String.ofList_append]
  simp only [String.byteIdx_rawEndPos, String.utf8ByteSize_append]
  omega

/-- Every source has a partition. -/
theorem exists_partition (source : String) : ∃ slices tail, Partition source slices tail := by
  have hstart : (Lexer.ofString source).position = .behind [] := rfl
  obtain ⟨slices, tail, h⟩ := (Lexer.ofString source).exists_splits [] hstart
  have htext : source.toList = Slice.texts slices ++ tail := h.text
  refine ⟨slices, tail, htext, h.gap, h.fits, fun as s bs hs => ?_, h.tokens, h.isEof, h.listed⟩
  have hsplit : source.toList = Slice.texts as ++ s.gap ++ s.span ++ (Slice.texts bs ++ tail) := by
    rw [htext, hs]
    simp [Slice.texts, Slice.text]
  have hb := exists_bounds hsplit (h.fits as s bs hs).nonempty
  rwa [← List.append_assoc s.span] at hb

end StackCompiler
