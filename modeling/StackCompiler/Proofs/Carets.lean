import StackCompiler.Diagnostic.Listing
import StackCompiler.Proofs.Decoding
import StackCompiler.Proofs.Printing
import StackCompiler.Proofs.Reports

/-!
# Carets in a listing

A listing shows the lines of a source with their numbers, and the remarks about a line below it. A
remark about a token has its carets right under the text of the token.

The lexer counts lines and columns character by character, the listing cuts the source into lines.
Both are compared with an excerpt: a stretch of one line, with the text around it.
-/

namespace StackCompiler

/-- A stretch of one line of a text. -/
structure Excerpt (text : List Char) where
  earlier : List Char
  head : List Char
  span : List Char
  tail : List Char
  later : List Char
  text_eq : text = earlier ++ (head ++ span ++ tail) ++ later
  begins : earlier = [] ∨ earlier.getLast? = some '\n'
  inside : '\n' ∉ head ++ span ++ tail
  ends : later = [] ∨ later.head? = some '\n'

namespace Excerpt

variable {text : List Char}

def line (x : Excerpt text) : List Char := x.head ++ x.span ++ x.tail

def number (x : Excerpt text) : Nat := 1 + x.earlier.count '\n'

theorem dropWhile_newline (cs : List Char) :
    cs.dropWhile (· ≠ '\n') = [] ∨ (cs.dropWhile (· ≠ '\n')).head? = some '\n' := by
  have h := List.head?_dropWhile_not (· ≠ '\n') cs
  cases hd : cs.dropWhile (· ≠ '\n') with
  | nil => exact .inl rfl
  | cons c rest =>
    rw [hd] at h
    exact .inr (by simpa using h)

/-- A text without newlines, with the line that it stands in. -/
def around (before : List Char) {span : List Char} (after : List Char) (h : '\n' ∉ span) :
    Excerpt (before ++ span ++ after) where
  earlier := (before.reverse.dropWhile (· ≠ '\n')).reverse
  head := (before.reverse.takeWhile (· ≠ '\n')).reverse
  span := span
  tail := after.takeWhile (· ≠ '\n')
  later := after.dropWhile (· ≠ '\n')
  text_eq := by
    have hbefore : (before.reverse.dropWhile (· ≠ '\n')).reverse ++
        (before.reverse.takeWhile (· ≠ '\n')).reverse = before := by
      rw [← List.reverse_append, List.takeWhile_append_dropWhile, List.reverse_reverse]
    have hafter : after.takeWhile (· ≠ '\n') ++ after.dropWhile (· ≠ '\n') = after :=
      List.takeWhile_append_dropWhile
    conv_lhs => rw [← hbefore, ← hafter]
    simp only [List.append_assoc]
  begins := by
    simpa using dropWhile_newline before.reverse
  inside := by
    rw [List.mem_append, List.mem_append, List.mem_reverse]
    simp only [h, Lexer.newline_not_mem_takeWhile, or_self, not_false_eq_true]
  ends := dropWhile_newline after

/-- The lexer counts the lines and the columns right. -/
theorem behind_eq (before : List Char) {span : List Char} (after : List Char) (h : '\n' ∉ span) :
    Position.behind before =
      ⟨(around before after h).number, 1 + (around before after h).head.length⟩ := by
  have hcount : before.count '\n' = (before.reverse.dropWhile (· ≠ '\n')).count '\n' := by
    have hsplit : before.reverse.takeWhile (· ≠ '\n') ++ before.reverse.dropWhile (· ≠ '\n') =
        before.reverse := List.takeWhile_append_dropWhile
    rw [← List.count_reverse, ← hsplit, List.count_append,
      List.count_eq_zero.2 (Lexer.newline_not_mem_takeWhile _), Nat.zero_add, hsplit]
  simp only [Position.behind, number, around, List.count_reverse, List.length_reverse, hcount]

end Excerpt

namespace Text

theorem linesAfter_cons {c : Char} (hc : c ≠ '\n') (acc cs : List Char) :
    linesAfter acc (c :: cs) = linesAfter (c :: acc) cs := by
  conv_lhs => unfold linesAfter
  split <;> simp_all

theorem linesAfter_newline {acc : List Char} (h : '\r' ∉ acc) (cs : List Char) :
    linesAfter acc ('\n' :: cs) = String.ofList acc.reverse :: linesAfter [] cs := by
  conv_lhs => unfold linesAfter
  split <;> grind

theorem linesAfter_append {line : List Char} (h : '\n' ∉ line) (acc cs : List Char) :
    linesAfter acc (line ++ cs) = linesAfter (line.reverse ++ acc) cs := by
  induction line generalizing acc with
  | nil => rfl
  | cons c line ih =>
    rw [List.mem_cons, not_or] at h
    rw [List.cons_append, linesAfter_cons (Ne.symm h.1), ih h.2, List.reverse_cons,
      List.append_assoc]
    rfl

theorem exists_linesAfter {earlier : List Char} (hlast : earlier.getLast? = some '\n')
    {acc : List Char} (hacc : '\r' ∉ acc) (hr : '\r' ∉ earlier) (cs : List Char) :
    ∃ above, linesAfter acc (earlier ++ cs) = above ++ linesAfter [] cs ∧
      above.length = earlier.count '\n' := by
  induction earlier generalizing acc with
  | nil => simp at hlast
  | cons c earlier ih =>
    rw [List.mem_cons, not_or] at hr
    by_cases hc : c = '\n'
    · subst hc
      rw [List.cons_append, linesAfter_newline hacc, List.count_cons_self]
      cases earlier with
      | nil => exact ⟨[_], rfl, rfl⟩
      | cons d earlier =>
        rw [List.getLast?_cons_cons] at hlast
        obtain ⟨above, hlines, hlength⟩ := ih hlast List.not_mem_nil hr.2
        exact ⟨_ :: above, by rw [hlines]; rfl, by rw [List.length_cons, hlength]⟩
    · cases earlier with
      | nil => simp [hc] at hlast
      | cons d earlier =>
        rw [List.getLast?_cons_cons] at hlast
        rw [List.cons_append, linesAfter_cons hc, List.count_cons_of_ne hc]
        exact ih hlast (by simp [hr.1, hacc]) hr.2

theorem linesAfter_of_ends {acc later : List Char} (hne : acc ≠ []) (hacc : '\r' ∉ acc)
    (h : later = [] ∨ later.head? = some '\n') :
    ∃ below, linesAfter acc later = String.ofList acc.reverse :: below := by
  rcases h with rfl | h
  · obtain ⟨c, acc, rfl⟩ := List.exists_cons_of_ne_nil hne
    exact ⟨[], by simp [linesAfter]⟩
  · obtain ⟨rest, rfl⟩ := List.head?_eq_some_iff.1 h
    exact ⟨_, linesAfter_newline hacc rest⟩

theorem exists_lines {source : String} (hr : '\r' ∉ source.toList) (x : Excerpt source.toList)
    (hne : x.span ≠ []) : ∃ above below, lines source = above ++ String.ofList x.line :: below ∧
      1 + above.length = x.number := by
  have hline : x.line ≠ [] := by simp [Excerpt.line, hne]
  have htext : source.toList = x.earlier ++ (x.line ++ x.later) := by
    rw [← List.append_assoc]
    exact x.text_eq
  rw [htext, List.mem_append, List.mem_append, not_or, not_or] at hr
  obtain ⟨above, hlines, hlength⟩ : ∃ above, linesAfter [] (x.earlier ++ (x.line ++ x.later)) =
      above ++ linesAfter [] (x.line ++ x.later) ∧ above.length = x.earlier.count '\n' := by
    rcases x.begins with h | h
    · exact ⟨[], by rw [h]; rfl, by rw [h]; rfl⟩
    · exact exists_linesAfter h (by simp) hr.1 _
  have hinside : '\n' ∉ x.line := x.inside
  obtain ⟨below, hbelow⟩ := linesAfter_of_ends (List.reverse_ne_nil_iff.2 hline)
    (mt List.mem_reverse.1 hr.2.1) x.ends
  refine ⟨above, below, ?_, by rw [hlength, Excerpt.number]⟩
  calc lines source = linesAfter [] (x.earlier ++ (x.line ++ x.later)) := congrArg _ htext
    _ = above ++ linesAfter [] (x.line ++ x.later) := hlines
    _ = above ++ String.ofList x.line :: below := by
      rw [linesAfter_append hinside, List.append_nil, hbelow, List.reverse_reverse]

theorem length_toString_mono {n m : Nat} (h : n ≤ m) :
    (toString n).length ≤ (toString m).length := by
  rw [← String.length_toList, ← String.length_toList, toList_toString, toList_toString,
    Nat.length_toDigits_le_iff (by decide) Nat.length_toDigits_pos]
  exact Nat.lt_of_le_of_lt h
    ((Nat.length_toDigits_le_iff (by decide) Nat.length_toDigits_pos).1 (Nat.le_refl _))

@[simp] theorem toList_rule (c : Char) (n : Nat) : (rule c n).toList = List.replicate n c := by
  rw [rule, String.toList_ofList]

theorem length_padLeft (c : Char) {n : Nat} {s : String} (h : s.length ≤ n) :
    (padLeft c n s).toList.length = n := by
  rw [padLeft, String.toList_append, List.length_append, toList_rule, List.length_replicate,
    String.length_toList]
  omega

end Text

/-! ## Tokens stand on one line -/

def Token.OneLine (t : Token) : Prop := ∀ s, t.lexeme = some s → '\n' ∉ s.toList

theorem Token.IsWritten.newline_not_mem {t : Token} {span : List Char} (h : t.IsWritten span)
    (ht : t.OneLine) : '\n' ∉ span := by
  obtain ⟨k, lexeme, p⟩ := t
  unfold IsWritten at h
  cases k with
  | eof => exact absurd h id
  | string =>
    obtain ⟨body, hb, rfl⟩ := h
    obtain ⟨s, rfl, rfl⟩ := Option.map_eq_some_iff.1 hb
    simpa using ht s rfl
  | keyword w =>
    intro hmem
    have hlower := List.mem_map_of_mem hmem (f := Char.toLower)
    rw [h.2] at hlower
    revert hlower
    cases w <;> decide
  | ident | integer | real | undefined =>
    obtain ⟨s, rfl, rfl⟩ := Option.map_eq_some_iff.1 h
    exact ht s rfl
  | _ =>
    obtain ⟨-, rfl⟩ := h
    dsimp only
    decide

namespace Lexer

def Cut.OneLine (t : Cut) : Prop := ∀ cs, t.lexeme = some cs → '\n' ∉ cs

namespace Cut

theorem not_mem_takeWhile {p : Char → Bool} {c : Char} (hc : p c = false) (cs : List Char) :
    c ∉ cs.takeWhile p := by
  intro h
  have := of_mem_takeWhile c h
  simp [hc] at this

theorem oneLine_of_none {t : Cut} (h : t.lexeme = none) : t.OneLine := by
  intro cs hcs
  rw [h] at hcs
  cases hcs

theorem oneLine_of_some {t : Cut} {cs : List Char} (h : t.lexeme = some cs) (hcs : '\n' ∉ cs) :
    t.OneLine := by
  intro ds hds
  rw [h] at hds
  cases hds
  exact hcs

theorem oneLine_compound (k withEq : Token.Kind) (rest : List Char) :
    (compound k withEq rest).OneLine := by
  unfold compound
  split <;> exact oneLine_of_none rfl

theorem oneLine_string (rest : List Char) : (string rest).OneLine := by
  have hbody : '\n' ∉ rest.takeWhile fun c => c ≠ '"' && c ≠ '\n' :=
    not_mem_takeWhile (by decide) rest
  unfold string
  dsimp only
  split
  · exact oneLine_of_some rfl hbody
  · exact oneLine_of_some rfl (by simpa using hbody)

variable {c : Char} (hc : c ≠ '\n') (rest : List Char)
include hc

theorem oneLine_number : (number c rest).OneLine := by
  have hdigits : ∀ cs : List Char, '\n' ∉ cs.takeWhile Text.isDigit :=
    not_mem_takeWhile (by decide)
  have hinteger : '\n' ∉ c :: rest.takeWhile Text.isDigit := by
    simpa [Ne.symm hc] using hdigits rest
  unfold number
  dsimp only
  split
  · next d after _ =>
    split
    · next hd =>
      have hd : '\n' ≠ d := by
        rintro rfl
        exact absurd hd (by decide)
      refine oneLine_of_some rfl ?_
      simp [Ne.symm hc, hd, hdigits]
    · exact oneLine_of_some rfl hinteger
  · exact oneLine_of_some rfl hinteger

theorem oneLine_word : (word c rest).OneLine := by
  have hmore := not_mem_takeWhile isWordChar_newline rest
  unfold word
  dsimp only
  split
  · exact oneLine_of_none rfl
  · exact oneLine_of_some rfl (by simpa [Ne.symm hc] using hmore)

theorem oneLine_undefined : (undefined c rest).OneLine := by
  have hmore : '\n' ∉ rest.takeWhile isUndefinedChar :=
    not_mem_takeWhile (by decide +kernel) rest
  exact oneLine_of_some rfl (by simpa [Ne.symm hc] using hmore)

end Cut

theorem oneLine_cut {c : Char} (hc : c ≠ '\n') (rest : List Char) : (cut c rest).OneLine := by
  unfold cut
  split
  case h_19 => exact Cut.oneLine_string rest
  case h_20 =>
    split
    · exact Cut.oneLine_number hc rest
    · split
      · exact Cut.oneLine_word hc rest
      · exact Cut.oneLine_undefined hc rest
  case h_11 | h_12 | h_13 | h_14 | h_15 | h_16 | h_17 | h_18 =>
    exact Cut.oneLine_compound _ _ rest
  all_goals exact Cut.oneLine_of_none rfl

theorem oneLine_next (l : Lexer) : l.next.1.OneLine := by
  have hnone := l.triviaLength_skipTrivia
  unfold next
  dsimp only
  split
  · intro s hs
    cases hs
  · next c rest hrest =>
    rw [hrest] at hnone
    have hc : c ≠ '\n' := by
      rintro rfl
      exact absurd (not_blank_of_triviaLength hnone) (by decide)
    intro s hs
    obtain ⟨cs, hcs, rfl⟩ := Option.map_eq_some_iff.1 hs
    simpa using oneLine_cut hc rest cs hcs

theorem oneLine_nth (l : Lexer) (k : Nat) : (l.nth k).OneLine := by
  induction k generalizing l with
  | zero => exact oneLine_next l
  | succ k ih => exact ih l.next.2

end Lexer

/-! ## Listings -/

/-- The text is made of whole lines. -/
def WholeLines (text : List Char) : Prop := text = [] ∨ text.getLast? = some '\n'

theorem wholeLines_join {pieces : List String}
    (h : ∀ piece ∈ pieces, piece.toList.getLast? = some '\n') :
    WholeLines (String.join pieces).toList := by
  induction pieces with
  | nil => exact .inl rfl
  | cons piece pieces ih =>
    rw [List.forall_mem_cons] at h
    rw [WholeLines, String.join_cons, String.toList_append, List.getLast?_append]
    rcases ih h.2 with hrest | hrest
    · rw [hrest]
      exact .inr h.1
    · rw [hrest]
      exact .inr rfl

namespace Listing

def margin (width number : Nat) : List Char :=
  (Text.padLeft ' ' width (toString number) ++ " | ").toList

/-- The listing shows the line of the excerpt, with its number, in a row of its own. Below it stand
other remarks, and then the remark `r`: a row of carets that are right under the excerpt, and a row
with the message. -/
def Shows (listing : List Char) {text : List Char} (x : Excerpt text) (others : List Remark)
    (r : Remark) : Prop :=
  ∃ width above below, WholeLines above ∧
    listing = above ++ (margin width x.number ++ x.head ++ x.span ++ x.tail ++ ['\n']) ++
      (String.join (others.map (block width))).toList ++
      (List.replicate (margin width x.number ++ x.head).length ' ' ++
        List.replicate x.span.length '^' ++ ['\n']) ++
      (List.replicate (margin width x.number ++ x.head).length ' ' ++ r.text.toList ++ ['\n']) ++
      below

theorem length_margin {width number : Nat} (h : (toString number).length ≤ width) :
    (margin width number).length = width + 3 := by
  rw [margin, String.toList_append, List.length_append, Text.length_padLeft _ h]
  rfl

theorem toList_numbered (width number : Nat) (line : List Char) :
    (numbered width number (.ofList line)).toList = margin width number ++ line ++ ['\n'] := by
  simp [numbered, margin]

/-- The carets of a remark stand under `span` if the remark is as long, and its column is behind
`lead`. -/
theorem toList_block {width : Nat} {r : Remark} {lead span : List Char}
    (hlead : width + r.position.column + 2 = lead.length) (hlength : r.length = span.length)
    (hne : span ≠ []) :
    (block width r).toList =
      (List.replicate lead.length ' ' ++ List.replicate span.length '^' ++ ['\n']) ++
        (List.replicate lead.length ' ' ++ r.text.toList ++ ['\n']) := by
  have hpos := List.length_pos_iff.2 hne
  simp [block, hlead, hlength, Nat.max_eq_left hpos]

theorem getLast?_numbered (width number : Nat) (line : String) :
    (numbered width number line).toList.getLast? = some '\n' := by
  rw [numbered, String.toList_append]
  exact List.getLast?_concat ..

theorem getLast?_block (width : Nat) (r : Remark) :
    (block width r).toList.getLast? = some '\n' := by
  rw [block, String.toList_append]
  exact List.getLast?_concat ..

theorem sorted_mergeSort (remarks : List Remark) :
    (remarks.mergeSort before).Pairwise fun a b => a.position.line ≤ b.position.line := by
  refine (List.pairwise_mergeSort (fun a b c => ?_) (fun a b => ?_) remarks).imp fun {a b} h => ?_
  all_goals
    simp only [before, Bool.or_eq_true, Bool.and_eq_true, decide_eq_true_eq] at *
    omega

section

variable (width : Nat) (line : String) (below : List String) {number : Nat} {pending : List Remark}
  {r : Remark}

theorem body_here (hsorted : pending.Pairwise fun a b => a.position.line ≤ b.position.line)
    (hfrom : ∀ a ∈ pending, number ≤ a.position.line) (hr : r ∈ pending)
    (hnumber : r.position.line = number) :
    ∃ (others : List Remark) (post : List String), body width number (line :: below) pending =
        numbered width number line :: (others.map (block width) ++ block width r :: post) ∧
      ∀ o ∈ others, o ∈ pending ∧ o.position.line = number := by
  obtain ⟨others, later, rfl⟩ := List.append_of_mem hr
  have hothers : ∀ o ∈ others, o.position.line = number := by
    intro o ho
    have hle := (List.pairwise_append.1 hsorted).2.2 o ho r List.mem_cons_self
    have hge := hfrom o (List.mem_append_left _ ho)
    omega
  have htake : (others ++ r :: later).takeWhile (fun a => a.position.line ≤ number) =
      others ++ r :: later.takeWhile fun a => a.position.line ≤ number := by
    rw [List.takeWhile_append_of_pos fun o ho => by simp [hothers o ho],
      List.takeWhile_cons_of_pos (by simp [hnumber])]
  rw [body, htake, List.map_append, List.map_cons, List.append_assoc]
  exact ⟨others, _, rfl, fun o ho => ⟨List.mem_append_left _ ho, hothers o ho⟩⟩

theorem later_of_drop (number : Nat)
    (hsorted : pending.Pairwise fun a b => a.position.line ≤ b.position.line) :
    ∀ a ∈ pending.drop (pending.takeWhile fun a => a.position.line ≤ number).length,
      number < a.position.line := by
  induction pending with
  | nil => simp
  | cons b pending ih =>
    rw [List.pairwise_cons] at hsorted
    by_cases hb : b.position.line ≤ number
    · simpa [hb] using ih hsorted.2
    · intro a ha
      rw [List.takeWhile_cons_of_neg (by simpa using hb), List.length_nil, List.drop_zero] at ha
      rcases List.mem_cons.1 ha with rfl | ha
      · omega
      · exact Nat.lt_of_lt_of_le (Nat.lt_of_not_le hb) (hsorted.1 a ha)

theorem exists_body {above : List String}
    (hsorted : pending.Pairwise fun a b => a.position.line ≤ b.position.line)
    (hfrom : ∀ a ∈ pending, number ≤ a.position.line) (hr : r ∈ pending)
    (hnumber : number + above.length = r.position.line) :
    ∃ (pre : List String) (others : List Remark) (post : List String),
      body width number (above ++ line :: below) pending =
        pre ++ numbered width r.position.line line ::
          (others.map (block width) ++ block width r :: post) ∧
      (∀ o ∈ others, o ∈ pending ∧ o.position.line = r.position.line) ∧
      ∀ piece ∈ pre, piece.toList.getLast? = some '\n' := by
  induction above generalizing number pending with
  | nil =>
    obtain ⟨others, post, hbody, hothers⟩ :=
      body_here width line below hsorted hfrom hr hnumber.symm
    rw [List.length_nil, Nat.add_zero] at hnumber
    subst hnumber
    exact ⟨[], others, post, hbody, hothers, by simp⟩
  | cons first above ih =>
    have hlater := later_of_drop number hsorted
    generalize hhere : pending.takeWhile (fun a => a.position.line ≤ number) = here at hlater
    have hprefix : here <+: pending := hhere ▸ List.takeWhile_prefix _
    -- the remark is about a later line, so it is left
    have hleft : r ∈ pending.drop here.length := by
      rw [List.prefix_iff_eq_append.1 hprefix |>.symm, List.mem_append] at hr
      refine hr.resolve_left fun hmem => ?_
      rw [← hhere] at hmem
      have := List.all_eq_true.1 List.all_takeWhile r hmem
      simp only [List.length_cons, decide_eq_true_eq] at hnumber this
      omega
    obtain ⟨pre, others, post, hbody, hothers, hpre⟩ := ih (hsorted.drop) hlater hleft
      (by rw [← hnumber, List.length_cons]; omega)
    refine ⟨numbered width number first :: (here.map (block width) ++ pre), others, post, ?_,
      fun o ho => ⟨List.mem_of_mem_drop (hothers o ho).1, (hothers o ho).2⟩, ?_⟩
    · rw [List.cons_append, body, hhere, hbody, List.cons_append, List.append_assoc]
    · intro piece hpiece
      rcases List.mem_cons.1 hpiece with rfl | hpiece
      · exact getLast?_numbered ..
      · rcases List.mem_append.1 hpiece with hpiece | hpiece
        · obtain ⟨o, -, rfl⟩ := List.mem_map.1 hpiece
          exact getLast?_block ..
        · exact hpre piece hpiece

end

/-- A listing shows every remark that is about an excerpt of the source. -/
theorem render_shows {source : String} {remarks : List Remark} {r : Remark}
    (hsource : '\r' ∉ source.toList) (hr : r ∈ remarks)
    (hfrom : ∀ a ∈ remarks, 1 ≤ a.position.line) (x : Excerpt source.toList) (hne : x.span ≠ [])
    (hposition : r.position = ⟨x.number, 1 + x.head.length⟩) (hlength : r.length = x.span.length) :
    ∃ others : List Remark, (∀ o ∈ others, o ∈ remarks ∧ o.position.line = x.number) ∧
      Shows (render source remarks).toList x others r := by
  obtain ⟨above, below, hlines, hnumber⟩ := Text.exists_lines hsource x hne
  have hline : r.position.line = x.number := by rw [hposition]
  unfold render
  dsimp only
  generalize hw : (toString (max (Text.lines source).length 1)).length = width
  obtain ⟨pre, others, post, hbody, hothers, hpre⟩ := exists_body width (.ofList x.line)
    below (sorted_mergeSort remarks) (fun a ha => hfrom a (List.mem_mergeSort.1 ha))
    (List.mem_mergeSort.2 hr)
    (hnumber.trans hline.symm)
  have hdigits : (toString x.number).length ≤ width := by
    rw [← hw, ← hnumber, hlines]
    refine Text.length_toString_mono ?_
    rw [List.length_append, List.length_cons]
    omega
  -- carets are indented by the margin and by what precedes the span
  have hlead : width + r.position.column + 2 = (margin width x.number ++ x.head).length := by
    have hcolumn : r.position.column = 1 + x.head.length := by rw [hposition]
    rw [List.length_append, length_margin hdigits, hcolumn]
    omega
  refine ⟨others, fun o ho => ?_, width, (String.join pre).toList, (String.join post).toList,
    wholeLines_join hpre, ?_⟩
  · obtain ⟨hmem, ho⟩ := hothers o ho
    exact ⟨List.mem_mergeSort.1 hmem, ho.trans hline⟩
  · rw [hlines, hbody, hline, String.join_append, String.join_cons, String.join_append,
      String.join_cons]
    simp only [String.toList_append, toList_numbered, toList_block hlead hlength hne, Excerpt.line,
      List.append_assoc]

end Listing

namespace Diagnostic

theorem position_remark (d : Diagnostic) : d.remark.position = d.token.position := by
  cases d <;> rfl

theorem length_remark (d : Diagnostic) : d.remark.length = d.token.width := by
  cases d <;> rfl

end Diagnostic

namespace Lexer

/-- The lexer's tokens, but for the end, are excerpts of the source. -/
theorem exists_excerpt {source : String} {k : Nat}
    (h : ((ofString source).nth k).kind ≠ .eof) :
    ∃ x : Excerpt source.toList, x.span ≠ [] ∧ ((ofString source).nth k).IsWritten x.span ∧
      ((ofString source).nth k).position = ⟨x.number, 1 + x.head.length⟩ := by
  obtain ⟨slices, tail, hp⟩ := (ofString source).exists_splits [] rfl
  have hk : k < slices.length := Nat.lt_of_not_le (mt (hp.isEof k).2 h)
  have htoken : (ofString source).nth k = slices[k].token := by
    rw [hp.tokens, List.getElem?_map, List.getElem?_eq_getElem hk]
    rfl
  have hsplit : slices = slices.take k ++ slices[k] :: slices.drop (k + 1) := by
    rw [List.getElem_cons_drop, List.take_append_drop]
  have hfits := hp.fits _ _ _ hsplit
  have hline := hfits.written.newline_not_mem (htoken ▸ oneLine_nth _ k)
  have htext : source.toList = Slice.texts (slices.take k) ++ slices[k].gap ++ slices[k].span ++
      (Slice.texts (slices.drop (k + 1)) ++ tail) := by
    refine hp.text.trans ?_
    conv_lhs => rw [hsplit]
    simp only [Slice.texts, Slice.text, List.flatMap_append, List.flatMap_cons, List.append_assoc]
  rw [htoken, htext]
  exact ⟨.around _ _ hline, hfits.nonempty, hfits.written,
    hfits.position.trans (Excerpt.behind_eq _ _ hline)⟩

theorem one_le_line_nth (source : String) (k : Nat) :
    1 ≤ ((ofString source).nth k).position.line := by
  by_cases h : ((ofString source).nth k).kind = .eof
  · obtain ⟨slices, tail, hp⟩ := (ofString source).exists_splits [] rfl
    rw [hp.tokens, List.getElem?_eq_none (by simpa using (hp.isEof k).1 h)]
    exact Nat.le_add_right 1 _
  · obtain ⟨x, -, -, hposition⟩ := exists_excerpt h
    rw [hposition]
    exact Nat.le_add_right 1 _

end Lexer

/-- Every remark of the parser about a token that is not the end of the source is shown below the
line of the token, with only remarks about the same line between, and its carets are right under the
characters of the token. -/
theorem listing_underlines {source : String} {scopes : Scopes} (hsource : '\r' ∉ source.toList)
    {d : Diagnostic} (hd : d ∈ (parseSource source scopes).diagnostics)
    (hkind : d.token.kind ≠ .eof) :
    ∃ (x : Excerpt source.toList) (others : List Remark),
      d.token.IsWritten x.span ∧ d.token.position = ⟨x.number, 1 + x.head.length⟩ ∧
      (∀ o ∈ others, o ∈ (parseSource source scopes).remarks ∧ o.position.line = x.number) ∧
      Listing.Shows (Listing.render source (parseSource source scopes).remarks).toList x others
        d.remark := by
  have htoken : ∀ e ∈ (parseSource source scopes).diagnostics,
      ∃ k, e.token = (Lexer.ofString source).nth k := by
    intro e he
    obtain ⟨k, hk⟩ := parse_token he
    exact ⟨k, hk.trans (TokenStream.token_ofSource source k)⟩
  have hfrom : ∀ r ∈ (parseSource source scopes).remarks, 1 ≤ r.position.line := by
    intro r hr
    obtain ⟨e, he, rfl⟩ := List.mem_map.1 hr
    obtain ⟨k, hk⟩ := htoken e he
    rw [e.position_remark, hk]
    exact Lexer.one_le_line_nth source k
  obtain ⟨k, hk⟩ := htoken d hd
  rw [hk] at hkind
  obtain ⟨x, hne, hwritten, hposition⟩ := Lexer.exists_excerpt hkind
  rw [← hk] at hwritten hposition
  obtain ⟨others, hothers, hshows⟩ := Listing.render_shows hsource
    (List.mem_map_of_mem hd) hfrom x hne (d.position_remark.trans hposition)
    (d.length_remark.trans (hwritten.width_eq hne))
  exact ⟨x, others, hwritten, hposition, hothers, hshows⟩

/-- A program that lacks a separator on its second line, and uses a name on its third line that it
does not declare. -/
def underlinedSource : String :=
  "CD20 t\nmain x : int begin x = 1 x = 2;\n  print x, total;\nend CD20 t"

theorem listing_underlines_undeclared :
    '\r' ∉ underlinedSource.toList ∧
    ∃ d ∈ (parseSource underlinedSource .empty).diagnostics, d.token.kind ≠ .eof ∧
    ∃ (x : Excerpt underlinedSource.toList) (others : List Remark),
      d.token.IsWritten x.span ∧ d.token.position = ⟨x.number, 1 + x.head.length⟩ ∧
      (∀ o ∈ others,
        o ∈ (parseSource underlinedSource .empty).remarks ∧ o.position.line = x.number) ∧
      Listing.Shows (Listing.render underlinedSource
        (parseSource underlinedSource .empty).remarks).toList x others d.remark := by
  have hsource : '\r' ∉ underlinedSource.toList := by decide +kernel
  have hd : Diagnostic.error ⟨⟨.ident, some "total", ⟨3, 12⟩⟩, .undefinedIdentifier "total"⟩ ∈
      (parseSource underlinedSource .empty).diagnostics := by decide +kernel
  exact ⟨hsource, _, hd, by decide, listing_underlines hsource hd (by decide)⟩

end StackCompiler
