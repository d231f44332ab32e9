import StackCompiler.Proofs.Carets

/-!
# Where a listing shows remarks

Remarks are sorted once and then dealt out while the lines are numbered, each line taking those at
the front that do not point past it. Because they are sorted, each line gets just the remarks that
point to it, whatever lines and columns they name and however they were ordered.
-/

namespace StackCompiler

theorem takeWhile_eq_filter {α : Type} {p : α → Bool} {l : List α}
    (h : l.Pairwise fun a b => p b = true → p a = true) :
    l.takeWhile p = l.filter p ∧ l.drop (l.takeWhile p).length = l.filter fun a => !p a := by
  induction l with
  | nil => exact ⟨rfl, rfl⟩
  | cons a l ih =>
    rw [List.pairwise_cons] at h
    obtain ⟨htake, hdrop⟩ := ih h.2
    by_cases ha : p a = true
    · rw [List.takeWhile_cons_of_pos ha, List.filter_cons_of_pos ha, List.length_cons,
        List.drop_succ_cons, hdrop, htake, List.filter_cons_of_neg (by simp [ha])]
      exact ⟨rfl, rfl⟩
    · have hrest : ∀ b ∈ l, p b = false := fun b hb => by simpa using mt (h.1 b hb) ha
      have hfalse : l.filter p = [] := List.filter_eq_nil_iff.2 fun b hb => by simp [hrest b hb]
      have htrue : l.filter (fun b => !p b) = l :=
        List.filter_eq_self.2 fun b hb => by simp [hrest b hb]
      simp [ha, hfalse, htrue]

/-- The lines that a text is made of. Each ends with a newline or with a carriage return and a
newline, which are not part of it, but for the last one, which may end with the text. -/
inductive Text.CutInto : List Char → List String → Prop
  | nil : CutInto [] []
  | last {line : List Char} (hne : line ≠ []) (hline : '\n' ∉ line) :
      CutInto line [String.ofList line]
  | newline {line rest : List Char} {lines : List String} (hline : '\n' ∉ line)
      (hlast : line.getLast? ≠ some '\r') (hrest : CutInto rest lines) :
      CutInto (line ++ '\n' :: rest) (String.ofList line :: lines)
  | return {line rest : List Char} {lines : List String} (hline : '\n' ∉ line)
      (hrest : CutInto rest lines) :
      CutInto (line ++ '\r' :: '\n' :: rest) (String.ofList line :: lines)

theorem Text.cutInto_linesAfter (acc cs : List Char) (hacc : '\n' ∉ acc) :
    CutInto (acc.reverse ++ cs) (linesAfter acc cs) := by
  fun_induction linesAfter acc cs with
  | case1 => exact .nil
  | case2 acc hne =>
    rw [List.append_nil]
    exact .last (by simpa using hne) (by simpa using hacc)
  | case3 acc cs ih =>
    rw [List.reverse_cons, List.append_assoc]
    have hline : '\n' ∉ acc := fun h => hacc (List.mem_cons_of_mem _ h)
    exact .return (by simpa using hline) (ih List.not_mem_nil)
  | case4 acc cs hne ih =>
    refine .newline (by simpa using hacc) ?_ (ih List.not_mem_nil)
    rw [List.getLast?_reverse]
    cases acc with
    | nil => simp
    | cons c acc => simpa using fun hc => hne acc (by rw [hc])
  | case5 acc c cs hreturn hnewline ih =>
    have hc : '\n' ≠ c := fun hc => hnewline hc.symm
    simpa using ih (List.not_mem_cons_of_ne_of_not_mem hc hacc)

theorem Text.cutInto_lines (source : String) : CutInto source.toList (lines source) :=
  cutInto_linesAfter [] source.toList List.not_mem_nil

namespace Listing

theorem before_iff (a b : Remark) : before a b = true ↔ a.position.line < b.position.line ∨
    a.position.line = b.position.line ∧ a.position.column ≤ b.position.column := by
  simp [before]

theorem before_trans (a b c : Remark) (hab : before a b = true) (hbc : before b c = true) :
    before a c = true := by
  rw [before_iff] at *
  omega

theorem before_total (a b : Remark) : (before a b || before b a) = true := by
  rw [Bool.or_eq_true, before_iff, before_iff]
  omega

/-- The remarks `given`, by line and then by column. Those at one position keep their order. -/
structure Arranges (given shown : List Remark) : Prop where
  perm : shown.Perm given
  ordered : shown.Pairwise fun a b => a.position.line < b.position.line ∨
    a.position.line = b.position.line ∧ a.position.column ≤ b.position.column
  stable : ∀ q : Position, shown.filter (fun a => a.position = q) =
    given.filter fun a => a.position = q

theorem arranges_mergeSort (remarks : List Remark) :
    Arranges remarks (remarks.mergeSort before) := by
  have hperm := List.mergeSort_perm remarks before
  refine ⟨hperm, ?_, fun q => ?_⟩
  · exact (List.pairwise_mergeSort before_trans before_total remarks).imp (before_iff _ _).1
  · -- remarks at one position are in order as they are, so sorting keeps them as a sublist
    have hsame : (remarks.filter fun a => a.position = q).Pairwise (before · ·) := by
      refine List.pairwise_of_forall_mem_list fun a ha b hb => ?_
      have ha := List.of_mem_filter ha
      have hb := List.of_mem_filter hb
      simp_all [before]
    have hsub := (List.sublist_mergeSort before_trans before_total hsame
      List.filter_sublist).filter fun a => a.position = q
    rw [List.filter_filter] at hsub
    simp only [Bool.and_self] at hsub
    exact (hsub.eq_of_length (hperm.filter _).length_eq.symm).symm

theorem Arranges.filter {given shown : List Remark} (h : Arranges given shown)
    (p : Remark → Bool) : Arranges (given.filter p) (shown.filter p) := by
  refine ⟨h.perm.filter p, h.ordered.filter p, fun q => ?_⟩
  rw [List.filter_comm, h.stable q, List.filter_comm]

/-- Whether a remark points to a line. There is no line 0, and remarks about it go with line 1. -/
def pointsTo (number : Nat) (a : Remark) : Bool :=
  a.position.line = number ∨ number = 1 ∧ a.position.line = 0

/-- Whether a remark points to none of `count` lines. -/
def pointsPast (count : Nat) (a : Remark) : Bool :=
  count < a.position.line ∨ count = 0

/-- Whether a remark is still to be shown when line `number` is next. -/
def isDue (number : Nat) (a : Remark) : Bool :=
  number ≤ max a.position.line 1

variable {remarks : List Remark} {number : Nat}

theorem takeWhile_due
    (hsorted : remarks.Pairwise fun a b => a.position.line ≤ b.position.line)
    (hnumber : 0 < number) :
    let due := remarks.filter (isDue number)
    let here := due.takeWhile fun a => a.position.line ≤ number
    here = remarks.filter (pointsTo number) ∧
      due.drop here.length = remarks.filter (isDue (number + 1)) := by
  have hmono : (remarks.filter (isDue number)).Pairwise fun a b =>
      decide (b.position.line ≤ number) = true → decide (a.position.line ≤ number) = true := by
    refine (hsorted.filter _).imp fun hab hb => ?_
    exact decide_eq_true (Nat.le_trans hab (of_decide_eq_true hb))
  obtain ⟨htake, hdrop⟩ := takeWhile_eq_filter hmono
  refine ⟨htake.trans ?_, hdrop.trans ?_⟩
  all_goals
    rw [List.filter_filter]
    refine List.filter_congr fun a _ => ?_
    rw [Bool.eq_iff_iff]
    simp only [isDue, pointsTo, Bool.and_eq_true, Bool.not_eq_true', decide_eq_true_eq,
      decide_eq_false_iff_not]
    omega

theorem body_due (width : Nat) (lines : List String)
    (hsorted : remarks.Pairwise fun a b => a.position.line ≤ b.position.line) (number : Nat) :
    body width (number + 1) lines (remarks.filter (isDue (number + 1))) =
      (lines.zipIdx (number + 1)).flatMap (fun line => numbered width line.2 line.1 ::
        (remarks.filter (pointsTo line.2)).map (block width)) ++
      (remarks.filter (pointsPast (number + lines.length))).map (block width) := by
  induction lines generalizing number with
  | nil =>
    have hpast : isDue (number + 1) = pointsPast number := by
      funext a
      rw [Bool.eq_iff_iff]
      simp only [isDue, pointsPast, decide_eq_true_eq]
      omega
    simp [body, hpast]
  | cons line lines ih =>
    obtain ⟨hhere, hlater⟩ := takeWhile_due hsorted (Nat.succ_pos number)
    have hcount : number + (line :: lines).length = number + 1 + lines.length := by
      rw [List.length_cons, Nat.add_assoc, Nat.add_comm 1]
    rw [body, hlater, hhere, ih (number + 1), hcount, List.zipIdx_cons, List.flatMap_cons,
      List.append_assoc, List.cons_append]

/-- The margin of a listing of `count` lines is as wide as their number. -/
theorem length_toString_max_one (count : Nat) :
    (toString (max count 1)).length = (toString count).length := by
  cases count with
  | zero => decide
  | succ count => rw [Nat.max_eq_left (Nat.succ_le_succ (Nat.zero_le count))]

/-- The number of a line, moved to the right end of a column of spaces. -/
def column (width number : Nat) : List Char :=
  List.replicate (width - (toString number).length) ' ' ++ (toString number).toList

/-- How a line is to be printed: its number, a bar, and the line. -/
def lineRow (width number : Nat) (line : String) : List Char :=
  column width number ++ [' ', '|', ' '] ++ line.toList ++ ['\n']

/-- What is to be said in a remark. -/
def saying (a : Remark) : String :=
  (if a.severity = .error then "Error" else "Warning") ++ ": " ++ a.message ++ " (" ++
    toString a.position.line ++ ":" ++ toString a.position.column ++ ")"

/-- How a remark is to be printed, in two rows that begin at its column: one caret or more, and
below them what is said. The margin with the number and the bar is before the first column. -/
def remarkRows (width : Nat) (a : Remark) : List Char :=
  let indent := List.replicate (width + 3 + a.position.column - 1) ' '
  (indent ++ List.replicate (max a.length 1) '^' ++ ['\n']) ++
    (indent ++ (saying a).toList ++ ['\n'])

theorem toList_numbered_eq_lineRow (width number : Nat) (line : String) :
    (numbered width number line).toList = lineRow width number line := by
  simp [numbered, lineRow, column, Text.padLeft]

theorem text_eq_saying (a : Remark) : a.text = saying a := by
  cases hs : a.severity <;>
    simp [Remark.text, saying, hs, Severity.text, Position.text, toString, String.append_assoc]

theorem toList_block_eq_remarkRows (width : Nat) (a : Remark) :
    (block width a).toList = remarkRows width a := by
  have hindent : width + 3 + a.position.column - 1 = width + a.position.column + 2 := by omega
  simp [block, remarkRows, text_eq_saying, hindent]

theorem toList_join_pieces (width : Nat) (lines : List (String × Nat)) (here : Nat → List Remark)
    (past : List Remark) :
    (String.join (lines.flatMap (fun line =>
        numbered width line.2 line.1 :: (here line.2).map (block width)) ++
          past.map (block width))).toList =
      lines.flatMap (fun line =>
        lineRow width line.2 line.1 ++ (here line.2).flatMap (remarkRows width)) ++
          past.flatMap (remarkRows width) := by
  have hremarks (as : List Remark) :
      (String.join (as.map (block width))).toList = as.flatMap (remarkRows width) := by
    induction as with
    | nil => rfl
    | cons a as ih =>
      rw [List.map_cons, String.join_cons, String.toList_append, ih, toList_block_eq_remarkRows,
        List.flatMap_cons]
  induction lines with
  | nil => exact hremarks past
  | cons line lines ih =>
    rw [List.flatMap_cons, List.flatMap_cons, List.append_assoc, String.join_append,
      String.toList_append, ih, String.join_cons, String.toList_append, hremarks,
      toList_numbered_eq_lineRow]
    simp only [List.append_assoc]

/-- A listing is made of the numbered lines of the source, each with the remarks that point to it
below it, and of the remarks that point past the last line. The remarks below a line are by line and
column, and those at one position are in the order in which they were given. The numbers fit into
their column. -/
theorem render_interleaves (source : String) (remarks : List Remark) :
    let lines := Text.lines source
    let width := (toString lines.length).length
    Text.CutInto source.toList lines ∧
    (∀ number, number ≤ lines.length → (column width number).length = width) ∧
    ∃ (here : Nat → List Remark) (past : List Remark),
      (∀ number, Arranges (remarks.filter (pointsTo number)) (here number)) ∧
      Arranges (remarks.filter (pointsPast lines.length)) past ∧
      (render source remarks).toList =
        (lines.zipIdx 1).flatMap (fun line =>
          lineRow width line.2 line.1 ++ (here line.2).flatMap (remarkRows width)) ++
        past.flatMap (remarkRows width) := by
  intro lines width
  have hsorted := sorted_mergeSort remarks
  have harranged := arranges_mergeSort remarks
  -- every remark is due when the first line is next
  have hall : (remarks.mergeSort before).filter (isDue (0 + 1)) = remarks.mergeSort before :=
    List.filter_eq_self.2 fun a _ => decide_eq_true (Nat.le_max_right _ _)
  have hrender : render source remarks =
      String.join (body width 1 lines (remarks.mergeSort before)) := by
    rw [render, length_toString_max_one]
  generalize remarks.mergeSort before = shown at hsorted harranged hall hrender
  refine ⟨Text.cutInto_lines source, fun number hle => ?_,
    fun number => shown.filter (pointsTo number), shown.filter (pointsPast lines.length),
    fun number => harranged.filter _, harranged.filter _, ?_⟩
  · have hdigits := Text.length_padLeft ' ' (Text.length_toString_mono hle)
    rwa [Text.padLeft, String.toList_append, Text.toList_rule] at hdigits
  · have hbody := body_due width lines hsorted 0
    rw [hall, Nat.zero_add, Nat.zero_add] at hbody
    rw [hrender, hbody]
    exact toList_join_pieces width (lines.zipIdx 1) (fun number => shown.filter (pointsTo number))
      (shown.filter (pointsPast lines.length))

end Listing

end StackCompiler
