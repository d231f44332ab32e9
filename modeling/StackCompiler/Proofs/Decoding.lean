import Mathlib.Data.List.Basic
import Mathlib.Tactic.FinCases
import StackCompiler.Code.Module
import StackCompiler.Text.Numeral

/-!
# Reading a module back

The text of a module is cut at its newlines. Each section is a line with a count and then as many
lines, and a line of cells is a line of bytes. Reading finds again what was written.
-/

namespace StackCompiler

namespace Text

def readCount? (cs : List Char) : Option Nat :=
  if cs ≠ [] ∧ cs.all isDigit then some (digitsValue cs) else none

theorem isDigit_iff (c : Char) : isDigit c = true ↔ c.isDigit = true := by
  simp only [isDigit, Char.isDigit, Bool.and_eq_true, decide_eq_true_eq, Char.le_def,
    UInt32.le_iff_toNat_le, ge_iff_le]

theorem isDigit_of_mem_toDigits {c : Char} {n : Nat} (h : c ∈ Nat.toDigits 10 n) :
    isDigit c = true :=
  (isDigit_iff c).2 (Nat.isDigit_of_mem_toDigits (by decide) (by decide) h)

theorem digitsValue_eq (cs : List Char) : digitsValue cs = Nat.ofDigitChars 10 cs 0 := by
  rw [digitsValue, Nat.ofDigitChars_eq_foldl]

theorem toList_toString (n : Nat) : (toString n).toList = Nat.toDigits 10 n := by
  rw [Nat.toString_eq_ofList_toDigits, String.toList_ofList]

theorem readCount?_zeros (k n : Nat) :
    readCount? (List.replicate k '0' ++ Nat.toDigits 10 n) = some n := by
  have hdigits : ∀ c ∈ List.replicate k '0' ++ Nat.toDigits 10 n, isDigit c = true := by
    intro c hc
    rcases List.mem_append.1 hc with hc | hc
    · rw [List.eq_of_mem_replicate hc]
      decide
    · exact isDigit_of_mem_toDigits hc
  have hne : List.replicate k '0' ++ Nat.toDigits 10 n ≠ [] := by
    intro h
    exact Nat.toDigits_ne_nil (List.append_eq_nil_iff.1 h).2
  rw [readCount?, if_pos ⟨hne, List.all_eq_true.2 hdigits⟩, digitsValue_eq, Nat.ofDigitChars_append,
    Nat.ofDigitChars_replicate_zero, Nat.mul_zero, Nat.ofDigitChars_ten_toDigits]

theorem readCount?_toString (n : Nat) : readCount? (toString n).toList = some n := by
  rw [toList_toString]
  exact readCount?_zeros 0 n

def pieces (s : String) : List (List Char) := s.toList.splitOn '\n'

def IsLine (s : String) : Prop := s ≠ "" ∧ '\n' ∉ s.toList

theorem pieces_unlines {parts : List String} (hne : parts ≠ []) (h : ∀ p ∈ parts, IsLine p) :
    pieces (unlines parts) = parts.map String.toList := by
  have hl : ∀ l ∈ parts.map String.toList, '\n' ∉ l := by
    intro l hl
    obtain ⟨p, hp, rfl⟩ := List.mem_map.1 hl
    exact (h p hp).2
  rw [pieces, unlines, String.toList_intercalate]
  exact List.splitOn_intercalate '\n' hl (by simpa using hne)

theorem unlines_flatten {groups : List (List String)} (h : ∀ g ∈ groups, g ≠ []) :
    unlines (groups.map unlines) = unlines groups.flatten := by
  induction groups with
  | nil => rfl
  | cons g groups ih =>
    have ih := ih fun g hg => h g (by simp [hg])
    by_cases hg : groups = []
    · simp [hg, unlines]
    · have hne : groups.flatten ≠ [] := by
        obtain ⟨g', rest, rfl⟩ := List.exists_cons_of_ne_nil hg
        have := h g' (by simp)
        simp [this]
      rw [List.map_cons, List.flatten_cons]
      unfold unlines at ih ⊢
      rw [String.intercalate_cons_of_ne_nil (by simpa using hg), ih,
        String.intercalate_append_of_ne_nil (h g (by simp)) hne]

theorem isLine_toString (n : Nat) : IsLine (toString n) := by
  constructor
  · intro h
    have hl : (toString n).toList = [] := by rw [h]; rfl
    rw [toList_toString] at hl
    exact Nat.toDigits_ne_nil hl
  · intro h
    rw [toList_toString] at h
    exact absurd (isDigit_of_mem_toDigits h) (by decide)

end Text

namespace Section

open Text

/-- Reads `n` sections, behind which nothing may be left over. -/
def readAll? : Nat → List (List Char) → Option (List (List (List Char)))
  | 0, [] => some []
  | n + 1, head :: rest =>
    match readCount? head with
    | some k =>
      if k ≤ rest.length then (readAll? n (rest.drop k)).map (rest.take k :: ·) else none
    | none => none
  | _, _ => none

def written (values : List String) : List String := toString values.length :: values

theorem text_ofLines {values : List String} (h : ∀ v ∈ values, IsLine v) :
    (ofLines values).text = unlines (written values) := by
  cases values with
  | nil => rfl
  | cons v values =>
    have hbody : (unlines (v :: values)).isEmpty = false := by
      rw [Bool.eq_false_iff, Ne, String.isEmpty_iff]
      intro he
      have hl := congrArg String.toList he
      rw [unlines, String.toList_intercalate] at hl
      cases values with
      | nil => exact (h v (by simp)).1 (String.toList_inj.1 (by simpa using hl))
      | cons w values => simp at hl
    have hsplit : unlines (written (v :: values)) =
        toString (v :: values).length ++ "\n" ++ unlines (v :: values) :=
      String.intercalate_cons_of_ne_nil (by simp)
    rw [text, ofLines, if_neg (by simp [hbody]), hsplit, String.append_assoc]

theorem isLine_of_mem_written {values : List String} (h : ∀ v ∈ values, IsLine v) :
    ∀ l ∈ written values, IsLine l := by
  intro l hl
  rcases List.mem_cons.1 hl with rfl | hl
  · exact isLine_toString _
  · exact h l hl

theorem readAll?_written (groups : List (List String)) :
    readAll? groups.length ((groups.flatMap written).map String.toList) =
      some (groups.map (List.map String.toList)) := by
  induction groups with
  | nil => rfl
  | cons g groups ih =>
    simp only [List.flatMap_cons, written, List.cons_append, List.map_cons, List.map_append,
      List.length_cons, readAll?, readCount?_toString]
    rw [if_pos (by simp), List.drop_left' (by simp), List.take_left' (by simp), ih]
    rfl

theorem readAll?_unlines {groups : List (List String)} (hne : groups ≠ [])
    (h : ∀ g ∈ groups, ∀ l ∈ g, IsLine l) :
    readAll? groups.length (pieces (unlines (groups.map fun g => (ofLines g).text))) =
      some (groups.map (List.map String.toList)) := by
  have htext : groups.map (fun g => (ofLines g).text) = (groups.map written).map unlines := by
    rw [List.map_map]
    exact List.map_congr_left fun g hg => text_ofLines (h g hg)
  have hlines : ∀ l ∈ (groups.map written).flatten, IsLine l := by
    intro l hl
    obtain ⟨_, hw, hl⟩ := List.mem_flatten.1 hl
    obtain ⟨g, hg, rfl⟩ := List.mem_map.1 hw
    exact isLine_of_mem_written (h g hg) l hl
  have hcons : (groups.map written).flatten ≠ [] := by
    obtain ⟨g, rest, rfl⟩ := List.exists_cons_of_ne_nil hne
    simp [written]
  rw [htext, unlines_flatten (by simp [written]), pieces_unlines hcons hlines, ← List.flatMap_def]
  exact readAll?_written groups

/-! ## Cells -/

def readCell? (cs : List Char) : Option UInt8 :=
  ((readCount? (cs.dropWhile (· = ' '))).filter (· < 256)).map UInt8.ofNat

def readCells? : List Char → Option (List UInt8)
  | [] => some []
  | a :: b :: c :: d :: cs =>
    match readCell? [a, b, c, d] with
    | some byte => (readCells? cs).map (byte :: ·)
    | none => none
  | _ => none

def readBytes? : List (List Char) → Option (List UInt8)
  | [] => some []
  | l :: ls =>
    match readCells? l with
    | some bytes => (readBytes? ls).map (bytes ++ ·)
    | none => none

theorem toList_rule (c : Char) (n : Nat) : (rule c n).toList = List.replicate n c := by
  simp [rule]

theorem toList_cell (b : UInt8) : ∃ i j, (cell b).toList =
    List.replicate i ' ' ++ (List.replicate j '0' ++ Nat.toDigits 10 b.toNat) := by
  refine ⟨4 - (digits 2 b.toNat).length, 2 - (toString b.toNat).length, ?_⟩
  rw [cell, padLeft, String.toList_append, toList_rule, digits, padLeft, String.toList_append,
    toList_rule, toList_toString]

theorem length_cell (b : UInt8) : (cell b).toList.length = 4 := by
  have hb : (Nat.toDigits 10 b.toNat).length ≤ 3 := by
    rw [Nat.length_toDigits_le_iff (by decide) (by decide)]
    have := b.toNat_lt
    omega
  have hd : (digits 2 b.toNat).toList.length =
      2 - (Nat.toDigits 10 b.toNat).length + (Nat.toDigits 10 b.toNat).length := by
    rw [digits, padLeft, String.toList_append, toList_rule, List.length_append,
      List.length_replicate, toList_toString, ← toList_toString, String.length_toList]
  rw [cell, padLeft, String.toList_append, toList_rule, List.length_append,
    List.length_replicate, ← String.length_toList, hd]
  omega

theorem readCell?_cell (b : UInt8) : readCell? (cell b).toList = some b := by
  obtain ⟨i, j, h⟩ := toList_cell b
  have hhead : (List.replicate j '0' ++ Nat.toDigits 10 b.toNat).dropWhile (· = ' ') =
      List.replicate j '0' ++ Nat.toDigits 10 b.toNat := by
    cases hl : List.replicate j '0' ++ Nat.toDigits 10 b.toNat with
    | nil => rfl
    | cons c cs =>
      have hmem : c ∈ List.replicate j '0' ++ Nat.toDigits 10 b.toNat := by simp [hl]
      have hne : c ≠ ' ' := by
        rintro rfl
        rcases List.mem_append.1 hmem with hc | hc
        · exact absurd (List.eq_of_mem_replicate hc) (by decide)
        · exact absurd (isDigit_of_mem_toDigits hc) (by decide)
      rw [List.dropWhile_cons_of_neg (by simpa using hne)]
  have hblank : (List.replicate i ' ').dropWhile (· = ' ') = [] := by simp
  rw [h, readCell?, List.dropWhile_append, hblank, List.isEmpty_nil, if_pos rfl, hhead,
    readCount?_zeros, Option.filter_some, if_pos (by simpa using b.toNat_lt), Option.map_some,
    UInt8.ofNat_toNat]

theorem readCells?_cells (bytes : List UInt8) :
    readCells? (String.join (bytes.map cell)).toList = some bytes := by
  rw [String.toList_join]
  induction bytes with
  | nil => rfl
  | cons b bytes ih =>
    obtain ⟨w, x, y, z, hc⟩ : ∃ w x y z, (cell b).toList = [w, x, y, z] := by
      have := length_cell b
      generalize (cell b).toList = cs at this
      match cs, this with
      | [w, x, y, z], _ => exact ⟨w, x, y, z, rfl⟩
    have hb := readCell?_cell b
    rw [hc] at hb
    simp only [List.map_cons, List.flatMap_cons, hc, List.cons_append, List.nil_append,
      readCells?, hb]
    rw [ih]
    rfl

theorem isLine_wordLine (bytes : List UInt8) : IsLine (wordLine bytes) := by
  constructor
  · intro h
    have hread := readCells?_cells (bytes ++ List.replicate (wordSize - bytes.length)
      (UInt8.ofNat Operation.halt.code))
    rw [← wordLine, h] at hread
    have hlen := congrArg List.length (Option.some.inj hread)
    simp only [List.length_nil, List.length_append, List.length_replicate, wordSize] at hlen
    omega
  · intro h
    rw [wordLine, String.toList_join, List.mem_flatMap] at h
    obtain ⟨_, hs, hc⟩ := h
    obtain ⟨b, -, rfl⟩ := List.mem_map.1 hs
    obtain ⟨i, j, hcell⟩ := toList_cell b
    rw [hcell, List.mem_append, List.mem_append] at hc
    rcases hc with hc | hc | hc
    · exact absurd (List.eq_of_mem_replicate hc) (by decide)
    · exact absurd (List.eq_of_mem_replicate hc) (by decide)
    · exact absurd (isDigit_of_mem_toDigits hc) (by decide)

theorem readBytes?_words (bytes : List UInt8) :
    readBytes? (((words bytes).map wordLine).map String.toList) =
      some (bytes ++ List.replicate (Code.wordBoundary bytes.length - bytes.length) 0) := by
  induction hn : bytes.length using Nat.strongRecOn generalizing bytes with
  | ind n ih =>
    rw [words]
    split
    · next hnil =>
      subst hnil
      subst hn
      rfl
    · next hne =>
      have hpos := List.length_pos_iff.2 hne
      have hhalt : UInt8.ofNat Operation.halt.code = 0 := rfl
      have hcells : readCells? (wordLine (bytes.take wordSize)).toList =
          some (bytes.take wordSize ++ List.replicate (wordSize - (bytes.take wordSize).length) 0) :=
        readCells?_cells _
      have hrest := ih (bytes.drop wordSize).length (by simp [wordSize]; omega) _ rfl
      rw [List.map_cons, List.map_cons, readBytes?, hcells, hrest]
      simp only [Option.map_some, List.length_take, List.length_drop, Option.some.injEq]
      by_cases hfull : wordSize ≤ bytes.length
      · -- A full word: the bytes that fill up lie behind the words that follow.
        have hpad : Code.wordBoundary (bytes.length - wordSize) - (bytes.length - wordSize) =
            Code.wordBoundary n - n := by
          simp only [Code.wordBoundary, wordSize] at hfull ⊢
          omega
        rw [hpad, Nat.min_eq_left hfull, Nat.sub_self, List.replicate_zero, List.append_nil,
          ← List.append_assoc, List.take_append_drop]
      · have hpad : wordSize - bytes.length = Code.wordBoundary n - n := by
          simp only [Code.wordBoundary, wordSize] at hfull ⊢
          omega
        have hnone : Code.wordBoundary (bytes.length - wordSize) - (bytes.length - wordSize) = 0 := by
          simp only [Code.wordBoundary, wordSize] at hfull ⊢
          omega
        rw [Nat.min_eq_right (by omega), hnone, hpad, List.replicate_zero, List.append_nil,
          List.take_of_length_le (by omega), List.drop_eq_nil_of_le (by omega), List.append_nil]

end Section

theorem Text.isLine_int (n : Int) : IsLine (toString n) := by
  cases n with
  | ofNat n => exact isLine_toString n
  | negSucc n =>
    obtain ⟨hne, hnl⟩ := isLine_toString (n + 1)
    have hsign : toString (Int.negSucc n) = "-" ++ toString (n + 1) := rfl
    constructor
    · rw [hsign]
      intro h
      exact hne (String.append_eq_empty_iff.1 h).2
    · rw [hsign, String.toList_append]
      simpa using hnl

namespace Binary64

open Text

theorem digit_of_mem_ofGrid {n places : Nat} {c : Char} (h : c ∈ (Decimal.ofGrid n places).digits) :
    isDigit c = true := by
  have hmem := (List.dropWhile_sublist _).mem (List.mem_reverse.1 h)
  exact isDigit_of_mem_toDigits (List.mem_reverse.1 hmem)

theorem Decimal.write_isLine {d : Decimal} (h : ∀ c ∈ d.digits, isDigit c = true) :
    d.write ≠ [] ∧ '\n' ∉ d.write := by
  have hd : '\n' ∉ d.digits := fun hc => absurd (h _ hc) (by decide)
  have hzero : ∀ k, '\n' ∉ List.replicate k '0' := fun k hc =>
    absurd (List.eq_of_mem_replicate hc) (by decide)
  have hdrop : ∀ k, '\n' ∉ d.digits.drop k := fun k hc => hd (List.mem_of_mem_drop hc)
  have htake : ∀ k, '\n' ∉ d.digits.take k := fun k hc => hd (List.mem_of_mem_take hc)
  unfold Decimal.write
  split
  · unfold positional
    split
    · exact ⟨by simp, by simp [hzero, hd]⟩
    · refine ⟨by simp, ?_⟩
      intro hc
      rcases List.mem_append.1 hc with hc | hc
      · rcases List.mem_append.1 (List.mem_of_mem_take hc) with hc | hc
        · exact hd hc
        · exact hzero _ hc
      · have hc := (List.mem_cons.1 hc).resolve_left (by decide)
        split at hc
        · exact absurd hc (by decide)
        · exact hdrop _ hc
  · unfold scientific
    refine ⟨by simp, ?_⟩
    intro hc
    rcases List.mem_append.1 hc with hc | hc
    · rcases List.mem_append.1 hc with hc | hc
      · exact htake _ hc
      · split at hc
        · exact absurd hc (by simp)
        · exact hdrop _ ((List.mem_cons.1 hc).resolve_left (by decide))
    · exact (isLine_int _).2 ((List.mem_cons.1 hc).resolve_left (by decide))

theorem isLine_write (x : Binary64) : IsLine x.write := by
  unfold write
  split
  · exact ⟨by decide, by decide⟩
  · have hline : ∀ cs : List Char, cs ≠ [] → '\n' ∉ cs →
        IsLine (String.ofList (if x.isNegative then '-' :: cs else cs)) := by
      intro cs hne hnl
      refine ⟨?_, ?_⟩
      · intro h
        have := congrArg String.toList h
        split at this <;> simp_all
      · rw [String.toList_ofList]
        split
        · simpa using hnl
        · exact hnl
    apply hline
    · split
      · decide
      · split
        · decide
        · exact (Decimal.write_isLine fun c => digit_of_mem_ofGrid).1
    · split
      · decide
      · split
        · decide
        · exact (Decimal.write_isLine fun c => digit_of_mem_ofGrid).2

end Binary64

/-- A module in memory: its code, a word for each number, and its strings. -/
structure Image where
  code : List UInt8
  integers : List (Vector UInt8 Section.wordSize)
  reals : List (Vector UInt8 Section.wordSize)
  strings : List UInt8

namespace Image

/-- Reads the text of a module. How a number lies in its word is up to the machine. -/
def read? (integer real : List Char → Vector UInt8 Section.wordSize) (text : String) :
    Option Image :=
  match Section.readAll? 4 (Text.pieces text) with
  | some [code, integers, reals, strings] =>
    match Section.readBytes? code, Section.readBytes? strings with
    | some code, some strings => some ⟨code, integers.map integer, reals.map real, strings⟩
    | _, _ => none
  | _ => none

end Image

def filled (bytes : List UInt8) : List UInt8 :=
  bytes ++ List.replicate (Code.wordBoundary bytes.length - bytes.length) 0

theorem length_filled (bytes : List UInt8) :
    (filled bytes).length = Code.wordBoundary bytes.length := by
  have hle : bytes.length ≤ Code.wordBoundary bytes.length := by
    simp only [Code.wordBoundary, Section.wordSize]
    omega
  rw [filled, List.length_append, List.length_replicate]
  omega

namespace Code

variable (c : Code) (integer real : List Char → Vector UInt8 Section.wordSize)

/-- The code, the numbers and the strings of a module in memory. -/
def image : Image :=
  ⟨filled c.codeBytes, c.integers.toList.map fun k => integer (toString k.value).toList,
    c.reals.toList.map fun k => real k.value.write.toList, filled c.stringBytes⟩

def lines : List (List String) :=
  [(Section.words c.codeBytes).map Section.wordLine,
    c.integers.toList.map fun k => toString k.value,
    c.reals.toList.map fun k => k.value.write,
    (Section.words c.stringBytes).map Section.wordLine]

theorem isLine_of_mem_lines : ∀ g ∈ c.lines, ∀ l ∈ g, Text.IsLine l := by
  intro g hg l hl
  fin_cases hg
  all_goals obtain ⟨x, -, rfl⟩ := List.mem_map.1 hl
  · exact Section.isLine_wordLine x
  · exact Text.isLine_int x.value
  · exact x.value.isLine_write
  · exact Section.isLine_wordLine x

theorem readAll?_moduleText :
    Section.readAll? 4 (Text.pieces c.moduleText) =
      some (c.lines.map (List.map String.toList)) := by
  have htext : c.moduleText = Text.unlines (c.lines.map fun g => (Section.ofLines g).text) := rfl
  rw [htext, show 4 = c.lines.length from rfl]
  exact Section.readAll?_unlines (by simp [lines]) c.isLine_of_mem_lines

theorem read?_moduleText :
    Image.read? integer real c.moduleText = some (c.image integer real) := by
  rw [Image.read?, c.readAll?_moduleText]
  simp only [lines, List.map_cons, List.map_nil, Section.readBytes?_words]
  simp only [List.map_map, Function.comp_def, image, filled]

end Code

end StackCompiler
