import StackCompiler.Proofs.Image

/-!
# What the text of a module says

The text of a module is four sections and nothing else. The lines of code and of strings are words
of cells, those of integers are numerals, and those of reals are as they were written. Whatever
edits made the code, reading the text gives the bytes of its instructions and its literals.
-/

namespace StackCompiler

theorem Text.readInt?_toString (n : Int) : readInt? (toString n).toList = some n := by
  have hread : ∀ k : Nat, readInt? (Nat.toDigits 10 k) = some (k : Int) ∧
      readInt? ('-' :: Nat.toDigits 10 k) = some (-(k : Int)) := by
    intro k
    have hdigit : ∀ c ∈ Nat.toDigits 10 k, isDigit c = true := fun c hc => isDigit_of_mem_toDigits hc
    have hall : (Nat.toDigits 10 k).all isDigit = true := List.all_eq_true.2 hdigit
    have hne : (Nat.toDigits 10 k).isEmpty = false := by simp
    have hvalue : digitsValue (Nat.toDigits 10 k) = k := by
      rw [digitsValue_eq, Nat.ofDigitChars_ten_toDigits]
    have hsign : readSign (Nat.toDigits 10 k) = (false, Nat.toDigits 10 k) := by
      cases hds : Nat.toDigits 10 k with
      | nil => rfl
      | cons c cs =>
        have hc := hdigit c (by simp [hds])
        unfold readSign
        split
        · next heq =>
          cases heq
          exact absurd hc (by decide)
        · next heq =>
          cases heq
          exact absurd hc (by decide)
        · rfl
    constructor
    · simp [readInt?, hsign, hne, hall, hvalue]
    · simp [readInt?, readSign, hne, hall, hvalue]
  cases n with
  | ofNat k =>
    have hs : (toString (Int.ofNat k)).toList = Nat.toDigits 10 k := toList_toString k
    rw [hs]
    exact (hread k).1
  | negSucc k =>
    have hs : toString (Int.negSucc k) = "-" ++ toString (k + 1) := rfl
    rw [hs, String.toList_append, toList_toString]
    exact (hread (k + 1)).2

namespace Section

def readWords? (lines : List (List Char)) : Option (List UInt8) :=
  if ∀ l ∈ lines, l.length = 4 * wordSize then readBytes? lines else none

theorem length_words_le {bytes : List UInt8} : ∀ w ∈ words bytes, w.length ≤ wordSize := by
  fun_induction words bytes with
  | case1 => simp
  | case2 bytes hne ih =>
    intro w hw
    rcases List.mem_cons.1 hw with rfl | hw
    · rw [List.length_take]
      exact Nat.min_le_left _ _
    · exact ih w hw

theorem length_wordLine {bytes : List UInt8} (h : bytes.length ≤ wordSize) :
    (wordLine bytes).toList.length = 4 * wordSize := by
  have hcells : ∀ bs : List UInt8, (String.join (bs.map cell)).toList.length = 4 * bs.length := by
    intro bs
    rw [String.toList_join]
    induction bs with
    | nil => rfl
    | cons b bs ih =>
      rw [List.map_cons, List.flatMap_cons, List.length_append, ih, length_cell, List.length_cons]
      omega
  rw [wordLine, hcells, List.length_append, List.length_replicate]
  omega

theorem readWords?_words (bytes : List UInt8) :
    readWords? (((words bytes).map wordLine).map String.toList) = some (filled bytes) := by
  have hlength : ∀ l ∈ ((words bytes).map wordLine).map String.toList,
      l.length = 4 * wordSize := by
    intro l hl
    obtain ⟨s, hs, rfl⟩ := List.mem_map.1 hl
    obtain ⟨w, hw, rfl⟩ := List.mem_map.1 hs
    exact length_wordLine (length_words_le w hw)
  rw [readWords?, if_pos hlength, readBytes?_words]
  rfl

end Section

/-- The bytes with zeros behind them, as many as fill up the last word. -/
def FillsUp (bytes all : List UInt8) : Prop :=
  ∃ k < Section.wordSize, all = bytes ++ List.replicate k 0 ∧ Section.wordSize ∣ all.length

theorem fillsUp_filled (bytes : List UInt8) : FillsUp bytes (filled bytes) := by
  refine ⟨Code.wordBoundary bytes.length - bytes.length, ?_, rfl, ?_⟩
  · simp only [Code.wordBoundary, Section.wordSize]
    omega
  · rw [length_filled, Code.wordBoundary]
    exact Nat.dvd_mul_left _ _

/-- What the sections of a module say. -/
structure Contents where
  code : List UInt8
  integers : List Int
  /-- The lines of the reals. -/
  reals : List (List Char)
  strings : List UInt8

/-- Reads four sections, behind which nothing may be left over. -/
def Contents.read? (text : String) : Option Contents :=
  match Section.readAll? 4 (Text.pieces text) with
  | some [code, integers, reals, strings] =>
    match Section.readWords? code, integers.mapM Text.readInt?, Section.readWords? strings with
    | some code, some integers, some strings => some ⟨code, integers, reals, strings⟩
    | _, _, _ => none
  | _ => none

namespace Code

def contents (c : Code) : Contents :=
  ⟨filled c.codeBytes, c.integers.toList.map Constant.value,
    c.reals.toList.map fun k => k.value.write.toList, filled c.stringBytes⟩

theorem mapM_readInt? (ks : List (Constant Int)) :
    ((ks.map fun k => toString k.value).map String.toList).mapM Text.readInt? =
      some (ks.map Constant.value) := by
  induction ks with
  | nil => rfl
  | cons k ks ih =>
    rw [List.map_cons, List.map_cons, List.mapM_cons, ih, Text.readInt?_toString]
    rfl

theorem contents_moduleText (c : Code) : Contents.read? c.moduleText = some c.contents := by
  rw [Contents.read?, c.readAll?_moduleText]
  simp only [lines, List.map_cons, List.map_nil, Section.readWords?_words, mapM_readInt?]
  simp only [List.map_map, Function.comp_def, contents]

/-- If filling in gets to the end, every load from the `k`-th instruction on has a place. -/
theorem resolveFrom_ok {s : Scopes} {k : Nat} {is : Array Placed}
    (h : (resolveFrom s k is).1 = .ok ()) :
    ∀ x ∈ is.toList.drop k, ∃ i, x.instruction.resolve s = .ok i := by
  fun_induction resolveFrom s k is with
  | case1 k is hk i hi ih =>
    intro x hx
    rw [List.drop_eq_getElem_cons (by simpa using hk)] at hx
    rcases List.mem_cons.1 hx with rfl | hx
    · exact ⟨i, hi⟩
    · refine ih h x ?_
      rwa [Array.toList_set, List.drop_set_of_lt (by omega)]
  | case2 k is hk d hd => cases h
  | case3 k is hk =>
    intro x hx
    rw [List.drop_eq_nil_of_le (by simpa using hk)] at hx
    cases hx

theorem Is.build_of_ok {c : Code} {is : List Instruction} {s : Scopes} {text : String}
    (hc : c.Is is) (h : (c.build s).result = .ok text) :
    text = (c.build s).code.moduleText ∧
      (c.build s).code.Is (is.map (Instruction.placed (c.build s).scopes)) ∧
      (c.build s).code.literals = c.literals := by
  have hresolve : ∀ i ∈ is, ∃ j, i.resolve (laid (wordBoundary c.size) s c.pool) = .ok j := by
    rcases placePool_cases (wordBoundary c.size) s c.pool with ⟨hp, -⟩ | ⟨p, s', hp, -⟩
    · have hok : (resolveFrom (laid (wordBoundary c.size) s c.pool) 0 c.instructions).1 = .ok () := by
        cases hr : resolveFrom (laid (wordBoundary c.size) s c.pool) 0 c.instructions with
        | mk result is' =>
          cases result with
          | ok u => rfl
          | error d => simp [build, hp, Code.resolve, hr] at h
      intro i hi
      obtain ⟨as, bs, rfl⟩ := List.append_of_mem hi
      refine resolveFrom_ok hok ⟨sizeOfAll as, i⟩ ?_
      rw [List.drop_zero, hc.instructions]
      exact mem_place.2 ⟨as, bs, rfl, by simp⟩
    · simp [build, hp] at h
  rcases hc.build_cases s hresolve with ⟨hr, -, hcode, hl, -⟩ | ⟨p, hr, -⟩
  · rw [hr] at h
    exact ⟨(Except.ok.inj h).symm, hcode, hl⟩
  · rw [hr] at h
    cases h

end Code

/-- The text of every module can be read: it is four sections, of which the first holds the bytes of
all instructions in their order, the second the integers, the third a line for each real, and the
fourth the bytes of the strings, each with a zero behind it. Words are filled up with zeros. -/
theorem build_contents (es : List Code.Edit) (s : Scopes) (text : String)
    (h : ((Code.edited es).build s).result = .ok text) :
    ∃ is m, (Code.edited es).Is is ∧
      ((Code.edited es).build s).code.Is
        (is.map (Instruction.placed ((Code.edited es).build s).scopes)) ∧
      Contents.read? text = some m ∧
      FillsUp (((Code.edited es).build s).code.instructions.toList.flatMap
        fun x => x.instruction.bytes) m.code ∧
      m.integers = (Code.edited es).integers.toList.map Constant.value ∧
      m.reals = ((Code.edited es).reals.toList.map fun k => k.value.write.toList) ∧
      FillsUp ((Code.edited es).strings.toList.flatMap fun k => k.value.toUTF8.toList ++ [0])
        m.strings := by
  obtain ⟨is, his⟩ := Code.is_edited es
  obtain ⟨rfl, hcode, hl⟩ := his.build_of_ok h
  simp only [Code.literals, Prod.mk.injEq] at hl
  obtain ⟨hi, hr, hs⟩ := hl
  refine ⟨is, _, his, hcode, Code.contents_moduleText _, fillsUp_filled _, ?_, ?_, ?_⟩
  · rw [← hi]
    rfl
  · rw [← hr]
    rfl
  · rw [← hs]
    exact fillsUp_filled _

theorem build_contents_mixed : ∃ text is m,
    ((Code.edited mixedEdits).build mixedScopes).result = .ok text ∧
      (Code.edited mixedEdits).Is is ∧ Contents.read? text = some m ∧
      FillsUp (((Code.edited mixedEdits).build mixedScopes).code.instructions.toList.flatMap
        fun x => x.instruction.bytes) m.code ∧
      m.integers = [-5] ∧ m.reals = [['1', '.', '5']] ∧
      FillsUp ("né".toUTF8.toList ++ [0]) m.strings := by
  obtain ⟨is, m, his, -, hread, hc, hi, hr, hs⟩ :=
    build_contents mixedEdits mixedScopes _ mixed_builds
  refine ⟨_, is, m, mixed_builds, his, hread, hc, hi.trans ?_, hr.trans ?_, ?_⟩
  · decide +kernel
  · decide +kernel
  · have hstrings : (Code.edited mixedEdits).strings.toList = [⟨"né", 2⟩] := by decide +kernel
    rw [hstrings] at hs
    simpa using hs

end StackCompiler
