import StackCompiler.Compilation
import StackCompiler.Proofs.Partition
import StackCompiler.Proofs.Progress.Programs

/-!
# What is reported about a program

Reading a program only adds to what was reported before. All that it adds are warnings, but for one
error at the end if the program is rejected, and each of them points at a token that was read.
-/

namespace StackCompiler

/-- How the run of the parser ends that starts with what was reported before. -/
def runOnto (before : List Diagnostic) (stream : TokenStream) (scopes : Scopes) :
    EStateM.Result ParseError Parser.State Node :=
  Parser.program ⟨stream, scopes, before.toArray, #[], none, 0⟩

/-- As `parse`, when something was reported before. -/
def parseOnto (before : List Diagnostic) (stream : TokenStream) (scopes : Scopes) : Parsed :=
  match runOnto before stream scopes with
  | .ok root s => ⟨some root, s.scopes, s.diagnostics.toList, s.log⟩
  | .error e s =>
    ⟨none, s.scopes, (s.diagnostics.push (.error e)).toList, s.log.push (.rejected e)⟩

theorem parse_eq_parseOnto (stream : TokenStream) (scopes : Scopes) :
    parse stream scopes = parseOnto [] stream scopes := rfl

/-- The number of the token that was current when the parser stopped. -/
def stopIndex (before : List Diagnostic) (stream : TokenStream) (scopes : Scopes) : Nat :=
  match runOnto before stream scopes with
  | .ok _ s => s.stream.index
  | .error _ s => s.stream.index

theorem TokenStream.token_ofSource (source : String) (k : Nat) :
    (ofSource (tokensOf source)).token k = (Lexer.ofString source).nth k := by
  obtain ⟨slices, tail, hp⟩ := (Lexer.ofString source).exists_splits [] rfl
  have hlength : k < slices.length ∨ k = slices.length ∨ slices.length < k := by omega
  rw [hp.tokens, hp.listed, token, ofSource]
  rcases hlength with hk | hk | hk
  · simp [hk, Nat.lt_succ_of_lt hk]
  · simp [hk, Lexer.ofString]
  · simp [Token.eof, Lexer.ofString, Nat.le_of_lt hk, Nat.not_lt.2 (Nat.succ_le_of_lt hk)]

def Diagnostic.isWarning (d : Diagnostic) : Bool := d.remark.isWarning

/-- Some remarks of which the last one, and no other, is an error. -/
def EndsInError (remarks : List Remark) : Prop :=
  ∃ ws e, remarks = ws ++ [e] ∧ (∀ w ∈ ws, w.isWarning = true) ∧ e.isError = true

/-- What may be reported about a program that is read from `stream` up to its `stop`-th token. -/
structure IsReport (stream : TokenStream) (stop : Nat) (root : Option Node) (ds : List Diagnostic) :
    Prop where
  accepted : root.isSome = true → ∀ d ∈ ds, d.isWarning = true
  rejected : root = none → EndsInError (ds.map Diagnostic.remark)
  /-- Each remark stands at the place of a token that was read, and is as long as the token. -/
  placed : ∀ d ∈ ds, ∃ k, stream.index ≤ k ∧ k ≤ stop ∧
    d.remark.position = (stream.token k).position ∧ d.remark.length = (stream.token k).width
  /-- The warnings are about tokens in the order of the stream. -/
  ordered : ∃ ks : List Nat, (ds.filter Diagnostic.isWarning).map Diagnostic.token =
      ks.map stream.token ∧
    ks.Pairwise (· ≤ ·) ∧ ∀ k ∈ ks, stream.index ≤ k ∧ k ≤ stop

section Marks

variable {stream : TokenStream} {stop : Nat} {marks : List (Nat × Notice)}

/-- The warnings that some marks stand for. -/
def warningsAt (stream : TokenStream) (marks : List (Nat × Notice)) : List Diagnostic :=
  marks.map fun m => .warning (stream.token m.1) m.2

theorem isWarning_of_mem {d : Diagnostic} (h : d ∈ warningsAt stream marks) :
    d.isWarning = true := by
  obtain ⟨m, -, rfl⟩ := List.mem_map.1 h
  rfl

variable (hsorted : (marks.map Prod.fst).Pairwise (· ≤ ·))
  (hmarks : ∀ m ∈ marks, stream.index ≤ m.1 ∧ m.1 ≤ stop)
include hmarks

theorem placed_warningsAt : ∀ d ∈ warningsAt stream marks, ∃ k, stream.index ≤ k ∧ k ≤ stop ∧
    d.remark.position = (stream.token k).position ∧ d.remark.length = (stream.token k).width := by
  intro d hd
  obtain ⟨m, hm, rfl⟩ := List.mem_map.1 hd
  exact ⟨m.1, (hmarks m hm).1, (hmarks m hm).2, rfl, rfl⟩

include hsorted

theorem ordered_warningsAt : ∃ ks : List Nat,
    (warningsAt stream marks).map Diagnostic.token = ks.map stream.token ∧
    ks.Pairwise (· ≤ ·) ∧ ∀ k ∈ ks, stream.index ≤ k ∧ k ≤ stop := by
  refine ⟨marks.map Prod.fst, ?_, hsorted, fun k hk => ?_⟩
  · simp only [warningsAt, List.map_map]
    rfl
  · obtain ⟨m, hm, rfl⟩ := List.mem_map.1 hk
    exact hmarks m hm

theorem isReport_accepted (root : Node) :
    IsReport stream stop (some root) (warningsAt stream marks) := by
  refine ⟨fun _ d hd => isWarning_of_mem hd, by simp, placed_warningsAt hmarks, ?_⟩
  rw [List.filter_eq_self.2 fun d hd => isWarning_of_mem hd]
  exact ordered_warningsAt hsorted hmarks

theorem isReport_rejected {e : ParseError}
    (he : ∃ k, stream.index ≤ k ∧ k ≤ stop ∧ e.token = stream.token k) :
    IsReport stream stop none (warningsAt stream marks ++ [.error e]) := by
  refine ⟨by simp,
    fun _ => ⟨(warningsAt stream marks).map Diagnostic.remark, e.remark, ?_, ?_, rfl⟩,
    fun d hd => ?_, ?_⟩
  · rw [List.map_append]
    rfl
  · intro w hw
    obtain ⟨d, hd, rfl⟩ := List.mem_map.1 hw
    exact isWarning_of_mem hd
  · rcases List.mem_append.1 hd with hd | hd
    · exact placed_warningsAt hmarks d hd
    · obtain ⟨k, hk, hk', ht⟩ := he
      rw [List.mem_singleton.1 hd]
      exact ⟨k, hk, hk', congrArg Token.position ht, congrArg Token.width ht⟩
  · have herror : [Diagnostic.error e].filter Diagnostic.isWarning = [] := rfl
    rw [List.filter_append, herror, List.append_nil,
      List.filter_eq_self.2 fun d hd => isWarning_of_mem hd]
    exact ordered_warningsAt hsorted hmarks

end Marks

/-- What reading adds to what was reported before: warnings, and behind them the error that ended
it, if one did. -/
theorem parseOnto_marks (before : List Diagnostic) (stream : TokenStream) (scopes : Scopes) :
    ∃ marks : List (Nat × Notice), (marks.map Prod.fst).Pairwise (· ≤ ·) ∧
      (∀ m ∈ marks, stream.index ≤ m.1 ∧ m.1 ≤ stopIndex before stream scopes) ∧
      ((∃ root, (parseOnto before stream scopes).root = some root ∧
        (parseOnto before stream scopes).diagnostics = before ++ warningsAt stream marks) ∨
      (parseOnto before stream scopes).root = none ∧ ∃ e,
        (parseOnto before stream scopes).diagnostics =
          before ++ (warningsAt stream marks ++ [.error e]) ∧
        ∃ k, stream.index ≤ k ∧ k ≤ stopIndex before stream scopes ∧
          e.token = stream.token k) := by
  have hrun := Parser.at_program ⟨stream, scopes, before.toArray, #[], none, 0⟩
  unfold parseOnto stopIndex
  cases hr : runOnto before stream scopes with
  | ok root s =>
    obtain ⟨s₁, h, rfl⟩ := wp_of_ok hrun hr
    obtain ⟨marks, hd, hsorted, hmarks⟩ := h.warnings
    exact ⟨marks, hsorted, hmarks, .inl ⟨root, rfl, hd⟩⟩
  | error e s =>
    obtain ⟨st, ts, h, ht⟩ := wp_of_error hrun hr
    obtain ⟨marks, hd, hsorted, hmarks⟩ := h.warnings
    refine ⟨marks, hsorted, hmarks, .inr ⟨rfl, e, ?_, h.seen e.token ht⟩⟩
    show (s.diagnostics.push (.error e)).toList = _
    rw [Array.toList_push, hd, List.append_assoc]
    rfl

theorem parseOnto_report (before : List Diagnostic) (stream : TokenStream) (scopes : Scopes) :
    ∃ ds, (parseOnto before stream scopes).diagnostics = before ++ ds ∧
      IsReport stream (stopIndex before stream scopes) (parseOnto before stream scopes).root
        ds := by
  obtain ⟨marks, hsorted, hmarks, ⟨root, hroot, hd⟩ | ⟨hroot, e, hd, he⟩⟩ :=
    parseOnto_marks before stream scopes
  · exact ⟨_, hd, hroot ▸ isReport_accepted hsorted hmarks root⟩
  · exact ⟨_, hd, hroot ▸ isReport_rejected hsorted hmarks he⟩

theorem parse_token {stream : TokenStream} {scopes : Scopes} {d : Diagnostic}
    (hd : d ∈ (parse stream scopes).diagnostics) : ∃ k, d.token = stream.token k := by
  have hwarning {marks : List (Nat × Notice)} (h : d ∈ warningsAt stream marks) :
      ∃ k, d.token = stream.token k := by
    obtain ⟨m, -, rfl⟩ := List.mem_map.1 h
    exact ⟨m.1, rfl⟩
  rw [parse_eq_parseOnto] at hd
  obtain ⟨marks, -, -, ⟨root, -, hds⟩ | ⟨-, e, hds, k, -, -, hk⟩⟩ := parseOnto_marks [] stream scopes
  · rw [hds] at hd
    exact hwarning hd
  · rw [hds, List.nil_append, List.mem_append, List.mem_singleton] at hd
    rcases hd with hd | rfl
    · exact hwarning hd
    · exact ⟨k, hk⟩

theorem parseSource_report (source : String) (scopes : Scopes) :
    ∃ stop, IsReport (.ofSource (tokensOf source)) stop (parseSource source scopes).root
      (parseSource source scopes).diagnostics := by
  obtain ⟨ds, hds, h⟩ := parseOnto_report [] (.ofSource (tokensOf source)) scopes
  rw [List.nil_append] at hds
  rw [← hds] at h
  exact ⟨_, h⟩

/-- What is reported when a program is compiled. -/
def CompilesWith (result : Except Error Compiled) : Prop :=
  match result with
  | .ok c => ∀ r ∈ c.remarks, r.isWarning = true
  | .error (.rejected remarks) => EndsInError remarks
  | .error _ => True

theorem compilesWith_compile (source : String) (dumps : Dumps) :
    CompilesWith (compile source dumps).1 := by
  obtain ⟨stop, h⟩ := parseSource_report source .empty
  unfold compile
  dsimp only
  split
  · next hroot => exact h.rejected hroot
  · next root hroot =>
    have hw : ∀ r ∈ (parseSource source .empty).remarks, r.isWarning = true := by
      intro r hr
      obtain ⟨d, hd, rfl⟩ := List.mem_map.1 hr
      exact h.accepted (by rw [hroot]; rfl) d hd
    split
    · trivial
    · split
      · trivial
      · exact hw

/-- Reading only adds to what was reported before: warnings in the order of the stream, and one
error behind them if the program is rejected, each about a token that was read. So a compilation
that is rejected ends with its only error, and one that succeeds has warnings only. -/
theorem parse_reportsInOrder :
    (∀ before stream scopes, ∃ ds, (parseOnto before stream scopes).diagnostics = before ++ ds ∧
      IsReport stream (stopIndex before stream scopes) (parseOnto before stream scopes).root ds) ∧
    ∀ source dumps, CompilesWith (compile source dumps).1 :=
  ⟨parseOnto_report, compilesWith_compile⟩

end StackCompiler
