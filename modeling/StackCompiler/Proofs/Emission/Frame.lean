import StackCompiler.Proofs.Emission.Programs

/-!
# What emission leaves alone

Emitting code opens and closes scopes, and gives functions their places. Whether it succeeds or
fails, everything else stays what it was. The scopes that were open stay open, and others are open
only after a failure. This holds of any tree.
-/

namespace StackCompiler

theorem Scopes.Alike.trans {s s' s'' : Scopes} (h : s.Alike s') (h' : s'.Alike s'') : s.Alike s'' :=
  ⟨h'.index.trans h.index, h'.tables.trans h.tables, h'.constants.trans h.constants,
    fun id => (h'.symbols id).trans (h.symbols id)⟩

namespace Emitter

variable {α β : Type} {keep : Symbol.Id → Prop} {f : List Nat → List Nat} {x : Emitter α}
  {o : Option Node}

/-- The scopes of the two states differ in what is open and in places of symbols only, and the
places differ only where `keep` does not hold. -/
structure State.Agrees (keep : Symbol.Id → Prop) (st st' : State) : Prop where
  alike : st.scopes.Alike st'.scopes
  kept : ∀ id, keep id → st'.scopes.symbol? id = st.scopes.symbol? id

theorem State.Agrees.refl (st : State) : st.Agrees keep st := ⟨.refl _, fun _ _ => rfl⟩

theorem State.Agrees.trans {st st' st'' : State} (h : st.Agrees keep st')
    (h' : st'.Agrees keep st'') : st.Agrees keep st'' :=
  ⟨h.alike.trans h'.alike, fun id hid => (h'.kept id hid).trans (h.kept id hid)⟩

/-- However the run ends, the scopes agree with those before it. If it succeeds, what is open is
given by `f`; if it fails, all is open that was open before. -/
def Ends (keep : Symbol.Id → Prop) (f : List Nat → List Nat) (x : Emitter α) : Prop :=
  ∀ st, wp (fun _ st' => st.Agrees keep st' ∧ st.scopes.stack <:+ st'.scopes.stack) x
    (fun _ st' => st.Agrees keep st' ∧ st'.scopes.stack = f st.scopes.stack) st

/-- As `Ends`, for runs that close the scopes that they open. -/
abbrev Leaves (keep : Symbol.Id → Prop) (x : Emitter α) : Prop := Ends keep id x

theorem leaves_pure (a : α) : Leaves keep (pure a) := fun st => ⟨.refl st, rfl⟩

theorem ends_throw (d : Defect) : Ends keep f (throw d : Emitter α) :=
  fun st => ⟨.refl st, List.suffix_rfl⟩

theorem leaves_throw (d : Defect) : Leaves keep (throw d : Emitter α) := ends_throw d

theorem leaves_get : Leaves keep get := fun st => ⟨.refl st, rfl⟩

theorem leaves_modify {f : State → State} (h : ∀ st, (f st).scopes = st.scopes) :
    Leaves keep (modify f) := by
  intro st
  rw [wp_modify, h st]
  exact ⟨⟨h st ▸ .refl _, fun _ _ => by rw [h st]⟩, rfl⟩

theorem Leaves.bind {y : α → Emitter β} (hx : Leaves keep x) (hy : ∀ a, Ends keep f (y a)) :
    Ends keep f (x >>= y) := by
  intro st
  rw [wp_bind]
  refine wp_mono (hx st) fun a st' ⟨h, hst⟩ => ?_
  refine wp_weaken (hy a st') (fun _ _ ⟨h', hst'⟩ => ⟨h.trans h', ?_⟩)
    fun _ _ ⟨h', hst'⟩ => ⟨h.trans h', ?_⟩
  · rwa [hst] at hst'
  · rw [hst', hst]
    rfl

theorem Ends.ite {c : Prop} [Decidable c] {y : Emitter α} (hx : Ends keep f x)
    (hy : Ends keep f y) : Ends keep f (if c then x else y) := by
  split
  · exact hx
  · exact hy

theorem Leaves.forIn {γ : Type} {f : γ → Emitter PUnit} {items : List γ}
    (h : ∀ c ∈ items, Leaves keep (f c)) :
    Leaves keep (forIn items PUnit.unit fun c _ => f c >>= fun _ => pure (.yield PUnit.unit)) := by
  induction items with
  | nil => exact leaves_pure _
  | cons c items ih =>
    rw [List.forIn_cons, bind_assoc]
    refine (h c (by simp)).bind fun _ => ?_
    simpa using ih fun d hd => h d (List.mem_cons_of_mem _ hd)

theorem leaves_emit (i : Instruction) : Leaves keep (emit i) := leaves_modify fun _ => rfl

theorem leaves_emitOp (op : Operation) : Leaves keep (emitOp op) := leaves_emit _

theorem leaves_emitCount (count : Nat) : Leaves keep (emitCount count) :=
  (leaves_emit _).ite ((leaves_emit _).ite (leaves_throw _))

theorem leaves_guard {c : Prop} [Decidable c] {d : Defect} (hx : Leaves keep x) :
    Leaves keep (if c then x else (throw d : Emitter Unit) >>= fun _ => x) :=
  hx.ite ((leaves_throw d).bind fun _ => hx)

theorem leaves_emitAlloc (slots : Nat) : Leaves keep (emitAlloc slots) :=
  (leaves_pure _).ite ((leaves_emitCount slots).bind fun _ => leaves_emitOp .alloc)

theorem leaves_position : Leaves keep position := leaves_get.bind fun _ => leaves_pure _

theorem leaves_jumpTarget (p : Nat) : Leaves keep (jumpTarget p) :=
  (leaves_pure _).ite (leaves_throw _)

theorem leaves_emitOpenJump : Leaves keep emitOpenJump :=
  leaves_position.bind fun _ => (leaves_emit _).bind fun _ => leaves_pure _

theorem leaves_emitJump (target : Nat) : Leaves keep (emitJump target) :=
  (leaves_jumpTarget target).bind fun _ => leaves_emit _

theorem leaves_closeJump (p : Nat) : Leaves keep (closeJump p) := by
  refine leaves_position.bind fun here => (leaves_jumpTarget here).bind fun target => ?_
  refine leaves_get.bind fun st => ?_
  split
  · exact leaves_modify fun _ => rfl
  · exact leaves_throw _

theorem ends_leaveScope : Ends keep List.tail leaveScope :=
  fun _ => ⟨⟨⟨rfl, rfl, rfl, fun _ => rfl⟩, fun _ _ => rfl⟩, rfl⟩

theorem leaves_scoped (name : String) (hx : Ends keep List.tail x) :
    Leaves keep (enterScope name >>= fun _ => x) := by
  intro st
  rw [wp_bind, enterScope, wp_bind, wp_get]
  split
  · next scopes h =>
    obtain ⟨i, -, rfl⟩ := Option.map_eq_some_iff.1 h
    have hpush : st.Agrees keep { st with scopes := st.scopes.push i } :=
      ⟨⟨rfl, rfl, rfl, fun _ => rfl⟩, fun _ _ => rfl⟩
    rw [wp_modify]
    refine wp_weaken (hx _) ?_ ?_
    · rintro _ _ ⟨h', hst⟩
      exact ⟨hpush.trans h', (List.suffix_cons i st.scopes.stack).trans hst⟩
    · rintro _ _ ⟨h', hst⟩
      exact ⟨hpush.trans h', hst⟩
  · exact ⟨.refl st, List.suffix_rfl⟩

theorem leaves_symbolOf (k : Node.Kind) (symbol : Option Symbol.Id) :
    Leaves keep (symbolOf k symbol) := by
  cases symbol with
  | none => exact leaves_throw _
  | some id => exact leaves_pure _

theorem leaves_valueType (id : Symbol.Id) : Leaves keep (valueType id) :=
  leaves_get.bind fun _ => leaves_pure _

theorem leaves_childOf (k : Node.Kind) (child : Option α) : Leaves keep (childOf k child) := by
  cases child with
  | none => exact leaves_throw _
  | some c => exact leaves_pure _

theorem Leaves.child {k : Node.Kind} {child : Option (Emitter Unit)} {f : Emitter Unit → Emitter β}
    (h : ∀ x, child = some x → Leaves keep x) (hf : ∀ x, Leaves keep x → Leaves keep (f x)) :
    Leaves keep (childOf k child >>= f) := by
  cases child with
  | none => exact fun st => ⟨.refl st, List.suffix_rfl⟩
  | some x => exact hf x (h x rfl)

section Expressions

variable {l r : Option (Emitter Unit)}

theorem leaves_binaryCode (k : Node.Kind) (op : Operation) (hl : ∀ x, l = some x → Leaves keep x)
    (hr : ∀ x, r = some x → Leaves keep x) : Leaves keep (binaryCode k l r op) := by
  refine Leaves.child hl fun x hx => Leaves.child hr fun y hy => ?_
  exact hx.bind fun _ => hy.bind fun _ => leaves_emitOp op

theorem leaves_relationCode (k : Node.Kind) (symbol : Option Symbol.Id) (op : Operation)
    (hl : ∀ x, l = some x → Leaves keep x) (hr : ∀ x, r = some x → Leaves keep x) :
    Leaves keep (relationCode k l r symbol op) := by
  refine (leaves_childOf k l).bind fun _ => leaves_get.bind fun st => .ite ?_ ?_
  · refine (leaves_binaryCode k .xor hl hr).bind fun _ => ?_
    split
    · exact leaves_emitOp _
    · exact leaves_pure _
    · exact leaves_throw _
  · exact (leaves_binaryCode k .sub hl hr).bind fun _ => leaves_emitOp op

theorem leaves_callCode (k : Node.Kind) (symbol : Option Symbol.Id) (count : Nat)
    {arguments : Emitter Unit} (h : Leaves keep arguments) :
    Leaves keep (callCode k symbol count arguments) := by
  refine (leaves_symbolOf k symbol).bind fun id => leaves_get.bind fun st => ?_
  have hcall : Leaves keep (do
      arguments
      emitCount count
      emitAddress id
      emitOp .js2) :=
    h.bind fun _ => (leaves_emitCount count).bind fun _ => (leaves_emit _).bind fun _ =>
      leaves_emitOp _
  have hvalue : Leaves keep (do
      unless (← valueType id).isVoid do
        emitOp .zero
      arguments
      emitCount count
      emitAddress id
      emitOp .js2) :=
    (leaves_valueType id).bind fun _ => .ite hcall ((leaves_emitOp _).bind fun _ => hcall)
  exact leaves_guard hvalue

end Expressions

theorem leaves_single (k : Node.Kind) {x : Emitter Unit} (h : Leaves keep x) :
    Leaves keep (single k x) := (leaves_throw _).ite h

theorem leaves_all (h : ∀ m, o = some m → Leaves keep (values m)) :
    Leaves keep (match o with | some n => values n | none => pure ()) := by
  cases o with
  | none => exact leaves_pure _
  | some m => exact h m rfl

theorem leaves_operand (h : ∀ m, o = some m → Leaves keep (values m)) :
    ∀ x, (match o with | some n => some (single n.kind (values n)) | none => none) = some x →
      Leaves keep x := by
  cases o with
  | none => exact nofun
  | some m =>
    rintro x hx
    cases hx
    exact leaves_single _ (h m rfl)

theorem leaves_values (n : Node) : Leaves keep (values n) := by
  obtain ⟨k, v, s, l, c, r⟩ := n
  have hl : ∀ m, l = some m → Leaves keep (values m) := by
    rintro m rfl
    exact leaves_values m
  have hr : ∀ m, r = some m → Leaves keep (values m) := by
    rintro m rfl
    exact leaves_values m
  have hload : Leaves keep (do emitValue (← symbolOf k s)) :=
    (leaves_symbolOf k s).bind fun _ => leaves_emit _
  rw [values.eq_def]
  dsimp only
  split
  · refine (leaves_all hr).bind fun _ => ?_
    cases l with
    | none => exact leaves_pure _
    | some m => exact leaves_single _ (hl m rfl)
  · exact hload
  · exact hload
  · exact hload
  · exact leaves_emitOp _
  · exact leaves_emitOp _
  · exact leaves_callCode _ _ _ (leaves_all hl)
  · exact Leaves.child (leaves_operand hl) fun x hx => hx.bind fun _ => leaves_emitOp _
  · split
    · exact leaves_binaryCode _ _ (leaves_operand hl) (leaves_operand hr)
    · exact leaves_relationCode _ _ _ (leaves_operand hl) (leaves_operand hr)
    · exact leaves_throw _

theorem leaves_value (n : Node) : Leaves keep (value n) := leaves_single _ (leaves_values n)

/-! ## Statements -/

theorem leaves_assignmentCode (n : Node) : Leaves keep (assignmentCode n) := by
  refine (leaves_symbolOf _ _).bind fun target => (leaves_childOf _ _).bind fun source => ?_
  split
  · exact (leaves_emit _).bind fun _ => (leaves_value source).bind fun _ => leaves_emitOp _
  · exact (leaves_emit _).bind fun _ => (leaves_emit _).bind fun _ =>
      (leaves_value source).bind fun _ => (leaves_emitOp _).bind fun _ => leaves_emitOp _
  · exact leaves_throw _

theorem leaves_assignmentsCode (o : Option Node) : Leaves keep (assignmentsCode o) := by
  unfold assignmentsCode
  split
  · exact (Leaves.forIn fun n _ => leaves_assignmentCode n).bind fun _ => leaves_pure _
  · exact leaves_pure _

theorem leaves_readCode (n : Node) : Leaves keep (readCode n) := by
  refine (leaves_symbolOf _ _).bind fun target => ?_
  refine (leaves_valueType target).bind fun t => ?_
  split
  · exact (leaves_emit _).bind fun _ => (leaves_emitOp _).bind fun _ => leaves_emitOp _
  · exact (leaves_emit _).bind fun _ => (leaves_emitOp _).bind fun _ => leaves_emitOp _
  · exact leaves_throw _

theorem leaves_inputCode (n : Node) : Leaves keep (inputCode n) :=
  (leaves_childOf _ _).bind fun _ =>
    (Leaves.forIn fun m _ => leaves_readCode m).bind fun _ => leaves_pure _

theorem leaves_printEntryCode (n : Node) : Leaves keep (printEntryCode n) := by
  refine .ite ?_ ?_
  · exact (leaves_symbolOf _ _).bind fun _ => (leaves_emit _).bind fun _ => leaves_emitOp _
  · exact (leaves_value n).bind fun _ => leaves_emitOp _

theorem leaves_printCode (n : Node) : Leaves keep (printCode n) :=
  (leaves_childOf _ _).bind fun _ =>
    (Leaves.forIn fun m _ => leaves_printEntryCode m).bind fun _ =>
      (leaves_emitOp _).ite (leaves_pure _)

theorem leaves_returnCode (routine : Routine) (n : Node) : Leaves keep (returnCode routine n) := by
  unfold returnCode
  cases routine with
  | main => exact leaves_emitOp _
  | function =>
    dsimp only
    split
    · exact (leaves_value _).bind fun _ => (leaves_emitOp _).bind fun _ => leaves_emitOp _
    · exact leaves_emitOp _

section Blocks

variable {body otherwise : Emitter Unit} (k : Node.Kind) (scope : String)

theorem leaves_ifCode (test : Option Node) (hb : Leaves keep body) (ho : Leaves keep otherwise) :
    Leaves keep (ifCode k scope test body otherwise) := by
  refine leaves_scoped scope ((leaves_childOf k test).bind fun test => ?_)
  refine leaves_emitOpenJump.bind fun skip => (leaves_value test).bind fun _ => ?_
  refine (leaves_emitOp _).bind fun _ => hb.bind fun _ => .ite ?_ ?_
  · refine leaves_emitOpenJump.bind fun done => (leaves_emitOp _).bind fun _ => ?_
    refine (leaves_closeJump skip).bind fun _ => ho.bind fun _ => ?_
    exact (leaves_closeJump done).bind fun _ => ends_leaveScope
  · exact (leaves_closeJump skip).bind fun _ => ends_leaveScope

theorem leaves_forCode (start test : Option Node) (hb : Leaves keep body) :
    Leaves keep (forCode k scope start test body) := by
  refine leaves_scoped scope ((leaves_assignmentsCode start).bind fun _ => ?_)
  refine leaves_position.bind fun top => leaves_emitOpenJump.bind fun done => ?_
  refine (leaves_childOf k test).bind fun test => (leaves_value test).bind fun _ => ?_
  refine (leaves_emitOp _).bind fun _ => hb.bind fun _ => (leaves_emitJump top).bind fun _ => ?_
  exact (leaves_emitOp _).bind fun _ => (leaves_closeJump done).bind fun _ => ends_leaveScope

theorem leaves_repeatCode (start test : Option Node) (hb : Leaves keep body) :
    Leaves keep (repeatCode k scope start test body) := by
  refine leaves_scoped scope ((leaves_assignmentsCode start).bind fun _ => ?_)
  refine leaves_position.bind fun top => hb.bind fun _ => (leaves_emitJump top).bind fun _ => ?_
  refine (leaves_childOf k test).bind fun test => (leaves_value test).bind fun _ => ?_
  exact (leaves_emitOp _).bind fun _ => ends_leaveScope

end Blocks

theorem leaves_blockOfCode {routine : Routine}
    (h : ∀ m, o = some m → Leaves keep (blockCode routine m)) :
    Leaves keep (blockOfCode routine o) := by
  cases o with
  | none => exact leaves_pure _
  | some m => exact h m rfl

theorem leaves_blockCode (routine : Routine) (n : Node) : Leaves keep (blockCode routine n) := by
  obtain ⟨k, v, s, l, c, r⟩ := n
  have hl : ∀ m, l = some m → Leaves keep (blockCode routine m) := by
    rintro m rfl
    exact leaves_blockCode routine m
  have hc : Leaves keep (blockOfCode routine c) := leaves_blockOfCode (by
    rintro m rfl
    exact leaves_blockCode routine m)
  have hr : Leaves keep (blockOfCode routine r) := leaves_blockOfCode (by
    rintro m rfl
    exact leaves_blockCode routine m)
  cases k with
  | statements =>
    cases l with
    | none => exact blockCode_tail ▸ hr
    | some m =>
      rw [blockCode_chain]
      exact ((leaves_throw _).bind fun _ => hr).ite ((hl m rfl).bind fun _ => hr)
  | assign | addAssign | subAssign | mulAssign | divAssign =>
    rw [blockCode_assignment (by decide)]
    exact leaves_assignmentCode _
  | forLoop => exact blockCode_forLoop ▸ leaves_forCode _ _ _ _ hr
  | ifThen => exact blockCode_ifThen ▸ leaves_ifCode _ _ _ hc hr
  | ifElse => exact blockCode_ifElse ▸ leaves_ifCode _ _ _ hc hr
  | repeatLoop => exact blockCode_repeatLoop ▸ leaves_repeatCode _ _ _ _ hc
  | input => exact blockCode_input ▸ leaves_inputCode _
  | print | println =>
    rw [blockCode_print (by decide)]
    exact leaves_printCode _
  | returns => exact blockCode_returns ▸ leaves_returnCode _ _
  | callStatement =>
    rw [blockCode_callStatement]
    refine leaves_callCode _ _ _ ?_
    cases l with
    | none => exact leaves_pure _
    | some m => exact leaves_values m
  | _ =>
    rw [blockCode_misplaced (by decide)]
    exact leaves_throw _

/-! ## Programs -/

theorem leaves_constantCode (n : Node) : Leaves keep (constantCode n) :=
  (leaves_symbolOf _ _).bind fun _ => (leaves_childOf _ _).bind fun source =>
    (leaves_emit _).bind fun _ => (leaves_value source).bind fun _ => leaves_emitOp _

theorem leaves_globalsCode (n : Node) : Leaves keep (globalsCode n) := by
  unfold globalsCode
  split
  · exact (Leaves.forIn fun m _ => leaves_constantCode m).bind fun _ => leaves_pure _
  · exact leaves_pure _

theorem leaves_mainCode (n : Node) : Leaves keep (mainCode n) := by
  rw [mainCode_eq]
  refine leaves_scoped _ ?_
  exact (leaves_blockOfCode fun m _ => leaves_blockCode _ m).bind fun _ => ends_leaveScope

theorem leaves_functionCode {n : Node} (h : ∀ id, n.symbol = some id → ¬ keep id) :
    Leaves keep (functionCode n) := by
  have hend : Ends keep List.tail (if endsWithReturn n.right = true then leaveScope else do
      emitOp .retn
      leaveScope) :=
    .ite ends_leaveScope ((leaves_emitOp _).bind fun _ => ends_leaveScope)
  unfold functionCode
  cases hs : n.symbol with
  | none => exact fun st => ⟨.refl st, List.suffix_rfl⟩
  | some id =>
    have hplace (start : Nat) (log : State → Log) : Leaves keep (modify fun st : State =>
        { st with scopes := st.scopes.setStorage id ⟨.constants, start⟩, log := log st }) := by
      refine fun st => ⟨⟨(Scopes.Alike.refl st.scopes).setStorage id _, fun other ho => ?_⟩, rfl⟩
      show (st.scopes.setStorage id _).symbol? other = _
      rw [Scopes.symbol?_setStorage, if_neg]
      rintro rfl
      exact h id hs ho
    rw [symbolOf, pure_bind]
    refine leaves_position.bind fun p => (leaves_jumpTarget p).bind fun start => ?_
    refine (hplace start _).bind fun _ => leaves_scoped _ (leaves_get.bind fun st => ?_)
    refine (leaves_emitAlloc _).bind fun _ => ?_
    dsimp only
    split
    · exact (leaves_blockCode _ _).bind fun _ => hend
    · exact hend

theorem leaves_programCode (root : Node) :
    Leaves (fun id => id ∉ root.functionNodes.filterMap Node.symbol) (programCode root) := by
  refine leaves_guard ?_
  refine leaves_scoped _ (Leaves.bind (x := addLiterals) (leaves_modify fun _ => rfl) fun _ => ?_)
  refine leaves_get.bind fun st => Leaves.bind (leaves_modify fun _ => rfl) fun _ => ?_
  refine (leaves_emitAlloc _).bind fun _ => ?_
  dsimp only
  split
  case' h_1 => refine (leaves_globalsCode _).bind fun _ => ?_
  all_goals
    refine (leaves_childOf _ _).bind fun child => (leaves_mainCode child).bind fun _ => ?_
    refine (leaves_emitOp _).bind fun _ => ?_
    split
    · next list hlist =>
      refine (Leaves.forIn fun n hn => leaves_functionCode fun id hid hnot => ?_).bind
        fun _ => ends_leaveScope
      refine hnot (List.mem_filterMap.2 ⟨n, ?_, hid⟩)
      rwa [Node.functionNodes, Node.listed, hlist]
    · exact ends_leaveScope

end Emitter

/-- Generating code, whether it succeeds or fails, gives places to functions and changes nothing
else but what is open. -/
theorem generate_agrees (root : Node) (s : Scopes) :
    s.Alike (generate root s).scopes ∧
      (∀ id, id ∉ root.functionNodes.filterMap Node.symbol →
        (generate root s).scopes.symbol? id = s.symbol? id) ∧
      match (generate root s).code with
      | .ok _ => (generate root s).scopes.stack = s.stack
      | .error _ => s.stack <:+ (generate root s).scopes.stack := by
  have hleaves := Emitter.leaves_programCode root ⟨s, .empty, #[]⟩
  unfold generate
  cases hr : Emitter.programCode root ⟨s, .empty, #[]⟩ with
  | ok _ st =>
    obtain ⟨h, hst⟩ := wp_of_ok hleaves hr
    exact ⟨h.alike, h.kept, hst⟩
  | error d st =>
    obtain ⟨h, hst⟩ := wp_of_error hleaves hr
    exact ⟨h.alike, h.kept, hst⟩

/-- Generating code, whether it succeeds or fails, changes the symbols of functions only. -/
theorem symbol?_generate {o : Outline} {s : Scopes} {id : Symbol.Id}
    (h : id ∉ o.functions.map Outline.Function.id) :
    (generate o.root s).scopes.symbol? id = s.symbol? id := by
  refine (generate_agrees o.root s).2.1 id fun hid => h ?_
  rw [o.functionNodes_root, List.filterMap_map] at hid
  obtain ⟨f, hf, hfid⟩ := List.mem_filterMap.1 hid
  exact List.mem_map.2 ⟨f, hf, Option.some.inj hfid⟩

namespace Code

theorem symbol?_placePool {id : Symbol.Id} {pool : List (Symbol.Id × Nat)}
    (h : id ∉ pool.map Prod.fst) (offset : Nat) (s : Scopes) :
    (placePool offset s pool).2.symbol? id = s.symbol? id := by
  induction pool generalizing offset s with
  | nil => rfl
  | cons e pool ih =>
    rw [List.map_cons, List.mem_cons, not_or] at h
    rw [placePool]
    split
    · rw [ih h.2, Scopes.symbol?_setStorage, if_neg fun he => h.1 he.symm]
    · rfl

/-- Building a module, whether it succeeds or fails, changes the symbols of its literals only. -/
theorem symbol?_build {c : Code} {s : Scopes} {id : Symbol.Id} (h : id ∉ c.pool.map Prod.fst) :
    (c.build s).scopes.symbol? id = s.symbol? id := by
  have hplace := symbol?_placePool h (wordBoundary c.size) s
  unfold build
  split
  · next d s' hp => rwa [hp] at hplace
  · next size s' hp =>
    rw [hp] at hplace
    split
    · exact hplace
    · exact hplace

end Code

end StackCompiler
