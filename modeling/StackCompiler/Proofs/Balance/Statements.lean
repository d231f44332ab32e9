import StackCompiler.Proofs.Balance.Basic
import StackCompiler.Proofs.TypeSoundness

/-!
# The height of the stack in statements

The code of an expression puts one slot on the stack. The code of a statement leaves the stack as it
was, unless somewhere in it a function that yields a value is called for its effect.
-/

namespace StackCompiler

section Lines

variable {lines : List Line} {s t u : List Slot}

theorem exec_trans {x y : List Line} (hx : exec x s = some t) (hy : exec y t = some u) :
    exec (x ++ y) s = some u := by
  rw [exec_append, hx, Option.bind_some, hy]

theorem exec_value (id : Symbol.Id) (s : List Slot) : exec [.value id] s = some (none :: s) := rfl

theorem exec_address (id : Symbol.Id) (s : List Slot) : exec [.address id] s = some (none :: s) :=
  rfl

theorem exec_count {n : Nat} (h : (Line.count n).Fits) (s : List Slot) :
    exec [.count n] s = some (some (n : Int) :: s) := by
  have hpushed : (Line.count n).instruction.effect s =
      some (some (Line.count n).instruction.operand :: s) := by
    rcases Line.operation_count n with ⟨hi, -⟩ | hi
    all_goals
      rw [hi]
      rfl
  rw [exec, hpushed, Line.operand_count h]
  rfl

theorem exec_jump {target : Nat} (h : (Line.jump target).Fits) (s : List Slot) :
    exec [.jump target] s = some (some (target : Int) :: s) := by
  have hn : (Line.jump target).instruction.operand = target := Line.operand_jump h
  rw [← hn]
  rfl

theorem exec_flatMap {γ : Type} {items : List γ} {code : γ → List Line}
    (h : ∀ n ∈ items, ∀ s, exec (code n) s = some (none :: s)) (s : List Slot) :
    exec (items.flatMap code) s = some (List.replicate items.length none ++ s) := by
  induction items generalizing s with
  | nil => rfl
  | cons n items ih =>
    have hrest := ih (fun m hm => h m (by simp [hm])) (none :: s)
    rw [List.flatMap_cons]
    refine exec_trans (h n (by simp) s) (hrest.trans ?_)
    rw [List.length_cons, List.replicate_succ', List.append_assoc]
    rfl

theorem exec_flatMap_self {γ : Type} {items : List γ} {code : γ → List Line}
    (h : ∀ n ∈ items, ∀ s, exec (code n) s = some s) (s : List Slot) :
    exec (items.flatMap code) s = some s := by
  induction items generalizing s with
  | nil => rfl
  | cons n items ih =>
    rw [List.flatMap_cons]
    exact exec_trans (h n (by simp) s) (ih (fun m hm => h m (by simp [hm])) s)

theorem exec_call {types : Symbol.Id → DataType} {id : Symbol.Id} {n : Nat}
    (hn : (Line.count n).Fits)
    (h : ∀ s, exec lines s = some (List.replicate n none ++ s)) (s : List Slot) :
    exec (Assembly.call types id n lines) s =
      some (if (types id).isVoid then s else none :: s) := by
  have hcall : ∀ s, exec (lines ++ [.count n, .address id, .op .js2]) s = some s := by
    intro s
    have hjs2 : exec [.op .js2] (none :: some (n : Int) :: (List.replicate n none ++ s)) =
        (if n ≤ (List.replicate n (none : Slot) ++ s).length
          then some ((List.replicate n (none : Slot) ++ s).drop n) else none).bind (exec []) := rfl
    rw [if_pos (by simp), List.drop_left' (by simp)] at hjs2
    refine exec_trans (h s) (exec_trans (x := [.count n]) (exec_count hn _) ?_)
    exact exec_trans (x := [.address id]) (exec_address id _) hjs2
  unfold Assembly.call
  rw [List.append_assoc]
  split
  · exact hcall s
  · exact exec_trans (t := none :: s) rfl (hcall _)

end Lines

namespace Scopes

variable {s : Scopes} {names : Names} {n : Node} {args : List Node} {types : Symbol.Id → DataType}
  {o : Operation} {k : Node.Kind} {l r : List Line}

theorem exec_binary (hk : Emitter.binaryOperation? k = some o)
    (hl : ∀ t, exec l t = some (none :: t)) (hr : ∀ t, exec r t = some (none :: t))
    (t : List Slot) : exec (l ++ (r ++ [.op o])) t = some (none :: t) := by
  refine exec_trans (hl t) (exec_trans (hr _) ?_)
  cases k <;> cases hk <;> rfl

theorem exec_relation {type : DataType} (hk : Emitter.relationOperation? k = some o)
    (hl : ∀ t, exec l t = some (none :: t)) (hr : ∀ t, exec r t = some (none :: t))
    (t : List Slot) : exec (Assembly.relation k type (l ++ r) o) t = some (none :: t) := by
  have hboth : exec (l ++ r) t = some (none :: none :: t) := exec_trans (hl t) (hr _)
  unfold Assembly.relation
  split
  · refine exec_trans hboth ?_
    split <;> rfl
  · refine exec_trans hboth ?_
    cases k <;> cases hk <;> rfl

theorem exec_arguments (h : ∀ a ∈ args, ∀ t, exec (Assembly.values types a) t = some (none :: t))
    (t : List Slot) :
    exec (Assembly.valuesOf types (Node.list .expressionList args)) t =
      some (List.replicate args.length none ++ t) := by
  rw [Assembly.valuesOf_list, ← List.length_reverse]
  exact exec_flatMap (fun a ha => h a (List.mem_reverse.1 ha)) t

theorem fits_arguments
    (h : ∀ l ∈ Assembly.valuesOf types (Node.list .expressionList args), l.Fits) :
    ∀ a ∈ args, ∀ l ∈ Assembly.values types a, l.Fits := by
  intro a ha l hl
  refine h l ?_
  rw [Assembly.valuesOf_list]
  exact List.mem_flatMap.2 ⟨a, List.mem_reverse.2 ha, hl⟩

theorem length_arguments (h : ∀ a ∈ args, s.IsExpression names a) :
    (Emitter.argumentItems (Node.list .expressionList args)).length = args.length :=
  congrArg List.length (listed_arguments h)

theorem exec_takes {id : Symbol.Id} (ha : ∀ a ∈ args, s.IsExpression names a)
    (hargs : ∀ a ∈ args, (∀ l ∈ Assembly.values types a, l.Fits) →
      ∀ t, exec (Assembly.values types a) t = some (none :: t))
    (hfit : ∀ l ∈ Assembly.call types id
      (Emitter.argumentItems (Node.list .expressionList args)).length
      (Assembly.valuesOf types (Node.list .expressionList args)), l.Fits)
    (t : List Slot) :
    exec (Assembly.call types id (Emitter.argumentItems (Node.list .expressionList args)).length
      (Assembly.valuesOf types (Node.list .expressionList args))) t =
      some (if (types id).isVoid then t else none :: t) := by
  rw [length_arguments ha] at hfit ⊢
  refine exec_call (hfit _ (by simp [Assembly.call])) (exec_arguments fun a hmem => ?_) t
  refine hargs a hmem (fits_arguments (fun l hl => ?_) a hmem)
  exact hfit l (by simp [Assembly.call, hl])

theorem IsExpression.exec (h : s.IsExpression names n)
    (hfit : ∀ l ∈ Assembly.values s.valueType n, l.Fits) (t : List Slot) :
    StackCompiler.exec (Assembly.values s.valueType n) t = some (none :: t) := by
  induction h generalizing t with
  | integer | real | reference => exact exec_value _ t
  | truth hk => rcases hk with rfl | rfl <;> rfl
  | @call text id args type hn hc ht hv ha ih =>
    rw [Assembly.values_call] at hfit ⊢
    refine (exec_takes ha (fun a hmem hf t => ih a hmem hf t) hfit t).trans ?_
    have hvoid : (s.valueType id).isVoid = false := by
      rw [ht.valueType]
      rcases hv with rfl | rfl | rfl <;> rfl
    rw [Option.getD_some, if_neg (by simp [hvoid])]
  | not hn hb ht ih => exact exec_trans (ih (fun l hl => hfit l (List.mem_append_left _ hl)) t) rfl
  | logical hk hl hr tl tr ht ihl ihr =>
    obtain ⟨o, ho⟩ := Emitter.exists_binaryOperation (List.mem_append_left _ hk)
    rw [Assembly.values_binary ho] at hfit ⊢
    exact exec_binary ho (ihl fun l hl => hfit l (by simp [hl]))
      (ihr fun l hl => hfit l (by simp [hl])) t
  | arithmetic hk hl hr tl tr nt nu ht ihl ihr =>
    obtain ⟨o, ho⟩ := Emitter.exists_binaryOperation (List.mem_append_right _ hk)
    rw [Assembly.values_binary ho] at hfit ⊢
    exact exec_binary ho (ihl fun l hl => hfit l (by simp [hl]))
      (ihr fun l hl => hfit l (by simp [hl])) t
  | relation hk hl hr tl tr hc ht ihl ihr =>
    obtain ⟨o, ho⟩ := Emitter.exists_relationOperation hk
    rw [Assembly.values_relation ho] at hfit ⊢
    have hparts : ∀ l, l ∈ Assembly.values s.valueType _ ++ Assembly.values s.valueType _ → l.Fits :=
      fun l hl => hfit l (by unfold Assembly.relation; split <;> exact List.mem_append_left _ hl)
    exact exec_relation ho (ihl fun l hl => hparts l (List.mem_append_left _ hl))
      (ihr fun l hl => hparts l (List.mem_append_right _ hl)) t

end Scopes

/-! ## Branches -/

section Branches

variable {exits : Point → Prop} {base : List Slot} {p e : Nat} {start test : List Line}
  {body otherwise : Nat → List Line}

theorem flows_test (he : (Line.jump e).Fits) (ht : ∀ s, exec test s = some (none :: s))
    (hx : exits ⟨e, base⟩) : Flows exits base p (.jump e :: (test ++ [.op .bf])) base base := by
  have hexec : exec ([.jump e] ++ test) [] = some [none, some (e : Int)] :=
    exec_trans (exec_jump he []) (ht _)
  have hbf : Flows exits base (p + span ([.jump e] ++ test)) [.op .bf]
      ([none, some (e : Int)] ++ base) base := by
    refine flows_line (List.suffix_append _ _) rfl ?_
    intro b hb
    fin_cases hb
    · exact .inl rfl
    · exact .inr hx
  exact (flows_exec hexec base).append hbf

/-- Nothing is behind a branch, so the stack there may be any. -/
theorem flows_branch (he : (Line.jump e).Fits) (hx : exits ⟨e, base⟩) :
    Flows exits base p [.jump e, .op .br] base base := by
  have hbr : Flows exits base (p + span [.jump e]) [.op .br] ([some (e : Int)] ++ base) base := by
    refine flows_line (List.suffix_append _ _) rfl ?_
    intro b hb
    rw [List.mem_singleton.1 hb]
    exact .inr hx
  exact (flows_exec (exec_jump he []) base).append hbr

variable (ht : ∀ s, exec test s = some (none :: s))
  (hb : ∀ exits q, (∀ l ∈ body q, l.Fits) → Flows exits base q (body q) base base)
include ht hb

theorem flows_ifThen (hfit : ∀ l ∈ Assembly.ifThen p test body, l.Fits) :
    Flows exits base p (Assembly.ifThen p test body) base base := by
  obtain ⟨q, hq⟩ : ∃ q, q = p + 5 + span test + 1 := ⟨_, rfl⟩
  obtain ⟨e, he⟩ : ∃ e, e = q + span (body q) := ⟨_, rfl⟩
  have hl : Assembly.ifThen p test body = (.jump e :: (test ++ [.op .bf])) ++ body q := by
    rw [Assembly.ifThen, ← hq, ← he]
    simp
  have hspan : p + span (.jump e :: (test ++ [.op .bf])) = q := by
    simp
    omega
  rw [hl] at hfit ⊢
  -- The test leads to the end, which is where the lines end.
  have hflow : Flows (fun b => b = ⟨e, base⟩ ∨ exits b) base p
      ((.jump e :: (test ++ [.op .bf])) ++ body q) base base := by
    refine (flows_test (hfit _ (by simp)) ht (.inl rfl)).append ?_
    rw [hspan]
    exact hb _ q fun l hl => hfit l (List.mem_append_right _ hl)
  refine hflow.close fun b hb => .inr (hb.imp_left fun hb => ?_)
  rw [hb, span_append, ← Nat.add_assoc, hspan, he]

theorem flows_ifElse
    (ho : ∀ exits q, (∀ l ∈ otherwise q, l.Fits) → Flows exits base q (otherwise q) base base)
    (hfit : ∀ l ∈ Assembly.ifElse p test body otherwise, l.Fits) :
    Flows exits base p (Assembly.ifElse p test body otherwise) base base := by
  obtain ⟨q, hq⟩ : ∃ q, q = p + 5 + span test + 1 := ⟨_, rfl⟩
  obtain ⟨q', hq'⟩ : ∃ q', q' = q + span (body q) + 5 + 1 := ⟨_, rfl⟩
  obtain ⟨e, he⟩ : ∃ e, e = q' + span (otherwise q') := ⟨_, rfl⟩
  obtain ⟨first, hfirst⟩ : ∃ first, first = (.jump q' :: (test ++ [.op .bf])) ++
      (body q ++ [.jump e, .op .br]) := ⟨_, rfl⟩
  have hl : Assembly.ifElse p test body otherwise = first ++ otherwise q' := by
    rw [Assembly.ifElse, ← hq, ← hq', ← he, hfirst]
    simp
  have hspan : p + span (.jump q' :: (test ++ [.op .bf])) = q := by
    simp
    omega
  have hspan' : p + span first = q' := by
    rw [hfirst, span_append, ← Nat.add_assoc, hspan]
    simp
    omega
  rw [hl] at hfit ⊢
  have hff : ∀ l ∈ first, l.Fits := fun l hl => hfit l (List.mem_append_left _ hl)
  rw [hfirst] at hff
  -- The test leads to the end of the first branch, and that to the end of all.
  have hflow : Flows (fun b => b = ⟨q', base⟩ ∨ b = ⟨e, base⟩ ∨ exits b) base p first base base := by
    rw [hfirst]
    refine (flows_test (hff _ (by simp)) ht (.inl rfl)).append ?_
    rw [hspan]
    refine (hb _ q fun l hl => hff l (by simp [hl])).append ?_
    exact flows_branch (hff _ (by simp)) (.inr (.inl rfl))
  have hclosed : Flows (fun b => b = ⟨e, base⟩ ∨ exits b) base p first base base := by
    refine hflow.close fun b hb => .inr (hb.imp_left fun hb => ?_)
    rw [hb, hspan']
  have hboth : Flows (fun b => b = ⟨e, base⟩ ∨ exits b) base p (first ++ otherwise q') base base := by
    refine hclosed.append ?_
    rw [hspan']
    exact ho _ q' fun l hl => hfit l (List.mem_append_right _ hl)
  refine hboth.close fun b hb => .inr (hb.imp_left fun hb => ?_)
  rw [hb, span_append, ← Nat.add_assoc, hspan', he]

theorem flows_forLoop (hs : ∀ s, exec start s = some s)
    (hfit : ∀ l ∈ Assembly.forLoop p start test body, l.Fits) :
    Flows exits base p (Assembly.forLoop p start test body) base base := by
  obtain ⟨top, htop⟩ : ∃ top, top = p + span start := ⟨_, rfl⟩
  obtain ⟨q, hq⟩ : ∃ q, q = top + 5 + span test + 1 := ⟨_, rfl⟩
  obtain ⟨e, he⟩ : ∃ e, e = q + span (body q) + 5 + 1 := ⟨_, rfl⟩
  obtain ⟨loop, hloop⟩ : ∃ loop, loop = (.jump e :: (test ++ [.op .bf])) ++
      (body q ++ [.jump top, .op .br]) := ⟨_, rfl⟩
  have hl : Assembly.forLoop p start test body = start ++ loop := by
    rw [Assembly.forLoop, ← htop, ← hq, ← he, hloop]
    simp
  have hspan : top + span (.jump e :: (test ++ [.op .bf])) = q := by
    simp
    omega
  have hspan' : top + span loop = e := by
    rw [hloop, span_append, ← Nat.add_assoc, hspan]
    simp
    omega
  rw [hl] at hfit ⊢
  have hfl : ∀ l ∈ loop, l.Fits := fun l hl => hfit l (List.mem_append_right _ hl)
  rw [hloop] at hfl
  have hflow : Flows (fun b => b = ⟨top, base⟩ ∨ b = ⟨e, base⟩ ∨ exits b) base top loop base base := by
    rw [hloop]
    refine (flows_test (hfl _ (by simp)) ht (.inr (.inl rfl))).append ?_
    rw [hspan]
    refine (hb _ q fun l hl => hfl l (by simp [hl])).append ?_
    exact flows_branch (hfl _ (by simp)) (.inl rfl)
  have hclosed : Flows exits base top loop base base := by
    refine hflow.close fun b hb => hb.imp_right fun hb => hb.imp_left fun hb => ?_
    rw [hb, hspan']
  rw [htop] at hclosed
  exact (flows_exec (s := []) (t := []) (hs []) base).append hclosed

theorem flows_repeatLoop (hs : ∀ s, exec start s = some s)
    (hfit : ∀ l ∈ Assembly.repeatLoop p start test body, l.Fits) :
    Flows exits base p (Assembly.repeatLoop p start test body) base base := by
  obtain ⟨top, htop⟩ : ∃ top, top = p + span start := ⟨_, rfl⟩
  have hl : Assembly.repeatLoop p start test body =
      start ++ (body top ++ (.jump top :: (test ++ [.op .bf]))) := by
    rw [Assembly.repeatLoop, ← htop]
  rw [hl] at hfit ⊢
  have hflow : Flows (fun b => b = ⟨top, base⟩ ∨ exits b) base top
      (body top ++ (.jump top :: (test ++ [.op .bf]))) base base := by
    refine (hb _ top fun l hl => hfit l (by simp [hl])).append ?_
    exact flows_test (hfit _ (by simp)) ht (.inl rfl)
  have hclosed : Flows exits base top (body top ++ (.jump top :: (test ++ [.op .bf]))) base base :=
    hflow.close fun b hb => hb.imp_right .inr
  rw [htop] at hclosed ⊢
  exact (flows_exec (s := []) (t := []) (hs []) base).append hclosed

end Branches

/-! ## Statements -/

namespace Scopes

variable {s : Scopes} {names : Names} {n : Node} {ret : Option DataType}
  {routine : Emitter.Routine} {exits : Point → Prop} {base : List Slot}

/-- If the node calls a function for its effect, the function yields nothing. -/
def LeavesNothing (s : Scopes) (n : Node) : Prop :=
  n.kind = .callStatement → ∀ id, n.symbol = some id → (s.valueType id).isVoid = true

instance (s : Scopes) (n : Node) : Decidable (s.LeavesNothing n) :=
  inferInstanceAs
    (Decidable (n.kind = .callStatement → ∀ id ∈ n.symbol, (s.valueType id).isVoid = true))

theorem IsAssignment.exec (h : s.IsAssignment names n)
    (hfit : ∀ l ∈ Assembly.assignment s.valueType n, l.Fits) (t : List Slot) :
    StackCompiler.exec (Assembly.assignment s.valueType n) t = some t := by
  cases h with
  | @intro k text id source type hk hn hv hm he tv hc =>
    rcases hk with rfl | hk
    · have hvalue := he.exec (fun l hl => hfit l (by simp [Assembly.assignment, Assembly.valuesOf,
        Emitter.compoundOperation?, Node.kind, Node.right, hl]))
      exact exec_trans (x := [.address id]) (exec_address id t) (exec_trans (hvalue _) rfl)
    · obtain ⟨o, ho⟩ := Emitter.exists_compoundOperation hk
      have hlines : Assembly.assignment s.valueType
          (.mk k none (some id) (some (variableNode text id)) none (some source)) =
          [.address id] ++ ([.value id] ++ (Assembly.values s.valueType source ++
            [.op o, .op .st])) := by
        simp only [Assembly.assignment, Node.kind, ho]
        rfl
      have hop : ∀ t, StackCompiler.exec [.op o, .op .st] (none :: none :: none :: t) = some t := by
        intro t
        cases k <;> cases ho <;> rfl
      rw [hlines] at hfit ⊢
      have hvalue := he.exec fun l hl => hfit l (by simp [hl])
      exact exec_trans (exec_address id t) (exec_trans (exec_value id _)
        (exec_trans (hvalue _) (hop t)))

theorem exec_assignments {start : List Node} (h : ∀ n ∈ start, s.IsAssignment names n)
    (hfit : ∀ l ∈ Assembly.assignments s.valueType (Node.list .assignList start), l.Fits)
    (t : List Slot) :
    StackCompiler.exec (Assembly.assignments s.valueType (Node.list .assignList start)) t =
      some t := by
  have hlist : Node.listed .assignList (Node.list .assignList start) = start :=
    Node.listed_list fun n hn => Node.kind_ne_of_not_list (h n hn).not_list rfl
  rw [Assembly.assignments, hlist] at hfit ⊢
  refine exec_flatMap_self (fun n hn => (h n hn).exec fun l hl => hfit l ?_) t
  exact List.mem_flatMap.2 ⟨n, hn, hl⟩

theorem IsInputTarget.exec (h : s.IsInputTarget names n) (t : List Slot) :
    StackCompiler.exec (Assembly.read s.valueType n) t = some t := by
  cases h with
  | @intro text id type hn hv hm ht =>
    refine exec_trans (x := [.address id]) (exec_address id t) ?_
    show StackCompiler.exec [.op (if s.valueType id = .int then .readInt else .readReal), .op .st]
      _ = _
    split <;> rfl

theorem IsPrintEntry.exec (h : s.IsPrintEntry names n)
    (hfit : ∀ l ∈ Assembly.printEntry s.valueType n, l.Fits) (t : List Slot) :
    StackCompiler.exec (Assembly.printEntry s.valueType n) t = some t := by
  cases h with
  | string hp hs => rfl
  | value h =>
    rw [Assembly.printEntry, if_neg h.not_string] at hfit ⊢
    exact exec_trans (h.exec (fun l hl => hfit l (List.mem_append_left _ hl)) t) rfl

theorem exec_print {k : Node.Kind} {entries : List Node}
    (h : ∀ n ∈ entries, s.IsPrintEntry names n)
    (hfit : ∀ l ∈ Assembly.print s.valueType
      (.mk k none none (Node.list .printList entries) none none), l.Fits) (t : List Slot) :
    StackCompiler.exec (Assembly.print s.valueType
      (.mk k none none (Node.list .printList entries) none none)) t = some t := by
  have hlist : Node.listed .printList (Node.list .printList entries) = entries :=
    Node.listed_list fun n hn => Node.kind_ne_of_not_list (h n hn).not_list rfl
  rw [Assembly.print, Node.left, hlist] at hfit ⊢
  refine exec_trans (t := t) ?_ ?_
  · refine exec_flatMap_self (fun n hn => (h n hn).exec fun l hl => hfit l ?_) t
    exact List.mem_append_left _ (List.mem_flatMap.2 ⟨n, hn, hl⟩)
  · split <;> rfl

theorem flows_end {o : Operation} {p : Nat} (ho : o = .halt ∨ o = .retn) :
    Flows exits base p [.op o] base base := by
  have hflow : (Line.op o).instruction.flow ⟨p, base⟩ = some [] := by
    rcases ho with rfl | rfl <;> rfl
  exact flows_line List.suffix_rfl hflow (by simp)

theorem IsReturn.flows {value : Option Node} {p : Nat} (h : s.IsReturn names ret value)
    (hfit : ∀ l ∈ Assembly.returns s.valueType routine
      (.mk .returns none none value none none), l.Fits) :
    Flows exits base p (Assembly.returns s.valueType routine
      (.mk .returns none none value none none)) base base := by
  cases routine with
  | main => exact flows_end (.inl rfl)
  | function =>
    cases h with
    | main | void => exact flows_end (.inr rfl)
    | @value type n hv he ht =>
      have hlines : Assembly.returns s.valueType .function
          (.mk .returns none none (some n) none none) =
          (Assembly.values s.valueType n ++ [.op .rval]) ++ [.op .retn] := by
        simp [Assembly.returns, Node.left]
      rw [hlines] at hfit ⊢
      have hexec : StackCompiler.exec (Assembly.values s.valueType n ++ [.op .rval]) [] = some [] :=
        exec_trans (he.exec (fun l hl => hfit l (by simp [hl])) []) rfl
      exact (flows_exec hexec base).append (flows_end (.inr rfl))

theorem flows_blockOf {types : Symbol.Id → DataType} {body : List Node}
    (h : ∀ m ∈ body, ∀ p, (∀ l ∈ Assembly.block types routine m p, l.Fits) →
      Flows exits base p (Assembly.block types routine m p) base base) (p : Nat)
    (hfit : ∀ l ∈ Assembly.blockOf types routine (Node.list .statements body) p, l.Fits) :
    Flows exits base p (Assembly.blockOf types routine (Node.list .statements body) p)
      base base := by
  induction body generalizing p with
  | nil => exact flows_nil
  | cons m body ih =>
    rw [Assembly.blockOf_list_cons] at hfit ⊢
    refine (h m (by simp) p fun l hl => hfit l (List.mem_append_left _ hl)).append ?_
    exact ih (fun m hm => h m (by simp [hm])) _ fun l hl => hfit l (List.mem_append_right _ hl)

theorem IsStatement.flows (h : s.IsStatement names ret n) (hn : n.All s.LeavesNothing)
    (p : Nat) (hfit : ∀ l ∈ Assembly.block s.valueType routine n p, l.Fits) :
    Flows exits base p (Assembly.block s.valueType routine n p) base base := by
  induction h generalizing p exits with
  | @assignment n h =>
    have hlines : Assembly.block s.valueType routine n p = Assembly.assignment s.valueType n := by
      obtain ⟨hk, -, -, -, -, -, -⟩ := id h
      exact Assembly.block_assignment hk
    rw [hlines] at hfit ⊢
    exact flows_exec (s := []) (t := []) (h.exec hfit []) base
  | forLoop hs ha he ht hb ih =>
    rw [Assembly.block_forLoop] at hfit ⊢
    refine flows_forLoop (he.exec fun l hl => hfit l ?_) (fun exits q hf => ?_)
      (exec_assignments ha fun l hl => hfit l ?_) hfit
    · exact List.mem_append_right _ (by simp [Assembly.valuesOf, hl])
    · exact flows_blockOf (fun m hm p => ih m hm (Node.all_of_list hn.right m hm) p) q hf
    · exact List.mem_append_left _ hl
  | ifThen hs he ht hb ih =>
    rw [Assembly.block_ifThen] at hfit ⊢
    refine flows_ifThen (he.exec fun l hl => hfit l ?_) (fun exits q hf => ?_) hfit
    · simp [Assembly.ifThen, Assembly.valuesOf, hl]
    · exact flows_blockOf (fun m hm p => ih m hm (Node.all_of_list hn.centre m hm) p) q hf
  | ifElse hs he ht hb ho ihb iho =>
    rw [Assembly.block_ifElse] at hfit ⊢
    refine flows_ifElse (he.exec fun l hl => hfit l ?_) (fun exits q hf => ?_)
      (fun exits q hf => ?_) hfit
    · simp [Assembly.ifElse, Assembly.valuesOf, hl]
    · exact flows_blockOf (fun m hm p => ihb m hm (Node.all_of_list hn.centre m hm) p) q hf
    · exact flows_blockOf (fun m hm p => iho m hm (Node.all_of_list hn.right m hm) p) q hf
  | repeatLoop hs ha he ht hb ih =>
    rw [Assembly.block_repeatLoop] at hfit ⊢
    refine flows_repeatLoop (he.exec fun l hl => hfit l ?_) (fun exits q hf => ?_)
      (exec_assignments ha fun l hl => hfit l ?_) hfit
    · simp [Assembly.repeatLoop, Assembly.valuesOf, hl]
    · exact flows_blockOf (fun m hm p => ih m hm (Node.all_of_list hn.centre m hm) p) q hf
    · exact List.mem_append_left _ hl
  | @input targets hne ht =>
    rw [Assembly.block_input]
    have hlist : Node.listed .variableList (Node.list .variableList targets) = targets :=
      Node.listed_list fun n hn => (ht n hn).kind_ne
    have hexec : StackCompiler.exec (Assembly.input s.valueType
        (.mk .input none none (Node.list .variableList targets) none none)) [] = some [] := by
      rw [Assembly.input, Node.left, hlist]
      exact exec_flatMap_self (fun n hn => (ht n hn).exec) []
    exact flows_exec hexec base
  | print hk hne he =>
    rw [Assembly.block_print hk] at hfit ⊢
    exact flows_exec (s := []) (t := []) (exec_print he hfit []) base
  | returns h =>
    rw [Assembly.block_returns] at hfit ⊢
    exact h.flows hfit
  | @call text id args hname hc ha =>
    rw [Assembly.block_callStatement] at hfit ⊢
    have hvoid : (s.valueType id).isVoid = true := hn.self rfl id rfl
    have hexec := exec_takes ha (fun a hmem hf t => (ha a hmem).exec hf t) hfit []
    rw [Option.getD_some, hvoid, if_pos rfl] at hexec
    exact flows_exec hexec base

end Scopes

end StackCompiler
