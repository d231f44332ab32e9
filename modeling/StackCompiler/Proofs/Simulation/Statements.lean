import StackCompiler.Proofs.Simulation.Updates

/-!
# Statements on the machine

The code of a statement takes the machine from the state before the statement to the one after it.
Conversely, if the machine halts, then the statement came to an end before: each round of a loop
takes some of the steps that are left.
-/

namespace StackCompiler

namespace Machine

variable {M : Machine} {s L : Scopes} {ids : List Symbol.Id} {names : Names} {p q q' : Nat}
  {st st' : State} {n : Nat} {flow : Flow} {r : List (Option Value) × List Output} {P Q : Meaning}
  {test : State → Option Bool} {ys : List Line}

variable (M ids) in
/-- After a statement with code up to `q`, the machine halts within `n` steps with result `r`. A
statement that stops the program leaves it halted. -/
def EndsAfter (n q : Nat) (r : List (Option Value) × List Output) : Flow → State → Prop
  | .running, st => ∃ m ≤ n, M.EndsIn m (st.config ids q []) r
  | .stopped, st => r = (ids.map st.store, st.output)

variable (M s ids) in
/-- The code from `p` to `q` does what the meaning says. -/
structure Implements (p q : Nat) (P : Meaning) : Prop where
  typed : ∀ st flow st', st.store.Typed s ids → P st flow st' → st'.store.Typed s ids
  ends : ∀ n r st flow st', st.store.Typed s ids → P st flow st' →
    M.EndsAfter ids n q r flow st' → M.Ends (st.config ids p []) r
  inverts : ∀ n r st, st.store.Typed s ids → M.EndsIn n (st.config ids p []) r →
    ∃ flow st', P st flow st' ∧ M.EndsAfter ids n q r flow st'

theorem EndsAfter.mono {m : Nat} (h : M.EndsAfter ids m q r flow st) (hmn : m ≤ n) :
    M.EndsAfter ids n q r flow st := by
  cases flow with
  | running =>
    obtain ⟨k, hk, h⟩ := h
    exact ⟨k, Nat.le_trans hk hmn, h⟩
  | stopped => exact h

theorem implements_skip : M.Implements s ids p p .skip := by
  refine ⟨?typed, ?ends, ?inverts⟩
  case typed =>
    rintro st flow st' hσ ⟨-, rfl⟩
    exact hσ
  case ends =>
    rintro n r st flow st' - ⟨rfl, rfl⟩ ⟨m, -, h⟩
    exact ⟨m, h⟩
  case inverts =>
    intro n r st _ h
    exact ⟨.running, st, ⟨rfl, rfl⟩, n, Nat.le_refl n, h⟩

theorem implements_update {f : State → Option State}
    (hy : ∀ st, st.store.Typed s ids →
      M.Yields (st.config ids p []) (f st) fun st' => st'.config ids q [])
    (ht : ∀ st st', st.store.Typed s ids → f st = some st' → st'.store.Typed s ids) :
    M.Implements s ids p q (.update f) := by
  refine ⟨?typed, ?ends, ?inverts⟩
  case typed =>
    rintro st flow st' hσ ⟨-, hf⟩
    exact ht st st' hσ hf
  case ends =>
    rintro n r st flow st' hσ ⟨rfl, hf⟩ ⟨m, -, h⟩
    have hl := hy st hσ
    rw [hf] at hl
    exact Leads.ends hl ⟨m, h⟩
  case inverts =>
    intro n r st hσ h
    have hl := hy st hσ
    cases hf : f st with
    | none =>
      rw [hf] at hl
      exact absurd h (Stuck.not_endsIn hl)
    | some st' =>
      rw [hf] at hl
      exact ⟨.running, st', ⟨rfl, hf⟩, h.leads hl⟩

theorem Holds.endsIn_iff (h : M.Holds L p (.op .halt :: ys)) :
    M.EndsIn n (st.config ids p []) r ↔ n = 0 ∧ r = (ids.map st.store, st.output) := by
  have hh : M.Halted (st.config ids p []) := h.halted
  constructor
  · rintro ⟨c, hc, -, hr⟩
    cases n with
    | zero =>
      cases hc
      exact ⟨rfl, hr.symm⟩
    | succ n =>
      rw [run, step_of_halted hh] at hc
      cases hc
  · rintro ⟨rfl, rfl⟩
    exact ⟨_, rfl, hh, rfl⟩

theorem implements_stop (h : M.Holds L p (.op .halt :: ys)) : M.Implements s ids p q .stop := by
  refine ⟨?typed, ?ends, ?inverts⟩
  case typed =>
    rintro st flow st' hσ ⟨-, rfl⟩
    exact hσ
  case ends =>
    rintro n r st flow st' - ⟨rfl, rfl⟩ hr
    exact ⟨0, h.endsIn_iff.2 ⟨rfl, hr⟩⟩
  case inverts =>
    intro n r st _ he
    exact ⟨.stopped, st, ⟨rfl, rfl⟩, (h.endsIn_iff.1 he).2⟩

theorem Implements.andThen (hP : M.Implements s ids p q P) (hQ : M.Implements s ids q q' Q) :
    M.Implements s ids p q' (P.andThen Q) := by
  refine ⟨?typed, ?ends, ?inverts⟩
  case typed =>
    rintro st flow st' hσ (⟨-, h⟩ | ⟨st₁, h, h'⟩)
    · exact hP.typed _ _ _ hσ h
    · exact hQ.typed _ _ _ (hP.typed _ _ _ hσ h) h'
  case ends =>
    rintro n r st flow st' hσ (⟨rfl, h⟩ | ⟨st₁, h, h'⟩) he
    · exact hP.ends n r st .stopped st' hσ h he
    · obtain ⟨m, hm⟩ := hQ.ends n r st₁ flow st' (hP.typed _ _ _ hσ h) h' he
      exact hP.ends m r st .running st₁ hσ h ⟨m, Nat.le_refl m, hm⟩
  case inverts =>
    intro n r st hσ h
    obtain ⟨flow, st₁, h, he⟩ := hP.inverts n r st hσ h
    cases flow with
    | stopped => exact ⟨.stopped, st₁, .inl ⟨rfl, h⟩, he⟩
    | running =>
      obtain ⟨m, hm, he⟩ := he
      obtain ⟨flow, st', h', he⟩ := hQ.inverts m r st₁ (hP.typed _ _ _ hσ h) he
      exact ⟨flow, st', .inr ⟨st₁, h, h'⟩, he.mono hm⟩

theorem Implements.leads (h : M.Implements s ids p q P)
    (hl : ∀ st : State, M.Leads (st.config ids q []) (st.config ids q' [])) :
    M.Implements s ids p q' P := by
  refine ⟨h.typed, ?ends, ?inverts⟩
  case ends =>
    intro n r st flow st' hσ hP he
    cases flow with
    | stopped => exact h.ends n r st .stopped st' hσ hP he
    | running =>
      obtain ⟨m, -, he⟩ := he
      obtain ⟨k, hk⟩ := (hl st').ends ⟨m, he⟩
      exact h.ends k r st .running st' hσ hP ⟨k, Nat.le_refl k, hk⟩
  case inverts =>
    intro n r st hσ he
    obtain ⟨flow, st', hP, he⟩ := h.inverts n r st hσ he
    refine ⟨flow, st', hP, ?_⟩
    cases flow with
    | stopped => exact he
    | running =>
      obtain ⟨m, hm, he⟩ := he
      obtain ⟨k, hk, he⟩ := he.leads (hl st')
      exact ⟨k, Nat.le_trans hk hm, he⟩

theorem Implements.ends_iff (h : M.Implements s ids p q P) (hc : M.Holds L q (.op .halt :: ys))
    (hσ : st.store.Typed s ids) :
    M.Ends (st.config ids p []) r ↔
      ∃ flow st', P st flow st' ∧ r = (ids.map st'.store, st'.output) := by
  constructor
  · rintro ⟨n, he⟩
    obtain ⟨flow, st', hP, he⟩ := h.inverts n r st hσ he
    refine ⟨flow, st', hP, ?_⟩
    cases flow with
    | stopped => exact he
    | running =>
      obtain ⟨m, -, he⟩ := he
      exact (hc.endsIn_iff.1 he).2
  · rintro ⟨flow, st', hP, hr⟩
    refine h.ends 0 r st flow st' hσ hP ?_
    cases flow with
    | stopped => exact hr
    | running => exact ⟨0, Nat.le_refl 0, hc.endsIn_iff.2 ⟨rfl, hr⟩⟩

/-! ## Conditions -/

variable (M s ids) in
/-- The code at `p` goes on at `yes` or at `no`, and takes at least one step to get there. -/
def Branches (p : Nat) (test : State → Option Bool) (yes no : Nat) : Prop :=
  ∀ st, st.store.Typed s ids → ∃ c, M.step (st.config ids p []) = some c ∧
    M.Yields c (test st) fun b => st.config ids (if b then yes else no) []

section Branches

variable {yes no : Nat}

theorem Branches.ends (h : M.Branches s ids p test yes no) (hσ : st.store.Typed s ids) {b : Bool}
    (ht : test st = some b) (he : M.Ends (st.config ids (if b then yes else no) []) r) :
    M.Ends (st.config ids p []) r := by
  obtain ⟨c, hs, hy⟩ := h st hσ
  rw [ht] at hy
  exact (Leads.of_step hs).ends (Leads.ends hy he)

theorem Branches.inverts (h : M.Branches s ids p test yes no) (hσ : st.store.Typed s ids)
    (he : M.EndsIn n (st.config ids p []) r) :
    ∃ b, test st = some b ∧ ∃ m < n, M.EndsIn m (st.config ids (if b then yes else no) []) r := by
  obtain ⟨c, hs, hy⟩ := h st hσ
  obtain ⟨m, hm, he⟩ := he.step hs
  cases ht : test st with
  | none =>
    rw [ht] at hy
    exact absurd he (Stuck.not_endsIn hy)
  | some b =>
    rw [ht] at hy
    obtain ⟨k, hk, he⟩ := he.leads hy
    exact ⟨b, rfl, k, by omega, he⟩

theorem Branches.choose (h : M.Branches s ids p test yes no) (hP : M.Implements s ids yes q P)
    (hQ : M.Implements s ids no q Q) : M.Implements s ids p q (.choose test P Q) := by
  refine ⟨?typed, ?ends, ?inverts⟩
  case typed =>
    rintro st flow st' hσ (⟨-, h⟩ | ⟨-, h⟩)
    · exact hP.typed _ _ _ hσ h
    · exact hQ.typed _ _ _ hσ h
  case ends =>
    rintro n r st flow st' hσ (⟨ht, hm⟩ | ⟨ht, hm⟩) he
    · exact h.ends hσ ht (hP.ends n r st flow st' hσ hm he)
    · exact h.ends hσ ht (hQ.ends n r st flow st' hσ hm he)
  case inverts =>
    intro n r st hσ he
    obtain ⟨b, ht, m, hm, he⟩ := h.inverts hσ he
    cases b with
    | true =>
      obtain ⟨flow, st', hmean, he⟩ := hP.inverts m r st hσ he
      exact ⟨flow, st', .inl ⟨ht, hmean⟩, he.mono (by omega)⟩
    | false =>
      obtain ⟨flow, st', hmean, he⟩ := hQ.inverts m r st hσ he
      exact ⟨flow, st', .inr ⟨ht, hmean⟩, he.mono (by omega)⟩

theorem Branches.whileTrue (h : M.Branches s ids p test yes no)
    (hP : M.Implements s ids yes p P) : M.Implements s ids p no (.whileTrue test P) := by
  have typed : ∀ st flow st', st.store.Typed s ids → Meaning.whileTrue test P st flow st' →
      st'.store.Typed s ids := by
    intro st flow st' hσ hw
    induction hw with
    | done ht => exact hσ
    | stop ht h => exact hP.typed _ _ _ hσ h
    | next ht h hw ih => exact ih (hP.typed _ _ _ hσ h)
  refine ⟨typed, ?ends, ?inverts⟩
  case ends =>
    intro n r st flow st' hσ hw he
    induction hw with
    | done ht =>
      obtain ⟨m, -, he⟩ := he
      exact h.ends hσ ht ⟨m, he⟩
    | stop ht hb => exact h.ends hσ ht (hP.ends n r _ .stopped _ hσ hb he)
    | next ht hb hw ih =>
      obtain ⟨m, hm⟩ := ih (hP.typed _ _ _ hσ hb) he
      exact h.ends hσ ht (hP.ends m r _ .running _ hσ hb ⟨m, Nat.le_refl m, hm⟩)
  case inverts =>
    intro n
    -- the steps that are left get fewer with every round
    induction n using Nat.strongRecOn with
    | ind n ih =>
      intro r st hσ he
      obtain ⟨b, ht, m, hm, he⟩ := h.inverts hσ he
      cases b with
      | false => exact ⟨.running, st, .done ht, m, by omega, he⟩
      | true =>
        obtain ⟨flow, st₁, hb, he⟩ := hP.inverts m r st hσ he
        cases flow with
        | stopped => exact ⟨.stopped, st₁, .stop ht hb, he⟩
        | running =>
          obtain ⟨k, hk, he⟩ := he
          obtain ⟨flow, st', hw, he⟩ := ih k (by omega) r st₁ (hP.typed _ _ _ hσ hb) he
          exact ⟨flow, st', .next ht hb hw, he.mono (by omega)⟩

theorem Branches.untilTrue (h : M.Branches s ids q test yes p)
    (hP : M.Implements s ids p q P) : M.Implements s ids p yes (.untilTrue test P) := by
  have typed : ∀ st flow st', st.store.Typed s ids → Meaning.untilTrue test P st flow st' →
      st'.store.Typed s ids := by
    intro st flow st' hσ hu
    induction hu with
    | done h ht => exact hP.typed _ _ _ hσ h
    | stop h => exact hP.typed _ _ _ hσ h
    | next h ht hu ih => exact ih (hP.typed _ _ _ hσ h)
  refine ⟨typed, ?ends, ?inverts⟩
  case ends =>
    intro n r st flow st' hσ hu he
    induction hu with
    | done hb ht =>
      obtain ⟨m, -, he⟩ := he
      obtain ⟨k, hk⟩ := h.ends (hP.typed _ _ _ hσ hb) ht ⟨m, he⟩
      exact hP.ends k r _ .running _ hσ hb ⟨k, Nat.le_refl k, hk⟩
    | stop hb => exact hP.ends n r _ .stopped _ hσ hb he
    | next hb ht hu ih =>
      have hσ' := hP.typed _ _ _ hσ hb
      obtain ⟨k, hk⟩ := h.ends hσ' ht (ih hσ' he)
      exact hP.ends k r _ .running _ hσ hb ⟨k, Nat.le_refl k, hk⟩
  case inverts =>
    intro n
    -- on the steps of the machine: each round of the loop takes some
    induction n using Nat.strongRecOn with
    | ind n ih =>
      intro r st hσ he
      obtain ⟨flow, st₁, hb, he⟩ := hP.inverts n r st hσ he
      cases flow with
      | stopped => exact ⟨.stopped, st₁, .stop hb, he⟩
      | running =>
        have hσ₁ := hP.typed _ _ _ hσ hb
        obtain ⟨m, hm, he⟩ := he
        obtain ⟨b, ht, k, hk, he⟩ := h.inverts hσ₁ he
        cases b with
        | true => exact ⟨.running, st₁, .done hb ht, k, by omega, he⟩
        | false =>
          obtain ⟨flow, st', hu, he⟩ := ih k (by omega) r st₁ hσ₁ he
          exact ⟨flow, st', .next hb ht hu, he.mono (by omega)⟩

end Branches

theorem Serves.branches {test : Node} {target : Nat} (hM : M.Serves s L ids)
    (hN : names.Within s ids) (he : s.IsExpression names test)
    (hp : test.All (Node.IsPlain s.valueType))
    (hc : M.Holds L p (.jump target :: (Assembly.values s.valueType test ++ .op .bf :: ys))) :
    M.Branches s ids p (Node.test M.arithmetic (some test))
      (p + 5 + span (Assembly.values s.valueType test) + 1) target := by
  intro st hσ
  refine ⟨_, hc.step_jump, ?_⟩
  refine (hM.pushes hN hσ he hp _ _ hc.tail.left).bind fun v _ => ?_
  refine hc.tail.right.yields_op rfl nofun ?_
  cases v with
  | int n => rfl
  | bool b => cases b <;> rfl

theorem Holds.leads_jump {target : Nat} (h : M.Holds L p (.jump target :: .op .br :: ys))
    (st : State) : M.Leads (st.config ids p []) (st.config ids target []) :=
  Leads.trans (.of_step h.step_jump) (h.tail.leads_op rfl rfl)

theorem Serves.implements_assignAll {start : List Node} (hM : M.Serves s L ids)
    (hN : names.Within s ids) (h : ∀ n ∈ start, s.IsAssignment names n)
    (hp : Node.AllIn (Node.IsPlain s.valueType) (Node.list .assignList start))
    (hc : M.Holds L p (Assembly.assignments s.valueType (Node.list .assignList start))) :
    M.Implements s ids p
      (p + span (Assembly.assignments s.valueType (Node.list .assignList start)))
      (.update (Node.onStore (Node.assignAll M.arithmetic (Node.list .assignList start)))) := by
  refine implements_update (fun st hσ => hM.yields_assignAll hN hσ h hp hc) fun st st' hσ hf => ?_
  obtain ⟨σ, ha, rfl⟩ := Option.map_eq_some_iff.1 hf
  rw [Node.assignAll, Node.listed_list fun n hn => Node.kind_ne_of_not_list (h n hn).not_list rfl]
    at ha
  exact foldlM_induct (fun σ => σ.Typed s ids) hσ ha fun n hn σ σ' hσ ha =>
    (h n hn).assign_typed hN (Node.all_of_list hp n hn) hσ ha

theorem implements_execOf {body : List Node}
    (h : ∀ n ∈ body, ∀ p, n.All (Node.IsPlain s.valueType) →
      M.Holds L p (Assembly.block s.valueType .main n p) →
      M.Implements s ids p (p + span (Assembly.block s.valueType .main n p))
        (n.exec M.arithmetic))
    (hp : ∀ n ∈ body, n.All (Node.IsPlain s.valueType))
    (hc : M.Holds L p (Assembly.blockOf s.valueType .main (Node.list .statements body) p)) :
    M.Implements s ids p
      (p + span (Assembly.blockOf s.valueType .main (Node.list .statements body) p))
      (Node.execOf M.arithmetic (Node.list .statements body)) := by
  induction body generalizing p with
  | nil => exact implements_skip
  | cons n body ih =>
    rw [Assembly.blockOf_list_cons] at hc ⊢
    rw [Node.execOf_list_cons, span_append, ← Nat.add_assoc]
    refine (h n (by simp) p (hp n (by simp)) hc.left).andThen ?_
    exact ih (fun m hm => h m (by simp [hm])) (fun m hm => hp m (by simp [hm])) hc.right

section Constructs

variable {start cond : List Line} {body otherwise : Nat → List Line} {S : Meaning}
  (ht : ∀ p target ys, M.Holds L p (.jump target :: (cond ++ .op .bf :: ys)) →
    M.Branches s ids p test (p + 5 + span cond + 1) target)
  (hP : ∀ q, M.Holds L q (body q) → M.Implements s ids q (q + span (body q)) P)
include ht hP

theorem Holds.implements_ifThen (hc : M.Holds L p (Assembly.ifThen p cond body)) :
    M.Implements s ids p (p + span (Assembly.ifThen p cond body)) (.choose test P .skip) := by
  unfold Assembly.ifThen at hc ⊢
  have hbody := hc.tail.right.tail
  simp only [span_cons, span_append, size_jump, size_op, ← Nat.add_assoc]
  exact (ht p _ _ hc).choose (hP _ hbody) implements_skip

theorem Holds.implements_ifElse (hc : M.Holds L p (Assembly.ifElse p cond body otherwise))
    (hQ : ∀ q, M.Holds L q (otherwise q) → M.Implements s ids q (q + span (otherwise q)) Q) :
    M.Implements s ids p (p + span (Assembly.ifElse p cond body otherwise))
      (.choose test P Q) := by
  unfold Assembly.ifElse at hc ⊢
  have hbody := hc.tail.right.tail
  have hjump := hbody.right
  simp only [span_cons, span_append, size_jump, size_op, ← Nat.add_assoc]
  exact (ht p _ _ hc).choose ((hP _ hbody.left).leads hjump.leads_jump) (hQ _ hjump.tail.tail)

theorem Holds.implements_forLoop (hc : M.Holds L p (Assembly.forLoop p start cond body))
    (hS : M.Holds L p start → M.Implements s ids p (p + span start) S) :
    M.Implements s ids p (p + span (Assembly.forLoop p start cond body))
      (.andThen S (.whileTrue test P)) := by
  unfold Assembly.forLoop at hc ⊢
  have hcond := hc.right
  have hbody := hcond.tail.right.tail
  simp only [span_cons, span_append, span_nil, size_jump, size_op, ← Nat.add_assoc]
  refine (hS hc.left).andThen ((ht _ _ _ hcond).whileTrue ?_)
  exact (hP _ hbody.left).leads hbody.right.leads_jump

theorem Holds.implements_repeatLoop (hc : M.Holds L p (Assembly.repeatLoop p start cond body))
    (hS : M.Holds L p start → M.Implements s ids p (p + span start) S) :
    M.Implements s ids p (p + span (Assembly.repeatLoop p start cond body))
      (.andThen S (.untilTrue test P)) := by
  unfold Assembly.repeatLoop at hc ⊢
  have hbody := hc.right
  simp only [span_cons, span_append, span_nil, size_jump, size_op, ← Nat.add_assoc]
  exact (hS hc.left).andThen ((ht _ _ _ hbody.right).untilTrue (hP _ hbody.left))

end Constructs

theorem Serves.implements {n : Node} (hM : M.Serves s L ids) (hN : names.Within s ids)
    (h : s.IsStatement names none n) (hp : n.All (Node.IsPlain s.valueType))
    (hc : M.Holds L p (Assembly.block s.valueType .main n p)) :
    M.Implements s ids p (p + span (Assembly.block s.valueType .main n p))
      (n.exec M.arithmetic) := by
  induction h generalizing p with
  | assignment h =>
    cases h with
    | intro hk hn hv hm he tv ht =>
      have h := Scopes.IsAssignment.intro hk hn hv hm he tv ht
      rw [Assembly.block_assignment hk] at hc ⊢
      rw [Node.exec_assignment hk]
      refine implements_update (fun st hσ => ?_) fun st st' hσ hf => ?_
      · exact (hM.yields_assign hN hσ h hp hc).map fun σ _ => .refl _
      · obtain ⟨σ, ha, rfl⟩ := Option.map_eq_some_iff.1 hf
        exact h.assign_typed hN hp hσ ha
  | forLoop hs ha he ht hb ih =>
    rw [Assembly.block_forLoop] at hc ⊢
    rw [Node.exec_forLoop]
    exact hc.implements_forLoop (fun p target ys hc => hM.branches hN he (hp.centre _ rfl) hc)
      (fun q hc => implements_execOf (fun n hn q => ih n hn) (Node.all_of_list hp.right) hc)
      (hM.implements_assignAll hN ha hp.left)
  | ifThen hs he ht hb ih =>
    rw [Assembly.block_ifThen] at hc ⊢
    rw [Node.exec_ifThen]
    exact hc.implements_ifThen (fun p target ys hc => hM.branches hN he (hp.left _ rfl) hc)
      fun q hc => implements_execOf (fun n hn q => ih n hn) (Node.all_of_list hp.centre) hc
  | ifElse hs he ht hb ho ihb iho =>
    rw [Assembly.block_ifElse] at hc ⊢
    rw [Node.exec_ifElse]
    exact hc.implements_ifElse (fun p target ys hc => hM.branches hN he (hp.left _ rfl) hc)
      (fun q hc => implements_execOf (fun n hn q => ihb n hn) (Node.all_of_list hp.centre) hc)
      fun q hc => implements_execOf (fun n hn q => iho n hn) (Node.all_of_list hp.right) hc
  | repeatLoop hs ha he ht hb ih =>
    rw [Assembly.block_repeatLoop] at hc ⊢
    rw [Node.exec_repeatLoop]
    exact hc.implements_repeatLoop (fun p target ys hc => hM.branches hN he (hp.right _ rfl) hc)
      (fun q hc => implements_execOf (fun n hn q => ih n hn) (Node.all_of_list hp.centre) hc)
      (hM.implements_assignAll hN ha hp.left)
  | input => exact absurd rfl hp.self.1
  | print hk hne he =>
    rw [Assembly.block_print hk] at hc ⊢
    rw [Node.exec_print hk]
    refine implements_update (fun st hσ => hM.yields_print hN hσ he hp.left hc) fun st st' hσ hf => ?_
    rw [Node.store_print hf]
    exact hσ
  | returns h =>
    cases h with
    | main =>
      rw [Assembly.block_returns] at hc
      rw [Node.exec_returns]
      exact implements_stop hc
  | call hn ht =>
    obtain ⟨sym, hs, hk, -⟩ := ht
    exact absurd ⟨sym, hs, hk⟩ (hN.functions _ _ hn)

end Machine

end StackCompiler
