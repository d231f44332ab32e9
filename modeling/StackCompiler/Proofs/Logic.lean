import StackCompiler.Parser.Basic

/-!
# Reasoning about runs

Parsers and emitters are functions from a state to a value or an error and a new state. `wp` says
what holds when such a run has ended; its lemmas take a run apart along the steps it is made of.
For parsers, recursion and repetition come with a rule each: what the body keeps, the whole keeps.
-/

namespace StackCompiler

variable {ε σ α β : Type} {E : ε → σ → Prop} {x : EStateM ε σ α} {Q R : α → σ → Prop} {s s' : σ}

/-- Started in `s`, the run of `x` ends with a value and a state that satisfy `Q`, or with an error
and a state that satisfy `E`. -/
def wp (E : ε → σ → Prop) (x : EStateM ε σ α) (Q : α → σ → Prop) (s : σ) : Prop :=
  match x s with
  | .ok a s' => Q a s'
  | .error e s' => E e s'

theorem wp_pure (a : α) (Q : α → σ → Prop) (s : σ) : wp E (pure a) Q s ↔ Q a s := Iff.rfl

theorem wp_bind (x : EStateM ε σ α) (f : α → EStateM ε σ β) (Q : β → σ → Prop) (s : σ) :
    wp E (x >>= f) Q s ↔ wp E x (fun a s' => wp E (f a) Q s') s := by
  simp only [wp, bind, EStateM.bind]
  cases x s <;> rfl

theorem wp_map (f : α → β) (x : EStateM ε σ α) (Q : β → σ → Prop) (s : σ) :
    wp E (f <$> x) Q s ↔ wp E x (fun a => Q (f a)) s := by
  simp only [wp, Functor.map, EStateM.map]
  cases x s <;> rfl

theorem wp_get (Q : σ → σ → Prop) (s : σ) : wp E get Q s ↔ Q s s := Iff.rfl

theorem wp_modify (f : σ → σ) (Q : PUnit → σ → Prop) (s : σ) :
    wp E (modify f) Q s ↔ Q ⟨⟩ (f s) := Iff.rfl

theorem wp_modifyGet (f : σ → α × σ) (Q : α → σ → Prop) (s : σ) :
    wp E (modifyGet f) Q s ↔ Q (f s).1 (f s).2 := Iff.rfl

theorem wp_ite (c : Prop) [Decidable c] (x y : EStateM ε σ α) (Q : α → σ → Prop) (s : σ) :
    wp E (if c then x else y) Q s ↔ (c → wp E x Q s) ∧ (¬ c → wp E y Q s) := by
  split <;> simp [*]

theorem wp_mono (h : wp E x Q s) (hQ : ∀ a s', Q a s' → R a s') : wp E x R s := by
  unfold wp at *
  split <;> simp_all

/-- As `wp_mono`, when less is asked of errors too. -/
theorem wp_weaken {E' : ε → σ → Prop} (h : wp E x Q s) (hE : ∀ e s', E e s' → E' e s')
    (hQ : ∀ a s', Q a s' → R a s') : wp E' x R s := by
  unfold wp at *
  split <;> simp_all

theorem wp_of_ok {a : α} (h : wp E x Q s) (hx : x s = .ok a s') : Q a s' := by
  simpa [wp, hx] using h

theorem wp_of_error {e : ε} (h : wp E x Q s) (hx : x s = .error e s') : E e s' := by
  simpa [wp, hx] using h

/-- Running something for every item of a list: `I` holds of what is done and what is left. -/
theorem wp_forM {γ : Type} (f : γ → EStateM ε σ PUnit) (I : List γ → List γ → σ → Prop)
    (step : ∀ done c rest s, I done (c :: rest) s → wp E (f c) (fun _ => I (done ++ [c]) rest) s)
    (done rest : List γ) (s : σ) (h : I done rest s) :
    wp E (forIn rest PUnit.unit fun c _ => f c >>= fun _ => pure (.yield PUnit.unit))
      (fun _ => I (done ++ rest) []) s := by
  induction rest generalizing done s with
  | nil => simpa [wp_pure] using h
  | cons c rest ih =>
    simp only [List.forIn_cons, wp_bind, wp_pure]
    refine wp_mono (step done c rest s h) fun _ s' h' => ?_
    simpa using ih (done ++ [c]) s' h'

namespace Parser

/-- The state behind the current token. -/
abbrev State.advance (s : State) : State := { s with stream := s.stream.advance }

variable {Q : α → State → Prop} {s s' : State} {body : Parser α → Parser α} {x : Parser α}
  {f : α → Parser β} {E : ParseError → State → Prop} {step : β → Parser (β ⊕ α)}
  {I : β → State → Prop}

theorem modifyGet_eq (φ : State → α × State) (s : State) :
    (modifyGet φ : Parser α) s = .ok (φ s).1 (φ s).2 := rfl

theorem bind_of_ok {a : α} (h : x s = .ok a s') : (x >>= f) s = f a s' := by
  simp only [Bind.bind, EStateM.bind, h]

theorem bind_of_error {e : ParseError} (h : x s = .error e s') : (x >>= f) s = .error e s' := by
  simp only [Bind.bind, EStateM.bind, h]

/-- What relates a state to how the body of a recursive parser ends there, provided it does so for
the parser itself, it does for the parser. -/
theorem fix_induct {R : State → EStateM.Result ParseError State α → Prop}
    (hno : ∀ s, R s (noProgress s)) (h : ∀ p : Parser α, (∀ s, R s (p s)) → ∀ s, R s (body p s))
    (s : State) : R s (fix body s) := by
  induction hn : s.stream.remaining using Nat.strongRecOn generalizing s with
  | _ n ih =>
    subst hn
    rw [fix]
    refine h _ (fun s' => ?_) s
    by_cases hlt : s'.stream.remaining < s.stream.remaining
    · simpa only [hlt, if_true] using ih _ hlt s' rfl
    · simpa only [hlt, if_false] using hno s'

theorem wp_fix {ι : Type} {P : ι → State → Prop} {Q : ι → α → State → Prop}
    (hno : ∀ i s, P i s → wp E noProgress (Q i) s)
    (h : ∀ p : Parser α, (∀ i s, P i s → wp E p (Q i) s) → ∀ i s, P i s → wp E (body p) (Q i) s)
    (i : ι) (s : State) (hs : P i s) : wp E (fix body) (Q i) s :=
  fix_induct (R := fun s r => ∀ i, P i s → wp E (fun _ => r) (Q i) s) (fun s i hs => hno i s hs)
    (fun p hp s i hs => h p (fun i s => hp s i) i s hs) s i hs

/-- A loop ends with `Q` if its steps keep `I` until one of them ends with `Q`. -/
theorem wp_loop (hno : ∀ b s, I b s → wp E noProgress Q s)
    (h : ∀ b s, I b s → wp E (step b) (fun r s' => r.elim (I · s') (Q · s')) s) (b : β) (s : State)
    (hI : I b s) : wp E (loop step b) Q s := by
  induction hn : s.stream.remaining using Nat.strongRecOn generalizing b s with
  | _ n ih =>
    subst hn
    have hs := h b s hI
    unfold wp at hs ⊢
    rw [loop]
    cases hr : step b s with
    | error e s' =>
      rw [hr] at hs
      exact hs
    | ok r s' =>
      rw [hr] at hs
      cases r with
      | inr a => exact hs
      | inl b' =>
        by_cases hlt : s'.stream.remaining < s.stream.remaining
        · simpa only [wp, hlt, if_true] using ih _ hlt b' s' hs rfl
        · simpa only [wp, hlt, if_false] using hno b' s' hs

/-- The run of a parser ends with `Q`, if it does not fail. -/
abbrev Reads (p : Parser α) (Q : α → State → Prop) (s : State) : Prop := wp (fun _ _ => True) p Q s

theorem reads_fail (t : Token) (f : Fault) : Reads (fail t f) Q s := trivial

theorem reads_noProgress : Reads noProgress Q s := trivial

theorem reads_fix {Q : State → α → State → Prop}
    (h : ∀ p, (∀ s, Reads p (Q s) s) → ∀ s, Reads (body p) (Q s) s) (s : State) :
    Reads (fix body) (Q s) s :=
  fix_induct (R := fun s r => Reads (fun _ => r) (Q s) s) (fun _ => trivial)
    (fun p hp s => h p hp s) s

theorem reads_loop (h : ∀ b s, I b s → Reads (step b) (fun r s' => r.elim (I · s') (Q · s')) s)
    (b : β) (s : State) (hI : I b s) : Reads (loop step b) Q s :=
  wp_loop (fun _ _ _ => reads_noProgress) h b s hI

end Parser

end StackCompiler
