import Mathlib.Data.List.Forall2
import StackCompiler.Parser.Basic

/-!
# Two runs side by side

A relation between states is kept by two runs if both end with values, or both with errors, and the
relation holds again in the end. The lemmas take two runs apart along the steps they are made of;
parsers recurse and repeat in step, since related states have come further in step.
-/

namespace StackCompiler

variable {ε σ α β γ δ : Type} {S : σ → σ → Prop} {E : ε → ε → Prop} {R : α → β → Prop}
  {T : γ → δ → Prop}

/-- How two runs end in step: both with values, which `R` relates, or both with errors, which `E`
relates, and in states that `S` relates. -/
inductive Abreast (S : σ → σ → Prop) (E : ε → ε → Prop) (R : α → β → Prop) :
    EStateM.Result ε σ α → EStateM.Result ε σ β → Prop
  | ok {a : α} {b : β} {s t : σ} (h : R a b) (hs : S s t) : Abreast S E R (.ok a s) (.ok b t)
  | error {e e' : ε} {s t : σ} (h : E e e') (hs : S s t) : Abreast S E R (.error e s) (.error e' t)

/-- Started in states that `S` relates, the two runs end in step. -/
def Lockstep (S : σ → σ → Prop) (E : ε → ε → Prop) (R : α → β → Prop) (x : EStateM ε σ α)
    (y : EStateM ε σ β) : Prop :=
  ∀ s t, S s t → Abreast S E R (x s) (y t)

theorem Abreast.bind {x : EStateM ε σ α} {y : EStateM ε σ β} {f : α → EStateM ε σ γ}
    {g : β → EStateM ε σ δ} {s t : σ} (h : Abreast S E R (x s) (y t))
    (hf : ∀ a b s' t', R a b → S s' t' → x s = .ok a s' → Abreast S E T (f a s') (g b t')) :
    Abreast S E T ((x >>= f) s) ((y >>= g) t) := by
  simp only [Bind.bind, EStateM.bind]
  cases hx : x s with
  | ok a s' =>
    cases hy : y t with
    | ok b t' =>
      rw [hx, hy] at h
      cases h with
      | ok h hs => exact hf a b s' t' h hs hx
    | error e t' =>
      rw [hx, hy] at h
      cases h
  | error e s' =>
    cases hy : y t with
    | ok b t' =>
      rw [hx, hy] at h
      cases h
    | error e' t' =>
      rw [hx, hy] at h
      cases h with
      | error h hs => exact .error h hs

namespace Lockstep

variable {x x' : EStateM ε σ α} {y y' : EStateM ε σ β} {f : α → EStateM ε σ γ}
  {g : β → EStateM ε σ δ} {e e' : ε}

theorem pure {a : α} {b : β} (h : R a b) : Lockstep S E R (pure a) (pure b) :=
  fun _ _ hs => .ok h hs

theorem bind (h : Lockstep S E R x y) (hf : ∀ a b, R a b → Lockstep S E T (f a) (g b)) :
    Lockstep S E T (x >>= f) (y >>= g) :=
  fun s t hs => (h s t hs).bind fun a b s' t' hab hs' _ => hf a b hab s' t' hs'

theorem throw (h : E e e') : Lockstep S E R (MonadExcept.throw e) (MonadExcept.throw e') :=
  fun _ _ hs => .error h hs

/-- Nothing that would follow an error matters. -/
theorem throw_bind (h : E e e') :
    Lockstep S E T (MonadExcept.throw e >>= f) (MonadExcept.throw e' >>= g) :=
  fun _ _ hs => .error h hs

theorem ite {c d : Prop} [Decidable c] [Decidable d] (hc : c ↔ d) (h : c → Lockstep S E R x y)
    (h' : ¬ c → Lockstep S E R x' y') :
    Lockstep S E R (if c then x else x') (if d then y else y') := by
  by_cases hd : c
  · rw [if_pos hd, if_pos (hc.1 hd)]
    exact h hd
  · rw [if_neg hd, if_neg (mt hc.2 hd)]
    exact h' hd

theorem ite_bind {c d : Prop} [Decidable c] [Decidable d] (hc : c ↔ d) (h : c → Lockstep S E R x y)
    (h' : ¬ c → Lockstep S E R x' y') (hf : ∀ a b, R a b → Lockstep S E T (f a) (g b)) :
    Lockstep S E T (if c then x >>= f else x' >>= f) (if d then y >>= g else y' >>= g) :=
  ite hc (fun hd => (h hd).bind hf) fun hd => (h' hd).bind hf

theorem get : Lockstep S E S get get := fun _ _ hs => .ok hs hs

theorem modify {f g : σ → σ} (h : ∀ s t, S s t → S (f s) (g t)) :
    Lockstep S E (fun _ _ => True) (modify f) (modify g) :=
  fun s t hs => .ok trivial (h s t hs)

theorem modifyGet {f : σ → α × σ} {g : σ → β × σ}
    (h : ∀ s t, S s t → R (f s).1 (g t).1 ∧ S (f s).2 (g t).2) :
    Lockstep S E R (modifyGet f) (modifyGet g) :=
  fun s t hs => .ok (h s t hs).1 (h s t hs).2

theorem forIn {as : List α} {bs : List β} {f : α → EStateM ε σ PUnit}
    {g : β → EStateM ε σ PUnit} (h : List.Forall₂ R as bs)
    (hf : ∀ a b, R a b → Lockstep S E (fun _ _ => True) (f a) (g b)) :
    Lockstep S E (fun _ _ => True)
      (forIn as PUnit.unit fun a _ => f a >>= fun _ => Pure.pure (.yield PUnit.unit))
      (forIn bs PUnit.unit fun b _ => g b >>= fun _ => Pure.pure (.yield PUnit.unit)) := by
  induction h with
  | nil => exact pure trivial
  | cons hab _ ih =>
    simp only [List.forIn_cons, bind_assoc, pure_bind]
    exact (hf _ _ hab).bind fun _ _ _ => ih

end Lockstep

namespace Parser

variable {S : State → State → Prop} {E : ParseError → ParseError → Prop}

variable (S) in
/-- Of two runs, either both come to a state with fewer tokens left or none does. -/
def InStep : Prop :=
  ∀ s t s' t', S s t → S s' t' →
    (s'.stream.remaining < s.stream.remaining ↔ t'.stream.remaining < t.stream.remaining)

theorem lockstep_fix {body : Parser α → Parser α} {body' : Parser β → Parser β} (hr : InStep S)
    (hn : Lockstep S E R noProgress noProgress)
    (h : ∀ p q, Lockstep S E R p q → Lockstep S E R (body p) (body' q)) :
    Lockstep S E R (fix body) (fix body') := by
  intro s t hs
  induction hm : s.stream.remaining using Nat.strongRecOn generalizing s t with
  | _ m ih =>
    subst hm
    rw [fix, fix]
    refine h _ _ (fun s' t' hs' => ?_) s t hs
    have hiff := hr s t s' t' hs hs'
    by_cases hlt : s'.stream.remaining < s.stream.remaining
    · rw [if_pos hlt, if_pos (hiff.1 hlt)]
      exact ih _ hlt s' t' hs' rfl
    · rw [if_neg hlt, if_neg (mt hiff.2 hlt)]
      exact hn s' t' hs'

theorem lockstep_loop {step : γ → Parser (γ ⊕ α)} {step' : δ → Parser (δ ⊕ β)} (hr : InStep S)
    (hn : Lockstep S E R noProgress noProgress)
    (h : ∀ c d, T c d → Lockstep S E (Sum.LiftRel T R) (step c) (step' d)) {c : γ} {d : δ}
    (hT : T c d) : Lockstep S E R (loop step c) (loop step' d) := by
  intro s t hs
  induction hm : s.stream.remaining using Nat.strongRecOn generalizing c d s t with
  | _ m ih =>
    subst hm
    have hstep := h c d hT s t hs
    rw [loop, loop]
    cases hx : step c s <;> cases hy : step' d t <;> rw [hx, hy] at hstep <;> cases hstep
    case ok.ok.ok hab hs' =>
      cases hab with
      | inr hab => exact .ok hab hs'
      | inl hcd =>
        have hiff := hr _ _ _ _ hs hs'
        dsimp only
        split
        · next hlt =>
          rw [if_pos (hiff.1 hlt)]
          exact ih _ hlt hcd _ _ hs' rfl
        · next hlt =>
          rw [if_neg (mt hiff.2 hlt)]
          exact hn _ _ hs'
    case error.error.error h hs' => exact .error h hs'

theorem lockstep_commaList {p : Parser α} {q : Parser β} (hr : InStep S)
    (hn : Lockstep S E (List.Forall₂ R) noProgress noProgress)
    (hc : Lockstep S E Eq (accept .comma) (accept .comma)) (h : Lockstep S E R p q) :
    Lockstep S E (List.Forall₂ R) (commaList p) (commaList q) := by
  refine lockstep_loop (T := List.Forall₂ R) hr hn (fun as bs hs => ?_) .nil
  refine h.bind fun a b hab => ?_
  refine hc.bind fun c d hcd => ?_
  refine .ite (by rw [hcd]) (fun _ => .pure (.inl (.cons hab hs))) fun _ => ?_
  exact .pure (.inr (List.rel_reverse (.cons hab hs)))

theorem lockstep_whileList {more more' : Parser Bool} {p : Parser α} {q : Parser β}
    (hr : InStep S) (hn : Lockstep S E (List.Forall₂ R) noProgress noProgress)
    (hm : Lockstep S E Eq more more') (h : Lockstep S E R p q) :
    Lockstep S E (List.Forall₂ R) (whileList more p) (whileList more' q) := by
  refine lockstep_loop (T := List.Forall₂ R) hr hn (fun as bs hs => ?_) .nil
  refine hm.bind fun c d hcd => ?_
  refine .ite (by rw [hcd]) (fun _ => ?_) fun _ => .pure (.inr (List.rel_reverse hs))
  exact h.bind fun a b hab => .pure (.inl (.cons hab hs))

end Parser

end StackCompiler
