import StackCompiler.Proofs.Balance.Basic

/-!
# The height of the stack in modules

Once the places of symbols are known, code without branches does to the height of the stack what it
did before. More is known of the numbers on the stack: the addresses of functions and literals.
-/

namespace StackCompiler

/-- The second stack is the first one, but more of its numbers may be known. -/
structure Informs (t u : List Slot) : Prop where
  length : t.length = u.length
  known : ∀ (k : Nat) x, t[k]? = some (some x) → u[k]? = some (some x)

namespace Informs

variable {t u t' : List Slot}

theorem refl (t : List Slot) : Informs t t := ⟨rfl, fun _ _ h => h⟩

theorem push (h : Informs t u) (a : Slot) : Informs (none :: t) (a :: u) := by
  refine ⟨by simp [h.length], fun k x hk => ?_⟩
  cases k with
  | zero => cases hk
  | succ k => exact h.known k x hk

theorem cons (h : Informs t u) (a : Slot) : Informs (a :: t) (a :: u) := by
  refine ⟨by simp [h.length], fun k x hk => ?_⟩
  cases k with
  | zero => exact hk
  | succ k => exact h.known k x hk

theorem drop (h : Informs t u) (n : Nat) : Informs (t.drop n) (u.drop n) := by
  refine ⟨by simp [h.length], fun k x hk => ?_⟩
  rw [List.getElem?_drop] at hk ⊢
  exact h.known (n + k) x hk

theorem replicate (h : Informs t u) (n : Nat) (a : Slot) :
    Informs (List.replicate n a ++ t) (List.replicate n a ++ u) := by
  induction n with
  | zero => exact h
  | succ n ih => exact ih.cons a

theorem effect {i : Instruction} (h : Informs t u) (hi : i.effect t = some t') :
    ∃ u', i.effect u = some u' ∧ Informs t' u' := by
  unfold Instruction.effect at hi ⊢
  split at hi
  · split at hi
    · next a n t =>
      -- a call takes as many arguments as the number below the address says
      split at hi
      · next hn =>
        cases hi
        obtain ⟨b, c, u, rfl⟩ : ∃ b c v, u = b :: c :: v := by
          have hlen := h.length
          match u, hlen with
          | b :: c :: v, _ => exact ⟨b, c, v, rfl⟩
        obtain rfl : c = some (.ofNat n) := by simpa using h.known 1 n rfl
        have hrest : Informs t u := h.drop 2
        exact ⟨u.drop n, by simp only [if_pos (hrest.length ▸ hn)], hrest.drop n⟩
      · cases hi
    · cases hi
  · split at hi
    · next pops pushes heff =>
      split at hi
      · next hn =>
        cases hi
        exact ⟨_, if_pos (h.length ▸ hn), (h.drop pops).replicate pushes i.pushed⟩
      · cases hi
    · cases hi

theorem effect_placed {l : Line} (L : Scopes) (h : Informs t u)
    (hi : l.instruction.effect t = some t') :
    ∃ u', (l.placed L).effect u = some u' ∧ Informs t' u' := by
  have hpending {op : Operation} {id : Symbol.Id}
      (hop : op = .pendingValue ∨ op = .pendingAddress)
      (hi : (Instruction.pending op id).effect t = some t') :
      ∃ u', ((Instruction.pending op id).placed L).effect u = some u' ∧ Informs t' u' := by
    rcases placed_pending_cases L op id with hp | ⟨st, -, hp⟩
    · rw [hp]
      exact h.effect hi
    · obtain rfl : none :: t = t' := by rcases hop with rfl | rfl <;> exact Option.some.inj hi
      rw [hp]
      rcases hop with rfl | rfl <;> exact ⟨_, rfl, h.push _⟩
  cases l with
  | op o => exact h.effect hi
  | count n =>
    rw [Line.placed_count]
    exact h.effect hi
  | jump target => exact h.effect hi
  | value id => exact hpending (.inl rfl) hi
  | address id => exact hpending (.inr rfl) hi

end Informs

section Paths

variable {c : Code} {L : Scopes} {as bs lines : List Line} {s t : List Slot} {xs ys : List Line}
  {l : Line}

theorem Code.Is.at?_placed (hc : c.Is ((xs ++ l :: ys).map (Line.placed L))) :
    c.at? (span xs) = some (l.placed L) := by
  rw [List.map_append, List.map_cons] at hc
  rw [← sizeOfAll_placed L]
  exact hc.at?

theorem Code.Is.at?_within (hc : c.Is ((as ++ ((xs ++ l :: ys) ++ bs)).map (Line.placed L))) :
    c.at? (span as + span xs) = some (l.placed L) := by
  have hsplit : as ++ ((xs ++ l :: ys) ++ bs) = (as ++ xs) ++ l :: (ys ++ bs) := by simp
  rw [← span_append]
  exact (hsplit ▸ hc).at?_placed

theorem Informs.next {tx ux : List Slot} (h : Informs tx ux) (htx : exec xs [] = some tx)
    (hx : exec (xs ++ l :: ys) [] = some t) (p : Nat) :
    ∃ t₁ u₁, exec (xs ++ [l]) [] = some t₁ ∧ Informs t₁ u₁ ∧
      (l.placed L).flow ⟨p, ux ++ s⟩ = some [⟨p + l.instruction.size, u₁ ++ s⟩] := by
  rw [exec_append, htx, Option.bind_some, exec, Option.bind_eq_some_iff] at hx
  obtain ⟨t₁, ht₁, -⟩ := hx
  obtain ⟨u₁, hu₁, hinf⟩ := h.effect_placed L ht₁
  have hsize : (l.placed L).size = l.instruction.size := Instruction.size_placed L _
  refine ⟨t₁, u₁, ?_, hinf, ?_⟩
  · rw [exec_append, htx, Option.bind_some, exec, ht₁]
    rfl
  · rw [← hsize]
    exact Instruction.flow_of_effect (Instruction.effect_append hu₁ s)

/-- What is reached in code without branches: the end of some of its lines, with what these put on
the stack. -/
theorem exists_of_path_placed (hc : c.Is ((as ++ (lines ++ bs)).map (Line.placed L)))
    (hx : exec lines [] = some t) {b : Point}
    (hp : c.Path (span as) (span as + span lines) ⟨span as, s⟩ b) :
    ∃ xs ys tx ux, lines = xs ++ ys ∧ b.position = span as + span xs ∧ exec xs [] = some tx ∧
      Informs tx ux ∧ b.stack = ux ++ s := by
  induction hp with
  | refl => exact ⟨[], lines, [], [], rfl, rfl, rfl, .refl _, rfl⟩
  | @step b d _ _ hlt hs ih =>
    obtain ⟨xs, ys, tx, ux, rfl, hb, htx, hux, hstack⟩ := ih
    obtain ⟨l, ys, rfl⟩ : ∃ l ys', ys = l :: ys' := by
      cases ys with
      | nil => simp [hb] at hlt
      | cons l ys => exact ⟨l, ys, rfl⟩
    obtain ⟨i, points, hi, hf, hmem⟩ := hs
    obtain ⟨t₁, u₁, ht₁, hinf, hflow⟩ := hux.next (L := L) (s := s) htx hx b.position
    have hat := hc.at?_within
    rw [← hb] at hat
    rw [← hstack] at hflow
    obtain rfl : l.placed L = i := Option.some.inj (hat.symm.trans hi)
    obtain rfl := Option.some.inj (hflow.symm.trans hf)
    obtain rfl := List.mem_singleton.1 hmem
    refine ⟨xs ++ [l], ys, t₁, u₁, by simp, ?_, ht₁, hinf, rfl⟩
    simp only [hb, span_append, span_cons, span_nil]
    omega

theorem raises_placed (hc : c.Is ((as ++ (lines ++ bs)).map (Line.placed L)))
    (hx : exec lines [] = some t) :
    c.Raises (span as) (span as + span lines) t.length := by
  intro s b hp
  obtain ⟨xs, ys, tx, ux, rfl, hb, htx, hux, hstack⟩ := exists_of_path_placed hc hx hp
  have hspan : span (xs ++ ys) = span xs + span ys := span_append xs ys
  refine ⟨by omega, by omega, hstack ▸ List.suffix_append ux s, fun hend => ?_, fun hlt => ?_⟩
  · cases ys with
    | nil =>
      rw [List.append_nil, htx] at hx
      obtain rfl := Option.some.inj hx
      rw [hstack, List.length_append, hux.length, Nat.add_comm]
    | cons l ys =>
      have hpos := l.instruction.size_pos
      rw [span_cons] at hspan
      omega
  · cases ys with
    | nil =>
      rw [span_nil] at hspan
      omega
    | cons l ys =>
      obtain ⟨t₁, u₁, -, -, hflow⟩ := hux.next (L := L) (s := s) htx hx b.position
      have hat := hc.at?_within
      rw [← hb] at hat
      rw [← hstack] at hflow
      exact ⟨_, _, hat, hflow⟩

end Paths

end StackCompiler
