import StackCompiler.Proofs.Operands

/-!
# The height of the stack

What operations take off the stack and put on it is known before a program runs, but for two kinds
of numbers: how many arguments a call takes, and where a branch leads. The code loads both itself,
so a slot of the stack is either such a number or anything. Code is charted if each of its
boundaries has one stack that all paths arrive with.
-/

namespace StackCompiler

/-- A slot of the stack, with the number that the code loaded into it, if that is what it holds. -/
abbrev Slot := Option Int

/-- A position in code and the stack there, the top first. -/
structure Point where
  position : Nat
  stack : List Slot

/-- How many slots an operation takes off the stack, and how many it puts on it. -/
def Operation.effect? : Operation → Option (Nat × Nat)
  | lb | lh | loadValue _ | loadAddress _ | pendingValue | pendingAddress | zero | pushTrue
  | pushFalse | readInt | readReal => some (0, 1)
  | add | sub | mul | div | rem | pow | and | or | xor => some (2, 1)
  | not | gt | ge | lt | le | eq | ne => some (1, 1)
  | st => some (2, 0)
  | alloc | printValue | printString | rval => some (1, 0)
  | newLine => some (0, 0)
  | _ => none

namespace Instruction

/-- What the instruction puts on the stack. -/
def pushed (i : Instruction) : Slot :=
  match i.operation with
  | .lb | .lh | .loadAddress .constants => some i.operand
  | _ => none

/-- The stack behind an instruction that goes on to the next one. A call takes the address of the
function, the number of arguments and the arguments. -/
def effect (i : Instruction) (stack : List Slot) : Option (List Slot) :=
  match i.operation with
  | .js2 =>
    match stack with
    | _ :: some (.ofNat n) :: s => if n ≤ s.length then some (s.drop n) else none
    | _ => none
  | o =>
    match o.effect? with
    | some (pops, pushes) =>
      if pops ≤ stack.length then some (List.replicate pushes i.pushed ++ stack.drop pops)
      else none
    | none => none

/-- Where control can be behind an instruction, if the stack has what it takes. -/
def flow (i : Instruction) (a : Point) : Option (List Point) :=
  match i.operation, a.stack with
  | .bf, _ :: some (.ofNat target) :: s => some [⟨a.position + i.size, s⟩, ⟨target, s⟩]
  | .br, some (.ofNat target) :: s => some [⟨target, s⟩]
  | .halt, _ | .retn, _ => some []
  | _, s => (i.effect s).map fun s => [⟨a.position + i.size, s⟩]

theorem effect_append {i : Instruction} {t t' : List Slot} (h : i.effect t = some t')
    (s : List Slot) : i.effect (t ++ s) = some (t' ++ s) := by
  unfold effect at h ⊢
  split at h
  · split at h
    · split at h
      · next n t hn =>
        cases h
        have hle : n ≤ (t ++ s).length := by
          rw [List.length_append]
          omega
        simp only [List.cons_append, if_pos hle, List.drop_append_of_le_length hn]
      · cases h
    · cases h
  · split at h
    · next pops pushes heff =>
      split at h
      · next hle =>
        cases h
        have hle' : pops ≤ (t ++ s).length := by
          rw [List.length_append]
          omega
        simp only [if_pos hle', List.drop_append_of_le_length hle, List.append_assoc]
      · cases h
    · cases h

theorem flow_of_effect {i : Instruction} {p : Nat} {s t : List Slot} (h : i.effect s = some t) :
    i.flow ⟨p, s⟩ = some [⟨p + i.size, t⟩] := by
  have hop : i.operation ≠ .bf ∧ i.operation ≠ .br ∧ i.operation ≠ .halt ∧
      i.operation ≠ .retn := by
    refine ⟨?_, ?_, ?_, ?_⟩
    all_goals
      intro ho
      simp [effect, ho, Operation.effect?] at h
  obtain ⟨hbf, hbr, hhalt, hretn⟩ := hop
  unfold flow
  split
  · next ho _ => exact absurd ho hbf
  · next ho _ => exact absurd ho hbr
  · next ho => exact absurd ho hhalt
  · next ho => exact absurd ho hretn
  · show (i.effect s).map _ = _
    rw [h]
    rfl

end Instruction

def exec : List Line → List Slot → Option (List Slot)
  | [], s => some s
  | l :: lines, s => (l.instruction.effect s).bind (exec lines)

theorem exec_append (xs ys : List Line) (s : List Slot) :
    exec (xs ++ ys) s = (exec xs s).bind (exec ys) := by
  induction xs generalizing s with
  | nil => rfl
  | cons l xs ih =>
    rw [List.cons_append, exec, exec, Option.bind_assoc]
    congr 1
    funext t
    exact ih t

def Code.Has (c : Code) (p : Nat) (lines : List Line) : Prop :=
  ∃ as bs, c.Is ((as ++ (lines ++ bs)).map Line.instruction) ∧ p = span as

namespace Code

variable {c : Code} {p q : Nat} {xs ys lines : List Line}

theorem Has.left (h : c.Has p (xs ++ ys)) : c.Has p xs := by
  obtain ⟨as, bs, hc, hp⟩ := h
  exact ⟨as, ys ++ bs, by rwa [List.append_assoc] at hc, hp⟩

theorem Has.right (h : c.Has p (xs ++ ys)) : c.Has (p + span xs) ys := by
  obtain ⟨as, bs, hc, hp⟩ := h
  refine ⟨as ++ xs, bs, ?_, by rw [span_append, hp]⟩
  rwa [List.append_assoc, ← List.append_assoc xs]

theorem Has.at? {l : Line} (h : c.Has p (xs ++ l :: ys)) :
    c.at? (p + span xs) = some l.instruction := by
  obtain ⟨as, bs, hc, hp⟩ := h.right
  rw [List.map_append, List.cons_append, List.map_cons] at hc
  rw [hp]
  exact hc.at?

def Step (c : Code) (a b : Point) : Prop :=
  ∃ i points, c.at? a.position = some i ∧ i.flow a = some points ∧ b ∈ points

/-- Points that paths from `a` arrive at as long as they do not leave the positions from `p` to
before `q`. -/
inductive Path (c : Code) (p q : Nat) (a : Point) : Point → Prop
  | refl : Path c p q a a
  | step {b d : Point} (h : Path c p q a b) (hp : p ≤ b.position) (hq : b.position < q)
      (hs : c.Step b d) : Path c p q a d

/-- Whatever lies on the stack at `p`, paths from there stay between `p` and `q` and do not touch
it, each instruction finds what it takes, and at `q` there are `n` more slots. -/
def Raises (c : Code) (p q n : Nat) : Prop :=
  ∀ s b, c.Path p q ⟨p, s⟩ b → p ≤ b.position ∧ b.position ≤ q ∧ s <:+ b.stack ∧
    (b.position = q → b.stack.length = s.length + n) ∧
    (b.position < q → ∃ i points, c.at? b.position = some i ∧ i.flow b = some points)

theorem Path.trans {a b d : Point} (h : c.Path p q a b) (h' : c.Path p q b d) : c.Path p q a d := by
  induction h' with
  | refl => exact h
  | step _ hp hq hs ih => exact .step ih hp hq hs

theorem Path.mono {p' q' : Nat} {a b : Point} (h : c.Path p q a b) (hp : p' ≤ p) (hq : q ≤ q') :
    c.Path p' q' a b := by
  induction h with
  | refl => exact .refl
  | step _ hp' hq' hs ih => exact .step ih (by omega) (by omega) hs

theorem Has.path {s t : List Slot} (h : c.Has p lines) (hx : exec lines s = some t) :
    c.Path p (p + span lines) ⟨p, s⟩ ⟨p + span lines, t⟩ := by
  induction lines generalizing p s with
  | nil =>
    cases hx
    exact .refl
  | cons l lines ih =>
    rw [exec, Option.bind_eq_some_iff] at hx
    obtain ⟨u, hu, hx⟩ := hx
    have hl : c.at? (p + span []) = some l.instruction := h.at?
    have hrest : c.Has (p + l.instruction.size) lines := by
      have hcons : c.Has p ([l] ++ lines) := h
      simpa using hcons.right
    have hsize : p + span (l :: lines) = p + l.instruction.size + span lines := by
      rw [span_cons, Nat.add_assoc]
    have hpos := l.instruction.size_pos
    rw [hsize]
    refine Path.trans (.step .refl (Nat.le_refl _) (Nat.lt_of_lt_of_le ?_ (Nat.le_add_right _ _))
      ⟨_, _, hl, Instruction.flow_of_effect hu, List.mem_singleton.2 rfl⟩) ?_
    · show p < p + l.instruction.size
      omega
    · exact (ih hrest hx).mono (by omega) (Nat.le_refl _)

end Code

/-! ## Charts -/

/-- The stacks `H` at the boundaries of some lines are right: an instruction that starts with the
stack at its position leads to a boundary with the stack there, or else to one of the exits. No
stack lacks the slots of `base`. -/
structure Charted (exits : Point → Prop) (base : List Slot) (p : Nat) (lines : List Line)
    (H : Nat → List Slot) : Prop where
  base : ∀ as l bs, lines = as ++ l :: bs → base <:+ H (p + span as)
  flow : ∀ as l bs, lines = as ++ l :: bs → ∃ points,
    l.instruction.flow ⟨p + span as, H (p + span as)⟩ = some points ∧
    ∀ b ∈ points, (Boundary p lines b.position ∧ b.stack = H b.position) ∨ exits b

/-- The lines lead from a stack at their start to a stack at their end. -/
def Flows (exits : Point → Prop) (base : List Slot) (p : Nat) (lines : List Line)
    (s t : List Slot) : Prop :=
  ∃ H, H p = s ∧ H (p + span lines) = t ∧ Charted exits base p lines H

section Flows

variable {exits : Point → Prop} {base s t u : List Slot} {p q : Nat} {xs ys lines : List Line}
  {H : Nat → List Slot} {c : Code} {b : Point}

theorem Boundary.le {target : Nat} (h : Boundary p xs target) :
    p ≤ target ∧ target ≤ p + span xs := by
  obtain ⟨as, bs, rfl, rfl⟩ := h
  rw [span_append]
  omega

theorem flows_nil : Flows exits base p [] s s := by
  refine ⟨fun _ => s, rfl, rfl, ⟨fun as l bs h => ?_, fun as l bs h => ?_⟩⟩
  · simp at h
  · simp at h

/-- One line. It may also lead back to its own start. -/
theorem flows_line {l : Line} {points : List Point} (hb : base <:+ s)
    (hf : l.instruction.flow ⟨p, s⟩ = some points)
    (hpoints : ∀ b ∈ points, b = ⟨p + l.instruction.size, t⟩ ∨ exits b) :
    Flows exits base p [l] s t := by
  have hpos := l.instruction.size_pos
  have hspan : span [l] = l.instruction.size := by simp
  refine ⟨fun r => if r = p then s else t, if_pos rfl, ?_, ⟨fun as k bs h => ?_, fun as k bs h => ?_⟩⟩
  · exact if_neg (by omega)
  · cases as with
    | nil => simpa using hb
    | cons a as => simp at h
  · cases as with
    | nil =>
      cases h
      refine ⟨points, by simpa using hf, fun b hmem => ?_⟩
      refine (hpoints b hmem).imp_left ?_
      rintro rfl
      refine ⟨boundary_end (by rw [hspan]), ?_⟩
      exact (if_neg (by show ¬ p + _ = p; omega)).symm
    | cons a as => simp at h

/-- The charts of lines behind each other make up one chart if they agree where the lines meet. -/
theorem Charted.append {K : Nat → List Slot} (hH : Charted exits base p xs H)
    (hK : Charted exits base (p + span xs) ys K) (hmeet : H (p + span xs) = K (p + span xs)) :
    ∃ J, Charted exits base p (xs ++ ys) J ∧ (∀ r ≤ p + span xs, J r = H r) ∧
      ∀ r, p + span xs ≤ r → J r = K r := by
  -- the charts agree where they meet, so either will do there
  let J : Nat → List Slot := fun r => if r < p + span xs then H r else K r
  have hleft : ∀ r ≤ p + span xs, J r = H r := by
    intro r hr
    by_cases hlt : r < p + span xs
    · exact if_pos hlt
    · have hend : r = p + span xs := by omega
      show (if r < p + span xs then H r else K r) = H r
      rw [if_neg hlt, hend, hmeet]
  have hright : ∀ r, p + span xs ≤ r → J r = K r := by
    intro r hr
    exact if_neg (by omega)
  have hsplit : ∀ as l bs, xs ++ ys = as ++ l :: bs →
      (∃ cs, xs = as ++ l :: cs) ∨ ∃ cs, as = xs ++ cs ∧ ys = cs ++ l :: bs := by
    intro as l bs h
    rcases List.append_eq_append_iff.1 h with ⟨cs, has, hys⟩ | ⟨cs, hxs, hcs⟩
    · exact .inr ⟨cs, has, hys⟩
    · cases cs with
      | nil => exact .inr ⟨[], by simpa using hxs.symm, by simpa using hcs.symm⟩
      | cons k cs =>
        obtain ⟨rfl, -⟩ : l = k ∧ _ := by simpa using hcs
        exact .inl ⟨cs, hxs⟩
  refine ⟨J, ⟨fun as l bs h => ?_, fun as l bs h => ?_⟩, hleft, hright⟩
  · rcases hsplit as l bs h with ⟨cs, rfl⟩ | ⟨cs, rfl, rfl⟩
    · rw [hleft _ (by rw [span_append]; omega)]
      exact hH.base as l cs rfl
    · rw [span_append, ← Nat.add_assoc, hright _ (by omega)]
      exact hK.base cs l bs rfl
  · rcases hsplit as l bs h with ⟨cs, rfl⟩ | ⟨cs, rfl, rfl⟩
    · obtain ⟨points, hf, hpoints⟩ := hH.flow as l cs rfl
      refine ⟨points, by rw [hleft _ (by rw [span_append]; omega)]; exact hf, fun b hb => ?_⟩
      refine (hpoints b hb).imp_left fun ⟨hbound, hstack⟩ => ⟨?_, ?_⟩
      · exact hbound.within [] ys (by simp) (by simp)
      · rw [hleft _ hbound.le.2, hstack]
    · obtain ⟨points, hf, hpoints⟩ := hK.flow cs l bs rfl
      refine ⟨points, ?_, fun b hb => ?_⟩
      · rw [span_append, ← Nat.add_assoc, hright _ (by omega)]
        exact hf
      · refine (hpoints b hb).imp_left fun ⟨hbound, hstack⟩ => ⟨?_, ?_⟩
        · exact hbound.within xs [] (by simp) rfl
        · rw [hright _ hbound.le.1, hstack]

theorem Flows.append (hx : Flows exits base p xs s t) (hy : Flows exits base (p + span xs) ys t u) :
    Flows exits base p (xs ++ ys) s u := by
  obtain ⟨H, hs, ht, hH⟩ := hx
  obtain ⟨K, ht', hu, hK⟩ := hy
  obtain ⟨J, hJ, hleft, hright⟩ := hH.append hK (ht.trans ht'.symm)
  refine ⟨J, ?_, ?_, hJ⟩
  · rw [hleft p (by omega), hs]
  · rw [span_append, ← Nat.add_assoc, hright _ (by omega), hu]

/-- Several pieces of code behind each other, each of which starts and ends with the same stack. -/
theorem charted_flatten {segments : List (List Line)}
    (h : ∀ k lines, segments[k]? = some lines →
      Flows exits base (p + span (segments.take k).flatten) lines s s) :
    ∃ H, Charted exits base p segments.flatten H ∧
      ∀ k ≤ segments.length, H (p + span (segments.take k).flatten) = s := by
  induction segments generalizing p with
  | nil =>
    obtain ⟨H, hs, -, hH⟩ : Flows exits base p [] s s := flows_nil
    refine ⟨H, hH, fun k hk => ?_⟩
    obtain rfl : k = 0 := by simpa using hk
    exact hs
  | cons lines segments ih =>
    obtain ⟨H, hs, ht, hH⟩ : Flows exits base p lines s s := h 0 lines rfl
    obtain ⟨K, hK, hstarts⟩ := ih (p := p + span lines) fun k more hk => by
      have hflow := h (k + 1) more (by simpa using hk)
      rwa [List.take_succ_cons, List.flatten_cons, span_append, ← Nat.add_assoc] at hflow
    have hmeet : K (p + span lines) = s := hstarts 0 (Nat.zero_le _)
    obtain ⟨J, hJ, hleft, hright⟩ := hH.append hK (ht.trans hmeet.symm)
    refine ⟨J, hJ, fun k hk => ?_⟩
    cases k with
    | zero =>
      show J p = s
      rw [hleft p (by omega), hs]
    | succ k =>
      rw [List.take_succ_cons, List.flatten_cons, span_append, ← Nat.add_assoc,
        hright _ (by omega)]
      exact hstarts k (by simpa using hk)

/-- Exits that are the start or the end of the lines are none. -/
theorem Flows.close {exits' : Point → Prop} (h : Flows exits base p lines s t)
    (hx : ∀ b, exits b → b = ⟨p, s⟩ ∨ b = ⟨p + span lines, t⟩ ∨ exits' b) :
    Flows exits' base p lines s t := by
  obtain ⟨H, rfl, rfl, hH⟩ := h
  refine ⟨H, rfl, rfl, ⟨hH.base, fun as l bs hl => ?_⟩⟩
  obtain ⟨points, hf, hpoints⟩ := hH.flow as l bs hl
  refine ⟨points, hf, fun b hb => ?_⟩
  rcases hpoints b hb with hin | hexit
  · exact .inl hin
  rcases hx b hexit with rfl | rfl | hexit
  · exact .inl ⟨⟨[], lines, rfl, rfl⟩, rfl⟩
  · exact .inl ⟨boundary_end rfl, rfl⟩
  · exact .inr hexit

/-- Code without branches leaves alone what it does not know of. -/
theorem flows_exec (h : exec lines s = some t) (base : List Slot) :
    Flows exits base p lines (s ++ base) (t ++ base) := by
  induction lines generalizing p s with
  | nil =>
    cases h
    exact flows_nil
  | cons l lines ih =>
    rw [exec, Option.bind_eq_some_iff] at h
    obtain ⟨u, hu, h⟩ := h
    have hline : Flows exits base p [l] (s ++ base) (u ++ base) := by
      refine flows_line (List.suffix_append _ _)
        (Instruction.flow_of_effect (Instruction.effect_append hu base)) ?_
      intro b hb
      exact .inl (List.mem_singleton.1 hb)
    exact hline.append (ih h)

theorem Charted.path {a : Point} (h : Charted (fun _ => False) base p lines H) (hc : c.Has p lines)
    (ha : Boundary p lines a.position ∧ a.stack = H a.position)
    (hp : c.Path p (p + span lines) a b) :
    Boundary p lines b.position ∧ b.stack = H b.position := by
  induction hp with
  | refl => exact ha
  | @step b d _ hlow hhigh hs ih =>
    obtain ⟨⟨as, bs, hl, hpos⟩, hstack⟩ := ih
    obtain ⟨i, points, hi, hf, hmem⟩ := hs
    cases bs with
    | nil =>
      rw [List.append_nil] at hl
      rw [hl, hpos] at hhigh
      omega
    | cons l bs =>
      obtain ⟨points', hf', hpoints⟩ := h.flow as l bs hl
      rw [hl] at hc
      have hat := hc.at?
      rw [← hpos] at hat hf'
      rw [← hstack] at hf'
      obtain rfl : l.instruction = i := Option.some.inj (hat.symm.trans hi)
      obtain rfl : points' = points := Option.some.inj (hf'.symm.trans hf)
      exact (hpoints d hmem).resolve_right id

theorem Charted.goes (h : Charted exits base p lines H) (hc : c.Has p lines)
    (hb : Boundary p lines b.position) (hs : b.stack = H b.position)
    (hlt : b.position < p + span lines) :
    base <:+ b.stack ∧ ∃ i points, c.at? b.position = some i ∧ i.flow b = some points := by
  obtain ⟨as, bs, hl, hpos⟩ := hb
  cases bs with
  | nil =>
    rw [List.append_nil] at hl
    rw [hl, hpos] at hlt
    omega
  | cons l bs =>
    obtain ⟨points, hf, -⟩ := h.flow as l bs hl
    have hbase := h.base as l bs hl
    rw [hl] at hc
    rw [← hpos, ← hs] at hf hbase
    refine ⟨hbase, l.instruction, points, ?_, hf⟩
    rw [hpos]
    exact hc.at?

theorem Code.Has.raises (hc : c.Has p lines) (top : List Slot)
    (h : ∀ s, Flows (fun _ => False) s p lines s (top ++ s)) :
    c.Raises p (p + span lines) top.length := by
  intro s b hpath
  obtain ⟨H, hs, ht, hH⟩ := h s
  have hstart : Boundary p lines p ∧ s = H p := ⟨⟨[], lines, rfl, rfl⟩, hs.symm⟩
  obtain ⟨hb, hstack⟩ := hH.path (a := ⟨p, s⟩) hc hstart hpath
  obtain ⟨hlow, hhigh⟩ := hb.le
  refine ⟨hlow, hhigh, ?_, fun hend => ?_, fun hlt => (hH.goes hc hb hstack hlt).2⟩
  · by_cases hlt : b.position < p + span lines
    · exact (hH.goes hc hb hstack hlt).1
    · have hend : b.position = p + span lines := by omega
      rw [hstack, hend, ht]
      exact List.suffix_append top s
  · rw [hstack, hend, ht, List.length_append]
    omega

end Flows

end StackCompiler
