import StackCompiler.Node

/-!
# Chains and their items

A chain gives back the items it was made of, in order, unless its last item is itself a chain of
the same kind. What holds everywhere in a chain holds everywhere in its items.
-/

namespace StackCompiler.Node

variable {k : Kind}

@[simp] theorem list_nil (k : Kind) : list k [] = none := rfl

@[simp] theorem list_singleton (k : Kind) (a : Node) : list k [a] = some a := rfl

theorem chainOnto_append (k : Kind) (last a : Node) (before : List Node) :
    chainOnto k last (before ++ [a]) = binary k a (chainOnto k last before) := by
  induction before generalizing last with
  | nil => rfl
  | cons b before ih => simpa only [List.cons_append, chainOnto] using ih (binary k b last)

theorem list_cons_cons (k : Kind) (a b : Node) (items : List Node) :
    list k (a :: b :: items) = (list k (b :: items)).map (binary k a) := by
  simp only [list, List.reverse_cons]
  generalize items.reverse ++ [b] = before, (by simp : items.reverse ++ [b] ≠ []) = h
  cases before with
  | nil => exact absurd rfl h
  | cons last before => simp [chainOnto_append]

theorem list_cons (k : Kind) (a : Node) (items : List Node) :
    list k (a :: items) = some ((list k items).elim a (binary k a)) := by
  induction items generalizing a with
  | nil => rfl
  | cons b items ih => rw [list_cons_cons, ih b]; rfl

theorem list_eq_none {items : List Node} : list k items = none ↔ items = [] := by
  cases items with
  | nil => simp
  | cons a items => simp [list_cons]

def listed (k : Kind) (chain : Option Node) : List Node := (chain.map (items k)).getD []

theorem items_of_kind_ne {n : Node} (h : n.kind ≠ k) : n.items k = [n] := by
  obtain ⟨kind, v, s, l, c, r⟩ := n
  rw [items.eq_def]
  exact if_neg h

theorem items_binary (k : Kind) (a n : Node) : (binary k a n).items k = a :: n.items k := by
  simp [binary, branch, items]

theorem listed_list {items : List Node} (h : ∀ n ∈ items, n.kind ≠ k) :
    listed k (list k items) = items := by
  induction items with
  | nil => rfl
  | cons a items ih =>
    cases items with
    | nil => simpa [listed] using items_of_kind_ne (h a (by simp))
    | cons b items =>
      have ih := ih fun n hn => h n (List.mem_cons_of_mem _ hn)
      rw [list_cons] at ih ⊢
      simp only [listed, Option.map_some, Option.getD_some] at ih ⊢
      rw [list_cons, Option.elim_some, items_binary, ih]

def constantNodes (root : Node) : List Node := listed .initList (root.left.bind left)

def variableNodes (root : Node) : List Node := listed .declList (root.right.bind left)

def functionNodes (root : Node) : List Node := listed .functions root.centre

def parameterNodes (function : Node) : List Node := listed .paramList function.left

def localNodes (function : Node) : List Node := listed .declList function.centre

def nodes : Node → List Node
  | .mk k v s l c r =>
    .mk k v s l c r :: ((match l with
      | some n => n.nodes
      | none => []) ++ (match c with
      | some n => n.nodes
      | none => []) ++ (match r with
      | some n => n.nodes
      | none => []))

theorem nodes_mk (k : Kind) (v : Option String) (s : Option Symbol.Id) (l c r : Option Node) :
    (mk k v s l c r).nodes =
      mk k v s l c r :: (l.elim [] nodes ++ c.elim [] nodes ++ r.elim [] nodes) := by
  cases l <;> cases c <;> cases r <;> rfl

/-- The property holds of the tree and of all trees below it. -/
def All (P : Node → Prop) (n : Node) : Prop := ∀ m ∈ n.nodes, P m

instance (P : Node → Prop) [DecidablePred P] (n : Node) : Decidable (n.All P) :=
  inferInstanceAs (Decidable (∀ m ∈ n.nodes, P m))

def AllIn (P : Node → Prop) (n : Option Node) : Prop := ∀ m, n = some m → m.All P

section All

variable {P : Node → Prop} {v : Option String} {s : Option Symbol.Id} {l c r : Option Node}

theorem All.self {n : Node} (h : n.All P) : P n := by
  refine h n ?_
  obtain ⟨k, v, s, l, c, r⟩ := n
  rw [nodes_mk]
  exact List.mem_cons_self

theorem All.left (h : (mk k v s l c r).All P) : AllIn P l := by
  rintro n rfl m hm
  exact h m (by simp [nodes_mk, hm])

theorem All.centre (h : (mk k v s l c r).All P) : AllIn P c := by
  rintro n rfl m hm
  exact h m (by simp [nodes_mk, hm])

theorem All.right (h : (mk k v s l c r).All P) : AllIn P r := by
  rintro n rfl m hm
  exact h m (by simp [nodes_mk, hm])

theorem all_of_list {items : List Node} (h : AllIn P (list k items)) : ∀ n ∈ items, n.All P := by
  induction items with
  | nil => simp
  | cons a items ih =>
    rw [list_cons] at h
    have h := h _ rfl
    cases hl : list k items with
    | none =>
      rw [hl] at h
      rw [list_eq_none.1 hl]
      simpa using h
    | some rest =>
      rw [hl] at h ih
      intro n hn
      rcases List.mem_cons.1 hn with rfl | hn
      · exact h.left n rfl
      · exact ih (fun m hm => h.right m hm) n hn

end All

end StackCompiler.Node
