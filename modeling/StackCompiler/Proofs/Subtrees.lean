import StackCompiler.Proofs.TypeSoundness

/-!
# All nodes of a tree

What holds of every expression and every statement holds of all nodes of their trees, and if it also
holds of what declares something, of all nodes of a program.
-/

namespace StackCompiler

namespace Scopes

variable {s : Scopes} {names : Names} {ret : Option DataType} {n : Node} {P : Node → Prop}

theorem all_chain {k : Node.Kind} {items : List Node}
    (hc : ∀ k a m, k.isList = true → P (.binary k a m)) (hk : k.isList = true)
    (h : ∀ n ∈ items, n.All P) : Node.AllIn P (Node.list k items) :=
  Node.allIn_list h fun a m => hc k a m hk

/-- What holds of every expression and of chains holds of all nodes of an expression. -/
theorem IsExpression.all (h : s.IsExpression names n) (he : ∀ m, s.IsExpression names m → P m)
    (hc : ∀ k a m, k.isList = true → P (.binary k a m)) : n.All P := by
  have hself := he n h
  induction h with
  | integer | real | truth | reference =>
    exact Node.all_leaf hself
  | call hn hk ht hv ha ih =>
    exact Node.all_left hself (all_chain hc rfl fun a hm => ih a hm (he a (ha a hm)))
  | not hn hb ht ih =>
    exact Node.all_left hself (Node.allIn_some (ih (he _ hn)))
  | logical hk hl hr tl tr ht ihl ihr =>
    exact Node.all_two hself (ihl (he _ hl)) (ihr (he _ hr))
  | arithmetic hk hl hr tl tr nt nu ht ihl ihr =>
    exact Node.all_two hself (ihl (he _ hl)) (ihr (he _ hr))
  | relation hk hl hr tl tr ht hc' ihl ihr =>
    exact Node.all_two hself (ihl (he _ hl)) (ihr (he _ hr))

/-- What holds of every statement, of what can be printed and of chains holds of all nodes of a
statement. -/
theorem IsStatement.all (h : s.IsStatement names ret n)
    (hs : ∀ m, s.IsStatement names ret m → P m) (hp : ∀ m, s.IsPrintEntry names m → P m)
    (hc : ∀ k a m, k.isList = true → P (.binary k a m)) : n.All P := by
  have he {m : Node} (h : s.IsExpression names m) : m.All P :=
    h.all (fun m hm => hp m (.value hm)) hc
  have ha {m : Node} (h : s.IsAssignment names m) : m.All P := by
    have hself := hs m (.assignment h)
    obtain ⟨hk, hn, hv, hm, hx, tv, ht⟩ := h
    exact Node.all_two hself (he (.reference hn hv)) (he hx)
  have hself := hs n h
  induction h with
  | assignment h => exact ha h
  | forLoop hm hst hx ht hb ih =>
    exact Node.all_mk hself (all_chain hc rfl fun m hm => ha (hst m hm)) (Node.allIn_some (he hx))
      (all_chain hc rfl fun m hm => ih m hm (hs m (hb m hm)))
  | ifThen hm hx ht hb ih =>
    exact Node.all_mk hself (Node.allIn_some (he hx))
      (all_chain hc rfl fun m hm => ih m hm (hs m (hb m hm))) Node.allIn_none
  | ifElse hm hx ht hb ho ihb iho =>
    exact Node.all_mk hself (Node.allIn_some (he hx))
      (all_chain hc rfl fun m hm => ihb m hm (hs m (hb m hm)))
      (all_chain hc rfl fun m hm => iho m hm (hs m (ho m hm)))
  | repeatLoop hm hst hx ht hb ih =>
    exact Node.all_mk hself (all_chain hc rfl fun m hm => ha (hst m hm))
      (all_chain hc rfl fun m hm => ih m hm (hs m (hb m hm))) (Node.allIn_some (he hx))
  | input hne ht =>
    refine Node.all_left hself (all_chain hc rfl fun m hm => ?_)
    obtain ⟨hn, hv, -, -⟩ := ht m hm
    exact he (.reference hn hv)
  | print hk hne hx =>
    refine Node.all_left hself (all_chain hc rfl fun m hm => ?_)
    cases hx m hm with
    | string hr hv =>
      exact Node.all_leaf (hp _ (.string hr hv))
    | value h => exact he h
  | returns h =>
    refine Node.all_left hself ?_
    cases h with
    | main | void => exact Node.allIn_none
    | value hv hx ht => exact Node.allIn_some (he hx)
  | call hn hk hx =>
    exact Node.all_left hself (all_chain hc rfl fun a hm => he (hx a hm))

theorem IsBlock.all {b : Option Node} (h : s.IsBlock names ret b)
    (hs : ∀ m, s.IsStatement names ret m → P m) (hp : ∀ m, s.IsPrintEntry names m → P m)
    (hc : ∀ k a m, k.isList = true → P (.binary k a m)) : Node.AllIn P b := by
  obtain ⟨body, rfl, hb⟩ := h
  exact all_chain hc rfl fun m hm => (hb m hm).all hs hp hc

theorem IsExpression.call_of_kind (h : s.IsExpression names n) (hk : n.kind = .call) :
    ∃ text id args, n = .mk .call (some text) (some id) (Node.list .expressionList args) none none ∧
      names text = some id ∧ s.Takes id args ∧ ∀ a ∈ args, s.IsExpression names a := by
  cases h with
  | call hn hc ht hv ha => exact ⟨_, _, _, rfl, hn, hc, ha⟩
  | truth ht => rcases ht with rfl | rfl <;> cases hk
  | logical ht | arithmetic ht | relation ht =>
    cases hk
    exact absurd ht (by decide)
  | _ => cases hk

theorem IsStatement.call_of_kind (h : s.IsStatement names ret n) (hk : n.kind = .callStatement) :
    ∃ text id args,
      n = .mk .callStatement (some text) (some id) (Node.list .expressionList args) none none ∧
      names text = some id ∧ s.Takes id args ∧ ∀ a ∈ args, s.IsExpression names a := by
  cases h with
  | call hn hc ha => exact ⟨_, _, _, rfl, hn, hc, ha⟩
  | assignment h =>
    obtain ⟨ht, -⟩ := h
    cases hk
    exact absurd ht (by decide)
  | print ht => rcases ht with rfl | rfl <;> cases hk
  | _ => cases hk

end Scopes

/-- The kinds of nodes that declare something, or that such nodes stand in. -/
def Node.Kind.declaring : List Node.Kind :=
  [.program, .globals, .main, .init, .arrayDef, .structDef, .arrayDecl, .functionDef, .decl,
    .typeId]

namespace Outline

variable {o : Outline} {s : Scopes} {P : Node → Prop}
  (hd : ∀ k v sym l c r, k ∈ Node.Kind.declaring → P (.mk k v sym l c r))
  (hc : ∀ k a m, k.isList = true → P (.binary k a m))
include hd hc

theorem all_entries {k : Node.Kind} (hk : k.isList = true) (entries : List Entry) :
    Node.AllIn P (Node.list k (entries.map Entry.node)) := by
  refine Scopes.all_chain hc hk fun n hn => ?_
  obtain ⟨e, -, rfl⟩ := List.mem_map.1 hn
  exact Node.all_leaf (hd _ _ _ _ _ _ (by decide))

variable (hp : ∀ names m, s.IsPrintEntry names m → P m)
include hp

theorem IsTypeDefinition.all {visible : List Entry} {e : Entry} {n : Node}
    (h : IsTypeDefinition s visible e n) : n.All P := by
  cases h with
  | array element hl =>
    have hlength := hl.all (fun m hm => hp _ m (.value hm)) hc
    have helement := Node.all_leaf
      (hd .typeId (some element.1) (some element.2) none none none (by decide))
    exact Node.all_two (hd _ _ _ _ _ _ (by decide)) hlength helement
  | record fields =>
    exact Node.all_left (hd _ _ _ _ _ _ (by decide)) (all_entries hd hc rfl fields)

theorem Valid.all_globals (h : o.Valid s) : o.globalsNode.All P := by
  obtain ⟨types, arrays, ns, -, hns, hdefs, harrays⟩ := h.definitions
  refine Node.all_mk (hd _ _ _ _ _ _ (by decide)) ?_ ?_ ?_
  · refine Scopes.all_chain hc rfl fun n hn => ?_
    obtain ⟨c, hmem, rfl⟩ := List.mem_map.1 hn
    obtain ⟨k, hk⟩ := List.mem_iff_getElem?.1 hmem
    have hvalue := (h.constants.values k c hk).1.all (fun m hm => hp _ m (.value hm)) hc
    exact Node.all_left (hd _ _ _ _ _ _ (by decide)) (Node.allIn_some hvalue)
  · rw [hns]
    refine Scopes.all_chain hc rfl fun n hn => ?_
    obtain ⟨visible, e, hdef⟩ := hdefs.of_mem hn
    exact hdef.all hd hc hp
  · rw [harrays]
    refine Scopes.all_chain hc rfl fun n hn => ?_
    obtain ⟨e, -, rfl⟩ := List.mem_map.1 hn
    exact Node.all_leaf (hd _ _ _ _ _ _ (by decide))

/-- What holds of every statement, of what can be printed, of chains and of what declares something
holds of all nodes of a program. -/
theorem Valid.all (h : o.Valid s) (hs : ∀ names ret m, s.IsStatement names ret m → P m) :
    o.root.All P := by
  refine Node.all_mk (hd _ _ _ _ _ _ (by decide)) (Node.allIn_some (h.all_globals hd hc hp)) ?_
    (Node.allIn_some ?_)
  · refine Scopes.all_chain hc rfl fun n hn => ?_
    obtain ⟨f, hmem, rfl⟩ := List.mem_map.1 hn
    obtain ⟨k, hk⟩ := List.mem_iff_getElem?.1 hmem
    exact Node.all_mk (hd _ _ _ _ _ _ (by decide)) (all_entries hd hc rfl f.params)
      (all_entries hd hc rfl f.locals) ((h.functions k f hk).body.all (hs _ _) (hp _) hc)
  · exact Node.all_mk (hd _ _ _ _ _ _ (by decide)) (all_entries hd hc rfl o.vars) Node.allIn_none
      (h.body.all (hs _ _) (hp _) hc)

end Outline

end StackCompiler
