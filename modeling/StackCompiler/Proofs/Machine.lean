import StackCompiler.Proofs.Meaning
import StackCompiler.Proofs.Operands

/-!
# The machine

A machine that runs the code of programs without functions, input and real numbers. It reads the
bytes of the code one instruction after the other, knows the literals by their addresses, and keeps
the variables in slots of eight bytes. What a slot holds when it is reserved is left open.
-/

namespace StackCompiler

namespace Operation

def width : Operation → Nat
  | lb => 1
  | lh => 2
  | loadValue _ | loadAddress _ | pendingValue | pendingAddress => 4
  | _ => 0

def ofCode? (n : Nat) : Option Operation := all.find? fun o => o.code = n

theorem ofCode?_code (o : Operation) : ofCode? o.code = some o := by
  cases o with
  | loadValue r => cases r <;> rfl
  | loadAddress r => cases r <;> rfl
  | _ => rfl

end Operation

/-- What the stack is made of. -/
inductive Cell where
  | value (v : Value)
  | address (r : Region) (offset : Int)
deriving DecidableEq, Repr

/-- A module as the machine loads it. -/
structure Machine where
  arithmetic : Arithmetic
  bytes : List UInt8
  integer? : Int → Option Int
  string? : Int → Option String
  /-- What the slots hold when they are reserved. -/
  fresh : Nat → Option Value

namespace Machine

structure Config where
  position : Nat
  stack : List Cell
  slots : List (Option Value)
  output : List Output

variable (M : Machine)

def slot? (offset : Int) : Option Nat :=
  if 0 ≤ offset ∧ offset % 8 = 0 then some (offset / 8).toNat else none

def reserve (slots : List (Option Value)) (n : Nat) : List (Option Value) :=
  slots ++ (List.range n).map fun k => M.fresh (slots.length + k)

/-- Carries out an operation. The position is that of the next instruction. -/
def execute (o : Operation) (operand : Int) (c : Config) : Option Config :=
  let push (v : Value) (rest : List Cell) : Config := { c with stack := .value v :: rest }
  match o, c.stack with
  | .pushTrue, rest => some (push (.bool true) rest)
  | .pushFalse, rest => some (push (.bool false) rest)
  | .lb, rest | .lh, rest => some (push (.int operand) rest)
  | .loadValue .constants, rest => (M.integer? operand).map fun n => push (.int n) rest
  | .loadValue .globals, rest =>
    ((slot? operand).bind fun k => c.slots[k]?.join).map fun v => push v rest
  | .loadAddress r, rest => some { c with stack := .address r operand :: rest }
  | .add, .value (.int b) :: .value (.int a) :: rest => some (push (.int (a + b)) rest)
  | .sub, .value (.int b) :: .value (.int a) :: rest => some (push (.int (a - b)) rest)
  | .mul, .value (.int b) :: .value (.int a) :: rest =>
    (M.arithmetic.mul a b).map fun n => push (.int n) rest
  | .div, .value (.int b) :: .value (.int a) :: rest =>
    (M.arithmetic.div a b).map fun n => push (.int n) rest
  | .rem, .value (.int b) :: .value (.int a) :: rest =>
    (M.arithmetic.rem a b).map fun n => push (.int n) rest
  | .pow, .value (.int b) :: .value (.int a) :: rest =>
    (M.arithmetic.pow a b).map fun n => push (.int n) rest
  | .gt, .value (.int a) :: rest => some (push (.bool (a > 0)) rest)
  | .ge, .value (.int a) :: rest => some (push (.bool (a ≥ 0)) rest)
  | .lt, .value (.int a) :: rest => some (push (.bool (a < 0)) rest)
  | .le, .value (.int a) :: rest => some (push (.bool (a ≤ 0)) rest)
  | .eq, .value (.int a) :: rest => some (push (.bool (a = 0)) rest)
  | .ne, .value (.int a) :: rest => some (push (.bool (a ≠ 0)) rest)
  | .and, .value (.bool b) :: .value (.bool a) :: rest => some (push (.bool (a && b)) rest)
  | .or, .value (.bool b) :: .value (.bool a) :: rest => some (push (.bool (a || b)) rest)
  | .xor, .value (.bool b) :: .value (.bool a) :: rest => some (push (.bool (a ^^ b)) rest)
  | .not, .value (.bool a) :: rest => some (push (.bool !a) rest)
  | .bf, .value (.bool b) :: .address .constants target :: rest =>
    some { c with stack := rest, position := if b then c.position else target.toNat }
  | .br, .address .constants target :: rest =>
    some { c with stack := rest, position := target.toNat }
  | .st, .value v :: .address .globals offset :: rest =>
    ((slot? offset).filter (· < c.slots.length)).map fun k =>
      { c with stack := rest, slots := c.slots.set k (some v) }
  | .alloc, .value (.int n) :: rest =>
    if 0 ≤ n then some { c with stack := rest, slots := M.reserve c.slots n.toNat } else none
  | .printValue, .value v :: rest =>
    some { c with stack := rest, output := c.output ++ [.value v] }
  | .printString, .address .constants offset :: rest =>
    (M.string? offset).map fun t => { c with stack := rest, output := c.output ++ [.text t] }
  | .newLine, _ => some { c with output := c.output ++ [.newLine] }
  | _, _ => none

def fetch (position : Nat) : Option (Operation × Int) :=
  match M.bytes.drop position with
  | [] => none
  | b :: rest => (Operation.ofCode? b.toNat).map fun o => (o, signedValue (rest.take o.width))

def step (c : Config) : Option Config :=
  (M.fetch c.position).bind fun i =>
    M.execute i.1 i.2 { c with position := c.position + 1 + i.1.width }

def run : Nat → Config → Option Config
  | 0, c => some c
  | n + 1, c => (M.step c).bind (run n)

def Halted (c : Config) : Prop := ∃ operand, M.fetch c.position = some (.halt, operand)

end Machine

namespace Machine

variable {M : Machine} {c c' c'' : Config} {m n k : Nat} {r : List (Option Value) × List Output}

theorem run_add (m n : Nat) (c : Config) : M.run (m + n) c = (M.run m c).bind (M.run n) := by
  induction m generalizing c with
  | zero => simp [run]
  | succ m ih =>
    rw [Nat.add_right_comm]
    cases hs : M.step c with
    | none => simp [run, hs]
    | some c' => simp [run, hs, ih]

theorem step_of_halted (h : M.Halted c) : M.step c = none := by
  obtain ⟨operand, hf⟩ := h
  rw [step, hf]
  rfl

variable (M) in
/-- The machine halts after `n` steps, with the given slots and output. -/
def EndsIn (n : Nat) (c : Config) (r : List (Option Value) × List Output) : Prop :=
  ∃ h, M.run n c = some h ∧ M.Halted h ∧ (h.slots, h.output) = r

variable (M) in
def Ends (c : Config) (r : List (Option Value) × List Output) : Prop := ∃ n, M.EndsIn n c r

variable (M) in
def Leads (c c' : Config) : Prop := ∃ k, M.run k c = some c'

variable (M) in
/-- The machine comes to a point where it cannot go on, and has not halted. -/
def Stuck (c : Config) : Prop := ∃ c', M.Leads c c' ∧ M.step c' = none ∧ ¬ M.Halted c'

theorem Leads.refl (c : Config) : M.Leads c c := ⟨0, rfl⟩

theorem Leads.of_step (h : M.step c = some c') : M.Leads c c' := ⟨1, by rw [run, h]; rfl⟩

theorem Leads.trans (h : M.Leads c c') (h' : M.Leads c' c'') : M.Leads c c'' := by
  obtain ⟨k, hk⟩ := h
  obtain ⟨m, hm⟩ := h'
  exact ⟨k + m, by rw [run_add, hk, Option.bind_some, hm]⟩

theorem EndsIn.after (h : M.EndsIn n c r) (hk : M.run k c = some c') :
    ∃ m, n = k + m ∧ M.EndsIn m c' r := by
  obtain ⟨e, he, hh, hr⟩ := h
  rcases Nat.le_total k n with hle | hle
  · obtain ⟨m, rfl⟩ := Nat.exists_eq_add_of_le hle
    rw [run_add, hk, Option.bind_some] at he
    exact ⟨m, rfl, e, he, hh, hr⟩
  · -- the machine cannot go on once it has halted
    obtain ⟨m, rfl⟩ := Nat.exists_eq_add_of_le hle
    rw [run_add, he, Option.bind_some] at hk
    cases m with
    | zero =>
      cases hk
      exact ⟨0, rfl, c', rfl, hh, hr⟩
    | succ m =>
      rw [run, step_of_halted hh] at hk
      cases hk

theorem EndsIn.leads (h : M.EndsIn n c r) (hl : M.Leads c c') : ∃ m ≤ n, M.EndsIn m c' r := by
  obtain ⟨k, hk⟩ := hl
  obtain ⟨m, rfl, hm⟩ := h.after hk
  exact ⟨m, by omega, hm⟩

theorem EndsIn.step (h : M.EndsIn n c r) (hs : M.step c = some c') : ∃ m < n, M.EndsIn m c' r := by
  obtain ⟨m, rfl, hm⟩ := h.after (show M.run 1 c = some c' by rw [run, hs]; rfl)
  exact ⟨m, by omega, hm⟩

theorem Leads.ends (hl : M.Leads c c') (h : M.Ends c' r) : M.Ends c r := by
  obtain ⟨k, hk⟩ := hl
  obtain ⟨n, e, he, hh, hr⟩ := h
  exact ⟨k + n, e, by rw [run_add, hk, Option.bind_some, he], hh, hr⟩

theorem Leads.ends_iff (hl : M.Leads c c') : M.Ends c r ↔ M.Ends c' r := by
  constructor
  · rintro ⟨n, h⟩
    obtain ⟨m, -, hm⟩ := h.leads hl
    exact ⟨m, hm⟩
  · exact hl.ends

theorem Leads.stuck (hl : M.Leads c c') (h : M.Stuck c') : M.Stuck c := by
  obtain ⟨e, he, hs, hh⟩ := h
  exact ⟨e, hl.trans he, hs, hh⟩

theorem Stuck.not_endsIn (h : M.Stuck c) : ¬ M.EndsIn n c r := by
  intro he
  obtain ⟨e, hl, hs, hh⟩ := h
  obtain ⟨m, -, e', hm, hh', -⟩ := he.leads hl
  cases m with
  | zero =>
    cases hm
    exact hh hh'
  | succ m =>
    rw [run, hs] at hm
    cases hm

variable {α β : Type} {x : Option α} {f : α → Config}

variable (M) in
/-- The machine comes to the configuration for the result, or is stuck if there is none. -/
def Yields (c : Config) (x : Option α) (f : α → Config) : Prop :=
  x.elim (M.Stuck c) fun a => M.Leads c (f a)

theorem Leads.yields (hl : M.Leads c c') (h : M.Yields c' x f) : M.Yields c x f := by
  cases x with
  | none => exact hl.stuck h
  | some a => exact hl.trans h

theorem Yields.bind {g : α → Option β} {f' : β → Config} (h : M.Yields c x f)
    (hg : ∀ a, x = some a → M.Yields (f a) (g a) f') : M.Yields c (x.bind g) f' := by
  cases x with
  | none => exact h
  | some a => exact Leads.yields h (hg a rfl)

theorem Yields.map {g : α → β} {f' : β → Config} (h : M.Yields c x f)
    (hg : ∀ a, x = some a → M.Leads (f a) (f' (g a))) : M.Yields c (x.map g) f' := by
  cases x with
  | none => exact h
  | some a => exact Leads.trans h (hg a rfl)

theorem yields_step (hs : M.step c = x.map f) (hh : ¬ M.Halted c) : M.Yields c x f := by
  cases x with
  | none => exact ⟨c, .refl c, hs, hh⟩
  | some a => exact .of_step hs

end Machine

/-! ## Code in the machine -/

def bytesOf (L : Scopes) (lines : List Line) : List UInt8 :=
  lines.flatMap fun l => (l.placed L).bytes

theorem length_bytesOf (L : Scopes) (lines : List Line) :
    (bytesOf L lines).length = span lines := by
  induction lines with
  | nil => rfl
  | cons l lines ih =>
    have hl : (l.placed L).bytes.length = l.instruction.size := Instruction.size_placed L _
    rw [bytesOf, List.flatMap_cons, List.length_append, hl, span_cons, ← ih]
    rfl

namespace Machine

variable {M : Machine} {L : Scopes} {p : Nat} {l : Line} {xs ys : List Line}

variable (M L) in
/-- The lines stand in the code from position `p` on, and fit their operands. -/
structure Holds (p : Nat) (lines : List Line) : Prop where
  bytes : ∃ as bs, M.bytes = as ++ (bytesOf L lines ++ bs) ∧ as.length = p
  fits : ∀ l ∈ lines, l.Fits

theorem Holds.left (h : M.Holds L p (xs ++ ys)) : M.Holds L p xs := by
  obtain ⟨⟨as, bs, hb, hp⟩, hf⟩ := h
  refine ⟨⟨as, bytesOf L ys ++ bs, ?_, hp⟩, fun l hl => hf l (List.mem_append_left _ hl)⟩
  rw [hb, bytesOf, List.flatMap_append, List.append_assoc]
  rfl

theorem Holds.right (h : M.Holds L p (xs ++ ys)) : M.Holds L (p + span xs) ys := by
  obtain ⟨⟨as, bs, hb, rfl⟩, hf⟩ := h
  refine ⟨⟨as ++ bytesOf L xs, bs, ?_, by rw [List.length_append, length_bytesOf]⟩,
    fun l hl => hf l (List.mem_append_right _ hl)⟩
  rw [hb, bytesOf, List.flatMap_append, List.append_assoc, List.append_assoc]
  rfl

theorem Holds.head_fits (h : M.Holds L p (l :: ys)) : l.Fits := h.fits l List.mem_cons_self

theorem Holds.tail (h : M.Holds L p (l :: ys)) : M.Holds L (p + l.instruction.size) ys := by
  have h := (show M.Holds L p ([l] ++ ys) from h).right
  rwa [span_cons, span_nil, Nat.add_zero] at h

theorem Holds.fetch (h : M.Holds L p (l :: ys))
    (hw : (l.placed L).operands.length = (l.placed L).operation.width) :
    M.fetch p = some ((l.placed L).operation, (l.placed L).operand) := by
  obtain ⟨⟨as, bs, hb, rfl⟩, -⟩ := h
  obtain ⟨i, hi⟩ : ∃ i, i = l.placed L := ⟨_, rfl⟩
  have hcode : (UInt8.ofNat i.operation.code).toNat = i.operation.code := by
    rw [UInt8.toNat_ofNat']
    exact Nat.mod_eq_of_lt i.operation.code_lt
  have hd : M.bytes.drop as.length = UInt8.ofNat i.operation.code ::
      (i.operands ++ (bytesOf L ys ++ bs)) := by
    rw [hb, List.drop_left, bytesOf, List.flatMap_cons, ← hi]
    simp [Instruction.bytes, bytesOf]
  rw [← hi] at hw ⊢
  rw [Machine.fetch, hd]
  simp only [hcode, Operation.ofCode?_code, Option.map_some, ← hw, List.take_left]
  rfl

end Machine

namespace Code.Build

variable (built : Build)

/-- The module of a program, loaded into the machine: its code, and its literals at the addresses
that their symbols have. -/
def machine (A : Arithmetic) (fresh : Nat → Option Value) : Machine where
  arithmetic := A
  bytes := built.code.codeBytes
  integer? offset := (built.code.integers.toList.find? fun k =>
    (built.scopes.symbol? k.symbol).bind Symbol.storage = some ⟨.constants, offset⟩).map (·.value)
  string? offset := (built.code.strings.toList.find? fun k =>
    (built.scopes.symbol? k.symbol).bind Symbol.storage = some ⟨.constants, offset⟩).map (·.value)
  fresh := fresh

def slot? (id : Symbol.Id) : Option Nat :=
  ((built.scopes.symbol? id).bind Symbol.storage).bind fun st =>
    if st.region = .globals then Machine.slot? st.offset else none

/-- The values of variables when their slots have just been reserved. -/
def initial (fresh : Nat → Option Value) : Store := fun id => (built.slot? id).bind fresh

/-- The values of variables that the slots hold. -/
def final (slots : List (Option Value)) : Store := fun id =>
  (built.slot? id).bind fun k => slots[k]?.join

end Code.Build

end StackCompiler
