import Mathlib.Algebra.Group.Int.Defs
import StackCompiler.Proofs.Storage

/-!
# What instructions hold

The operand of an instruction is an integer in two's complement. Once the places of symbols are
filled in, the operand of every line is the number, the target or the offset that it stands for.
-/

namespace StackCompiler

def unsignedValue : List UInt8 → Nat
  | [] => 0
  | b :: bytes => b.toNat * 256 ^ bytes.length + unsignedValue bytes

def signedValue (bytes : List UInt8) : Int :=
  let n := unsignedValue bytes
  if 2 * n < 256 ^ bytes.length then n else n - 256 ^ bytes.length

def Instruction.operand (i : Instruction) : Int := signedValue i.operands

theorem bigEndian_succ (width : Nat) (n : Int) :
    bigEndian (width + 1) n = UInt8.ofNat ((n / 256 ^ width) % 256).toNat :: bigEndian width n := by
  rw [bigEndian, List.range_succ, List.reverse_append]
  rfl

theorem unsignedValue_bigEndian (width : Nat) (n : Int) :
    (unsignedValue (bigEndian width n) : Int) = n % 256 ^ width := by
  induction width with
  | zero => simp [bigEndian, unsignedValue]
  | succ width ih =>
    have hd : 0 ≤ n / 256 ^ width % 256 := Int.emod_nonneg _ (by decide)
    have hlt : n / 256 ^ width % 256 < 256 := Int.emod_lt_of_pos _ (by decide)
    have hbyte : ((UInt8.ofNat (n / 256 ^ width % 256).toNat).toNat : Int) =
        n / 256 ^ width % 256 := by
      rw [UInt8.toNat_ofNat', Nat.mod_eq_of_lt (by omega)]
      omega
    have hdiv : n / (256 ^ width * 256) = n / 256 ^ width / 256 :=
      (Int.ediv_ediv_of_nonneg (Int.pow_nonneg (by decide))).symm
    rw [bigEndian_succ, unsignedValue, length_bigEndian, Int.natCast_add, Int.natCast_mul, hbyte, ih,
      Int.natCast_pow, Int.pow_succ, Int.emod_def n (256 ^ width * 256), hdiv, Int.emod_def _ 256,
      Int.emod_def n (256 ^ width)]
    grind

theorem signedValue_bigEndian {width : Nat} {n : Int} (hl : -256 ^ width ≤ 2 * n)
    (hu : 2 * n < 256 ^ width) : signedValue (bigEndian width n) = n := by
  have hn := unsignedValue_bigEndian width n
  have hpow : ((256 ^ width : Nat) : Int) = 256 ^ width := by simp
  rw [signedValue, length_bigEndian]
  by_cases h : 0 ≤ n
  · rw [Int.emod_eq_of_lt h (by omega)] at hn
    rw [if_pos (by omega), hn]
  · rw [← Int.add_emod_right, Int.emod_eq_of_lt (by omega) (by omega)] at hn
    rw [if_neg (by omega), hn]
    omega

def Line.placed (L : Scopes) (l : Line) : Instruction := l.instruction.placed L

theorem sizeOfAll_placed (L : Scopes) (lines : List Line) :
    sizeOfAll (lines.map (Line.placed L)) = span lines := by
  rw [span, ← Code.sizeOfAll_map_placed L (lines.map Line.instruction), List.map_map]
  rfl

theorem Scopes.Stores.placed {L : Scopes} {id : Symbol.Id} {st : Storage} (h : L.Stores id st)
    (op : Operation) : (Instruction.pending op id).placed L =
      .symbolic (op.inRegion st.region) id st.offset := by
  simp only [Instruction.placed, h.resolve]

theorem placed_pending_cases (L : Scopes) (op : Operation) (id : Symbol.Id) :
    (Instruction.pending op id).placed L = .pending op id ∨ ∃ st, L.Stores id st ∧
      (Instruction.pending op id).placed L = .symbolic (op.inRegion st.region) id st.offset := by
  cases hs : L.symbol? id with
  | none => exact .inl (by simp [Instruction.pending, Instruction.placed, Instruction.resolve, hs])
  | some sym =>
    cases hst : sym.storage with
    | none =>
      exact .inl (by simp [Instruction.pending, Instruction.placed, Instruction.resolve, hs, hst])
    | some st =>
      have h : L.Stores id st := ⟨sym, hs, hst⟩
      exact .inr ⟨st, h, h.placed op⟩

namespace Line

variable {L : Scopes} {id : Symbol.Id} {st : Storage} {n target : Nat}

theorem placed_count (n : Nat) : (count n).placed L = (count n).instruction := by
  simp only [placed, Instruction.placed, resolve_count]

theorem placed_value (h : L.Stores id st) :
    (value id).placed L = .symbolic (.loadValue st.region) id st.offset := h.placed .pendingValue

theorem placed_address (h : L.Stores id st) :
    (address id).placed L = .symbolic (.loadAddress st.region) id st.offset :=
  h.placed .pendingAddress

theorem operation_count (n : Nat) :
    (count n).instruction = .plain .lb (bigEndian 1 n) ∧ n ≤ Emitter.maxByte ∨
      (count n).instruction = .plain .lh (bigEndian 2 n) := by
  by_cases h : n ≤ Emitter.maxByte
  · exact .inl ⟨if_pos h, h⟩
  · exact .inr (if_neg h)

theorem operand_count (h : (count n).Fits) : (count n).instruction.operand = n := by
  have hn : n ≤ Emitter.maxHalf := h
  rw [Emitter.maxHalf] at hn
  rcases operation_count n with ⟨hi, hb⟩ | hi
  · rw [Emitter.maxByte] at hb
    rw [hi, Instruction.operand, Instruction.operands]
    exact signedValue_bigEndian (by omega) (by omega)
  · rw [hi, Instruction.operand, Instruction.operands]
    exact signedValue_bigEndian (by omega) (by omega)

theorem operand_jump (h : target ≤ maxOffset) : (Emitter.jump target).operand = target := by
  rw [maxOffset] at h
  rw [Emitter.jump, Instruction.operand, Instruction.operands]
  exact signedValue_bigEndian (by omega) (by omega)

end Line

end StackCompiler
