import StackCompiler.Proofs.Decoding
import StackCompiler.Proofs.Edits
import StackCompiler.Proofs.Storage

/-!
# Literals in memory

A module in memory is its code, then a word for each number, then its strings. The literals of a
module that is built are given places from the sizes of code and literals, before any text is
written: those are the places where memory holds them.
-/

namespace StackCompiler

namespace Image

variable {m : Image} {k : Nat} {w : Vector UInt8 Section.wordSize}

def bytes (m : Image) : List UInt8 :=
  m.code ++ (m.integers.flatMap Vector.toList ++ (m.reals.flatMap Vector.toList ++ m.strings))

def integerAt (m : Image) (k : Nat) : Nat :=
  (m.code ++ (m.integers.take k).flatMap Vector.toList).length

def realAt (m : Image) (k : Nat) : Nat :=
  (m.code ++ (m.integers.flatMap Vector.toList ++ (m.reals.take k).flatMap Vector.toList)).length

/-- The image holds some bytes at an address. -/
def Holds (m : Image) (a : Nat) (bs : List UInt8) : Prop := (m.bytes.drop a).take bs.length = bs

theorem holds_of_bytes {as bs cs : List UInt8} {a : Nat} (h : m.bytes = as ++ (bs ++ cs))
    (ha : as.length = a) : m.Holds a bs := by
  rw [Holds, h, List.drop_left' ha, List.take_left]

theorem length_words (ws : List (Vector UInt8 Section.wordSize)) :
    (ws.flatMap Vector.toList).length = Section.wordSize * ws.length := by
  induction ws with
  | nil => rfl
  | cons w ws ih =>
    rw [List.flatMap_cons, List.length_append, ih, Vector.length_toList, List.length_cons,
      Nat.mul_add, Nat.mul_one, Nat.add_comm]

theorem split_of_getElem? {α : Type} {xs : List α} {x : α} (h : xs[k]? = some x) :
    xs = xs.take k ++ x :: xs.drop (k + 1) := by
  obtain ⟨hk, rfl⟩ := List.getElem?_eq_some_iff.1 h
  simp

theorem holds_integer (h : m.integers[k]? = some w) : m.Holds (m.integerAt k) w.toList := by
  have hbytes : m.bytes = (m.code ++ (m.integers.take k).flatMap Vector.toList) ++
      (w.toList ++ ((m.integers.drop (k + 1)).flatMap Vector.toList ++
        (m.reals.flatMap Vector.toList ++ m.strings))) := by
    conv_lhs => rw [bytes, split_of_getElem? h]
    simp
  exact holds_of_bytes hbytes rfl

theorem holds_real (h : m.reals[k]? = some w) : m.Holds (m.realAt k) w.toList := by
  have hbytes : m.bytes = (m.code ++ (m.integers.flatMap Vector.toList ++
      (m.reals.take k).flatMap Vector.toList)) ++
      (w.toList ++ ((m.reals.drop (k + 1)).flatMap Vector.toList ++ m.strings)) := by
    conv_lhs => rw [bytes, split_of_getElem? h]
    simp
  exact holds_of_bytes hbytes rfl

end Image

namespace Code

section Pool

variable {offset : Nat} {s : Scopes} {pool as bs : List (Symbol.Id × Nat)} {id : Symbol.Id}
  {size : Nat}

@[simp] theorem poolBytes_nil : poolBytes [] = 0 := rfl

@[simp] theorem poolBytes_cons (e : Symbol.Id × Nat) (pool : List (Symbol.Id × Nat)) :
    poolBytes (e :: pool) = e.2 + poolBytes pool := by
  simp [poolBytes]

@[simp] theorem poolBytes_append (as bs : List (Symbol.Id × Nat)) :
    poolBytes (as ++ bs) = poolBytes as + poolBytes bs := by
  simp [poolBytes]

theorem symbol?_laid_append (hnd : ((as ++ (id, size) :: bs).map Prod.fst).Nodup) :
    (laid offset s (as ++ (id, size) :: bs)).symbol? id =
      (s.symbol? id).map (Symbol.setStorage · ⟨.constants, (offset + poolBytes as : Nat)⟩) := by
  induction as generalizing offset s with
  | nil =>
    have hid : id ∉ bs.map Prod.fst := by
      rw [List.nil_append, List.map_cons, List.nodup_cons] at hnd
      exact hnd.1
    rw [List.nil_append, laid, symbol?_laid_of_not_mem hid, Scopes.symbol?_setStorage, if_pos rfl]
    rfl
  | cons e as ih =>
    obtain ⟨id', size'⟩ := e
    rw [List.cons_append, List.map_cons, List.nodup_cons] at hnd
    have hne : id' ≠ id := by
      rintro rfl
      exact hnd.1 (by simp)
    rw [List.cons_append, laid, ih hnd.2, Scopes.symbol?_setStorage, if_neg hne, poolBytes_cons,
      Nat.add_assoc]

theorem Stores.address (hnd : ((as ++ (id, size) :: bs).map Prod.fst).Nodup) {a : Nat}
    (h : (laid offset s (as ++ (id, size) :: bs)).Stores id ⟨.constants, a⟩) :
    a = offset + poolBytes as := by
  obtain ⟨sym, hs, hst⟩ := h
  rw [symbol?_laid_append hnd] at hs
  obtain ⟨old, -, rfl⟩ := Option.map_eq_some_iff.1 hs
  simp only [Symbol.setStorage, Option.some.injEq, Storage.mk.injEq] at hst
  omega

theorem Stores.apart {id' : Symbol.Id} {size' : Nat} {cs : List (Symbol.Id × Nat)}
    (hnd : ((as ++ (id, size) :: (bs ++ (id', size') :: cs)).map Prod.fst).Nodup) {a a' : Nat}
    (h : (laid offset s (as ++ (id, size) :: (bs ++ (id', size') :: cs))).Stores id
      ⟨.constants, a⟩)
    (h' : (laid offset s (as ++ (id, size) :: (bs ++ (id', size') :: cs))).Stores id'
      ⟨.constants, a'⟩) : a + size ≤ a' := by
  have ha := Stores.address hnd h
  have hsplit : as ++ (id, size) :: (bs ++ (id', size') :: cs) =
      (as ++ (id, size) :: bs) ++ (id', size') :: cs := by simp
  rw [hsplit] at hnd h'
  have ha' := Stores.address hnd h'
  simp only [poolBytes_append, poolBytes_cons] at ha'
  omega

end Pool

theorem build_of_ok {c : Code} {s : Scopes} {text : String}
    (h : (c.build s).result = .ok text) :
    text = (c.build s).code.moduleText ∧
      (c.build s).scopes = laid (wordBoundary c.size) s c.pool ∧
      ∃ s', (c.build s).code = (c.resolve s').2 := by
  rcases placePool_cases (wordBoundary c.size) s c.pool with ⟨hp, -⟩ | ⟨p, s', hp, -⟩
  · cases hr : c.resolve (laid (wordBoundary c.size) s c.pool) with
    | mk result c' =>
      cases result with
      | error d => simp [build, hp, hr] at h
      | ok u =>
        simp only [build, hp, hr, Except.ok.injEq] at h ⊢
        exact ⟨h.symm, trivial, laid (wordBoundary c.size) s c.pool, by rw [hr]⟩
  · simp [build, hp] at h

/-- The literals of a code lie in an image where the scopes `s'` have their symbols, each in bytes
of its own behind the code. -/
structure LiesIn (c : Code) (m : Image) (s s' : Scopes)
    (integer real : List Char → Vector UInt8 Section.wordSize) : Prop where
  integers : ∀ k K, c.integers[k]? = some K →
    s'.symbol? K.symbol =
      (s.symbol? K.symbol).map (Symbol.setStorage · ⟨.constants, m.integerAt k⟩) ∧
    m.Holds (m.integerAt k) (integer (toString K.value).toList).toList
  reals : ∀ k K, c.reals[k]? = some K →
    s'.symbol? K.symbol =
      (s.symbol? K.symbol).map (Symbol.setStorage · ⟨.constants, m.realAt k⟩) ∧
    m.Holds (m.realAt k) (real K.value.write.toList).toList
  strings : ∀ K ∈ c.strings, ∃ a : Nat,
    s'.symbol? K.symbol = (s.symbol? K.symbol).map (Symbol.setStorage · ⟨.constants, a⟩) ∧
    m.Holds a (K.value.toUTF8.toList ++ [0])
  apart : ∀ e ∈ c.pool, ∀ e' ∈ c.pool, e.1 ≠ e'.1 → ∀ a a' : Nat,
    s'.Stores e.1 ⟨.constants, a⟩ → s'.Stores e'.1 ⟨.constants, a'⟩ →
      a + e.2 ≤ a' ∨ a' + e'.2 ≤ a
  behind : ∀ e ∈ c.pool, ∀ a : Nat, s'.Stores e.1 ⟨.constants, a⟩ →
    m.code.length ≤ a ∧ a + e.2 ≤ m.bytes.length

theorem length_toList_loop (b : ByteArray) (i : Nat) (r : List UInt8) :
    (ByteArray.toList.loop b i r).length = r.length + (b.size - i) := by
  fun_induction ByteArray.toList.loop b i r with
  | case1 i r hi ih =>
    rw [ih, List.length_cons]
    omega
  | case2 i r hi =>
    rw [List.length_reverse]
    omega

theorem length_stored (text : String) :
    (text.toUTF8.toList ++ [0]).length = text.utf8ByteSize + 1 := by
  rw [List.length_append, ByteArray.toList, length_toList_loop]
  simp

theorem poolBytes_words {α : Type} (ks : List (Constant α)) :
    poolBytes (ks.map fun k => (k.symbol, Section.wordSize)) = Section.wordSize * ks.length := by
  induction ks with
  | nil => rfl
  | cons k ks ih =>
    rw [List.map_cons, poolBytes_cons, ih, List.length_cons, Nat.mul_add, Nat.mul_one,
      Nat.add_comm]

theorem poolBytes_strings (ks : List (Constant String)) :
    poolBytes (ks.map fun k => (k.symbol, k.value.utf8ByteSize + 1)) =
      (ks.flatMap fun k => k.value.toUTF8.toList ++ [0]).length := by
  induction ks with
  | nil => rfl
  | cons k ks ih =>
    rw [List.map_cons, poolBytes_cons, ih, List.flatMap_cons, List.length_append, length_stored]

section Image

variable {c : Code} {s : Scopes} {integer real : List Char → Vector UInt8 Section.wordSize}

theorem integerAt_image (hlen : c.codeBytes.length = c.size) {k : Nat}
    (hk : k ≤ c.integers.size) : (c.image integer real).integerAt k =
      wordBoundary c.size + Section.wordSize * k := by
  rw [Image.integerAt, List.length_append, Image.length_words, image]
  simp only [length_filled, hlen, List.length_take, List.length_map, Array.length_toList,
    Nat.min_eq_left hk]

theorem realAt_image (hlen : c.codeBytes.length = c.size) {k : Nat} (hk : k ≤ c.reals.size) :
    (c.image integer real).realAt k =
      wordBoundary c.size + (Section.wordSize * c.integers.size + Section.wordSize * k) := by
  rw [Image.realAt, List.length_append, List.length_append, Image.length_words,
    Image.length_words, image]
  simp only [length_filled, hlen, List.length_take, List.length_map, Array.length_toList,
    Nat.min_eq_left hk]

theorem length_image (hlen : c.codeBytes.length = c.size) :
    wordBoundary c.size + poolBytes c.pool ≤ (c.image integer real).bytes.length := by
  have hle := le_wordBoundary c.stringBytes.length
  simp only [Image.bytes, image, List.length_append, Image.length_words, length_filled, hlen,
    List.length_map, Array.length_toList, pool, poolBytes_append, poolBytes_words,
    poolBytes_strings]
  rw [← stringBytes]
  omega

def numbers (c : Code) : List (Symbol.Id × Nat) :=
  c.integers.toList.map (fun k => (k.symbol, Section.wordSize)) ++
    c.reals.toList.map (fun k => (k.symbol, Section.wordSize))

theorem pool_eq (c : Code) : c.pool = c.numbers ++
    c.strings.toList.map fun k => (k.symbol, k.value.utf8ByteSize + 1) := rfl

theorem holds_string (hlen : c.codeBytes.length = c.size) {K : Constant String}
    {ks ls : List (Constant String)} (h : c.strings.toList = ks ++ K :: ls) :
    (c.image integer real).Holds (wordBoundary c.size + poolBytes (c.numbers ++
      ks.map fun k => (k.symbol, k.value.utf8ByteSize + 1))) (K.value.toUTF8.toList ++ [0]) := by
  obtain ⟨pad, hpad⟩ : ∃ pad, (c.image integer real).strings = c.stringBytes ++ pad := ⟨_, rfl⟩
  have hstrings : c.stringBytes = (ks.flatMap fun k => k.value.toUTF8.toList ++ [0]) ++
      ((K.value.toUTF8.toList ++ [0]) ++ ls.flatMap fun k => k.value.toUTF8.toList ++ [0]) := by
    rw [stringBytes, h, List.flatMap_append, List.flatMap_cons]
  have hbytes : (c.image integer real).bytes =
      ((c.image integer real).code ++ ((c.image integer real).integers.flatMap Vector.toList ++
        ((c.image integer real).reals.flatMap Vector.toList ++
          ks.flatMap fun k => k.value.toUTF8.toList ++ [0]))) ++
      ((K.value.toUTF8.toList ++ [0]) ++
        ((ls.flatMap fun k => k.value.toUTF8.toList ++ [0]) ++ pad)) := by
    rw [Image.bytes, hpad, hstrings]
    simp only [List.append_assoc]
  refine Image.holds_of_bytes hbytes ?_
  simp only [image, List.length_append, Image.length_words, length_filled, hlen,
    List.length_map, Array.length_toList, numbers, poolBytes_append, poolBytes_words,
    poolBytes_strings]
  omega

theorem liesIn_image (hlen : c.codeBytes.length = c.size) (hnd : (c.pool.map Prod.fst).Nodup) :
    c.LiesIn (c.image integer real) s (laid (wordBoundary c.size) s c.pool) integer real where
  integers k K hK := by
    have hk : k < c.integers.size := (Array.getElem?_eq_some_iff.1 hK).1
    have hK' : c.integers.toList[k]? = some K := by simpa using hK
    have hpool : c.pool = (c.integers.toList.take k).map (fun k => (k.symbol, Section.wordSize)) ++
        (K.symbol, Section.wordSize) ::
          ((c.integers.toList.drop (k + 1)).map (fun k => (k.symbol, Section.wordSize)) ++
            c.reals.toList.map (fun k => (k.symbol, Section.wordSize)) ++
            c.strings.toList.map fun k => (k.symbol, k.value.utf8ByteSize + 1)) := by
      conv_lhs => rw [pool, Image.split_of_getElem? hK']
      simp
    refine ⟨?_, Image.holds_integer ?_⟩
    · rw [integerAt_image hlen (by omega), hpool]
      rw [hpool] at hnd
      rw [symbol?_laid_append hnd, poolBytes_words, List.length_take, Array.length_toList,
        Nat.min_eq_left (by omega)]
    · rw [image]
      simp only [List.getElem?_map, hK', Option.map_some]
  reals k K hK := by
    have hk : k < c.reals.size := (Array.getElem?_eq_some_iff.1 hK).1
    have hK' : c.reals.toList[k]? = some K := by simpa using hK
    have hpool : c.pool = (c.integers.toList.map (fun k => (k.symbol, Section.wordSize)) ++
        (c.reals.toList.take k).map (fun k => (k.symbol, Section.wordSize))) ++
        (K.symbol, Section.wordSize) ::
          ((c.reals.toList.drop (k + 1)).map (fun k => (k.symbol, Section.wordSize)) ++
            c.strings.toList.map fun k => (k.symbol, k.value.utf8ByteSize + 1)) := by
      conv_lhs => rw [pool, Image.split_of_getElem? hK']
      simp
    refine ⟨?_, Image.holds_real ?_⟩
    · rw [realAt_image hlen (by omega), hpool]
      rw [hpool] at hnd
      rw [symbol?_laid_append hnd, poolBytes_append, poolBytes_words, poolBytes_words,
        List.length_take, Array.length_toList, Array.length_toList, Nat.min_eq_left (by omega)]
    · rw [image]
      simp only [List.getElem?_map, hK', Option.map_some]
  strings K hK := by
    obtain ⟨ks, ls, hsplit⟩ := List.append_of_mem (Array.mem_toList_iff.2 hK)
    have hpool : c.pool = (c.numbers ++ ks.map fun k => (k.symbol, k.value.utf8ByteSize + 1)) ++
        (K.symbol, K.value.utf8ByteSize + 1) ::
          ls.map fun k => (k.symbol, k.value.utf8ByteSize + 1) := by
      rw [pool_eq, hsplit]
      simp
    rw [hpool] at hnd ⊢
    exact ⟨_, symbol?_laid_append hnd, holds_string hlen hsplit⟩
  apart e he e' he' hne a a' h h' := by
    obtain ⟨as, bs, hsplit⟩ := List.append_of_mem he
    rw [hsplit] at hnd h h' he'
    -- the literal that comes later in the pool begins where the other has ended
    rcases List.mem_append.1 he' with hm | hm
    · obtain ⟨ls, ms, rfl⟩ := List.append_of_mem hm
      rw [List.append_assoc, List.cons_append] at hnd h h'
      exact .inr (Stores.apart hnd h' h)
    · obtain rfl | hm := List.mem_cons.1 hm
      · exact absurd rfl hne
      · obtain ⟨ls, ms, rfl⟩ := List.append_of_mem hm
        exact .inl (Stores.apart hnd h h')
  behind e he a h := by
    have hcode : (c.image integer real).code.length = wordBoundary c.size := by
      rw [← hlen]
      exact length_filled c.codeBytes
    have hend : wordBoundary c.size + poolBytes c.pool ≤ (c.image integer real).bytes.length :=
      length_image hlen
    obtain ⟨as, bs, hsplit⟩ := List.append_of_mem he
    rw [hsplit] at hnd h hend
    have ha := Stores.address hnd h
    simp only [poolBytes_append, poolBytes_cons] at hend
    rw [hcode]
    omega

end Image

end Code

/-- The addresses that building gives to literals are where the module has them: however code was
built up, if its literals belong to different symbols and a module is built, then the text of the
module is an image in which every literal lies at the place of its symbol. -/
theorem build_places_literals (es : List Code.Edit) (s : Scopes) (text : String)
    (integer real : List Char → Vector UInt8 Section.wordSize)
    (hnd : ((Code.edited es).pool.map Prod.fst).Nodup)
    (h : ((Code.edited es).build s).result = .ok text) :
    ∃ m, Image.read? integer real text = some m ∧
      (∃ k, m.code = ((Code.edited es).build s).code.codeBytes ++ List.replicate k 0) ∧
      (Code.edited es).LiesIn m s ((Code.edited es).build s).scopes integer real := by
  obtain ⟨is, his⟩ := Code.is_edited es
  generalize Code.edited es = c at his hnd h ⊢
  obtain ⟨rfl, hscopes, s', hcode⟩ := Code.build_of_ok h
  obtain ⟨js, hjs, -⟩ := his.resolve_sizes s'
  rw [hscopes, hcode]
  refine ⟨(c.resolve s').2.image integer real, Code.read?_moduleText _ _ _, ⟨_, rfl⟩, ?_⟩
  -- Filling in loads leaves the size and the literals as they are.
  have hlies : (c.resolve s').2.LiesIn ((c.resolve s').2.image integer real) s
      (Code.laid (Code.wordBoundary c.size) s c.pool) integer real :=
    Code.liesIn_image hjs.length_codeBytes hnd
  exact ⟨hlies.integers, hlies.reals, hlies.strings, hlies.apart, hlies.behind⟩

/-- A constant that is patched, the load of an address, and a literal of each kind. -/
def mixedEdits : List Code.Edit :=
  [.push (.plain .lh [0, 0]), .patch 0 [1, 44], .push (.pending .pendingAddress 2),
    .addInteger (-5) 0, .addReal ⟨0x3FF8000000000000⟩ 1, .addString "né" 2]

def mixedScopes : Scopes :=
  { Scopes.empty with
    symbols := #[.new .intConstant "a" ⟨1, 1⟩ [], .new .realConstant "b" ⟨1, 1⟩ [],
      .new .stringConstant "c" ⟨1, 1⟩ []] }

theorem mixed_builds : ((Code.edited mixedEdits).build mixedScopes).result =
    .ok ((Code.edited mixedEdits).build mixedScopes).code.moduleText := by
  have his : (Code.edited mixedEdits).Is
      [.plain .lh [1, 44], .pending .pendingAddress 2] :=
    ⟨by decide +kernel, by decide +kernel⟩
  have hresolve : ∀ i ∈ [Instruction.plain .lh [1, 44], .pending .pendingAddress 2],
      ∃ j, i.resolve (Code.laid (Code.wordBoundary (Code.edited mixedEdits).size) mixedScopes
        (Code.edited mixedEdits).pool) = .ok j := by
    intro i hi
    fin_cases hi
    · exact ⟨_, rfl⟩
    · exact ⟨.symbolic (.loadAddress .constants) 2 24, by decide +kernel⟩
  have hsize : Code.wordBoundary (Code.edited mixedEdits).size +
      Code.poolBytes (Code.edited mixedEdits).pool ≤ maxOffset := by decide +kernel
  rcases his.build_cases mixedScopes hresolve with ⟨hok, -⟩ | ⟨p, -, hlt, hle⟩
  · exact hok
  · omega

theorem build_places_literals_mixed :
    ((Code.edited mixedEdits).pool.map Prod.fst).Nodup ∧
    ∃ text m, ((Code.edited mixedEdits).build mixedScopes).result = .ok text ∧
      Image.read? (fun _ => .replicate _ 0) (fun _ => .replicate _ 1) text = some m ∧
      (Code.edited mixedEdits).LiesIn m mixedScopes
        ((Code.edited mixedEdits).build mixedScopes).scopes (fun _ => .replicate _ 0)
        (fun _ => .replicate _ 1) := by
  have hnd : ((Code.edited mixedEdits).pool.map Prod.fst).Nodup := by decide +kernel
  obtain ⟨m, hread, -, hlies⟩ := build_places_literals mixedEdits mixedScopes _
    (fun _ => .replicate _ 0) (fun _ => .replicate _ 1) hnd mixed_builds
  exact ⟨hnd, _, m, mixed_builds, hread, hlies⟩

end StackCompiler
