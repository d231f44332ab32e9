import StackCompiler.Proofs.Grammar
import StackCompiler.Proofs.Reading.Basic

/-!
# Which words a parser consumes

A run that reports nothing consumes the words of what it reads, one after the other. What a run
consumes is stated against the words that are left of the stream; after a report nothing is said
about them.
-/

namespace StackCompiler

def Token.Kind.isText : Token.Kind → Bool
  | .ident | .integer | .real | .string | .undefined => true
  | _ => false

/-- Operators, delimiters and keywords. -/
def Token.Kind.isMark (k : Token.Kind) : Bool := !k.isText && k ≠ .eof

theorem Token.Kind.isMark_iff {k : Token.Kind} :
    k.isMark = true ↔ k.isText = false ∧ k ≠ .eof := by simp [isMark]

/-- The token carries characters if its kind asks for them, and no sign before a number. -/
structure Token.Spelled (t : Token) : Prop where
  bare : t.kind.isText = false → t.lexeme = none
  carried : t.kind.isText = true → t.lexeme = some t.text
  unsigned : t.kind = .integer ∨ t.kind = .real → '-' ∉ t.text.toList

namespace Lexer

structure Cut.Spelled (t : Cut) : Prop where
  bare : t.kind.isText = false → t.lexeme = none
  carried : t.kind.isText = true → ∃ cs, t.lexeme = some cs
  unsigned : t.kind = .integer ∨ t.kind = .real → ∀ cs, t.lexeme = some cs → '-' ∉ cs
  inside : t.kind ≠ .eof

namespace Cut

theorem spelled_mark {k : Token.Kind} (n : Nat) (hk : k.isMark = true) :
    (Cut.mk k none n).Spelled := by
  obtain ⟨ht, he⟩ := Token.Kind.isMark_iff.1 hk
  exact ⟨fun _ => rfl, fun h => absurd (ht.symm.trans h) nofun, fun _ _ h => (nomatch h), he⟩

theorem spelled_text {k : Token.Kind} (cs : List Char) (n : Nat) (hk : k.isText = true)
    (hi : k ≠ .integer) (hr : k ≠ .real) : (Cut.mk k (some cs) n).Spelled :=
  ⟨fun h => absurd (hk.symm.trans h) nofun, fun _ => ⟨cs, rfl⟩,
    fun h => (h.elim hi hr).elim, fun h => by rw [show k = .eof from h] at hk; cases hk⟩

theorem spelled_numeral {k : Token.Kind} (cs : List Char) (n : Nat) (hk : k = .integer ∨ k = .real)
    (hc : '-' ∉ cs) : (Cut.mk k (some cs) n).Spelled := by
  refine ⟨fun h => ?_, fun _ => ⟨cs, rfl⟩, fun _ ds h => ?_, ?_⟩
  · rcases hk with rfl | rfl <;> cases h
  · cases h
    exact hc
  · rcases hk with rfl | rfl <;> exact nofun

theorem spelled_compound {single withEq : Token.Kind} (rest : List Char)
    (h : ∀ k ∈ [single, withEq], k.isMark = true) : (compound single withEq rest).Spelled := by
  unfold compound
  split
  · exact spelled_mark 1 (h withEq (by simp))
  · exact spelled_mark 0 (h single (by simp))

theorem spelled_word (c : Char) (rest : List Char) : (word c rest).Spelled := by
  unfold word
  dsimp only
  split
  · exact spelled_mark _ rfl
  · exact spelled_text _ _ rfl nofun nofun

theorem isDigit_dash : Text.isDigit '-' = false := by decide

theorem spelled_number {c : Char} (rest : List Char) (hc : Text.isDigit c) :
    (number c rest).Spelled := by
  have hq : '-' ≠ c := by rintro rfl; simp [isDigit_dash] at hc
  have hw : '-' ∉ c :: rest.takeWhile Text.isDigit := by simp [hq, not_mem_digits isDigit_dash]
  unfold number
  dsimp only
  split
  · next d after _ =>
    split
    · next hd =>
      have hd : '-' ≠ d := by rintro rfl; simp [isDigit_dash] at hd
      refine spelled_numeral _ _ (.inr rfl) ?_
      simp [hq, hd, not_mem_digits isDigit_dash]
    · exact spelled_numeral _ _ (.inl rfl) hw
  · exact spelled_numeral _ _ (.inl rfl) hw

theorem spelled_string (rest : List Char) : (string rest).Spelled := by
  unfold string
  dsimp only
  split <;> exact spelled_text _ _ rfl nofun nofun

end Cut

theorem spelled_cut (c : Char) (rest : List Char) : (cut c rest).Spelled := by
  unfold cut
  split
  case h_19 => exact Cut.spelled_string rest
  case h_20 =>
    split
    · next hc => exact Cut.spelled_number rest hc
    · split
      · exact Cut.spelled_word _ rest
      · exact Cut.spelled_text _ _ rfl nofun nofun
  case h_11 | h_12 | h_13 | h_14 | h_15 | h_16 | h_17 | h_18 =>
    exact Cut.spelled_compound rest (by decide)
  all_goals exact Cut.spelled_mark 0 rfl

theorem spelled_next (l : Lexer) : l.next.1.Spelled := by
  unfold next
  dsimp only
  split
  · exact ⟨fun _ => rfl, nofun, nofun⟩
  · next c rest _ =>
    have h := spelled_cut c rest
    refine ⟨fun hk => by rw [h.bare hk]; rfl, fun hk => ?_, fun hk => ?_⟩
    · obtain ⟨cs, hcs⟩ := h.carried hk
      simp [Token.text, hcs]
    · have hk : (cut c rest).kind = .integer ∨ (cut c rest).kind = .real := hk
      obtain ⟨cs, hcs⟩ := h.carried (by rcases hk with hk | hk <;> rw [hk] <;> rfl)
      simpa [Token.text, hcs] using h.unsigned hk cs hcs

theorem tokensAfter_eq (acc : List Token) (l : Lexer)
    (hacc : ∀ t ∈ acc, t.Spelled ∧ t.kind ≠ .eof) :
    ∃ ts e, l.tokensAfter acc = ts ++ [e] ∧ (∀ t ∈ ts, t.Spelled ∧ t.kind ≠ .eof) ∧
      e.Spelled ∧ e.kind = .eof := by
  fun_induction tokensAfter acc l with
  | case1 acc l t h =>
    exact ⟨acc.reverse, t.1, by simp, by simpa using hacc, spelled_next l, h⟩
  | case2 acc l t h ih =>
    refine ih fun u hu => ?_
    rcases List.mem_cons.1 hu with rfl | hu
    · exact ⟨spelled_next l, h⟩
    · exact hacc u hu

end Lexer

theorem tokensOf_eq (source : String) : ∃ ts e, tokensOf source = ts ++ [e] ∧
    (∀ t ∈ ts, t.Spelled ∧ t.kind ≠ .eof) ∧ e.Spelled ∧ e.kind = .eof :=
  Lexer.tokensAfter_eq [] _ (by simp)

theorem Token.Spelled.sign {t : Token} (h : t.Spelled) (hk : t.kind.isText = false) :
    t.word = Word.sign t.kind := by
  simp [Token.word, Word.sign, h.bare hk]

theorem Token.Spelled.word_eq {t : Token} (h : t.Spelled) (hk : t.kind.isText = true) :
    t.word = ⟨t.kind, some t.text⟩ := by
  rw [Token.word, h.carried hk]

namespace Parser

open Word

variable {α : Type} {s s' s'' : State} {ts us : List Word}

namespace State

/-- The stream is at one of the tokens of a source. -/
structure Cut (s : State) : Prop where
  spelled : ∀ t ∈ s.stream.tokens, t.Spelled
  inside : s.stream.index < s.stream.tokens.size
  /-- The end of the source comes last, and only there. -/
  ends : ∀ i t, s.stream.tokens[i]? = some t → (t.kind = .eof ↔ i + 1 = s.stream.tokens.size)

/-- Nothing has been reported. -/
def Clean (s : State) : Prop := s.diagnostics = #[]

/-- The words that are left. -/
def rest (s : State) : List Word := (s.stream.tokens.toList.drop s.stream.index).map Token.word

/-- Between the two states the words `ts` have been consumed, unless something was reported. The
symbols that there were have not changed. -/
structure Spells (s : State) (ts : List Word) (s' : State) : Prop where
  cut : s.Cut → s'.Cut
  symbols : ∀ id sym, s.scopes.symbol? id = some sym → s'.scopes.symbol? id = some sym
  clean : s'.Clean → s.Clean
  words : s.Cut → s'.Clean → s.rest = ts ++ s'.rest

theorem Spells.refl (s : State) : s.Spells [] s := ⟨id, fun _ _ => id, id, fun _ _ => rfl⟩

theorem Spells.trans (h : s.Spells ts s') (h' : s'.Spells us s'') : s.Spells (ts ++ us) s'' where
  cut hs := h'.cut (h.cut hs)
  symbols id sym hs := h'.symbols id sym (h.symbols id sym hs)
  clean hc := h.clean (h'.clean hc)
  words hs hc := by
    rw [h.words hs (h'.clean hc), h'.words (h.cut hs) hc, List.append_assoc]

theorem Spells.quiet (h : s.Spells ts s') (h' : s'.Spells [] s'') : s.Spells ts s'' := by
  simpa using h.trans h'

/-- Only the scopes and the log differ, and the symbols are still there. -/
theorem spells_scopes {scopes : Scopes} {log : Log} (s : State)
    (h : ∀ id sym, s.scopes.symbol? id = some sym → scopes.symbol? id = some sym) :
    s.Spells [] { s with scopes := scopes, log := log } :=
  ⟨fun hs => ⟨hs.spelled, hs.inside, hs.ends⟩, h, id, fun _ _ => rfl⟩

theorem Cut.current (hs : s.Cut) : s.stream.tokens[s.stream.index]? = some s.stream.current := by
  simp [TokenStream.current, Array.getD, hs.inside]

theorem Cut.current_spelled (hs : s.Cut) : s.stream.current.Spelled :=
  hs.spelled _ (Array.mem_of_getElem? hs.current)

theorem Cut.rest_eq (hs : s.Cut) : s.rest = s.stream.current.word ::
    ((s.stream.tokens.toList.drop (s.stream.index + 1)).map Token.word) := by
  have h := hs.current
  rw [← Array.getElem?_toList, List.getElem?_eq_some_iff] at h
  obtain ⟨hi, h⟩ := h
  rw [rest, List.drop_eq_getElem_cons hi, h, List.map_cons]

theorem Cut.advance (hs : s.Cut) (hk : s.stream.kind ≠ .eof) :
    s.advance.Cut := by
  refine ⟨hs.spelled, ?_, hs.ends⟩
  have hn := mt (hs.ends _ _ hs.current).2 hk
  have := hs.inside
  show s.stream.index + 1 < s.stream.tokens.size
  omega

theorem spells_advance (hk : s.stream.kind ≠ .eof) :
    s.Spells [s.stream.current.word] s.advance :=
  ⟨fun hs => hs.advance hk, fun _ _ => id, id, fun hs _ => hs.rest_eq⟩

theorem Cut.rest_of_eof (hs : s.Cut) (hk : s.stream.kind = .eof) : s.rest = [sign .eof] := by
  have hl := (hs.ends _ _ hs.current).1 hk
  have hw : s.stream.current.word = sign .eof := by
    rw [hs.current_spelled.sign (by rw [show s.stream.current.kind = _ from hk]; rfl)]
    rw [show s.stream.current.kind = _ from hk]
  rw [hs.rest_eq, hw, List.drop_of_length_le (by simp [hl]), List.map_nil]

end State

/-- The parser leaves the state as it is. -/
def Checks (p : Parser α) : Prop := ∀ s, Reads p (fun _ s' => s' = s) s

/-- The parser consumes words that stand to what it reads, in the state it leaves, as `P` says. -/
def Writes (p : Parser α) (P : State → α → List Word → Prop) : Prop :=
  ∀ s, s.Cut → Reads p (fun a s' => ∃ ts, s.Spells ts s' ∧ P s' a ts) s

section Tokens

variable {k : Token.Kind}

/-- After a report, anything may have been consumed. -/
theorem State.Spells.warn (h : s.Spells ts s') (t : Token) (n : Notice) (us : List Word) :
    Reads (warn t n)
      (fun _ s'' => s.Spells us s'' ∧ ¬ s''.Clean ∧ s''.stream = s'.stream) s' := by
  have hr : ¬ State.Clean { s' with
      diagnostics := s'.diagnostics.push (.warning t n)
      log := s'.log.push (.warned (Diagnostic.warning t n).remark) } := by
    simp [State.Clean]
  exact ⟨⟨fun hs => ⟨(h.cut hs).spelled, (h.cut hs).inside, (h.cut hs).ends⟩, h.symbols,
    fun hc => absurd hc hr, fun _ hc => absurd hc hr⟩, hr, rfl⟩

variable (h : s.Spells ts s') (hs : s.Cut)
include h hs

theorem State.Spells.advance (hk : k.isMark = true) (hc : s'.stream.kind = k) :
    Reads Parser.advance (fun t s'' => t = s'.stream.current ∧ s.Spells (ts ++ [sign k]) s'') s' := by
  obtain ⟨ht, he⟩ := Token.Kind.isMark_iff.1 hk
  have hc' : s'.stream.current.kind = k := hc
  have hw := (h.cut hs).current_spelled.sign (hc' ▸ ht)
  have ha := State.spells_advance (s := s') (hc ▸ he)
  rw [hw, hc'] at ha
  exact ⟨rfl, h.trans ha⟩

theorem State.Spells.advanceText (hk : k.isText = true) (hc : s'.stream.kind = k) :
    Reads Parser.advance (fun t s'' => t = s'.stream.current ∧
      s.Spells (ts ++ [⟨k, some s'.stream.current.text⟩]) s'') s' := by
  have hc' : s'.stream.current.kind = k := hc
  have hw := (h.cut hs).current_spelled.word_eq (hc' ▸ hk)
  have ha := State.spells_advance (s := s') (by rw [hc]; rintro rfl; cases hk)
  rw [hw, hc'] at ha
  exact ⟨rfl, h.trans ha⟩

theorem State.Spells.expect (hk : k.isMark = true) :
    Reads (expect k) (fun _ s'' => s.Spells (ts ++ [sign k]) s'') s' := by
  unfold Reads wp Parser.expect TokenStream.expect
  by_cases hc : s'.stream.kind = k
  · simp only [hc, if_true]
    exact (h.advance hs hk hc).2
  · simp only [hc, if_false]

theorem State.Spells.ident :
    Reads (Parser.expect .ident) (fun t s'' => s.Spells (ts ++ [name t.text]) s'') s' := by
  unfold Reads wp Parser.expect TokenStream.expect
  by_cases hc : s'.stream.kind = .ident
  · simp only [hc, if_true]
    exact (h.advanceText hs rfl hc).2
  · simp only [hc, if_false]

theorem State.Spells.accept (hk : k.isMark = true) :
    Reads (accept k) (fun found s'' => s.Spells (ts ++ if found then [sign k] else []) s'') s' := by
  rw [Parser.accept, Reads, wp_modifyGet]
  by_cases hc : s'.stream.kind = k
  · simpa only [TokenStream.accept, hc, if_true] using (h.advance hs hk hc).2
  · simpa [TokenStream.accept, hc] using h

theorem State.Spells.separator (hk : k.isMark = true) :
    Reads (separator k) (fun _ s'' => s.Spells (ts ++ [sign k]) s'') s' := by
  simp only [Parser.separator, wp_bind]
  refine wp_mono (h.accept hs hk) fun found s₁ h₁ => ?_
  cases found with
  | true => exact h₁
  | false =>
    rw [if_neg Bool.false_ne_true, wp_bind]
    have hw := h₁.warn s₁.stream.current (.missing k) (ts ++ [sign k])
    exact (wp_mono hw fun _ s₂ h₂ => h₂.1 : Reads (Parser.warn s₁.stream.current _) _ s₁)

end Tokens

/-! ## Parts -/

section Parts

variable {p : Parser α} {P : State → α → List Word → Prop}

theorem State.Spells.part (h : s.Spells ts s') (hs : s.Cut) (hp : Writes p P) :
    Reads p (fun a s'' => ∃ us, s.Spells (ts ++ us) s'' ∧ s'.Spells us s'' ∧ P s'' a us) s' :=
  wp_mono (hp s' (h.cut hs)) fun _ _ ⟨us, h', ha⟩ => ⟨us, h.trans h', h', ha⟩

theorem Writes.fix {body : Parser α → Parser α} (h : ∀ p, Writes p P → Writes (body p) P) :
    Writes (fix body) P := by
  intro s hs
  refine wp_mono (reads_fix (Q := fun s a s' => s.Cut → ∃ ts, s.Spells ts s' ∧ P s' a ts)
    (fun p hp s => ?_) s) fun _ _ hq => hq hs
  by_cases hs : s.Cut
  · exact wp_mono (h p (fun s hs => wp_mono (hp s) fun _ _ hq => hq hs) s hs) fun _ _ hq _ => hq
  · unfold Reads wp
    split
    · exact fun hs' => absurd hs' hs
    · trivial

/-- What is said of a phrase stays true while more is read. -/
def Persists (P : State → α → List Word → Prop) : Prop :=
  ∀ s us s' a ts, s.Spells us s' → P s a ts → P s' a ts

theorem writes_commaList (hp : Writes p P) (hP : Persists P) :
    Writes (commaList p) fun s as ts => ∃ items : List (α × List Word), items ≠ [] ∧
      as = items.map Prod.fst ∧ ts = commas (items.map Prod.snd) ∧ ∀ i ∈ items, P s i.1 i.2 := by
  intro s hs
  -- What has been read so far ends with a comma.
  refine reads_loop (I := fun before s' => ∃ items : List (α × List Word),
    before.reverse = items.map Prod.fst ∧
    s.Spells (items.flatMap fun i => i.2 ++ [sign .comma]) s' ∧ ∀ i ∈ items, P s' i.1 i.2)
    (fun before s₁ ⟨items, hb, h, hi⟩ => ?_) [] s ⟨[], rfl, .refl s, by simp⟩
  simp only [wp_bind, wp_ite, wp_pure, Sum.elim_inl, Sum.elim_inr]
  refine wp_mono (h.part hs hp) ?_
  rintro a s₂ ⟨us, h₂, h₁₂, ha⟩
  have hi' (s₃ : State) (h' : ∃ vs, s₂.Spells vs s₃) : ∀ i ∈ items ++ [(a, us)], P s₃ i.1 i.2 := by
    obtain ⟨vs, h'⟩ := h'
    intro i hm
    rcases List.mem_append.1 hm with hm | hm
    · exact hP _ _ _ _ _ (h₁₂.trans h') (hi i hm)
    · rw [List.mem_singleton.1 hm]
      exact hP _ _ _ _ _ h' ha
  refine wp_mono ((State.Spells.refl s₂).accept (h₂.cut hs) (k := .comma) rfl)
    fun found s₃ h₃ => ?_
  have hb' : (a :: before).reverse = (items ++ [(a, us)]).map Prod.fst := by simp [hb]
  refine ⟨?_, ?_⟩
  · rintro rfl
    exact ⟨items ++ [(a, us)], hb', by simpa using h₂.trans h₃, hi' s₃ ⟨_, h₃⟩⟩
  · intro hf
    obtain rfl : found = false := by simpa using hf
    refine ⟨_, h₂.quiet h₃, items ++ [(a, us)], by simp, hb', ?_, hi' s₃ ⟨_, h₃⟩⟩
    rw [List.map_append, List.map_cons, List.map_nil, commas_concat, List.flatMap_map]

theorem writes_whileList {k : Token.Kind} (hp : Writes p P) (hP : Persists P) :
    Writes (whileList (is k) p) fun s as ts => ∃ items : List (α × List Word),
      as = items.map Prod.fst ∧ ts = items.flatMap Prod.snd ∧ ∀ i ∈ items, P s i.1 i.2 := by
  intro s hs
  refine reads_loop (I := fun before s' => ∃ items : List (α × List Word),
    before.reverse = items.map Prod.fst ∧ s.Spells (items.flatMap Prod.snd) s' ∧
    ∀ i ∈ items, P s' i.1 i.2)
    (fun before s₁ ⟨items, hb, h, hi⟩ => ?_) [] s ⟨[], rfl, .refl s, by simp⟩
  simp only [wp_bind, wp_ite, wp_pure, Sum.elim_inl, Sum.elim_inr]
  refine ⟨fun _ => ?_, fun _ => ⟨_, h, items, hb, rfl, hi⟩⟩
  refine wp_mono (h.part hs hp) ?_
  rintro a s₂ ⟨us, h₂, h₁₂, ha⟩
  refine ⟨items ++ [(a, us)], by simp [hb], by simpa using h₂, fun i hm => ?_⟩
  rcases List.mem_append.1 hm with hm | hm
  · exact hP _ _ _ _ _ h₁₂ (hi i hm)
  · rw [List.mem_singleton.1 hm]
    exact ha

end Parts

section Symbols

theorem symbol?_push {scopes : Scopes} {sym new : Symbol} {id : Symbol.Id}
    (h : scopes.symbol? id = some sym) : (scopes.symbols.push new)[id]? = some sym := by
  have hlt : id < scopes.symbols.size := (Array.getElem?_eq_some_iff.1 h).1
  rw [Array.getElem?_push, if_neg (Nat.ne_of_lt hlt)]
  exact h

theorem State.Spells.typed (h : s.Spells ts s') (n : Node) (type : DataType) (t : Token) :
    Reads (typed n type t) (fun m s'' => s.Spells ts s'' ∧ ∃ id, m = n.withSymbol id) s' :=
  ⟨h.quiet (State.spells_scopes s' fun _ _ hs => symbol?_push hs), _, rfl⟩

theorem State.Spells.intern (h : s.Spells ts s') (key : String) (t : Token) (kind : Symbol.Kind)
    (type : DataType) (value : Symbol.Attribute) :
    Reads (intern key t kind type value) (fun _ s'' => s.Spells ts s'') s' := by
  rw [Parser.intern, Reads, wp_modifyGet]
  cases s'.scopes.resolveConstant key with
  | some id => exact h
  | none => exact h.quiet (State.spells_scopes s' fun _ _ hs => symbol?_push hs)

theorem State.Spells.createScope (h : s.Spells ts s') (name : String) :
    Reads (createScope name) (fun _ s'' => s.Spells ts s'') s' := by
  refine h.quiet (State.spells_scopes s' fun id sym hs => ?_)
  unfold Scopes.create
  split <;> exact hs

theorem State.Spells.leaveScope (h : s.Spells ts s') :
    Reads leaveScope (fun _ s'' => s.Spells ts s'') s' :=
  h.quiet (State.spells_scopes s' fun _ _ hs => hs)

end Symbols

section Checks

variable {p : Parser α}

theorem State.Spells.check (h : s.Spells ts s') (hp : Checks p) :
    Reads p (fun _ s'' => s.Spells ts s'') s' :=
  wp_mono (hp s') fun _ _ e => e ▸ h

theorem Checks.bind {β : Type} {f : α → Parser β} (hp : Checks p) (hf : ∀ a, Checks (f a)) :
    Checks (p >>= f) := by
  intro s
  rw [Reads, wp_bind]
  refine wp_mono (hp s) fun a s' e => ?_
  subst e
  exact hf a s'

theorem checks_fail (t : Token) (f : Fault) : Checks (fail t f : Parser α) := fun _ => trivial

theorem checks_unless {c : Prop} [Decidable c] {q : Parser PUnit} (hq : Checks q) :
    Checks (unless c do q) := by
  intro s
  by_cases hc : c <;> simp only [hc, if_true, if_false]
  · rfl
  · exact hq s

end Checks

end Parser

end StackCompiler
