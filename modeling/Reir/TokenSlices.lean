import Reir.TokenizeRoundtrip

/-! Tokens as slices of the source. Between the slices the lexer leaves out white space and the
quotes of strings, and nothing else. -/
namespace Reir

/-- A character of a token that is not a string. -/
def WordChar (c : UInt8) : Prop := c ∉ delimiters ∧ c ≠ 34

/-- Tokens with their offsets, as the first `n` characters of the source have them. -/
structure Slices (code : Text) (n : ℕ) (placed : List (ℕ × Token)) : Prop where
  below : ∀ p ∈ placed, p.1 < n ∧ p.1+p.2.text.length ≤ n
  slice : ∀ p ∈ placed, Reir.slice code p.1 p.2.text.length = p.2.text
  ordered : placed.Pairwise fun p q => p.1 < q.1 ∧ p.1+p.2.text.length ≤ q.1
  outside : ∀ i < n, ∀ c, code[i]? = some c →
    (∀ p ∈ placed, ¬ (p.1 ≤ i ∧ i < p.1+p.2.text.length)) →
    c ∈ delimiters ∨ c = 34 ∧ ∃ p ∈ placed, p.2.type = .stringLiteral ∧
      (i+1 = p.1 ∨ i = p.1+p.2.text.length)
  words : ∀ p ∈ placed, p.2.type ≠ .stringLiteral → p.2.text ≠ [] ∧ ∀ c ∈ p.2.text, WordChar c

namespace Slices

variable {code : Text} {n : ℕ} {placed : List (ℕ × Token)}

theorem nil (code : Text) : Slices code 0 [] := by
  constructor <;> simp

theorem delimiter (h : Slices code n placed) {c : UInt8} (hc : code[n]? = some c)
    (hd : c ∈ delimiters) : Slices code (n+1) placed where
  below p hp := by
    have hb := h.below p hp
    omega
  slice := h.slice
  ordered := h.ordered
  outside i hi d hd' hfree := by
    rcases Nat.lt_succ_iff_lt_or_eq.mp hi with hi | rfl
    · exact h.outside i hi d hd' hfree
    · rw [hc, Option.some.injEq] at hd'
      exact .inl (hd' ▸ hd)
  words := h.words

/-- A token behind the others, up to the character `m`. -/
theorem append (h : Slices code n placed) {off m : ℕ} {t : Token} (hoff : n ≤ off) (hlt : off < m)
    (hm : off+t.text.length ≤ m) (hslice : Reir.slice code off t.text.length = t.text)
    (hout : ∀ i, n ≤ i → i < m → ∀ c, code[i]? = some c → ¬ (off ≤ i ∧ i < off+t.text.length) →
      c = 34 ∧ t.type = .stringLiteral ∧ (i+1 = off ∨ i = off+t.text.length))
    (hword : t.type ≠ .stringLiteral → t.text ≠ [] ∧ ∀ c ∈ t.text, WordChar c) :
    Slices code m (placed ++ [(off, t)]) where
  below p hp := by
    rcases List.mem_append.mp hp with hp | hp
    · have hb := h.below p hp
      omega
    · rw [List.mem_singleton.mp hp]
      exact ⟨hlt, hm⟩
  slice p hp := by
    rcases List.mem_append.mp hp with hp | hp
    · exact h.slice p hp
    · rw [List.mem_singleton.mp hp]
      exact hslice
  ordered := by
    rw [List.pairwise_append]
    refine ⟨h.ordered, List.pairwise_singleton _ _, fun p hp q hq => ?_⟩
    have hb := h.below p hp
    rw [List.mem_singleton.mp hq]
    dsimp only
    omega
  outside i hi c hc hfree := by
    by_cases hin : i < n
    · have hbefore := h.outside i hin c hc fun p hp => hfree p (by simp [hp])
      refine hbefore.imp_right fun ⟨hquote, p, hp, hstring⟩ => ?_
      exact ⟨hquote, p, by simp [hp], hstring⟩
    · have hnew := hout i (not_lt.mp hin) hi c hc (hfree (off, t) (by simp))
      exact .inr ⟨hnew.1, (off, t), by simp, hnew.2⟩
  words p hp := by
    rcases List.mem_append.mp hp with hp | hp
    · exact h.words p hp
    · rw [List.mem_singleton.mp hp]
      exact hword

end Slices

theorem slice_succ {code : Text} {start len : ℕ} {c : UInt8} (hc : code[start+len]? = some c) :
    slice code start (len+1) = slice code start len ++ [c] := by
  rw [slice, slice, List.take_add_one, List.getElem?_drop, hc]
  rfl

theorem length_slice {code : Text} {start len : ℕ} (h : start+len ≤ code.length) :
    (slice code start len).length = len := by
  rw [slice, List.length_take, List.length_drop]
  omega

/-- The tokens so far are the slices of the first `n` characters. -/
def Flushed (code : Text) (ret : List Token) (n : ℕ) : Prop :=
  ∃ placed : List (ℕ × Token), placed.map Prod.snd = ret ∧ Slices code n placed

theorem Flushed.append {code : Text} {ret : List Token} {n : ℕ} (h : Flushed code ret n) {m : ℕ}
    {t : Token} (off : ℕ)
    (ht : ∀ placed, Slices code n placed → Slices code m (placed ++ [(off, t)])) :
    Flushed code (ret ++ [t]) m := by
  obtain ⟨placed, rfl, hs⟩ := h
  exact ⟨placed ++ [(off, t)], by simp, ht placed hs⟩

/-- The word gathered since the last flush. -/
structure Pending (code : Text) (s : Lexer) (i : ℕ) : Prop where
  flushed : Flushed code s.ret s.start
  reaches : s.start+s.len = i
  nonempty : 0 < s.len
  chars : ∀ c ∈ slice code s.start s.len, WordChar c

structure PendingString (code : Text) (s : Lexer) (i : ℕ) : Prop where
  flushed : Flushed code s.ret s.start
  reaches : s.start+s.len = i
  nonempty : 0 < s.len
  quote : code[s.start]? = some 34

/-- What holds between two characters. -/
def LoopSlices (code : Text) (s : Lexer) (i : ℕ) : Prop :=
  match s.state with
  | .init => Flushed code s.ret i
  | .string => PendingString code s i
  | _ => Pending code s i

theorem reservedWords_not_string : ∀ r ∈ reservedWords, r.2 ≠ .stringLiteral := by
  decide

theorem symbolTable_not_string : ∀ r ∈ symbolTable, r.2 ≠ .stringLiteral := by
  decide

theorem operatorTokenList_not_string : ∀ r ∈ operatorTokenList, r.2 ≠ .stringLiteral := by
  decide

theorem asReserved_ne_string (w : Text) : asReserved w ≠ .stringLiteral := by
  unfold asReserved
  split
  · rename_i r hr
    exact reservedWords_not_string r (List.mem_of_find?_eq_some hr)
  · simp

theorem symbolToken_ne_string {c : UInt8} {kind : TokenType} (h : symbolToken c = some kind) :
    kind ≠ .stringLiteral := by
  obtain ⟨r, hr, rfl⟩ := Option.map_eq_some_iff.mp h
  exact symbolTable_not_string r (List.mem_of_find?_eq_some hr)

theorem operatorToken_ne_string {w : Text} {kind : TokenType} (h : operatorToken w = some kind) :
    kind ≠ .stringLiteral := by
  unfold operatorToken at h
  split at h
  · exact symbolToken_ne_string h
  · split at h
    · rename_i r hr
      rw [← Option.some.inj h]
      exact operatorTokenList_not_string r (List.mem_of_find?_eq_some hr)
    · rw [← Option.some.inj h]
      simp

/-- A flush adds one token with the text of the pending word. -/
theorem addToken_spec {code : Text} {s s' : Lexer} (h : addToken code s = .ok s') :
    ∃ t : Token, s' = { s with ret := s.ret ++ [t] } ∧ t.text = slice code s.start s.len ∧
      t.type ≠ .stringLiteral := by
  unfold addToken at h
  cases hst : s.state with
  | name =>
    rw [hst] at h
    refine ⟨_, (Except.ok.inj h).symm, ?_⟩
    unfold nameToken
    split
    · exact ⟨rfl, asReserved_ne_string _⟩
    · exact ⟨rfl, by simp⟩
  | number =>
    rw [hst] at h
    exact ⟨_, (Except.ok.inj h).symm, rfl, by simp⟩
  | operator =>
    rw [hst] at h
    obtain ⟨t, ht, h⟩ := bind_eq_ok_iff.mp h
    refine ⟨t, (Except.ok.inj h).symm, ?_⟩
    unfold addOperator at ht
    split at ht
    · rename_i kind hkind
      obtain rfl := Except.ok.inj ht
      exact ⟨rfl, operatorToken_ne_string hkind⟩
    · simp at ht
  | init =>
    rw [hst] at h
    simp [bind, Except.bind] at h
  | string =>
    rw [hst] at h
    simp [bind, Except.bind] at h

theorem Pending.addToken {code : Text} {s s' : Lexer} {i : ℕ} (h : Pending code s i)
    (hi : i ≤ code.length) (hadd : addToken code s = .ok s') : Flushed code s'.ret i := by
  obtain ⟨t, rfl, htext, hkind⟩ := addToken_spec hadd
  have hreach := h.reaches
  have hpos := h.nonempty
  have hlen : t.text.length = s.len := by
    rw [htext, length_slice (by omega)]
  refine h.flushed.append s.start fun placed hs => hs.append le_rfl (by omega) (by omega) ?_ ?_ ?_
  · rw [hlen, htext]
  · intro j hj hji c _ hfree
    omega
  · intro _
    refine ⟨?_, htext ▸ h.chars⟩
    intro hnil
    rw [hnil, List.length_nil] at hlen
    omega

theorem LoopSlices.flush {code : Text} {s s' : Lexer} {i : ℕ} (h : LoopSlices code s i)
    (hi : i ≤ code.length) (hs : s.state ≠ .string) (hflush : flush code s = .ok s') :
    Flushed code s'.ret i := by
  unfold Reir.flush at hflush
  unfold LoopSlices at h
  cases hst : s.state with
  | init =>
    rw [if_pos hst] at hflush
    rw [hst] at h
    rw [← Except.ok.inj hflush]
    exact h
  | string => exact absurd hst hs
  | _ =>
    rw [if_neg (by simp [hst])] at hflush
    rw [hst] at h
    exact Pending.addToken h hi hflush

theorem Pending.start {code : Text} {s : Lexer} {i : ℕ} {c : UInt8} (h : Flushed code s.ret i)
    (hs : s.start = i) (hlen : s.len = 1) (hc : code[i]? = some c) (hword : WordChar c) :
    Pending code s (i+1) where
  flushed := hs ▸ h
  reaches := by omega
  nonempty := by omega
  chars := by
    have hone := @slice_succ code i 0 c hc
    rw [hs, hlen, hone]
    simpa [slice] using hword

theorem Pending.next {code : Text} {s s' : Lexer} {i : ℕ} {c : UInt8} (h : Pending code s i)
    (hret : s'.ret = s.ret) (hs : s'.start = s.start) (hlen : s'.len = s.len+1)
    (hc : code[i]? = some c) (hword : WordChar c) : Pending code s' (i+1) where
  flushed := by
    rw [hret, hs]
    exact h.flushed
  reaches := by
    have hreach := h.reaches
    omega
  nonempty := by omega
  chars := by
    have hnext := slice_succ (c := c) (by rw [h.reaches]; exact hc)
    rw [hs, hlen, hnext]
    intro d hd
    rcases List.mem_append.mp hd with hd | hd
    · exact h.chars d hd
    · rw [List.mem_singleton.mp hd]
      exact hword

theorem wordChar_of_class {c : UInt8} (hq : charClass c ≠ .quote) (hd : charClass c ≠ .delimiter) :
    WordChar c := by
  unfold charClass at hq hd
  constructor
  · intro hmem
    split_ifs at hq hd with h34
    · exact hq rfl
    · exact hd rfl
  · intro h34
    rw [if_pos h34] at hq
    exact hq rfl

theorem mem_delimiters_of_class {c : UInt8} (h : charClass c = .delimiter) : c ∈ delimiters := by
  unfold charClass at h
  split_ifs at h with _ hd
  exact hd

theorem eq_quote_of_class {c : UInt8} (h : charClass c = .quote) : c = 34 := by
  unfold charClass at h
  split_ifs at h with hq
  exact hq

section

variable {code : Text} {s s' : Lexer} {i : ℕ} {c : UInt8}

theorem stepString_slices (h : PendingString code s i) (hs : s.state = .string)
    (hi : i < code.length) (hc : code[i]? = some c) :
    LoopSlices code (stepString code s i c) (i+1) := by
  have hreach := h.reaches
  have hpos := h.nonempty
  unfold stepString
  split
  · rename_i hquote
    have hlen : (slice code (s.start+1) (s.len-1)).length = s.len-1 := length_slice (by omega)
    refine h.flushed.append (s.start+1) fun placed hp => hp.append (by omega) (by omega) ?_ ?_ ?_ ?_
    · dsimp only
      omega
    · dsimp only
      rw [hlen]
    · intro j hj hji d hd hfree
      dsimp only at hfree ⊢
      rw [hlen] at hfree ⊢
      have hends : j = s.start ∨ j = i := by omega
      rcases hends with rfl | rfl
      · rw [h.quote, Option.some.injEq] at hd
        exact ⟨hd.symm, rfl, by omega⟩
      · rw [hc, Option.some.injEq] at hd
        exact ⟨hd ▸ hquote, rfl, by omega⟩
    · intro hne
      exact absurd rfl hne
  · unfold LoopSlices
    rw [hs]
    exact { flushed := h.flushed, reaches := by dsimp only; omega, nonempty := by simp,
            quote := h.quote }

theorem stepDelimiter_slices (h : LoopSlices code s i) (hs : s.state ≠ .string)
    (hi : i < code.length) (hc : code[i]? = some c) (hclass : charClass c = .delimiter)
    (hstep : stepDelimiter code s i c = .ok s') : LoopSlices code s' (i+1) := by
  obtain ⟨s₁, hflush, hstep⟩ := bind_eq_ok_iff.mp hstep
  obtain ⟨placed, hret, hp⟩ := h.flush hi.le hs hflush
  have hnext : Flushed code s₁.ret (i+1) :=
    ⟨placed, hret, hp.delimiter hc (mem_delimiters_of_class hclass)⟩
  rw [← Except.ok.inj hstep]
  split
  · exact hnext
  · exact hnext

theorem stepSymbol_slices (h : LoopSlices code s i) (hs : s.state ≠ .string)
    (hi : i < code.length) (hc : code[i]? = some c) (hclass : charClass c = .symbol)
    (hstep : stepSymbol code s i c = .ok s') : LoopSlices code s' (i+1) := by
  obtain ⟨s₁, hflush, hstep⟩ := bind_eq_ok_iff.mp hstep
  have hflushed := h.flush hi.le hs hflush
  split at hstep
  · rename_i kind hkind
    rw [← Except.ok.inj hstep]
    have hone : slice code i 1 = [c] := by
      rw [@slice_succ code i 0 c hc]
      rfl
    refine hflushed.append i fun placed hp => hp.append le_rfl (by omega) ?_ ?_ ?_ ?_
    · simp [hone]
    · simp [hone]
    · intro j hj hji d _ hfree
      simp only [hone, List.length_singleton] at hfree
      omega
    · intro _
      have hword := wordChar_of_class (c := c) (by simp [hclass]) (by simp [hclass])
      simpa [hone] using hword
  · simp at hstep

theorem stepQuote_slices (h : LoopSlices code s i) (hs : s.state ≠ .string)
    (hi : i < code.length) (hc : code[i]? = some c) (hclass : charClass c = .quote)
    (hstep : (do
      let s ← flush code s
      pure { s with state := .string, start := i, len := 1 }) = Except.ok s') :
    LoopSlices code s' (i+1) := by
  obtain ⟨s₁, hflush, hstep⟩ := bind_eq_ok_iff.mp hstep
  have hflushed := h.flush hi.le hs hflush
  rw [← Except.ok.inj hstep]
  exact { flushed := hflushed, reaches := rfl, nonempty := Nat.one_pos,
          quote := eq_quote_of_class hclass ▸ hc }

/-- A character of a word goes on with the pending word, or starts one behind what was flushed. -/
theorem LoopSlices.word (hinit : s'.state ≠ .init) (hstring : s'.state ≠ .string)
    (hc : code[i]? = some c) (hword : WordChar c)
    (h : (Flushed code s'.ret i ∧ s'.start = i ∧ s'.len = 1) ∨
      (Pending code s i ∧ s'.ret = s.ret ∧ s'.start = s.start ∧ s'.len = s.len+1)) :
    LoopSlices code s' (i+1) := by
  have hpending : Pending code s' (i+1) := by
    rcases h with ⟨hflushed, hs, hlen⟩ | ⟨hp, hret, hs, hlen⟩
    · exact Pending.start hflushed hs hlen hc hword
    · exact hp.next hret hs hlen hc hword
  unfold LoopSlices
  cases hst : s'.state with
  | init => exact absurd hst hinit
  | string => exact absurd hst hstring
  | _ => exact hpending

/-- A letter behind a number. -/
theorem lexStep_identifierInNumber (hs : s.state = .number) (hc : charClass c = .name) :
    lexStep code s i c ≠ .ok s' := by
  intro hstep
  rw [lexStep_class (by simp [hs]), hc] at hstep
  simp [stepName, hs, bind, Except.bind] at hstep

/-- What the branches for operators, digits and other characters have in common: a character that
does not go on with the pending word flushes it and starts one. -/
theorem lexStep_starts {state : LexerState} (hs : s.state ≠ .string)
    (hclass : (charClass c).starts = some state) (hcont : (charClass c).continues s.state ≠ true)
    (hnumber : ¬ (s.state = .number ∧ charClass c = .name)) :
    lexStep code s i c = flush code s >>= fun s₁ =>
      .ok { s₁ with state := state, start := i, len := 1,
                    col := if charClass c = .name then s₁.col+1 else s₁.col } := by
  rw [lexStep_class hs]
  unfold flush
  cases hc : charClass c <;> rw [hc] at hclass hcont hnumber <;>
    simp only [CharClass.starts, Option.some.injEq, reduceCtorEq] at hclass <;> subst hclass
  · cases hst : s.state with
    | string => exact absurd hst hs
    | operator => simp [hst, CharClass.continues] at hcont
    | init => simp [stepOperator, hst, Lexer.reset, pure, Except.pure, bind, Except.bind]
    | _ => simp [stepOperator, hst, Lexer.reset, pure, Except.pure, bind, Except.bind]
  · cases hst : s.state with
    | string => exact absurd hst hs
    | name => simp [hst, CharClass.continues] at hcont
    | number => simp [hst, CharClass.continues] at hcont
    | init => simp [stepNumber, hst, Lexer.reset, pure, Except.pure, bind, Except.bind]
    | operator => simp [stepNumber, hst, Lexer.reset, pure, Except.pure, bind, Except.bind]
  · cases hst : s.state with
    | string => exact absurd hst hs
    | name => simp [hst, CharClass.continues] at hcont
    | number => exact absurd ⟨hst, rfl⟩ hnumber
    | init => simp [stepName, hst, Lexer.reset, pure, Except.pure, bind, Except.bind]
    | operator => simp [stepName, hst, Lexer.reset, pure, Except.pure, bind, Except.bind]

theorem CharClass.starts_word {k : CharClass} {state : LexerState} (h : k.starts = some state) :
    state ≠ .init ∧ state ≠ .string := by
  cases k <;> simp only [CharClass.starts, Option.some.injEq, reduceCtorEq] at h <;> subst h <;>
    simp

/-- A character of a word starts one behind the flushed tokens, or goes on with the pending one. -/
theorem lexStep_word (hs : s.state ≠ .string) (hclass : (charClass c).starts ≠ none)
    (hstep : lexStep code s i c = .ok s') :
    s'.state ≠ .init ∧ s'.state ≠ .string ∧
      ((∃ s₁, flush code s = .ok s₁ ∧ s'.ret = s₁.ret ∧ s'.start = i ∧ s'.len = 1) ∨
        (s.state ≠ .init ∧ s'.ret = s.ret ∧ s'.start = s.start ∧ s'.len = s.len+1)) := by
  by_cases hcont : (charClass c).continues s.state = true
  · have hnext := lexStep_continue code i hcont
    obtain rfl := Except.ok.inj (hnext.symm.trans hstep)
    have hinit : s.state ≠ .init := by
      intro hst
      rw [hst] at hcont
      simp [CharClass.continues] at hcont
    exact ⟨hinit, hs, .inr ⟨hinit, rfl, rfl, rfl⟩⟩
  · obtain ⟨state, hstate⟩ := Option.ne_none_iff_exists'.mp hclass
    have hnumber : ¬ (s.state = .number ∧ charClass c = .name) :=
      fun h => lexStep_identifierInNumber h.1 h.2 hstep
    rw [lexStep_starts hs hstate hcont hnumber] at hstep
    obtain ⟨s₁, hflush, hstep⟩ := bind_eq_ok_iff.mp hstep
    obtain rfl := Except.ok.inj hstep
    have hword := CharClass.starts_word hstate
    exact ⟨hword.1, hword.2, .inl ⟨s₁, hflush, rfl, rfl, rfl⟩⟩

theorem stepWord_slices (h : LoopSlices code s i) (hs : s.state ≠ .string)
    (hi : i < code.length) (hc : code[i]? = some c) (hclass : (charClass c).starts ≠ none)
    (hstep : lexStep code s i c = .ok s') : LoopSlices code s' (i+1) := by
  have hword : WordChar c := by
    refine wordChar_of_class ?_ ?_
    · intro hq
      simp [hq, CharClass.starts] at hclass
    · intro hd
      simp [hd, CharClass.starts] at hclass
  obtain ⟨hinit, hstring, hpending⟩ := lexStep_word hs hclass hstep
  refine LoopSlices.word (s := s) hinit hstring hc hword (hpending.imp ?_ ?_)
  · rintro ⟨s₁, hflush, hret, hstart⟩
    exact ⟨hret ▸ h.flush hi.le hs hflush, hstart⟩
  · rintro ⟨hne, hsame⟩
    refine ⟨?_, hsame⟩
    unfold LoopSlices at h
    cases hst : s.state with
    | init => exact absurd hst hne
    | string => exact absurd hst hs
    | _ =>
      rw [hst] at h
      exact h

theorem lexStep_slices (h : LoopSlices code s i) (hi : i < code.length) (hc : code[i]? = some c)
    (hstep : lexStep code s i c = .ok s') : LoopSlices code s' (i+1) := by
  by_cases hs : s.state = .string
  · rw [lexStep, if_pos hs] at hstep
    rw [← Except.ok.inj hstep]
    unfold LoopSlices at h
    rw [hs] at h
    exact stepString_slices h hs hi hc
  · have hcases := hstep
    rw [lexStep_class hs] at hcases
    cases hclass : charClass c with
    | quote =>
      rw [hclass] at hcases
      exact stepQuote_slices h hs hi hc hclass hcases
    | delimiter =>
      rw [hclass] at hcases
      exact stepDelimiter_slices h hs hi hc hclass hcases
    | symbol =>
      rw [hclass] at hcases
      exact stepSymbol_slices h hs hi hc hclass hcases
    | _ => exact stepWord_slices h hs hi hc (by simp [hclass, CharClass.starts]) hstep

end

theorem lt_of_drop_eq_cons {code rest : Text} {i : ℕ} {c : UInt8} (h : code.drop i = c :: rest) :
    i < code.length := by
  by_contra hge
  rw [List.drop_eq_nil_iff.mpr (not_lt.mp hge)] at h
  simp at h

theorem getElem?_of_drop_eq_cons {code rest : Text} {i : ℕ} {c : UInt8}
    (h : code.drop i = c :: rest) : code[i]? = some c := by
  have hhead := congrArg (fun l => l[0]?) h
  simpa using hhead

theorem lexLoop_slices {code rest : Text} {s s' : Lexer} {i : ℕ} (h : LoopSlices code s i)
    (hle : i ≤ code.length) (hrest : code.drop i = rest) (hloop : lexLoop code s i rest = .ok s') :
    LoopSlices code s' code.length := by
  induction rest generalizing s i with
  | nil =>
    have hlen : code.length ≤ i := List.drop_eq_nil_iff.mp hrest
    rw [← Except.ok.inj hloop, le_antisymm hlen hle]
    exact h
  | cons c rest ih =>
    obtain ⟨s₁, hstep, hloop⟩ := bind_eq_ok_iff.mp hloop
    have hi := lt_of_drop_eq_cons hrest
    have hc := getElem?_of_drop_eq_cons hrest
    refine ih (lexStep_slices h hi hc hstep) hi ?_ hloop
    rw [← List.drop_drop, hrest]
    rfl

theorem lexFinish_slices {code : Text} {s : Lexer} {tokens : List Token}
    (h : LoopSlices code s code.length) (hfinish : lexFinish code s = .ok tokens) :
    Flushed code tokens code.length := by
  unfold LoopSlices at h
  unfold lexFinish at hfinish
  cases hst : s.state with
  | init =>
    rw [hst] at h hfinish
    rw [← Except.ok.inj hfinish]
    exact h
  | string =>
    rw [hst] at hfinish
    simp at hfinish
  | _ =>
    rw [hst] at h hfinish
    obtain ⟨s₁, hadd, hret⟩ := bind_eq_ok_iff.mp hfinish
    rw [← Except.ok.inj hret]
    exact Pending.addToken h le_rfl hadd

/-- The texts of the tokens are slices of the source that follow each other. What lies outside of
them is white space and the two quotes of each string, and the text of a token that is no string
is a word. -/
theorem tokenize_slices {code : Text} {tokens : List Token} (h : tokenize code = .ok tokens) :
    ∃ placed : List (ℕ × Token), placed.map Prod.snd = tokens ∧
      Slices code code.length placed := by
  obtain ⟨s, hloop, hfinish⟩ := bind_eq_ok_iff.mp h
  have hstart : LoopSlices code ⟨[], 0, 0, 1, 0, .init⟩ 0 := ⟨[], rfl, Slices.nil code⟩
  exact lexFinish_slices (lexLoop_slices hstart (Nat.zero_le _) rfl hloop) hfinish

theorem tokenize_slices_string :
    ∃ placed : List (ℕ × Token), placed.map (fun p => p.2.text) = [text "x", text "=", text "a b"] ∧
      Slices (text "x = \"a b\"") 9 placed := by
  have htokens : tokenize (text "x = \"a b\"") =
      .ok [⟨.identifier, text "x", 1, 0⟩, ⟨.equal, text "=", 1, 1⟩,
        ⟨.stringLiteral, text "a b", 1, 4⟩] := by
    decide +kernel
  obtain ⟨placed, hplaced, hslices⟩ := tokenize_slices htokens
  refine ⟨placed, ?_, hslices⟩
  have htexts := congrArg (List.map Token.text) hplaced
  rw [List.map_map] at htexts
  exact htexts

end Reir
