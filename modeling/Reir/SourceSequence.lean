import Reir.ParserSequence
import Reir.TokenSlices

/-! Sequences of source texts. The tokens of one source behind a newline and another are the tokens
of the two, up to positions, and so are the statements unless the first goes on in the second. -/
namespace Reir
open StreamParser

/-- The same state, `d` characters further on and behind the tokens `pre`. Without a pending word the
start offset does not matter. -/
structure Shifted (d : ℕ) (pre : List Token) (s s' : Lexer) : Prop where
  ret : ∃ ret', s'.ret = pre ++ ret' ∧ List.Forall₂ SameImage s.ret ret'
  start : s.state ≠ .init → s'.start = s.start+d
  len : s'.len = s.len
  state : s'.state = s.state

/-- The source stands inside of `code'`, behind `d` characters. -/
def Inside (code code' : Text) (d : ℕ) : Prop :=
  ∀ j k, j+k ≤ code.length → slice code' (j+d) k = slice code j k

section Shifted
variable {code code' : Text} {d : ℕ} {pre : List Token} {s s' s₁ : Lexer}

theorem Shifted.ret_push (h : Shifted d pre s s') {t t' : Token} (ht : SameImage t t') :
    ∃ ret', s'.ret ++ [t'] = pre ++ ret' ∧ List.Forall₂ SameImage (s.ret ++ [t]) ret' := by
  obtain ⟨ret', heq, hsame⟩ := h.ret
  exact ⟨ret' ++ [t'], by simp [heq], List.rel_append hsame (.cons ht .nil)⟩

theorem Shifted.push (h : Shifted d pre s s') {t t' : Token} (ht : SameImage t t')
    {st : LexerState} (hst : s.state = st) :
    Shifted d pre { s with ret := s.ret ++ [t], state := st }
      { s' with ret := s'.ret ++ [t'], state := st } :=
  ⟨h.ret_push ht, fun hne => h.start (hst ▸ hne), h.len, rfl⟩

theorem nameToken_image (w : Text) (row col row' col' : Int) :
    SameImage (nameToken w row col) (nameToken w row' col') := by
  unfold nameToken
  split_ifs <;> rfl

theorem addToken_shifted (hin : Inside code code' d) (hs : Shifted d pre s s')
    (hle : s.start+s.len ≤ code.length) (h : addToken code s = .ok s₁) :
    ∃ s₁', addToken code' s' = .ok s₁' ∧ Shifted d pre s₁ s₁' := by
  have hinit : s.state ≠ .init := by
    intro hst
    simp [addToken, hst, bind, Except.bind] at h
  have hword : slice code' s'.start s'.len = slice code s.start s.len := by
    rw [hs.start hinit, hs.len, hin _ _ hle]
  unfold addToken at h ⊢
  rw [hs.state, hword]
  cases hst : s.state with
  | name =>
    rw [hst] at h
    rw [← Except.ok.inj h]
    exact ⟨_, rfl, hs.push (nameToken_image _ _ _ _ _) hst⟩
  | number =>
    rw [hst] at h
    rw [← Except.ok.inj h]
    refine ⟨_, rfl, hs.push ?_ hst⟩
    rfl
  | operator =>
    rw [hst] at h
    unfold addOperator at h ⊢
    cases hop : operatorToken (slice code s.start s.len) with
    | none =>
      simp [hop, bind, Except.bind] at h
    | some kind =>
      simp only [hop] at h ⊢
      rw [← Except.ok.inj h]
      refine ⟨_, rfl, hs.push ?_ hst⟩
      rfl
  | init => exact absurd hst hinit
  | string =>
    rw [hst] at h
    simp [bind, Except.bind] at h

/-- A pending word ends at the current character. -/
theorem LoopSlices.reaches {i : ℕ} (h : LoopSlices code s i) (hinit : s.state ≠ .init) :
    s.start+s.len = i := by
  unfold LoopSlices at h
  cases hst : s.state with
  | init => exact absurd hst hinit
  | string =>
    rw [hst] at h
    exact h.reaches
  | _ =>
    rw [hst] at h
    exact h.reaches

theorem flush_shifted (hin : Inside code code' d) (hs : Shifted d pre s s') {i : ℕ}
    (hslices : LoopSlices code s i) (hi : i ≤ code.length) (h : flush code s = .ok s₁) :
    ∃ s₁', flush code' s' = .ok s₁' ∧ Shifted d pre s₁ s₁' := by
  unfold flush at h ⊢
  rw [hs.state]
  split at h
  · rename_i hinit
    rw [if_pos hinit, ← Except.ok.inj h]
    exact ⟨s', rfl, hs⟩
  · rename_i hinit
    rw [if_neg hinit]
    have hreach := hslices.reaches hinit
    exact addToken_shifted hin hs (by omega) h

theorem stepString_shifted (hin : Inside code code' d) (hs : Shifted d pre s s') {i : ℕ}
    (hslices : LoopSlices code s i) (hst : s.state = .string) (hpos : 0 < s.len)
    (hi : i < code.length) (c : UInt8) :
    Shifted d pre (stepString code s i c) (stepString code' s' (i+d) c) := by
  have hreach := hslices.reaches (by simp [hst])
  unfold stepString
  split
  · have hword : slice code' (s'.start+1) (s'.len-1) = slice code (s.start+1) (s.len-1) := by
      rw [hs.start (by simp [hst]), hs.len, Nat.add_right_comm, hin _ _ (by omega)]
    refine ⟨hs.ret_push ?_, fun _ => rfl, rfl, rfl⟩
    rw [hword]
    rfl
  · exact ⟨hs.ret, hs.start, congrArg (· + 1) hs.len, hs.state⟩

theorem stepSymbol_shifted (hin : Inside code code' d) (hs : Shifted d pre s s') {i : ℕ}
    (hslices : LoopSlices code s i) (hi : i < code.length) {c : UInt8}
    (h : stepSymbol code s i c = .ok s₁) :
    ∃ s₁', stepSymbol code' s' (i+d) c = .ok s₁' ∧ Shifted d pre s₁ s₁' := by
  obtain ⟨s₂, hflush, h⟩ := bind_eq_ok_iff.mp h
  obtain ⟨s₂', hflush', hs₂⟩ := flush_shifted hin hs hslices hi.le hflush
  unfold stepSymbol
  rw [hflush']
  cases hkind : symbolToken c with
  | none => simp [hkind] at h
  | some kind =>
    simp only [hkind] at h
    rw [← Except.ok.inj h]
    refine ⟨_, rfl, ⟨hs₂.ret_push ?_, fun _ => rfl, rfl, rfl⟩⟩
    rw [hin _ _ hi]
    rfl

theorem stepDelimiter_shifted (hin : Inside code code' d) (hs : Shifted d pre s s') {i : ℕ}
    (hslices : LoopSlices code s i) (hi : i < code.length) {c : UInt8}
    (h : stepDelimiter code s i c = .ok s₁) :
    ∃ s₁', stepDelimiter code' s' (i+d) c = .ok s₁' ∧ Shifted d pre s₁ s₁' := by
  obtain ⟨s₂, hflush, h⟩ := bind_eq_ok_iff.mp h
  obtain ⟨s₂', hflush', hs₂⟩ := flush_shifted hin hs hslices hi.le hflush
  unfold stepDelimiter
  rw [hflush', ← Except.ok.inj h]
  refine ⟨_, rfl, ?_⟩
  split
  · exact ⟨hs₂.ret, fun _ => rfl, rfl, rfl⟩
  · exact ⟨hs₂.ret, fun _ => rfl, rfl, rfl⟩

/-- The branches that start or go on with a word. -/
theorem wordStep_shifted (hin : Inside code code' d) (hs : Shifted d pre s s') {i : ℕ}
    (hslices : LoopSlices code s i) (hi : i < code.length) {c : UInt8} (hst : s.state ≠ .string)
    (hclass : (charClass c).starts ≠ none) (h : lexStep code s i c = .ok s₁) :
    ∃ s₁', lexStep code' s' (i+d) c = .ok s₁' ∧ Shifted d pre s₁ s₁' := by
  have hst' : s'.state ≠ .string := hs.state ▸ hst
  by_cases hcont : (charClass c).continues s.state = true
  · have hcont' : (charClass c).continues s'.state = true := hs.state ▸ hcont
    have hnext := lexStep_continue code i hcont
    have hnext' := lexStep_continue code' (i+d) hcont'
    obtain rfl := Except.ok.inj (hnext.symm.trans h)
    exact ⟨_, hnext', ⟨hs.ret, hs.start, congrArg (· + 1) hs.len, hs.state⟩⟩
  · obtain ⟨state, hstate⟩ := Option.ne_none_iff_exists'.mp hclass
    have hnumber : ¬ (s.state = .number ∧ charClass c = .name) :=
      fun hn => lexStep_identifierInNumber hn.1 hn.2 h
    rw [lexStep_starts hst hstate hcont hnumber] at h
    rw [lexStep_starts hst' hstate (hs.state ▸ hcont) (hs.state ▸ hnumber)]
    obtain ⟨s₂, hflush, h⟩ := bind_eq_ok_iff.mp h
    obtain ⟨s₂', hflush', hs₂⟩ := flush_shifted hin hs hslices hi.le hflush
    obtain rfl := Except.ok.inj h
    rw [hflush']
    exact ⟨_, rfl, ⟨hs₂.ret, fun _ => rfl, rfl, rfl⟩⟩

theorem lexStep_shifted (hin : Inside code code' d) (hs : Shifted d pre s s') {i : ℕ}
    (hslices : LoopSlices code s i) (hi : i < code.length) {c : UInt8}
    (h : lexStep code s i c = .ok s₁) :
    ∃ s₁', lexStep code' s' (i+d) c = .ok s₁' ∧ Shifted d pre s₁ s₁' := by
  by_cases hst : s.state = .string
  · have hpos : 0 < s.len := by
      unfold LoopSlices at hslices
      rw [hst] at hslices
      exact hslices.nonempty
    rw [lexStep, if_pos hst] at h
    rw [lexStep, if_pos (hs.state.trans hst), ← Except.ok.inj h]
    exact ⟨_, rfl, stepString_shifted hin hs hslices hst hpos hi c⟩
  · have hst' : s'.state ≠ .string := hs.state ▸ hst
    cases hclass : charClass c with
    | quote =>
      rw [lexStep_class hst, hclass] at h
      rw [lexStep_class hst', hclass]
      obtain ⟨s₂, hflush, h⟩ := bind_eq_ok_iff.mp h
      obtain ⟨s₂', hflush', hs₂⟩ := flush_shifted hin hs hslices hi.le hflush
      obtain rfl := Except.ok.inj h
      simp only [hflush']
      exact ⟨_, rfl, ⟨hs₂.ret, fun _ => rfl, rfl, rfl⟩⟩
    | delimiter =>
      rw [lexStep_class hst, hclass] at h
      rw [lexStep_class hst', hclass]
      exact stepDelimiter_shifted hin hs hslices hi h
    | symbol =>
      rw [lexStep_class hst, hclass] at h
      rw [lexStep_class hst', hclass]
      exact stepSymbol_shifted hin hs hslices hi h
    | _ => exact wordStep_shifted hin hs hslices hi hst (by simp [hclass, CharClass.starts]) h

theorem lexLoop_shifted (hin : Inside code code' d) (hs : Shifted d pre s s') {i : ℕ}
    {rest : Text} (hslices : LoopSlices code s i) (hrest : code.drop i = rest)
    (h : lexLoop code s i rest = .ok s₁) :
    ∃ s₁', lexLoop code' s' (i+d) rest = .ok s₁' ∧ Shifted d pre s₁ s₁' := by
  induction rest generalizing s s' i with
  | nil =>
    rw [← Except.ok.inj h]
    exact ⟨s', rfl, hs⟩
  | cons c rest ih =>
    have hi := lt_of_drop_eq_cons hrest
    have hc := getElem?_of_drop_eq_cons hrest
    obtain ⟨s₂, hstep, h⟩ := bind_eq_ok_iff.mp h
    obtain ⟨s₂', hstep', hs₂⟩ := lexStep_shifted hin hs hslices hi hstep
    have hslices₂ := lexStep_slices hslices hi hc hstep
    have hrest₂ : code.drop (i+1) = rest := by
      rw [← List.drop_drop, hrest]
      rfl
    obtain ⟨s₁', hloop, hs₁⟩ := ih hs₂ hslices₂ hrest₂ h
    refine ⟨s₁', ?_, hs₁⟩
    rw [lexLoop, hstep']
    rw [Nat.add_right_comm] at hloop
    exact hloop

theorem lexFinish_eq_ok_iff {tokens : List Token} :
    lexFinish code s = .ok tokens ↔
      s.state ≠ .string ∧ ∃ s₁, flush code s = .ok s₁ ∧ s₁.ret = tokens := by
  unfold lexFinish flush
  cases hst : s.state with
  | init => simp
  | string => simp
  | _ => simp [bind_eq_ok_iff, pure, Except.pure]

/-- The tokens of a source inside of a longer one, up to the flush behind it. -/
theorem lexLoop_inside (hin : Inside code code' d) {tokens : List Token}
    (htok : tokenize code = .ok tokens) (hret : s'.ret = pre) (hinit : s'.state = .init)
    (hlen : s'.len = 0) :
    ∃ s₁' s₂' vs, lexLoop code' s' d code = .ok s₁' ∧ s₁'.state ≠ .string ∧
      flush code' s₁' = .ok s₂' ∧ s₂'.ret = pre ++ vs ∧ List.Forall₂ SameImage tokens vs := by
  obtain ⟨s₁, hloop, hfinish⟩ := bind_eq_ok_iff.mp htok
  have hstart : LoopSlices code ⟨[], 0, 0, 1, 0, .init⟩ 0 := ⟨[], rfl, Slices.nil code⟩
  have hshift : Shifted d pre ⟨[], 0, 0, 1, 0, .init⟩ s' :=
    ⟨⟨[], by simp [hret], .nil⟩, fun h => absurd rfl h, hlen, hinit⟩
  obtain ⟨s₁', hloop', hs₁⟩ := lexLoop_shifted hin hshift hstart rfl hloop
  have hslices := lexLoop_slices hstart (Nat.zero_le _) rfl hloop
  obtain ⟨hstring, s₂, hflush, rfl⟩ := lexFinish_eq_ok_iff.mp hfinish
  obtain ⟨s₂', hflush', hs₂⟩ := flush_shifted hin hs₁ hslices le_rfl hflush
  obtain ⟨vs, hvs, hsame⟩ := hs₂.ret
  rw [Nat.zero_add] at hloop'
  exact ⟨s₁', s₂', vs, hloop', hs₁.state ▸ hstring, hflush', hvs, hsame⟩

end Shifted

theorem tokenize_append {p q : Text} {tp tq : List Token} (hp : tokenize p = .ok tp)
    (hq : tokenize q = .ok tq) :
    ∃ us vs, tokenize (p ++ 10 :: q) = .ok (us ++ vs) ∧ List.Forall₂ SameImage tp us ∧
      List.Forall₂ SameImage tq vs := by
  have hinp : Inside p (p ++ 10 :: q) 0 := by
    intro j k hjk
    rw [slice, slice, Nat.add_zero, List.drop_append_of_le_length (by omega),
      List.take_append_of_le_length (by rw [List.length_drop]; omega)]
  have hinq : Inside q (p ++ 10 :: q) (p.length+1) := by
    intro j k _
    rw [slice, slice, Nat.add_comm j, ← List.drop_drop]
    simp
  obtain ⟨s₁, s₂, us, hloop, hstring, hflush, hret, hus⟩ :=
    lexLoop_inside hinp hp (rfl : (⟨[], 0, 0, 1, 0, .init⟩ : Lexer).ret = []) rfl rfl
  have hnewline : lexStep (p ++ 10 :: q) s₁ p.length 10 =
      .ok { s₂.reset .init p.length with row := s₂.row+1, col := -1 } := by
    have hclass : charClass 10 = .delimiter := by decide
    rw [lexStep_class hstring, hclass]
    simp only [stepDelimiter, hflush]
    rfl
  obtain ⟨s₃, s₄, vs, hloop₂, hstring₂, hflush₂, hret₂, hvs⟩ :=
    lexLoop_inside hinq hq
      (rfl : ({ s₂.reset .init p.length with row := s₂.row+1, col := -1 } : Lexer).ret = s₂.ret) rfl rfl
  refine ⟨us, vs, ?_, hus, hvs⟩
  rw [List.nil_append] at hret
  have hall : lexLoop (p ++ 10 :: q) ⟨[], 0, 0, 1, 0, .init⟩ 0 (p ++ 10 :: q) = .ok s₃ := by
    rw [lexLoop_append, hloop, Nat.zero_add]
    simp only [bind, Except.bind]
    rw [lexLoop, hnewline]
    exact hloop₂
  have hfinish : lexFinish (p ++ 10 :: q) s₃ = .ok (us ++ vs) :=
    lexFinish_eq_ok_iff.mpr ⟨hstring₂, s₄, hflush₂, hret ▸ hret₂⟩
  rw [tokenize, hall]
  exact hfinish

theorem parseLoop_refines (n : ℕ) : Refines (parseLoop n) (parseLoop (n+1)) := by
  induction n with
  | zero => exact Refines.timeout
  | succ n ih =>
    rw [parseLoop, parseLoop]
    refine (Refines.refl _).bind fun more => Refines.ite ?_ (Refines.refl _)
    exact (parseStatement_refines n).bind fun _ => ih.bind fun _ => Refines.refl _

/-- The loop returns exactly when all tokens are those of complete statements. -/
theorem yields_parseLoop_iff {ts r : List Token} {ss : List Statement} :
    Yields parseLoop ts ss r ↔ Statements ts ss [] ∧ r = [] := by
  constructor
  · rintro ⟨n, hn⟩
    induction n generalizing ts ss with
    | zero => simp [parseLoop] at hn
    | succ n ih =>
      cases ts with
      | nil =>
        obtain ⟨rfl, rfl⟩ := Outcome.ok.inj hn
        exact ⟨.nil [], rfl⟩
      | cons t us =>
        rw [parseLoop_cons] at hn
        obtain ⟨s, r₁, hs, hn⟩ := bind_eq_ok.mp hn
        obtain ⟨rest, r₂, hrest, hn⟩ := bind_eq_ok.mp hn
        obtain ⟨rfl, rfl⟩ := Outcome.ok.inj hn
        rcases statementStep_of_yields ⟨n, hs⟩ with ⟨rfl, hclose, hsame⟩ | ⟨⟨s, rfl⟩, -, -⟩
        · rw [hsame, parseLoop_atClose hclose n] at hrest
          simp at hrest
        · obtain ⟨hstatements, hr⟩ := ih hrest
          exact ⟨.cons ⟨n, hs⟩ hstatements, hr⟩
  · rintro ⟨h, rfl⟩
    induction ss generalizing ts with
    | nil =>
      cases h
      exact ⟨1, rfl⟩
    | cons s ss ih =>
      cases h with
      | @cons _ r₁ _ _ _ hs hrest =>
        obtain ⟨n, hn⟩ := hs
        obtain ⟨m, hm⟩ := ih hrest
        have hn' := (refines_of_le parseStatement_refines (le_max_left n m)).eq_ok hn
        have hm' := (refines_of_le parseLoop_refines (le_max_right n m)).eq_ok hm
        cases ts with
        | nil => exact absurd ⟨n, hn⟩ not_yields_nil
        | cons t us =>
          refine ⟨max n m+1, ?_⟩
          rw [parseLoop_cons, bind_ok hn', bind_ok hm']
          rfl

/-- `parse` returns, and these are the statements of its block. -/
def Accepts (code : Text) (ss : List Statement) : Prop := ∃ n rest, parse n code = .ok ss rest

theorem accepts_iff {code : Text} {ss : List Statement} :
    Accepts code ss ↔ ∃ tokens, tokenize code = .ok tokens ∧ Statements tokens ss [] := by
  constructor
  · rintro ⟨n, rest, h⟩
    unfold parse at h
    cases htok : tokenize code with
    | error e => simp [htok] at h
    | ok tokens =>
      rw [htok] at h
      exact ⟨tokens, rfl, (yields_parseLoop_iff.mp ⟨n, h⟩).1⟩
  · rintro ⟨tokens, htok, h⟩
    obtain ⟨n, hn⟩ := yields_parseLoop_iff.mpr ⟨h, rfl⟩
    exact ⟨n, [], by rw [parse, htok]; exact hn⟩

theorem accepts_iff_of_tokens {code : Text} {tokens : List Token} {ss : List Statement}
    (h : tokenize code = .ok tokens) : Accepts code ss ↔ Statements tokens ss [] := by
  rw [accepts_iff, h]
  simp

theorem Accepts.unique {code : Text} {ss ss' : List Statement} (h : Accepts code ss)
    (h' : Accepts code ss') : ss = ss' := by
  obtain ⟨tokens, htok, hss⟩ := accepts_iff.mp h
  exact hss.unique ((accepts_iff_of_tokens htok).mp h')

/-- The statements end in an expression. -/
def EndInExpression (ss : List Statement) : Prop :=
  ∃ s, ss.getLast? = some s ∧ s.endsInExpression = true

/-- The first token of the source is an opening parenthesis or bracket. -/
def StartsOpen (code : Text) : Prop := ∃ tokens, tokenize code = .ok tokens ∧ startsOpen tokens = true

theorem startsOpen_same {ts ts' : List Token} (h : List.Forall₂ SameImage ts ts') :
    startsOpen ts = startsOpen ts' := by
  cases h with
  | nil => rfl
  | cons ht _ => rw [startsOpen, startsOpen, ht.type]

/-- What starts a statement does not go on with the one in front of it, but for the brackets. -/
theorem stopsBefore_statements {vs : List Token} {qs : List Statement} (h : Statements vs qs [])
    {s : Statement} (hs : ¬ (s.endsInExpression = true ∧ startsOpen vs = true)) :
    s.StopsBefore vs := by
  cases h with
  | nil => exact ⟨fun _ => trivial, trivial⟩
  | cons hq _ =>
    obtain ⟨n, hn⟩ := hq
    cases vs with
    | nil => exact absurd ⟨n, hn⟩ not_yields_nil
    | cons t us =>
      cases n with
      | zero => simp [parseStatement] at hn
      | succ n =>
        rw [parseStatement, getToken, get_cons_bind] at hn
        unfold Statement.StopsBefore Stops NotElse
        dsimp only
        simp only [startsOpen] at hs
        cases hk : t.type <;> rw [hk] at hn hs <;> simp_all [continues, binaryOperator]

/-- A source behind another gives the statements of both, unless the first ends in an expression
and the second starts with an opening parenthesis or bracket. -/
theorem parse_sequence_iff {p q : Text} {ps qs : List Statement} (hp : Accepts p ps)
    (hq : Accepts q qs) :
    Accepts (p ++ 10 :: q) (ps ++ qs) ↔ ¬ (EndInExpression ps ∧ StartsOpen q) := by
  obtain ⟨tp, htp, hps⟩ := accepts_iff.mp hp
  obtain ⟨tq, htq, hqs⟩ := accepts_iff.mp hq
  obtain ⟨us, vs, htok, hus, hvs⟩ := tokenize_append htp htq
  have hqs' : Statements vs qs [] := by
    have hnil : Statements [] [] [] := .nil []
    have hcopy := hqs.append hvs hnil
      fun s _ => ⟨fun _ => trivial, trivial⟩
    simpa using hcopy
  have hopen : StartsOpen q ↔ startsOpen vs = true := by
    rw [StartsOpen, htq, ← startsOpen_same hvs]
    simp
  rw [accepts_iff_of_tokens htok, hopen]
  constructor
  · rintro hall ⟨⟨s, hlast, hs⟩, hstart⟩
    exact Statements.not_append hps hus hqs' hlast hs hstart hall
  · intro hnot
    refine Statements.append hps hus hqs' fun s hlast => stopsBefore_statements hqs' ?_
    exact fun h => hnot ⟨⟨s, hlast, h.1⟩, h.2⟩

theorem parse_sequence_iff_letEmit :
    Accepts (text "let x = 1\nemit x")
      ([.letStmt (text "x") (.primary {} (some (.int 1))) none] ++
        [.emit none (.variable {} (text "x"))]) := by
  have hp : Accepts (text "let x = 1") [.letStmt (text "x") (.primary {} (some (.int 1))) none] :=
    ⟨20, [], rfl⟩
  have hq : Accepts (text "emit x") [.emit none (.variable {} (text "x"))] := ⟨20, [], rfl⟩
  refine (parse_sequence_iff hp hq).mpr ?_
  rintro ⟨-, tokens, htok, hopen⟩
  have htokens : tokenize (text "emit x") =
      .ok [⟨.emit, text "emit", 1, 0⟩, ⟨.identifier, text "x", 5, 0⟩] := by decide
  rw [htokens] at htok
  rw [← Except.ok.inj htok] at hopen
  simp [startsOpen] at hopen

/-- `x` and `(1)` become the call of `x` with the argument 1. -/
theorem callBehindName_not_sequence :
    Accepts (text "x") [.exprStatement none (.variable {} (text "x"))] ∧
      Accepts (text "(1)") [.exprStatement none (.primary {} (some (.int 1)))] ∧
      ¬ Accepts (text "x\n(1)")
        ([.exprStatement none (.variable {} (text "x"))] ++
          [.exprStatement none (.primary {} (some (.int 1)))]) := by
  refine ⟨⟨20, [], rfl⟩, ⟨20, [], rfl⟩, fun h => ?_⟩
  have hcall : Accepts (text "x\n(1)") [.exprStatement none
      (.functionCall {} (.variable {} (text "x")) [.primary {} (some (.int 1))])] :=
    ⟨20, [], rfl⟩
  have hlength := congrArg List.length (hcall.unique h)
  simp at hlength

/-- Statements do not depend on the positions of the tokens. -/
theorem Statements.of_images {us us' : List Token} {ss : List Statement} (h : Statements us ss [])
    (hsame : us'.map Token.image = us.map Token.image) : Statements us' ss [] := by
  have hall : List.Forall₂ SameImage us us' := by
    have hsame' : List.Forall₂ (· = ·) (us.map Token.image) (us'.map Token.image) :=
      List.forall₂_eq_eq_eq ▸ hsame.symm
    rw [List.forall₂_map_left_iff, List.forall₂_map_right_iff] at hsame'
    exact hsame'
  have hnil := Statements.append h hall (.nil []) fun s _ => ⟨fun _ => trivial, trivial⟩
  simpa using hnil

/-- A source is a writing of a program: the tokenizer reads the tokens of its rendering, at any
positions. -/
def WrittenAs (code : Text) (p : Program) : Prop :=
  ∃ tokens, tokenize code = .ok tokens ∧
    tokens.map Token.image = (renderAll p.statements).map Token.image

/-- A writing of a program is accepted, and gives this program and no other. -/
theorem writing_accepts_iff {code : Text} {p : Program} (h : WrittenAs code p) (ss : List Statement) :
    Accepts code ss ↔ ss = p.statements := by
  obtain ⟨tokens, htok, hsame⟩ := h
  have hrender : Statements (renderAll p.statements) p.statements [] :=
    (yields_parseLoop_iff.mp (parseLoop_render p.printable p.separated).yields).1
  have hp : Accepts code p.statements := (accepts_iff_of_tokens htok).mpr (hrender.of_images hsame)
  constructor
  · intro hss
    exact hss.unique hp
  · rintro rfl
    exact hp

/-- `let x = 1` -/
def letProgramOne : Program where
  statements := [.letStmt (text "x") (.primary {} (some (.int 1))) none]
  printable := ⟨⟨⟨rfl, by simp [LiteralPrintable]⟩, by simp⟩, trivial⟩
  separated := trivial

theorem writing_accepts_iff_let :
    Accepts (text "let\n x =1") [.letStmt (text "x") (.primary {} (some (.int 1))) none] := by
  have hwritten : WrittenAs (text "let\n x =1") letProgramOne := ⟨_, rfl, by decide⟩
  exact (writing_accepts_iff hwritten _).mpr rfl

end Reir
