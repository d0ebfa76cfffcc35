import Reir.CompiledRuns

/-! Transactions. Every `Transaction` calls `begin_xct` before its statements and `precommit_xct`
behind them, so the calls of a run pair up unless one transaction is inside of another, a jump
leaves a transaction, or the program calls these functions itself. -/
namespace Reir
open Gen StructuredCode

def beginXct : Text := text "__begin_xct"

def precommitXct : Text := text "__precommit_xct"

/-- Whether an event begins a transaction (`true`) or ends one (`false`). -/
def Event.xct (e : Event) : Option Bool :=
  if e.callee = some beginXct then some true
  else if e.callee = some precommitXct then some false
  else none

def xctCalls (es : List Event) : List Bool := es.filterMap Event.xct

/-- The calls of transactions one after another. -/
def xctPairs (n : ℕ) : List Bool := (List.replicate n [true, false]).flatten

/-- Some transactions have been ended, and another one has been begun or not. -/
def InXct (o : Bool) (d : Data) : Prop :=
  ∃ n, xctCalls d.trace = xctPairs n ++ if o then [true] else []

/-- The frames have a transaction among them. -/
def inXct (fs : List Frame) : Bool := fs.contains .transaction

/-- An event that does not break the brackets of transactions: a jump that leaves no transaction, the
begin of one outside of any other, and a call in the program of any other function. -/
def Event.bracketed : Event → Bool
  | .branch ⟨.jump fs, _⟩ _ => staysIn .transaction fs
  | .call ⟨.transaction fs, _⟩ f _ _ _ => f ≠ beginXct || !inXct fs
  | .call ⟨.functionCall, _⟩ f _ _ _ => f ≠ beginXct && f ≠ precommitXct
  | _ => true

section
variable (fs : List Frame)

@[simp] theorem inXct_transaction : inXct (.transaction :: fs) = true := by simp [inXct]

@[simp] theorem inXct_loop : inXct (.loop :: fs) = inXct fs := by simp [inXct]

@[simp] theorem inXct_scan : inXct (.scan :: fs) = inXct fs := by simp [inXct]

end

/-- The functions of a program that are not those of transactions. -/
def NotXct (f : Text) : Prop := f ≠ beginXct ∧ f ≠ precommitXct

/-- The program may call what it likes. -/
abbrev XctCall (o : Origin) (f : Text) : Prop := o = .functionCall ∨ NotXct f

theorem xctCalls_append {es es' : List Event} (h : ∀ e ∈ es', ∀ f ∈ e.callee, NotXct f) :
    xctCalls (es ++ es') = xctCalls es := by
  have hnone : xctCalls es' = [] := by
    rw [xctCalls, List.filterMap_eq_nil_iff]
    intro e he
    have hcallee := h e he
    unfold Event.xct
    rw [if_neg, if_neg]
    · intro hf
      exact (hcallee _ hf).2 rfl
    · intro hf
      exact (hcallee _ hf).1 rfl
  rw [xctCalls, List.filterMap_append]
  change xctCalls es ++ xctCalls es' = _
  rw [hnone, List.append_nil]

theorem InXct.append {o : Bool} {d d' : Data} {es : List Event} (htrace : d'.trace = d.trace ++ es)
    (hes : ∀ e ∈ es, ∀ f ∈ e.callee, NotXct f) (h : InXct o d) : InXct o d' := by
  obtain ⟨n, hn⟩ := h
  refine ⟨n, ?_⟩
  rw [← hn, htrace]
  exact xctCalls_append hes

theorem Event.Straight.notXct {e : Event} (h : e.Straight XctCall) (hok : e.bracketed = true) :
    ∀ f ∈ e.callee, NotXct f := by
  intro f hf
  cases e with
  | call tag g args behind result =>
    obtain ⟨origin, n⟩ := tag
    obtain rfl := Option.some.inj hf
    obtain horigin | hnot := h
    · obtain rfl : origin = .functionCall := horigin
      simpa [Event.bracketed, NotXct] using hok
    · exact hnot
  | _ => exact absurd hf (by simp [Event.callee])

/-- Unless the run has come to an event that breaks the brackets, the fact holds and a transaction
has been begun exactly if there is one among the frames. -/
abbrev XctState (fs : List Frame) (p : Prop) (d : Data) : Prop := p ∧ InXct (inXct fs) d

theorem xctInvariant : FrameInvariant XctCall Event.bracketed XctState where
  straight := fun htrace hes hd =>
    ⟨hd.1, hd.2.append htrace fun e he => (hes e he).1.notXct (hes e he).2⟩
  note := by
    intro fs p d tag b hd
    have hcallee : ∀ e ∈ [Event.branch tag b], ∀ f ∈ e.callee, NotXct f := by simp [Event.callee]
    exact ⟨hd.1, hd.2.append rfl hcallee⟩
  loop := by simp

/-- The code of a statement inside of frames leaves the transactions as they were. -/
abbrev KeepsXct (T : Ctx) (fs : List Frame) (p : Gen Unit) : Prop :=
  KeepsIn T .transaction Event.bracketed XctState fs p

theorem notXct_scanFunctions : ∀ f ∈ scanFunctions, NotXct f := by
  unfold NotXct
  decide

section
variable {T : Ctx} {fs : List Frame}

theorem keepsXct_scanCode (table rowName : Text) (frame : ScanFrame) {blk : Gen Unit}
    (hblk : KeepsXct T (.scan :: fs) blk) : KeepsXct T fs (scanCode table rowName frame blk) := by
  have hblk' : KeepsXct T fs blk :=
    FrameInvariant.through (by simp) (fun p d => by simp [XctState]) hblk
  exact runs_scanCode (S := XctCall) (fun hp => xctInvariant.value hp)
    (fun _ _ b hd => ⟨trivial, xctInvariant.noted fs ⟨.scan, 0⟩ b hd⟩)
    (fun f hf => .inr (notXct_scanFunctions f hf)) table rowName frame hblk'

theorem InXct.begin {d d' : Data} {tag : Tag} {args behind : List Val} {result : Val}
    (htrace : d'.trace = d.trace ++ [.call tag beginXct args behind result]) (h : InXct false d) :
    InXct true d' := by
  obtain ⟨n, hn⟩ := h
  refine ⟨n, ?_⟩
  rw [htrace, xctCalls, List.filterMap_append]
  change xctCalls d.trace ++ _ = _
  rw [hn]
  simp [Event.xct, Event.callee]

theorem InXct.precommit {d d' : Data} {tag : Tag} {args behind : List Val} {result : Val}
    (htrace : d'.trace = d.trace ++ [.call tag precommitXct args behind result]) (h : InXct true d) :
    InXct false d' := by
  obtain ⟨n, hn⟩ := h
  refine ⟨n+1, ?_⟩
  have hne : precommitXct ≠ beginXct := by decide
  rw [htrace, xctCalls, List.filterMap_append]
  change xctCalls d.trace ++ _ = _
  rw [hn]
  simp [Event.xct, Event.callee, hne, xctPairs, List.replicate_succ']

/-- The call that begins or ends a transaction. -/
theorem runs_xctCall {tag : Tag} {f : Text} {E : Prop → Exit → Data → Prop} {I J : Prop → Data → Prop}
    (hE : ∀ p d, E p .running d) (hf : Data.writesBuffer f = false)
    (hstep : ∀ {p d d' args behind result}, d'.trace = d.trace ++ [.call tag f args behind result] →
      Event.bracketed (.call tag f args behind result) = true → I p d → J p d') (args : List LLValue) :
    (createCall tag f args).Runs T true E (fun p => Upto Event.bracketed (I p))
      fun p => Upto Event.bracketed (J p) := by
  refine meets_createCall ?_
  intro p e d ty _ hd _
  refine ⟨fun hall => ?_, hE p _⟩
  have htrace := Data.call_trace d e.nextReg tag (args.map d.eval) hf
  rw [htrace, List.all_append, Bool.and_eq_true] at hall
  exact hstep htrace (by simpa using hall.2) (hd hall.1)

/-- A transaction inside of another one breaks the brackets where it begins, so nothing is to be shown
of what comes behind. -/
theorem keepsXct_transactionCode {blk : Gen Unit} (hblk : KeepsXct T (.transaction :: fs) blk) :
    KeepsXct T fs (transactionCode fs blk) := by
  let E := jumpExits .transaction Event.bracketed XctState fs
  let I (p : Prop) : Data → Prop := XctState (.transaction :: fs) (p ∧ inXct fs = false)
  have hbegin : ∀ args, (createCall ⟨.transaction fs, 0⟩ beginXct args).Runs T true E
      (fun p => Upto Event.bracketed (XctState fs p)) fun p => Upto Event.bracketed (I p) := by
    refine runs_xctCall (fun _ _ => trivial) (by decide) ?_
    intro p d d' args behind result htrace hok hd
    have hout : inXct fs = false := by simpa [Event.bracketed] using hok
    refine ⟨⟨hd.1, hout⟩, ?_⟩
    rw [inXct_transaction]
    exact InXct.begin htrace (hout ▸ hd.2)
  have hprecommit : ∀ args, (createCall ⟨.transaction fs, 0⟩ precommitXct args).Runs T true E
      (fun p => Upto Event.bracketed (I p)) fun p => Upto Event.bracketed (XctState fs p) := by
    refine runs_xctCall (fun _ _ => trivial) (by decide) ?_
    intro p d d' args behind result htrace _ hd
    obtain ⟨⟨hp, hout⟩, hin⟩ := hd
    rw [inXct_transaction] at hin
    refine ⟨hp, ?_⟩
    rw [hout]
    exact hin.precommit htrace
  have hblk' : blk.Runs T true E (fun p => Upto Event.bracketed (I p)) fun p => Upto Event.bracketed (I p) := by
    refine hblk.adapt fun p e d hd _ =>
      ⟨p ∧ inXct fs = false, hd, trivial, fun _ _ _ hd' _ => ⟨hd', trivial⟩, ?_⟩
    intro z d' hz
    cases z with
    | brk => exact fun hall => absurd (hz hall).1 (by simp [staysIn_cons])
    | cont => exact fun hall => absurd (hz hall).1 (by simp [staysIn_cons])
    | normal => trivial
    | running => trivial
  exact (hbegin _).bind fun _ => hblk'.bind fun _ => (hprecommit _).bind fun _ =>
    meets_pure () fun _ _ _ hd _ => hd

theorem xctRules (T : Ctx) : NestRules T XctCall (fun _ => True) (KeepsXct T) := by
  refine xctInvariant.nestRules (.inr ?_) (.inr ?_) (fun _ => .inl rfl) (fun fs h => h)
    (fun _ table rowName frame _ h => keepsXct_scanCode table rowName frame h)
    fun _ _ h => keepsXct_transactionCode h
  · unfold NotXct
    decide
  · unfold NotXct
    decide

end

section
variable {ss ss' : List Statement} {c c' : Ctx} {d : Data} {m : ℕ} {s : State Data}

theorem xctCalls_of_bracketed (hp : (passes ss).run Ctx.initial = .ok (ss', c))
    (h : (compile ss).run Ctx.initial = .ok (ss', c'))
    (hheads : SitesAll (fun x => x.2 ≠ .noCondition) [] ss') (hd : d.trace = [])
    (hrun : machine.Run (functionOf c'.blocks) m (startOf d) s)
    (hreturns : machine.Returns (functionOf c'.blocks) s)
    (hall : s.data.trace.all Event.bracketed = true) : ∃ k, xctCalls s.data.trace = xctPairs k := by
  have hcode := (xctRules c.tables).codegenAll (fun _ _ => trivial) hheads
  have hstart : Upto Event.bracketed (XctState [] True) d := fun _ => ⟨trivial, 0, by rw [hd]; rfl⟩
  obtain ⟨-, hend⟩ := compile_runs (x := True) hp h hcode hstart trivial hrun
  obtain ⟨-, k, hk⟩ := hend hreturns hall
  refine ⟨k, ?_⟩
  rw [hk]
  exact List.append_nil _

end

/-- In every run of a parsed program that returns, the calls of `begin_xct` and `precommit_xct` are
pairs one after another, if no jump of the run leaves a transaction, no transaction of the run begins
inside of another, and the program does not call these functions itself. -/
theorem xctCalls_alternate {n : ℕ} {code : Text} {ss : List Statement} {rest : List Token}
    {blocks : List (List Instr)} (hparse : parse n code = .ok ss rest)
    (hcompile : compiledBlocks ss = some blocks) {d : Data} (hd : d.trace = []) {m : ℕ} {s : State Data}
    (hrun : machine.Run (functionOf blocks) m (startOf d) s)
    (hreturns : machine.Returns (functionOf blocks) s)
    (hall : s.data.trace.all Event.bracketed = true) : ∃ k, xctCalls s.data.trace = xctPairs k := by
  obtain ⟨ss', c, c', hp, h, rfl, herase⟩ := compiledBlocks_eq_some hcompile
  exact xctCalls_of_bracketed hp h (((parse_headed hparse).sites []).of_erase herase) hd hrun hreturns hall

/-- The first `break` would leave its transaction, but no run comes to it. -/
def guardedBreak : Text :=
  text "for let i = 0; i < 1; i = i + 1 { transaction { if 0 < 1 { } else { break } } break }"

theorem xctCalls_alternate_guardedBreak :
    ∃ ss rest blocks s, parse 40 guardedBreak = .ok ss rest ∧ compiledBlocks ss = some blocks ∧
      (blankData 0).trace = [] ∧ machine.Run (functionOf blocks) 13 (startOf (blankData 0)) s ∧
      machine.Returns (functionOf blocks) s ∧ s.data.trace.all Event.bracketed = true ∧
      ∃ k, xctCalls s.data.trace = xctPairs k := by
  have htrace : (returnTrace 40 guardedBreak (blankData 0) 13).any (List.all · Event.bracketed) = true := by
    decide +kernel
  obtain ⟨es, hes, hall⟩ := (Option.any_eq_true _ _).mp htrace
  obtain ⟨ss, rest, blocks, s, hparse, hcompile, hrun, hreturns, rfl⟩ := returnTrace_eq_some hes
  exact ⟨ss, rest, blocks, s, hparse, hcompile, rfl, hrun, hreturns, hall,
    xctCalls_alternate hparse hcompile rfl hrun hreturns hall⟩

/-- No transaction inside of another one, no jump that leaves a transaction, and no call of the
functions of transactions. -/
def bracketed : List Frame × Site → Bool
  | (fs, .transaction) => !inXct fs
  | (fs, .jump) => staysIn .transaction fs
  | (_, .call f) => f ≠ beginXct && f ≠ precommitXct
  | (_, .noCondition) => true

theorem bracketedSites : AllowedSites
    (fun o f => (o = .functionCall → NotXct f) ∧ ∀ fs, o ≠ .transaction fs) Event.bracketed
    fun x => bracketed x = true where
  straight := by
    intro e he
    cases e with
    | call tag f args behind result =>
      obtain ⟨origin, n⟩ := tag
      cases origin with
      | functionCall => simpa [Event.bracketed, NotXct] using he.1 rfl
      | transaction fs => exact absurd rfl (he.2 fs)
      | _ => rfl
    | branch tag b => exact he.elim
    | _ => rfl
  branch := by
    rintro ⟨origin, n⟩ b htag
    cases origin with
    | jump fs => exact absurd rfl (htag fs)
    | _ => rfl
  emitFunc := by simp
  insert := by simp
  scan := by simp
  call := fun fs f h => by simpa [bracketed, NotXct] using h
  jump := fun fs h => h
  transaction := by
    intro fs f args behind result h
    have hout : (!inXct fs) = true := h
    simp [Event.bracketed, hout]

/-- The brackets of a program whose tree has no place to break them. -/
theorem xctCalls_pair_of_sites {n : ℕ} {code : Text} {ss : List Statement} {rest : List Token}
    {blocks : List (List Instr)} (hparse : parse n code = .ok ss rest)
    (hcompile : compiledBlocks ss = some blocks) (hsites : (sitesAll [] ss).all bracketed = true)
    {d : Data} (hd : d.trace = []) {m : ℕ} {s : State Data}
    (hrun : machine.Run (functionOf blocks) m (startOf d) s)
    (hreturns : machine.Returns (functionOf blocks) s) : ∃ k, xctCalls s.data.trace = xctPairs k := by
  obtain ⟨ss', c, c', hp, h, rfl, herase⟩ := compiledBlocks_eq_some hcompile
  have hheads := ((parse_headed hparse).sites []).of_erase herase
  have hsites' : SitesAll (fun x => bracketed x = true) [] ss := List.all_eq_true.mp hsites
  exact xctCalls_of_bracketed hp h hheads hd hrun hreturns
    (bracketedSites.run_allowed hp h (hsites'.of_erase herase) hheads hd hrun)

/-- The `break` leaves a transaction that has been begun. -/
def breakingTransaction : Text := text "for let i = 0; i < 10; i = i + 1 { transaction { break } }"

theorem breakingTransaction_not_alternate :
    ∃ ss rest blocks s, parse 30 breakingTransaction = .ok ss rest ∧ compiledBlocks ss = some blocks ∧
      machine.Run (functionOf blocks) 9 (startOf (blankData 0)) s ∧ machine.Returns (functionOf blocks) s ∧
      ¬∃ k, xctCalls s.data.trace = xctPairs k := by
  have htrace : (returnTrace 30 breakingTransaction (blankData 0) 9).map xctCalls = some [true] := by
    decide +kernel
  obtain ⟨es, hes, hcalls⟩ := Option.map_eq_some_iff.mp htrace
  obtain ⟨ss, rest, blocks, s, hparse, hcompile, hrun, hreturns, rfl⟩ := returnTrace_eq_some hes
  refine ⟨ss, rest, blocks, s, hparse, hcompile, hrun, hreturns, ?_⟩
  rintro ⟨k, hk⟩
  rw [hcalls] at hk
  have hlength : 1 = 2*k := by simpa [xctPairs, Nat.mul_comm] using congrArg List.length hk
  omega

end Reir
