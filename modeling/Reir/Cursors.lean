import Reir.CompiledRuns
import Reir.Lifecycle

/-! Cursors. A `Scan` creates a cursor before its loop and destroys it behind the loop, so every
cursor of a run is destroyed unless a jump leaves a `Scan` or the program calls the functions of
cursors itself. -/
namespace Reir
open Gen StructuredCode Lifecycle

def getCursor : Text := text "__get_cursor"

def cursorDestroy : Text := text "__cursor_destroy"

/-- The functions that are passed a cursor. -/
def cursorUsers : List Text :=
  [text "__cursor_next", text "__cursor_is_valid", text "__cursor_copy_key",
    text "__cursor_copy_value", cursorDestroy]

def Val.asCursor : Val → Option ℕ
  | .cursor n => some n
  | _ => none

/-- The cursor that an event creates. -/
def Event.createsCursor : Event → Option ℕ
  | .call _ f _ _ result => if f = getCursor then result.asCursor else none
  | _ => none

/-- The cursor that an event passes to a function of cursors. -/
def Event.usesCursor : Event → Option ℕ
  | .call _ f args _ _ => if f ∈ cursorUsers then args.head?.bind Val.asCursor else none
  | _ => none

def Event.destroysCursor : Event → Option ℕ
  | .call _ f args _ _ => if f = cursorDestroy then args.head?.bind Val.asCursor else none
  | _ => none

theorem Event.usesCursor_of_destroys {e : Event} {h : ℕ} (he : e.destroysCursor = some h) :
    e.usesCursor = some h := by
  cases e with
  | call tag f args behind result =>
    simp only [Event.destroysCursor, Option.ite_none_right_eq_some] at he
    obtain ⟨rfl, he⟩ := he
    simpa [Event.usesCursor, cursorUsers] using he
  | _ => exact absurd he (by simp [Event.destroysCursor])

def cursorRoles : Roles Event ℕ where
  creates := Event.createsCursor
  uses := Event.usesCursor
  ends := Event.destroysCursor
  uses_of_ends := Event.usesCursor_of_destroys

/-- The cursors that have been created and not been destroyed, the last one first. A cursor has the
number of the event that created it. -/
structure Live (hs : List ℕ) (d : Data) : Prop where
  ledger : cursorRoles.Ledger hs d.trace
  created_lt : ∀ e ∈ d.trace, ∀ h ∈ e.createsCursor, h < d.trace.length

/-- The functions of a program that have nothing to do with cursors. -/
def NotCursor (f : Text) : Prop := f ≠ getCursor ∧ f ∉ cursorUsers

theorem roles_none {e : Event} (h : ∀ f ∈ e.callee, NotCursor f) :
    e.createsCursor = none ∧ e.usesCursor = none ∧ e.destroysCursor = none := by
  cases e with
  | call tag f args behind result =>
    obtain ⟨hget, huser⟩ := h f rfl
    have hdestroy : f ≠ cursorDestroy := by
      rintro rfl
      exact huser (by simp [cursorUsers])
    simp [Event.createsCursor, Event.usesCursor, Event.destroysCursor, hget, huser, hdestroy]
  | _ => simp [Event.createsCursor, Event.usesCursor, Event.destroysCursor]

section
variable {hs : List ℕ} {d d' : Data}

/-- One more event that creates no cursor. -/
theorem live_snoc {es : List Event} {e : Event} (hlt : ∀ e ∈ es, ∀ h ∈ e.createsCursor, h < es.length)
    (he : e.createsCursor = none) :
    ∀ e' ∈ es ++ [e], ∀ h ∈ e'.createsCursor, h < (es ++ [e]).length := by
  rw [List.forall_mem_append, List.length_append, List.length_singleton]
  refine ⟨fun e' he' h hh => Nat.lt_succ_of_lt (hlt e' he' h hh), ?_⟩
  simp [he]

theorem Live.append (hl : Live hs d) (es : List Event) (hes : ∀ e ∈ es, ∀ f ∈ e.callee, NotCursor f)
    (htrace : d'.trace = d.trace ++ es) : Live hs d' := by
  obtain ⟨hledger, hlt⟩ := hl
  suffices cursorRoles.Ledger hs (d.trace ++ es) ∧
      ∀ e ∈ d.trace ++ es, ∀ h ∈ e.createsCursor, h < (d.trace ++ es).length by
    rw [← htrace] at this
    exact ⟨this.1, this.2⟩
  clear htrace
  induction es using List.reverseRecOn with
  | nil =>
    rw [List.append_nil]
    exact ⟨hledger, hlt⟩
  | append_singleton es e ih =>
    rw [List.forall_mem_append] at hes
    obtain ⟨hcreate, huse, hdestroy⟩ := roles_none (hes.2 e (List.mem_singleton_self e))
    obtain ⟨ih₁, ih₂⟩ := ih hes.1
    rw [← List.append_assoc]
    exact ⟨ih₁.step hcreate hdestroy (by simp [cursorRoles, huse]), live_snoc ih₂ hcreate⟩

/-- An event that does not break the ends of cursors: a jump that leaves no `Scan`, and a call in the
program of a function that has nothing to do with cursors. -/
def Event.scanClosed : Event → Bool
  | .branch ⟨.jump fs, _⟩ _ => staysIn .scan fs
  | .call ⟨.functionCall, _⟩ f _ _ _ => f ≠ getCursor && f ∉ cursorUsers
  | _ => true

/-- The program may call what it likes. -/
abbrev CursorCall (o : Origin) (f : Text) : Prop := o = .functionCall ∨ NotCursor f

theorem Event.Straight.notCursor {e : Event} (h : e.Straight CursorCall) (hok : e.scanClosed = true) :
    ∀ f ∈ e.callee, NotCursor f := by
  intro f hf
  cases e with
  | call tag g args behind result =>
    obtain ⟨origin, n⟩ := tag
    obtain rfl := Option.some.inj hf
    obtain horigin | hnot := h
    · obtain rfl : origin = .functionCall := horigin
      simpa [Event.scanClosed, NotCursor] using hok
    · exact hnot
  | _ => exact absurd hf (by simp [Event.callee])

theorem cursorInvariant : FrameInvariant CursorCall Event.scanClosed fun _ => Live where
  straight := fun htrace hes hl => hl.append _ (fun e he => (hes e he).1.notCursor (hes e he).2) htrace
  note := fun tag b hl => hl.append [.branch tag b] (by simp [Event.callee]) rfl
  loop := Iff.rfl

/-- Unless the run has come to an event that breaks the ends of cursors, these are live. -/
abbrev LiveUpto (hs : List ℕ) : Data → Prop := Upto Event.scanClosed (Live hs)

/-- The operand holds the cursor that was created last. -/
def HoldsCursor (cursor : LLValue) (x : ℕ × List ℕ) (e : Emitted) (d : Data) : Prop :=
  cursor.Below e.nextReg ∧ d.eval cursor = .cursor x.1 ∧ LiveUpto (x.1 :: x.2) d

/-- The code of a statement inside of frames leaves the cursors as they were. -/
abbrev KeepsCursors (T : Ctx) (fs : List Frame) (p : Gen Unit) : Prop :=
  KeepsIn T .scan Event.scanClosed (fun _ => Live) fs p

/-- The exits of the code of a `Scan` inside of frames. -/
abbrev scanExits (fs : List Frame) (x : ℕ × List ℕ) : Exit → Data → Prop :=
  jumpExits .scan Event.scanClosed (fun _ => Live) fs x.2

end

section
variable {T : Ctx} {j : Bool} {fs : List Frame} {cursor : LLValue}

theorem held_value {α : Type} {p : Gen α} (hp : p.Calls T CursorCall) :
    p.Meets T j (scanExits fs) (HoldsCursor cursor) fun x _ => HoldsCursor cursor x := by
  have hruns : p.Runs T j (scanExits fs) (fun x => LiveUpto (x.1 :: x.2)) fun x => LiveUpto (x.1 :: x.2) :=
    hp.runs (fun _ _ _ _ hi hexec hl => cursorInvariant.exec fs hi hexec hl)
      (fun _ _ tag b _ hl => cursorInvariant.noted fs tag b hl) fun _ _ _ => trivial
  exact hruns.frame cursor fun x => .cursor x.1

/-- A call that passes the cursor on. -/
theorem held_call {f : Text} (tag : Tag) (args : List LLValue) (hget : f ≠ getCursor)
    (huser : f ∈ cursorUsers) (hdestroy : f ≠ cursorDestroy) :
    (createCall tag f (cursor :: args)).Meets T j (scanExits fs) (HoldsCursor cursor)
      fun x _ => HoldsCursor cursor x := by
  have hlive : (createCall tag f (cursor :: args)).Meets T j (scanExits fs) (HoldsCursor cursor)
      fun x _ _ d => LiveUpto (x.1 :: x.2) d := by
    refine meets_createCall ?_
    intro x e d ty _ hd _
    refine ⟨fun hall => ?_, trivial⟩
    obtain ⟨-, heval, hlive⟩ := hd
    obtain ⟨ws, htrace, hws⟩ := d.call_trace_append e.nextReg tag f ((cursor :: args).map d.eval)
    rw [htrace, List.all_append, List.all_append, Bool.and_eq_true, Bool.and_eq_true] at hall
    have hl := hlive hall.1.1
    let call : Event := .call tag f ((cursor :: args).map d.eval)
      (((cursor :: args).map d.eval).map d.behind) (d.result f)
    have hcreate : call.createsCursor = none := by simp [call, Event.createsCursor, hget]
    have huse : call.usesCursor = some x.1 := by
      simp [call, Event.usesCursor, huser, heval, Val.asCursor]
    have hend : call.destroysCursor = none := by simp [call, Event.destroysCursor, hdestroy]
    have hnoted : Live (x.1 :: x.2) (d.note call) := by
      refine ⟨hl.ledger.step hcreate hend ?_, live_snoc hl.created_lt hcreate⟩
      intro h hh
      have heq : some x.1 = some h := huse.symm.trans hh
      rw [Option.some.inj heq]
      exact List.mem_cons_self
    refine hnoted.append ws ?_ htrace
    intro e he f hf
    obtain ⟨s, rfl⟩ := hws e he
    exact absurd hf (by simp [Event.callee])
  have hframe := hlive.frame cursor fun x => .cursor x.1
  exact hframe.mono (fun x e d hd _ => ⟨hd.1, hd.2.1, hd⟩) fun x a e d hd _ => hd

theorem held_destroy (tag : Tag) : (createCall tag cursorDestroy [cursor]).Meets T j (scanExits fs)
    (HoldsCursor cursor) fun x _ _ => LiveUpto x.2 := by
  refine meets_createCall ?_
  intro x e d ty _ hd _
  refine ⟨fun hall => ?_, trivial⟩
  obtain ⟨-, heval, hlive⟩ := hd
  have hbuffer : Data.writesBuffer cursorDestroy = false := by decide
  have hne : cursorDestroy ≠ getCursor := by decide
  let call : Event := .call tag cursorDestroy ([cursor].map d.eval)
    (([cursor].map d.eval).map d.behind) (d.result cursorDestroy)
  have hcreate : call.createsCursor = none := by simp [call, Event.createsCursor, hne]
  have hend : call.destroysCursor = some x.1 := by
    simp [call, Event.destroysCursor, heval, Val.asCursor]
  have htrace := d.call_trace e.nextReg tag ([cursor].map d.eval) hbuffer
  rw [htrace, List.all_append, Bool.and_eq_true] at hall
  have hl := hlive hall.1
  have hledger := hl.ledger.finish (e := call) hend hcreate
  have hlt := live_snoc hl.created_lt hcreate
  rw [← htrace] at hledger hlt
  exact ⟨hledger, hlt⟩

/-- The call that creates a cursor. -/
theorem live_getCursor {tag : Tag} {args : List LLValue} :
    (createCall tag getCursor args).Meets T j (jumpExits .scan Event.scanClosed (fun _ => Live) fs)
      (fun hs _ => LiveUpto hs) fun hs v e d => ∃ h, HoldsCursor v (h, hs) e d := by
  refine meets_createCall ?_
  intro hs e d ty _ hlive _
  refine ⟨⟨d.trace.length, ?_, ?_, fun hall => ?_⟩, trivial⟩
  · intro r hr
    obtain rfl := Op.reg.inj hr
    exact Nat.lt_succ_self _
  · change (d.call e.nextReg tag getCursor (args.map d.eval)).regs e.nextReg = _
    rw [Data.call_regs, Function.update_self]
    rfl
  · have hbuffer : Data.writesBuffer getCursor = false := by decide
    have hnot : getCursor ∉ cursorUsers := by decide
    let call : Event := .call tag getCursor (args.map d.eval) ((args.map d.eval).map d.behind)
      (d.result getCursor)
    have hcreate : call.createsCursor = some d.trace.length := by
      simp only [call, Event.createsCursor, if_pos]
      rfl
    have huse : call.usesCursor = none := by simp [call, Event.usesCursor, hnot]
    have htrace := d.call_trace e.nextReg tag (args.map d.eval) hbuffer
    rw [htrace, List.all_append, Bool.and_eq_true] at hall
    have hl := hlive hall.1
    have hledger := hl.ledger.create (e := call) hcreate huse fun x hx hc =>
      absurd (hl.created_lt x hx _ hc) (Nat.lt_irrefl _)
    have hlt : ∀ e' ∈ d.trace ++ [call], ∀ h ∈ e'.createsCursor, h < (d.trace ++ [call]).length := by
      rw [List.forall_mem_append, List.length_append, List.length_singleton]
      refine ⟨fun e' he' h hh => Nat.lt_succ_of_lt (hl.created_lt e' he' h hh), ?_⟩
      intro e' he' h hh
      obtain rfl := List.mem_singleton.mp he'
      rw [hcreate] at hh
      obtain rfl := Option.mem_some_iff.mp hh
      exact Nat.lt_succ_self _
    rw [← htrace] at hledger hlt
    exact ⟨hledger, hlt⟩

/-- The row of a `Scan` is read through its cursor. -/
theorem held_scanRow (s : Schema) (t : LLType) (frame : ScanFrame) :
    (scanRow s t frame cursor).Meets T true (scanExits fs) (HoldsCursor cursor) fun x _ =>
      HoldsCursor cursor x := by
  have C := straightRules T CursorCall
  refine (held_value (C.slotOf _)).bind fun _ => (held_value (C.createBitCast _ _)).bind fun _ =>
    (held_call _ _ (by decide) (by decide) (by decide)).bind fun _ =>
      (held_value (C.slotOf _)).bind fun _ => (held_value (C.createBitCast _ _)).bind fun _ =>
        (held_call _ _ (by decide) (by decide) (by decide)).bind fun _ =>
          (held_value (C.scanFields _ _ _ _ _)).bind fun _ => (held_value (C.slotOf _)).bind fun _ => ?_
  exact held_value (C.createStore _ _ _)

theorem held_scanLoop (s : Schema) (t : LLType) (frame : ScanFrame) {blk : Gen Unit}
    (hblk : KeepsCursors T (.scan :: fs) blk) :
    (scanLoop (do
        let valid ← createCall ⟨.scan, 0⟩ (text "__cursor_is_valid") [cursor]
        createICmp .eq valid (int1 true))
      (do
        scanRow s t frame cursor
        blk
        let _ ← createCall ⟨.scan, 0⟩ (text "__cursor_next") [cursor]
        Pure.pure ())).Meets T true (scanExits fs) (HoldsCursor cursor) fun x _ => HoldsCursor cursor x := by
  have C := straightRules T CursorCall
  have hblk' : blk.Meets T true (scanExits fs) (HoldsCursor cursor) fun x _ => HoldsCursor cursor x := by
    have hruns : blk.Runs T true (scanExits fs) (fun x => LiveUpto (x.1 :: x.2))
        fun x => LiveUpto (x.1 :: x.2) := by
      refine hblk.adapt fun x e d hl _ => ⟨x.1 :: x.2, hl, trivial, ?_, ?_⟩
      · exact fun a e' d' hl' _ => ⟨hl', trivial⟩
      · intro z d' hz
        cases z with
        | brk => exact fun hall => absurd (hz hall).1 (by simp [staysIn_cons])
        | cont => exact fun hall => absurd (hz hall).1 (by simp [staysIn_cons])
        | normal => trivial
        | running => trivial
    exact hruns.frame cursor fun x => .cursor x.1
  have htest : (do
      let valid ← createCall ⟨.scan, 0⟩ (text "__cursor_is_valid") [cursor]
      createICmp .eq valid (int1 true)).Meets T false (scanExits fs) (HoldsCursor cursor) fun x _ =>
        HoldsCursor cursor x :=
    (held_call _ _ (by decide) (by decide) (by decide)).bind fun valid =>
      held_value (C.createICmp .eq valid (int1 true))
  have hnext : (createCall ⟨.scan, 0⟩ (text "__cursor_next") [cursor]).Meets T true (scanExits fs)
      (HoldsCursor cursor) fun x _ => HoldsCursor cursor x :=
    held_call _ _ (by decide) (by decide) (by decide)
  have hbody := (held_scanRow s t frame).bind fun _ => hblk'.bind fun _ =>
    hnext.bind fun _ => held_value (C.pure ())
  refine (meets_scanLoop (w := cursor) (J := fun (x : ℕ × List ℕ) d => d.eval cursor = .cursor x.1 ∧ LiveUpto (x.1 :: x.2) d)
    (S := fun (x : ℕ × List ℕ) d => d.eval cursor = .cursor x.1 ∧ LiveUpto (x.1 :: x.2) d)
    (Q := fun (x : ℕ × List ℕ) d => d.eval cursor = .cursor x.1 ∧ LiveUpto (x.1 :: x.2) d) htest ?_
    (hbody.mono (fun _ _ _ hd _ => hd) fun _ _ _ _ hd _ => hd.2)).mono (fun _ _ _ hd _ => hd)
      fun _ _ _ _ hd _ => hd
  intro x v e d b hd _ _
  refine ⟨trivial, ?_⟩
  have hnoted : (d.note (.branch ⟨.scan, 0⟩ b)).eval cursor = .cursor x.1 ∧
      LiveUpto (x.1 :: x.2) (d.note (.branch ⟨.scan, 0⟩ b)) :=
    ⟨hd.2.1, cursorInvariant.noted fs _ b hd.2.2⟩
  split_ifs
  · exact hnoted
  · exact hnoted

theorem keepsCursor_scanCode (table rowName : Text) (frame : ScanFrame) {blk : Gen Unit}
    (hblk : KeepsCursors T (.scan :: fs) blk) :
    KeepsCursors T fs (scanCode table rowName frame blk) := by
  have C := straightRules T CursorCall
  rw [scanCode_eq]
  refine (cursorInvariant.value (C.lookupSchema _ _)).bind fun s =>
    (cursorInvariant.value C.get).bind fun c => (cursorInvariant.value (C.require _ _)).bind fun rowType => ?_
  have hcursor : (scanCursor s frame).Meets T true (jumpExits .scan Event.scanClosed (fun _ => Live) fs)
      (fun hs _ => LiveUpto hs) fun hs v e d => ∃ h, HoldsCursor v (h, hs) e d :=
    (cursorInvariant.value (C.require _ _)).bind fun _ => (cursorInvariant.value (C.require _ _)).bind fun _ =>
      live_getCursor
  refine hcursor.bind fun cursor => ?_
  have hdone : (do
      let _ ← createCall ⟨.scan, 0⟩ cursorDestroy [cursor]
      Pure.pure ()).Meets T true (scanExits fs) (HoldsCursor cursor) fun x _ _ => LiveUpto x.2 :=
    (held_destroy _).bind fun _ => meets_pure () fun _ _ _ hl _ => hl
  refine ((held_scanLoop s rowType frame hblk).bind fun _ => hdone).adapt ?_
  rintro hs e d ⟨h, hd⟩ -
  exact ⟨(h, hs), hd, trivial, fun _ _ _ hl _ => ⟨hl, trivial⟩, fun _ _ hz => hz⟩

end

theorem cursorRules (T : Ctx) : NestRules T CursorCall (fun _ => True) (KeepsCursors T) := by
  have C := straightRules T CursorCall
  refine cursorInvariant.nestRules (.inr ?_) (.inr ?_) (fun _ => .inl rfl) (fun _ h => h)
    (fun _ table rowName frame _ h => keepsCursor_scanCode table rowName frame h) ?_
  · unfold NotCursor
    decide
  · unfold NotCursor
    decide
  · intro fs blk hblk
    have hfunc : NotCursor (text "__begin_xct") ∧ NotCursor (text "__precommit_xct") := by
      unfold NotCursor
      decide
    have hblk' : KeepsCursors T fs blk :=
      FrameInvariant.through (by simp) (fun _ _ => Iff.rfl) hblk
    exact (cursorInvariant.value (C.createCall (.inr hfunc.1) _)).bind fun _ => hblk'.bind fun _ =>
      (cursorInvariant.value (C.createCall (.inr hfunc.2) _)).bind fun _ => cursorInvariant.value (C.pure ())

section
variable {ss ss' : List Statement} {c c' : Ctx} {d : Data} {m : ℕ} {s : State Data}

theorem complete_of_scanClosed (hp : (passes ss).run Ctx.initial = .ok (ss', c))
    (h : (compile ss).run Ctx.initial = .ok (ss', c'))
    (hheads : SitesAll (fun x => x.2 ≠ .noCondition) [] ss') (hd : d.trace = [])
    (hrun : machine.Run (functionOf c'.blocks) m (startOf d) s)
    (hreturns : machine.Returns (functionOf c'.blocks) s)
    (hall : s.data.trace.all Event.scanClosed = true) : cursorRoles.Complete s.data.trace := by
  have hcode := (cursorRules c.tables).codegenAll (fun _ _ => trivial) hheads
  have hstart : LiveUpto [] d := by
    refine fun _ => ⟨?_, ?_⟩
    · rw [hd]
      exact .nil _
    · simp [hd]
  obtain ⟨-, hend⟩ := compile_runs hp h hcode hstart trivial hrun
  exact (hend hreturns hall).ledger.complete

end

/-- In every run of a parsed program that returns, every cursor that is created is destroyed exactly
once, after its last use, if no jump of the run leaves a `Scan` and the program does not call the
functions of cursors itself. -/
theorem cursors_complete {n : ℕ} {code : Text} {ss : List Statement} {rest : List Token}
    {blocks : List (List Instr)} (hparse : parse n code = .ok ss rest)
    (hcompile : compiledBlocks ss = some blocks) {d : Data} (hd : d.trace = []) {m : ℕ} {s : State Data}
    (hrun : machine.Run (functionOf blocks) m (startOf d) s)
    (hreturns : machine.Returns (functionOf blocks) s)
    (hall : s.data.trace.all Event.scanClosed = true) : cursorRoles.Complete s.data.trace := by
  obtain ⟨ss', c, c', hp, h, rfl, herase⟩ := compiledBlocks_eq_some hcompile
  exact complete_of_scanClosed hp h (((parse_headed hparse).sites []).of_erase herase) hd hrun hreturns hall

/-- The `break` would leave the `Scan`, but no run comes to it. -/
def guardedScan : Text := text
  "define<{int:x key}> t for let i = 0; i < 1; i = i + 1 { scan t, row { if 0 < 1 { } else { break } } break }"

/-- Answers of outside code with which a `Scan` finds one row. -/
def oneRowData : Data := { blankData 0 with answers := fun n => if n < 5 then 1 else 0 }

theorem cursors_complete_guardedScan :
    ∃ ss rest blocks s, parse 60 guardedScan = .ok ss rest ∧ compiledBlocks ss = some blocks ∧
      oneRowData.trace = [] ∧ machine.Run (functionOf blocks) 34 (startOf oneRowData) s ∧
      machine.Returns (functionOf blocks) s ∧ s.data.trace.all Event.scanClosed = true ∧
      cursorRoles.Complete s.data.trace := by
  have htrace : (returnTrace 60 guardedScan oneRowData 34).any (List.all · Event.scanClosed) = true := by
    decide +kernel
  obtain ⟨es, hes, hall⟩ := (Option.any_eq_true _ _).mp htrace
  obtain ⟨ss, rest, blocks, s, hparse, hcompile, hrun, hreturns, rfl⟩ := returnTrace_eq_some hes
  exact ⟨ss, rest, blocks, s, hparse, hcompile, rfl, hrun, hreturns, hall,
    cursors_complete hparse hcompile rfl hrun hreturns hall⟩

/-- No jump that leaves a `Scan`, and no call of the functions of cursors. -/
def scanClosed : List Frame × Site → Bool
  | (fs, .jump) => staysIn .scan fs
  | (_, .call f) => f ≠ getCursor && f ∉ cursorUsers
  | (_, .transaction) => true
  | (_, .noCondition) => true

theorem scanClosedSites : AllowedSites (fun o f => o = .functionCall → NotCursor f) Event.scanClosed
    fun x => scanClosed x = true where
  straight := by
    intro e he
    cases e with
    | call tag f args behind result =>
      obtain ⟨origin, n⟩ := tag
      cases origin with
      | functionCall => simpa [Event.scanClosed, NotCursor] using he rfl
      | _ => rfl
    | branch tag b => exact he.elim
    | _ => rfl
  branch := by
    rintro ⟨origin, n⟩ b htag
    cases origin with
    | jump fs => exact absurd rfl (htag fs)
    | _ => rfl
  emitFunc := by simp
  insert := by simp
  scan := by simp
  call := fun fs f h _ => by simpa [scanClosed, NotCursor] using h
  jump := fun fs h => h
  transaction := fun _ _ _ _ _ _ => rfl

/-- The cursors of a program whose tree has no place to leave one. -/
theorem complete_of_sites {n : ℕ} {code : Text} {ss : List Statement} {rest : List Token}
    {blocks : List (List Instr)} (hparse : parse n code = .ok ss rest)
    (hcompile : compiledBlocks ss = some blocks) (hsites : (sitesAll [] ss).all scanClosed = true)
    {d : Data} (hd : d.trace = []) {m : ℕ} {s : State Data}
    (hrun : machine.Run (functionOf blocks) m (startOf d) s)
    (hreturns : machine.Returns (functionOf blocks) s) : cursorRoles.Complete s.data.trace := by
  obtain ⟨ss', c, c', hp, h, rfl, herase⟩ := compiledBlocks_eq_some hcompile
  have hheads := ((parse_headed hparse).sites []).of_erase herase
  have hsites' : SitesAll (fun x => scanClosed x = true) [] ss := List.all_eq_true.mp hsites
  exact complete_of_scanClosed hp h hheads hd hrun hreturns
    (scanClosedSites.run_allowed hp h (hsites'.of_erase herase) hheads hd hrun)

/-- The `break` leaves the `Scan` without the end of its cursor. -/
def breakingScan : Text :=
  text "define<{int:x key}> t for let i = 0; i < 1; i = i + 1 { scan t, row { break } }"

theorem breakingScan_not_complete :
    ∃ ss rest blocks s, parse 30 breakingScan = .ok ss rest ∧ compiledBlocks ss = some blocks ∧
      machine.Run (functionOf blocks) 25 (startOf (blankData 1)) s ∧
      machine.Returns (functionOf blocks) s ∧ ¬cursorRoles.Complete s.data.trace := by
  have htrace : (returnTrace 30 breakingScan (blankData 1) 25).map (fun es =>
      (es.any fun e => e.createsCursor.isSome, es.any fun e => e.destroysCursor.isSome)) =
        some (true, false) := by decide +kernel
  obtain ⟨es, hes, hroles⟩ := Option.map_eq_some_iff.mp htrace
  obtain ⟨hcreate, hdestroy⟩ := Prod.mk.inj hroles
  obtain ⟨ss, rest, blocks, s, hparse, hcompile, hrun, hreturns, rfl⟩ := returnTrace_eq_some hes
  refine ⟨ss, rest, blocks, s, hparse, hcompile, hrun, hreturns, fun hcomplete => ?_⟩
  obtain ⟨e, he, hsome⟩ := List.any_eq_true.mp hcreate
  obtain ⟨h, hh⟩ := Option.isSome_iff_exists.mp hsome
  obtain ⟨pre, post, heq⟩ := List.append_of_mem he
  obtain ⟨mid, x, tail, hpost, hend, -, -⟩ := hcomplete pre e post h heq hh
  have hx : x ∈ s.data.trace := by
    rw [heq, hpost]
    simp
  have hnone := List.any_eq_false.mp hdestroy x hx
  have hsome' : x.destroysCursor = some h := hend
  rw [hsome'] at hnone
  exact hnone rfl

end Reir
