import Reir.CodeLogic
import Reir.Nesting

/-! Runs of compiled programs. The entry block starts with the slots of the allocation pass, the
code of the statements follows, and the program returns behind it; a run is therefore a part of an
execution of that code. -/
namespace Reir
open Gen BlockGraph StructuredCode

/-- The code of the blocks of a function. -/
def functionOf (blocks : List (List Instr)) : Blocks Instr := fun b => blocks.getD b []

/-- The machine before the first instruction of a function. -/
def startOf (d : Data) : State Data := ⟨0, 0, 0, d⟩

/-- A property of steps inside of frames that the code of every statement has, if its sites have
the property `P` and no other functions than those of `S` are called but for the statements that
call them by themselves. -/
structure NestRules (T : Ctx) (S : Origin → Text → Prop) (P : List Frame × Site → Prop)
    (K : List Frame → Gen Unit → Prop) : Prop where
  emitFunc : S .emit (text "__emit_func")
  insert : S .insert (text "__insert")
  call : ∀ fs f, P (fs, .call f) → S .functionCall f
  straight : ∀ {fs : List Frame} {p : Gen Unit}, p.Calls T S → K fs p
  bind : ∀ {fs : List Frame} {p : Gen Unit} {f : Unit → Gen Unit}, K fs p → (∀ a, K fs (f a)) →
    K fs (p >>= f)
  ifCode : ∀ {fs : List Frame} {cond : Gen LLValue} {t f : Gen Unit}, (cond >>= toI1).Calls T S →
    K fs t → K fs f → K fs (ifCode cond t f)
  forLoop : ∀ {fs : List Frame} {cond every : Ptr Expression} {blk : Gen Unit}, cond ≠ .null →
    (∀ e, cond = .to e → e.getValue.Calls T S) → (loopEvery every).Calls T S →
    K (.loop :: fs) blk → K fs (forLoop cond every blk)
  jump : ∀ {fs : List Frame} (t : JumpType), P (fs, .jump) → K fs (jumpCode fs t)
  scan : ∀ {fs : List Frame} (table rowName : Text) (frame : ScanFrame) {blk : Gen Unit},
    K (.scan :: fs) blk → K fs (scanCode table rowName frame blk)
  transaction : ∀ {fs : List Frame} {blk : Gen Unit}, P (fs, .transaction) →
    K (.transaction :: fs) blk → K fs (transactionCode fs blk)

namespace NestRules
variable {T : Ctx} {S : Origin → Text → Prop} {P : List Frame × Site → Prop} {K : List Frame → Gen Unit → Prop}
  (R : NestRules T S P K) {fs : List Frame}
include R

theorem callsOnly {e : Expression} (h : ∀ x ∈ e.sites fs, P x) : e.CallsOnly (S .functionCall) :=
  fun f hf => R.call fs f (Expression.sites_call.mp h f hf)

theorem codegenAll_of {ss : List Statement} (h : ∀ s ∈ ss, ∀ fs, s.Sites P fs →
    s.Sites (fun x => x.2 ≠ .noCondition) fs → K fs (s.codegen fs))
    (hP : SitesAll P fs ss) (hn : SitesAll (fun x => x.2 ≠ .noCondition) fs ss) :
    K fs (codegenAll fs ss) := by
  induction ss with
  | nil => exact R.straight ((straightRules T S).pure ())
  | cons s ss ih =>
    rw [List.forall_mem_cons] at h
    obtain ⟨hs, hss⟩ := List.forall_mem_append.mp hP
    obtain ⟨hs', hss'⟩ := List.forall_mem_append.mp hn
    exact R.bind (h.1 fs hs hs') fun _ => ih h.2 hss hss'

theorem codegen (s : Statement) (hP : s.Sites P fs) (hn : s.Sites (fun x => x.2 ≠ .noCondition) fs) :
    K fs (s.codegen fs) := by
  have C := straightRules T S
  induction s using Statement.induction generalizing fs with
  | block ss hss => exact R.codegenAll_of (fun s hs fs => hss s hs) hP hn
  | transaction isolation ss hss =>
    obtain ⟨hsite, hP⟩ := List.forall_mem_cons.mp hP
    obtain ⟨-, hn⟩ := List.forall_mem_cons.mp hn
    exact R.transaction hsite (R.codegenAll_of (fun s hs fs => hss s hs) hP hn)
  | define schema name => exact R.straight (C.pure ())
  | forStmt init cond every blk hinit hblk =>
    simp only [Statement.Sites, Statement.sites, List.forall_mem_append] at hP hn
    obtain ⟨hPinit, -, hPcond, hPevery, hPblk⟩ := hP
    obtain ⟨hninit, hnull, -, -, hnblk⟩ := hn
    have hcond : cond ≠ .null := by
      rintro rfl
      exact hnull (fs, .noCondition) (by simp [Ptr.isNull]) rfl
    have hinit' : K fs (codegenInit fs init) := by
      cases init with
      | null => exact R.straight (C.pure ())
      | uninit => exact R.straight (C.fail _)
      | «to» s => exact hinit s rfl hPinit hninit
    refine R.bind hinit' fun _ => R.forLoop hcond ?_ ?_
      (R.codegenAll_of (fun s hs fs => hblk s hs) hPblk hnblk)
    · rintro e rfl
      exact C.getValue (R.callsOnly hPcond)
    · refine C.loopEvery ?_
      rintro e rfl
      exact R.callsOnly hPevery
  | jump t => exact R.jump t (hP _ (List.mem_singleton_self _))
  | emit stack e => exact R.straight (C.emitCode R.emitFunc stack (R.callsOnly hP))
  | insert table e frame => exact R.straight (C.insertCode R.insert table (R.callsOnly hP) frame)
  | scan table rowName blk frame hblk =>
    exact R.scan table rowName frame (R.codegenAll_of (fun s hs fs => hblk s hs) hP hn)
  | letStmt name e type => exact R.straight (C.letCode name (R.callsOnly hP))
  | defineTuple name type => exact R.straight (C.pure ())
  | ifStmt cond ts es hts hes =>
    simp only [Statement.Sites, Statement.sites, List.forall_mem_append] at hP hn
    have helse : K fs (codegenElse fs es) := by
      cases es with
      | none => exact R.straight (C.pure ())
      | some es => exact R.codegenAll_of (fun s hs fs => hes es rfl s hs) hP.2.2 hn.2.2
    refine R.ifCode (C.bind (C.getValue (R.callsOnly hP.1)) C.toI1) ?_ helse
    exact R.codegenAll_of (fun s hs fs => hts s hs) hP.2.1 hn.2.1
  | exprStatement stack e =>
    exact R.straight (C.bind (C.getValue (R.callsOnly hP)) fun _ => C.pure ())

theorem codegenAll {ss : List Statement} (hP : SitesAll P fs ss)
    (hn : SitesAll (fun x => x.2 ≠ .noCondition) fs ss) : K fs (codegenAll fs ss) :=
  R.codegenAll_of (fun s _ _ => R.codegen s) hP hn

end NestRules

/-- The functions that a `Scan` calls. -/
def scanFunctions : List Text :=
  [text "__get_cursor", text "__cursor_is_valid", text "__cursor_copy_key", text "__cursor_copy_value",
    text "__cursor_next", text "__cursor_destroy"]

/-- A `Scan` keeps what straight-line code and branches keep. -/
theorem runs_scanCode {ι : Type} {T : Ctx} {S : Origin → Text → Prop} {E : ι → Exit → Data → Prop}
    {I : ι → Data → Prop}
    (hvalue : ∀ {α : Type} {p : Gen α} {j : Bool}, p.Calls T S → p.Runs T j E I I)
    (hnote : ∀ x d b, I x d →
      E x .running (d.note (.branch ⟨.scan, 0⟩ b)) ∧ I x (d.note (.branch ⟨.scan, 0⟩ b)))
    (hS : ∀ f ∈ scanFunctions, S .scan f) (table rowName : Text) (frame : ScanFrame) {blk : Gen Unit}
    (hblk : blk.Runs T true E I I) : (scanCode table rowName frame blk).Runs T true E I I := by
  have C := straightRules T S
  simp only [scanFunctions, List.forall_mem_cons] at hS
  obtain ⟨hget, hvalid, hkey, hread, hnext, hdestroy, -⟩ := hS
  have hcall : ∀ {f : Text} (args : List LLValue), S .scan f → (createCall ⟨.scan, 0⟩ f args).Calls T S :=
    fun args hf => C.createCall hf args
  rw [scanCode_eq]
  refine (hvalue (C.lookupSchema _ _)).bind fun s => (hvalue C.get).bind fun c =>
    (hvalue (C.require _ _)).bind fun rowType => (hvalue (C.scanCursor hget s frame)).bind fun cursor => ?_
  have htest := C.bind (hcall [cursor] hvalid) fun valid => C.createICmp .eq valid (int1 true)
  have hbody := (hvalue (j := true) (C.scanRow hkey hread s rowType frame cursor)).bind fun _ =>
    hblk.bind fun _ => (hvalue (hcall [cursor] hnext)).bind fun _ => hvalue (C.pure ())
  have hloop := meets_scanLoop (w := int1 true) (R := fun x _ _ d => I x d) (Q := I)
    ((hvalue htest).mono (fun _ _ _ hd _ => hd.2) fun _ _ _ _ hd _ => hd)
    (fun x _ _ d b hd _ _ => ⟨(hnote x d b hd).1, (iff_of_eq (ite_self _)).mpr (hnote x d b hd).2⟩)
    (hbody.mono (fun _ _ _ hd _ => hd.2) fun _ _ _ _ hd _ => hd)
  refine (hloop.mono (fun _ _ _ hd _ => ⟨fun r hr => absurd hr (by simp [int1]), hd⟩)
    fun _ _ _ _ hd _ => hd.2).bind fun _ => ?_
  exact (hvalue (hcall [cursor] hdestroy)).bind fun _ => hvalue (C.pure ())

/-- The data has the property unless the run has come to an event that is not allowed. -/
def Upto (ok : Event → Bool) (J : Data → Prop) (d : Data) : Prop := d.trace.all ok = true → J d

/-- A condition on the data for code inside of frames that instructions and branches keep as long as
their events are allowed, and that is the same for the body of a loop. -/
structure FrameInvariant {ι : Type} (S : Origin → Text → Prop) (ok : Event → Bool)
    (J : List Frame → ι → Data → Prop) : Prop where
  straight : ∀ {fs x d d' es}, d'.trace = d.trace ++ es → (∀ e ∈ es, e.Straight S ∧ ok e = true) →
    J fs x d → J fs x d'
  note : ∀ {fs x d} (tag : Tag) (b : Bool), J fs x d → J fs x (d.note (.branch tag b))
  loop : ∀ {fs x d}, J (.loop :: fs) x d ↔ J fs x d

/-- Behind a jump that stays in the construct of its loop, the condition holds. -/
def jumpExits {ι : Type} (f : Frame) (ok : Event → Bool) (J : List Frame → ι → Data → Prop)
    (fs : List Frame) (x : ι) : Exit → Data → Prop
  | .brk => Upto ok fun d => staysIn f fs = true ∧ J fs x d
  | .cont => Upto ok fun d => staysIn f fs = true ∧ J fs x d
  | _ => fun _ => True

/-- A step inside of frames that keeps their condition. -/
abbrev KeepsIn {ι : Type} (T : Ctx) (f : Frame) (ok : Event → Bool) (J : List Frame → ι → Data → Prop)
    (fs : List Frame) (p : Gen Unit) : Prop :=
  p.Runs T true (jumpExits f ok J fs) (fun x => Upto ok (J fs x)) fun x => Upto ok (J fs x)

theorem Upto.note {ok : Event → Bool} {J : Data → Prop} {d : Data} (h : Upto ok J d) {e : Event}
    (hJ : J d → ok e = true → J (d.note e)) : Upto ok J (d.note e) := by
  intro hall
  simp only [Data.note, List.all_append, List.all_cons, List.all_nil, Bool.and_true, Bool.and_eq_true]
    at hall
  exact hJ (h hall.1) hall.2

namespace FrameInvariant
variable {ι : Type} {S : Origin → Text → Prop} {ok : Event → Bool} {J : List Frame → ι → Data → Prop}
  (h : FrameInvariant S ok J) {T : Ctx} {f : Frame} {fs : List Frame}
include h

theorem exec (fs : List Frame) {x : ι} {i : Instr} {d d' : Data} (hi : i.Straight S)
    (hexec : i.exec d = some d') (hd : Upto ok (J fs x) d) : Upto ok (J fs x) d' := by
  obtain ⟨es, htrace, hes⟩ := exec_trace hi hexec
  intro hall
  rw [htrace, List.all_append, Bool.and_eq_true, List.all_eq_true (l := es)] at hall
  exact h.straight htrace (fun e he => ⟨hes e he, hall.2 e he⟩) (hd hall.1)

theorem noted (fs : List Frame) {x : ι} {d : Data} (tag : Tag) (b : Bool) (hd : Upto ok (J fs x) d) :
    Upto ok (J fs x) (d.note (.branch tag b)) :=
  hd.note fun hJ _ => h.note tag b hJ

theorem value {α : Type} {p : Gen α} (hp : p.Calls T S) {j : Bool} :
    p.Runs T j (jumpExits f ok J fs) (fun x => Upto ok (J fs x)) fun x => Upto ok (J fs x) :=
  hp.runs (fun _ _ _ _ hi hexec hd => h.exec fs hi hexec hd) (fun _ _ tag b _ hd => h.noted fs tag b hd)
    fun _ _ _ => trivial

theorem branch {x : ι} {d : Data} (tag : Tag) (b : Bool) (hd : Upto ok (J fs x) d) :
    if b then Upto ok (J fs x) (d.note (.branch tag b)) else Upto ok (J fs x) (d.note (.branch tag b)) := by
  rw [ite_self]
  exact h.noted fs tag b hd

theorem ifCode {cond : Gen LLValue} {t e : Gen Unit} (hcond : (cond >>= toI1).Calls T S)
    (ht : KeepsIn T f ok J fs t) (he : KeepsIn T f ok J fs e) :
    KeepsIn T f ok J fs (ifCode cond t e) :=
  meets_ifCode (h.value hcond) (fun _ _ _ _ b hd _ _ => ⟨trivial, h.branch _ b hd⟩) ht he

theorem loopUpto {x : ι} {d : Data} : Upto ok (J (.loop :: fs) x) d ↔ Upto ok (J fs x) d :=
  imp_congr_right fun _ => h.loop

theorem forLoop {cond every : Ptr Expression} {blk : Gen Unit} (hnull : cond ≠ .null)
    (hcond : ∀ e, cond = .to e → e.getValue.Calls T S) (hevery : (loopEvery every).Calls T S)
    (hblk : KeepsIn T f ok J (.loop :: fs) blk) : KeepsIn T f ok J fs (forLoop cond every blk) := by
  refine meets_forLoop (R := fun x _ _ => Upto ok (J fs x)) (S := fun x => Upto ok (J fs x))
    (N := fun x => Upto ok (J fs x)) hnull
    (fun e he => h.value (hcond e he)) (fun _ _ _ _ b hd _ _ => ⟨trivial, h.branch _ b hd⟩) ?_
    (h.value hevery)
  refine hblk.adapt fun x e d hd _ => ⟨x, h.loopUpto.mpr hd, trivial, ?_, ?_⟩
  · intro a e' d' hd' _
    exact ⟨h.loopUpto.mp hd', trivial⟩
  · intro z d' hz
    cases z with
    | brk => exact ⟨fun hall => h.loop.mp (hz hall).2, trivial⟩
    | cont => exact ⟨fun hall => h.loop.mp (hz hall).2, trivial⟩
    | normal => trivial
    | running => trivial

theorem jumpCode (t : JumpType)
    (hjump : ok (.branch ⟨.jump fs, 0⟩ true) = true → staysIn f fs = true) :
    KeepsIn T f ok J fs (jumpCode fs t) := by
  refine meets_jumpCode fun x d hd _ => ?_
  have hnoted : Upto ok (fun d => staysIn f fs = true ∧ J fs x d) (d.note (.branch ⟨.jump fs, 0⟩ true)) := by
    intro hall
    have hok := List.all_eq_true.mp hall (.branch ⟨.jump fs, 0⟩ true)
      (List.mem_append_right _ (List.mem_singleton_self _))
    exact ⟨hjump hok, h.noted fs _ _ hd hall⟩
  cases t with
  | breakJump => exact hnoted
  | continueJump => exact hnoted

omit h in
/-- Code inside of a construct that neither the condition nor the exits of jumps depend on. -/
theorem through {g : Frame} {blk : Gen Unit} (hloop : g ≠ .loop)
    (hJ : ∀ x d, J (g :: fs) x d ↔ J fs x d) (hblk : KeepsIn T f ok J (g :: fs) blk) :
    KeepsIn T f ok J fs blk := by
  have hexit : ∀ {x d}, Upto ok (fun d => staysIn f (g :: fs) = true ∧ J (g :: fs) x d) d →
      Upto ok (fun d => staysIn f fs = true ∧ J fs x d) d := by
    intro x d hd hall
    obtain ⟨hstays, hkeep⟩ := hd hall
    rw [staysIn_cons hloop, Bool.and_eq_true] at hstays
    exact ⟨hstays.2, (hJ x d).mp hkeep⟩
  refine hblk.adapt fun x e d hd _ => ⟨x, fun hall => (hJ x d).mpr (hd hall), trivial, ?_, ?_⟩
  · exact fun a e' d' hd' _ => ⟨fun hall => (hJ x d').mp (hd' hall), trivial⟩
  · intro z d' hz
    cases z with
    | brk => exact hexit hz
    | cont => exact hexit hz
    | normal => trivial
    | running => trivial

/-- The rules but for those of the statements with functions of their own. -/
theorem nestRules (hemit : S .emit (text "__emit_func")) (hinsert : S .insert (text "__insert"))
    (hcall : ∀ g, S .functionCall g)
    (hjump : ∀ fs, ok (.branch ⟨.jump fs, 0⟩ true) = true → staysIn f fs = true)
    (hscan : ∀ fs table rowName frame blk, KeepsIn T f ok J (.scan :: fs) blk →
      KeepsIn T f ok J fs (scanCode table rowName frame blk))
    (htransaction : ∀ fs blk, KeepsIn T f ok J (.transaction :: fs) blk →
      KeepsIn T f ok J fs (transactionCode fs blk)) :
    NestRules T S (fun _ => True) (KeepsIn T f ok J) where
  emitFunc := hemit
  insert := hinsert
  call := fun _ g _ => hcall g
  straight := fun hp => h.value hp
  bind := fun hp hf => Gen.Meets.bind hp hf
  ifCode := h.ifCode
  forLoop := h.forLoop
  jump := fun t _ => h.jumpCode t (hjump _)
  scan := fun table rowName frame _ hblk => hscan _ table rowName frame _ hblk
  transaction := fun _ hblk => htransaction _ _ hblk

end FrameInvariant

/-- What is allowed of the events of a run, in terms of the sites of the program. -/
structure AllowedSites (S : Origin → Text → Prop) (ok : Event → Bool)
    (P : List Frame × Site → Prop) : Prop where
  straight : ∀ e, e.Straight S → ok e = true
  branch : ∀ tag b, (∀ fs, tag.origin ≠ .jump fs) → ok (.branch tag b) = true
  emitFunc : S .emit (text "__emit_func")
  insert : S .insert (text "__insert")
  scan : ∀ f ∈ scanFunctions, S .scan f
  call : ∀ fs f, P (fs, .call f) → S .functionCall f
  jump : ∀ fs, P (fs, .jump) → ok (.branch ⟨.jump fs, 0⟩ true) = true
  transaction : ∀ fs f args behind result, P (fs, .transaction) →
    ok (.call ⟨.transaction fs, 0⟩ f args behind result) = true

/-- The run has come to allowed events only. -/
def AllAllowed (ok : Event → Bool) (d : Data) : Prop := d.trace.all ok = true

/-- A step that only adds events that are allowed, whether it comes to its end or not. -/
abbrev Allows {α : Type} (T : Ctx) (j : Bool) (ok : Event → Bool) (p : Gen α) : Prop :=
  p.Runs T j (fun (_ : Unit) _ => AllAllowed ok) (fun _ => AllAllowed ok) fun _ => AllAllowed ok

namespace AllowedSites
variable {S : Origin → Text → Prop} {ok : Event → Bool} {P : List Frame × Site → Prop}
  (h : AllowedSites S ok P) {T : Ctx} {j : Bool} {fs : List Frame}
include h

theorem append {d d' : Data} {es : List Event} (htrace : d'.trace = d.trace ++ es)
    (hes : ∀ e ∈ es, e.Straight S) (hd : AllAllowed ok d) : AllAllowed ok d' := by
  unfold AllAllowed at hd ⊢
  rw [htrace, List.all_append, hd, Bool.true_and, List.all_eq_true]
  exact fun e he => h.straight e (hes e he)

omit h in
theorem note {d : Data} {e : Event} (he : ok e = true) (hd : AllAllowed ok d) :
    AllAllowed ok (d.note e) := by
  unfold AllAllowed at hd ⊢
  simp [Data.note, hd, he]

theorem value {α : Type} {p : Gen α} (hp : p.Calls T S) : Allows T j ok p := by
  refine hp.runs (fun _ i d d' hi hexec hd => ?_) (fun _ _ tag b horigin hd => ?_) fun _ _ hd => hd
  · obtain ⟨es, htrace, hes⟩ := exec_trace hi hexec
    exact h.append htrace hes hd
  · exact note (h.branch tag b fun fs hfs => by simp [horigin] at hfs) hd

theorem noted {tag : Tag} {b : Bool} {d : Data} (htag : ∀ fs, tag.origin ≠ .jump fs)
    (hd : AllAllowed ok d) :
    AllAllowed ok (d.note (.branch tag b)) ∧ AllAllowed ok (d.note (.branch tag b)) :=
  ⟨note (h.branch tag b htag) hd, note (h.branch tag b htag) hd⟩

theorem branched {tag : Tag} {b : Bool} {d : Data} (htag : ∀ fs, tag.origin ≠ .jump fs)
    (hd : AllAllowed ok d) :
    AllAllowed ok (d.note (.branch tag b)) ∧
      if b then AllAllowed ok (d.note (.branch tag b)) else AllAllowed ok (d.note (.branch tag b)) := by
  rw [ite_self]
  exact h.noted htag hd

omit h in
theorem createCall {tag : Tag} {f : Text} (args : List LLValue)
    (hstraight : ∀ e : Event, e.Straight (fun _ _ => False) → ok e = true)
    (hcall : ∀ args behind result, ok (.call tag f args behind result) = true) :
    Allows T j ok (createCall tag f args) := by
  refine meets_createCall ?_
  intro x e d ty _ hd _
  obtain ⟨ws, htrace, hws⟩ := d.call_trace_append e.nextReg tag f (args.map d.eval)
  have hcalled : AllAllowed ok (d.call e.nextReg tag f (args.map d.eval)) := by
    have hnoted : (d.trace ++ [Event.call tag f (args.map d.eval) ((args.map d.eval).map d.behind)
        (d.result f)]).all ok = true := note (hcall _ _ _) hd
    rw [AllAllowed, htrace, List.all_append, hnoted, Bool.true_and, List.all_eq_true]
    intro w hw
    obtain ⟨s, rfl⟩ := hws w hw
    exact hstraight _ trivial
  exact ⟨hcalled, hcalled⟩

theorem transactionCode {blk : Gen Unit} (hP : P (fs, .transaction)) (hblk : Allows T true ok blk) :
    Allows T true ok (transactionCode fs blk) := by
  have hcall : ∀ f (args : List LLValue), Allows T true ok (Reir.createCall ⟨.transaction fs, 0⟩ f args) := by
    intro f args
    refine createCall args (fun e he => h.straight e ?_) fun args behind result =>
      h.transaction fs f args behind result hP
    cases e with
    | call tag f args behind result => exact he.elim
    | branch tag b => exact he.elim
    | _ => trivial
  exact (hcall _ _).bind fun _ => hblk.bind fun _ => (hcall _ _).bind fun _ =>
    h.value ((straightRules T S).pure ())

/-- The code of a program whose sites are allowed comes to allowed events only. -/
theorem nestRules : NestRules T S P fun _ => Allows T true ok where
  emitFunc := h.emitFunc
  insert := h.insert
  call := h.call
  straight := fun hp => h.value hp
  bind := fun hp hf => Gen.Meets.bind hp hf
  ifCode := fun hcond ht he =>
    meets_ifCode (h.value hcond) (fun _ _ _ _ b hd _ _ => h.branched (by simp) hd) ht he
  forLoop := fun hnull hcond hevery hblk => by
    refine meets_forLoop (R := fun _ _ _ => AllAllowed ok) (S := fun _ => AllAllowed ok)
      (N := fun _ => AllAllowed ok) hnull (fun e he => h.value (hcond e he))
      (fun _ _ _ _ b hd _ _ => h.branched (by simp) hd) ?_ (h.value hevery)
    refine hblk.adapt fun x e d hd _ => ⟨x, hd, hd, fun _ _ _ hd' _ => ⟨hd', hd'⟩, ?_⟩
    intro z d' hz
    cases z with
    | brk => exact ⟨hz, hz⟩
    | cont => exact ⟨hz, hz⟩
    | normal => exact hz
    | running => exact hz
  jump := fun t hP => meets_jumpCode fun x d hd _ => by
    have hnoted := note (h.jump _ hP) hd
    cases t with
    | breakJump => exact hnoted
    | continueJump => exact hnoted
  scan := fun table rowName frame _ hblk =>
    runs_scanCode h.value (fun _ _ _ hd => h.noted (by simp) hd) h.scan table rowName frame hblk
  transaction := fun hP hblk => h.transactionCode hP hblk

end AllowedSites

/-- A function that has nothing but slots. -/
structure Entry (c : Ctx) : Prop where
  graph : ∃ is, c.graph = ⟨[is], 0⟩ ∧ ∀ i ∈ is, ∃ s, i = .alloca s
  nextReg : c.nextReg = 0
  loads : c.loads = []
  loops : c.loops = []

theorem Entry.newSlot {c : Ctx} (h : Entry c) (ty : LLType) : Entry (c.newSlot ty) := by
  obtain ⟨is, hgraph, hall⟩ := h.graph
  refine ⟨⟨is ++ [.alloca c.slots.length], ?_, ?_⟩, h.nextReg, h.loads, h.loops⟩
  · change c.graph.append (.alloca c.slots.length) = _
    rw [hgraph]
    rfl
  · rw [List.forall_mem_append]
    exact ⟨hall, by simp⟩

theorem entryPass : PassRules (Gen.Preserves Entry) := by
  refine preservesPass ?_ fun c ty h => h.newSlot ty
  intro c c' hgraph hreg hloads hloops h
  exact ⟨hgraph ▸ h.graph, hreg.trans h.nextReg, hloads.trans h.loads, hloops.trans h.loops⟩

theorem passes_entry {ss ss' : List Statement} {c : Ctx}
    (h : (passes ss).run Ctx.initial = .ok (ss', c)) : Entry c := by
  simp only [passes, bind_eq_ok, createBlock_eq_ok, setInsertPoint_eq_ok] at h
  obtain ⟨ss₁, c₁, hanalyze, _, _, ⟨rfl, rfl⟩, _, c₂, rfl, halloca⟩ := h
  have hkeeps := analyzeAll_keeps ss hanalyze
  have hblocks : c₁.blocks = [] := congrArg Ctx.blocks hkeeps
  apply entryPass.eachStatement ss₁ halloca
  refine ⟨⟨[], ?_, by simp⟩, ?_, ?_, ?_⟩
  · simp [Ctx.graph, Ctx.moveTo, Ctx.newBlock, hblocks]
  · exact congrArg Ctx.nextReg hkeeps
  · exact congrArg Ctx.loads hkeeps
  · exact congrArg Ctx.loops hkeeps

/-- The code of the slots. -/
def allocaCode : List Instr → Code Instr Cond
  | [] => .skip
  | i :: is => .seq (.instr i) (allocaCode is)

theorem layout_allocaCode {F : Blocks Instr} {b : ℕ} {is : List Instr}
    (hs : ∀ i ∈ is, ∃ s, i = .alloca s) (n : ℕ) (hF : is <+: (F b).drop n) :
    Layout machine F none ⟨b, n⟩ (allocaCode is) ⟨b, n+is.length⟩ := by
  induction is generalizing n with
  | nil => exact .skip
  | cons i is ih =>
    rw [List.forall_mem_cons] at hs
    obtain ⟨rest, hrest⟩ := hF
    have hget : (F b)[n]? = some i := by
      have hdrop : ((F b).drop n)[0]? = some i := by
        rw [← hrest]
        rfl
      rwa [List.getElem?_drop, Nat.add_zero] at hdrop
    have htail : is <+: (F b).drop (n+1) := by
      refine ⟨rest, ?_⟩
      rw [← List.tail_drop, ← hrest]
      rfl
    have hplain : i.view = .plain := by
      obtain ⟨s, rfl⟩ := hs.1
      rfl
    have hlayout := Layout.seq (Layout.instr hget hplain) (ih hs.2 (n+1) htail)
    rw [List.length_cons, ← Nat.add_assoc, Nat.add_right_comm]
    exact hlayout

theorem triple_allocaCode {E : Exit → Data → Prop} {I : Data → Prop} {is : List Instr}
    (hs : ∀ i ∈ is, ∃ s, i = .alloca s) (hI : ∀ d, I d → E .running d) :
    Triple machine E I (allocaCode is) I := by
  induction is with
  | nil => exact triple_skip hI
  | cons i is ih =>
    rw [List.forall_mem_cons] at hs
    refine (triple_instr hI ?_ hI).seq (ih hs.2)
    intro d d' hd hexec
    obtain ⟨s, rfl⟩ := hs.1
    obtain rfl := Option.some.inj hexec
    exact hd

/-- The machine does not leave an instruction that returns. -/
theorem run_of_returns {F : Blocks Instr} {n : ℕ} {s s' : State Data} (h : machine.Returns F s)
    (hrun : machine.Run F n s s') : s' = s := by
  cases hrun with
  | zero => rfl
  | succ hstep _ =>
    obtain ⟨i, hi, hret⟩ := h
    have hnone : machine.step F s = none := by
      simp only [Lang.step, hi, hret]
    rw [hnone] at hstep
    exact absurd hstep (by simp)

/-- A run of code that is laid out from the start to a return is a part of an execution. -/
theorem run_exec {F : Blocks Instr} {k : Code Instr Cond} {q : Point} {i : Instr} {d : Data} {n : ℕ}
    {s : State Data} (hk : Layout machine F none ⟨0, 0⟩ k q) (hi : F.get q = some i)
    (hret : i.view = .ret) (hrun : machine.Run F n (startOf d) s) :
    (Exec machine k d .running s.data ∧ ¬machine.Returns F s) ∨ Exec machine k d .normal s.data := by
  rcases hk.follow (s := startOf d) ⟨rfl, rfl⟩ hrun with ⟨he, hin⟩ | ⟨m, -, x, s₁, he, hx, hrest⟩
  · exact .inl ⟨he, hin.not_returns⟩
  · cases x with
    | normal =>
      have hs₁ : machine.Returns F s₁ := ⟨i, State.At.get hx hi, hret⟩
      rw [run_of_returns hs₁ hrest]
      exact .inr he
    | brk => exact absurd hx (by simp [AtExit])
    | cont => exact absurd hx (by simp [AtExit])
    | running => exact absurd hx (by simp [AtExit])

section
variable {ss ss' : List Statement} {c c' : Ctx} {ι : Type} {E : ι → Exit → Data → Prop}
  {I Q : ι → Data → Prop}

/-- The code of a compiled program. -/
theorem compile_code (hp : (passes ss).run Ctx.initial = .ok (ss', c))
    (h : (compile ss).run Ctx.initial = .ok (ss', c')) {P : Ctx → Unit → Ctx → Code Instr Cond → Prop}
    (hcode : (codegenAll [] ss').Lays c.tables true P) :
    ∃ is k c₁ i q, (∀ i ∈ is, ∃ s, i = .alloca s) ∧ P c () c₁ k ∧ c.emitted = ⟨0, []⟩ ∧
      Layout machine (functionOf c'.blocks) none ⟨0, 0⟩ (.seq (allocaCode is) k) q ∧
      (functionOf c'.blocks).get q = some i ∧ i.view = .ret := by
  obtain ⟨-, c₁, hrun, rfl⟩ := compile_passes hp h
  have hentry := passes_entry hp
  obtain ⟨is, hgraph, hall⟩ := hentry.graph
  have hcur : c.graph.cur < c.graph.size := by
    rw [hgraph]
    exact Nat.zero_lt_one
  have hbelow : c.LoadsBelow := by
    intro l hl
    rw [hentry.loads] at hl
    exact absurd hl (by simp)
  obtain ⟨k, hk, hP⟩ := hcode rfl hbelow hcur hrun
  have hgrows := Ctx.Emits.append_grows c₁ (.ret (int1 true))
  have hpoint : c.point = ⟨0, is.length⟩ := by
    have hcur' : c.cur = 0 := congrArg Cfg.cur hgraph
    rw [Ctx.point, hgraph, hcur']
    rfl
  have hslots : is <+: (functionOf (c₁.append (.ret (int1 true))).blocks 0).drop 0 := by
    have hprefix := (hk.region.grows.trans hgrows).code_le 0
    rw [hgraph] at hprefix
    exact hprefix
  have hlayout := hk.layout _ hgrows
  have hexits : c.exits true = none := by simp [Ctx.exits, hentry.loops]
  rw [hexits, hpoint] at hlayout
  have hallocas := layout_allocaCode hall 0 hslots
  rw [Nat.zero_add] at hallocas
  have hemitted : c.emitted = ⟨0, []⟩ := by rw [Ctx.emitted, hentry.nextReg, hentry.loads]
  exact ⟨is, k, c₁, .ret (int1 true), c₁.point, hall, hP, hemitted, .seq hallocas hlayout,
    get_append hk.region.valid (Grows.refl _), rfl⟩

/-- Every run of a compiled program keeps the condition for a running program, and ends in the
postcondition of its code if it returns. -/
theorem compile_runs (hp : (passes ss).run Ctx.initial = .ok (ss', c))
    (h : (compile ss).run Ctx.initial = .ok (ss', c')) (hcode : (codegenAll [] ss').Runs c.tables true E I Q)
    {x : ι} {d : Data} (hI : I x d) (hE : E x .running d) {n : ℕ} {s : State Data}
    (hrun : machine.Run (functionOf c'.blocks) n (startOf d) s) :
    E x .running s.data ∧ (machine.Returns (functionOf c'.blocks) s → Q x s.data) := by
  obtain ⟨is, k, c₁, i, q, hall, hk, -, hlayout, hi, hret⟩ := compile_code hp h hcode
  have htriple := (triple_allocaCode hall fun d hd => hd.2).seq (hk x)
  rcases run_exec hlayout hi hret hrun with ⟨he, hnot⟩ | he
  · have hexit := (htriple d _ _ ⟨hI, hE⟩ he).2 (by simp)
    exact ⟨hexit, fun hreturns => absurd hreturns hnot⟩
  · have hnormal := (htriple d _ _ ⟨hI, hE⟩ he).1 rfl
    exact ⟨hnormal.2, fun _ => hnormal.1⟩

/-- The sites of a program are those of the tree that code is generated from. -/
theorem SitesAll.of_erase {P : List Frame × Site → Prop} {fs : List Frame} (h : SitesAll P fs ss)
    (herase : eraseAll ss' = eraseAll ss) : SitesAll P fs ss' := by
  unfold SitesAll
  rw [sitesAll_congr herase]
  exact h

/-- A run of a program whose sites are allowed comes to allowed events only. -/
theorem AllowedSites.run_allowed {S : Origin → Text → Prop} {ok : Event → Bool}
    {P : List Frame × Site → Prop} (hallowed : AllowedSites S ok P)
    (hp : (passes ss).run Ctx.initial = .ok (ss', c))
    (h : (compile ss).run Ctx.initial = .ok (ss', c')) (hP : SitesAll P [] ss')
    (hheads : SitesAll (fun x => x.2 ≠ .noCondition) [] ss') {d : Data} (hd : d.trace = []) {n : ℕ}
    {s : State Data} (hrun : machine.Run (functionOf c'.blocks) n (startOf d) s) :
    s.data.trace.all ok = true := by
  have hcode := (hallowed.nestRules (T := c.tables)).codegenAll hP hheads
  have hstart : AllAllowed ok d := by
    unfold AllAllowed
    rw [hd]
    rfl
  exact (compile_runs (x := ()) hp h hcode hstart hstart hrun).1

/-- A program that is compiled has gone through the passes. -/
theorem compiledBlocks_eq_some {blocks : List (List Instr)} (h : compiledBlocks ss = some blocks) :
    ∃ ss' c c', (passes ss).run Ctx.initial = .ok (ss', c) ∧
      (compile ss).run Ctx.initial = .ok (ss', c') ∧ blocks = c'.blocks ∧ eraseAll ss' = eraseAll ss := by
  unfold compiledBlocks at h
  split at h
  case h_2 => exact absurd h (by simp)
  rename_i ss' c' hcompile
  obtain rfl := Option.some.inj h
  obtain ⟨ss₁, c₁, hanalyze, hgen⟩ := bind_eq_ok.mp hcompile
  have hgen' := hgen
  simp only [generate, bind_eq_ok, createBlock_eq_ok, setInsertPoint_eq_ok, emitInstr_eq_ok,
    pure_eq_ok] at hgen'
  obtain ⟨_, _, ⟨rfl, rfl⟩, _, c₂, hc₂, ss₂, c₃, halloca, _, c₄, hcode, _, _, rfl, rfl, -⟩ := hgen'
  refine ⟨ss₂, c₃, c', ?_, hcompile, rfl, ?_⟩
  · simp only [passes, bind_eq_ok, createBlock_eq_ok, setInsertPoint_eq_ok]
    exact ⟨ss₁, c₁, hanalyze, _, _, ⟨rfl, rfl⟩, (), c₂, hc₂, halloca⟩
  · exact (eachStatement_erase ss₁ halloca).trans (analyzeAll_erase ss hanalyze)

end

/-- Data for a run from undefined contents, in which outside code answers the same every time. -/
def blankData (v : BitVec 64) : Data := ⟨fun _ => .undef, fun _ => .undef, fun _ => v, []⟩

/-- The events of a program that returns after the given number of steps. -/
def returnTrace (n : ℕ) (code : Text) (d : Data) (m : ℕ) : Option (List Event) :=
  match parse n code with
  | .ok ss _ =>
    match compiledBlocks ss with
    | some blocks =>
      match machine.steps (functionOf blocks) m (startOf d) with
      | some s =>
        match (functionOf blocks).get s.point with
        | some (.ret _) => some s.data.trace
        | _ => none
      | none => none
    | none => none
  | _ => none

theorem returnTrace_eq_some {n : ℕ} {code : Text} {d : Data} {m : ℕ} {es : List Event}
    (h : returnTrace n code d m = some es) :
    ∃ ss rest blocks s, parse n code = .ok ss rest ∧ compiledBlocks ss = some blocks ∧
      machine.Run (functionOf blocks) m (startOf d) s ∧ machine.Returns (functionOf blocks) s ∧
      s.data.trace = es := by
  unfold returnTrace at h
  split at h
  case h_2 => exact absurd h (by simp)
  rename_i ss rest hparse
  split at h
  case h_2 => exact absurd h (by simp)
  rename_i blocks hblocks
  split at h
  case h_2 => exact absurd h (by simp)
  rename_i s hsteps
  split at h
  case h_2 => exact absurd h (by simp)
  rename_i v hret
  exact ⟨ss, rest, blocks, s, hparse, hblocks, Lang.steps_eq_some.mp hsteps, ⟨.ret v, hret, rfl⟩,
    Option.some.inj h⟩

end Reir
