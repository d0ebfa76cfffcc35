import Reir.TypeAgreement

/-! Types in the code of whole programs. -/
namespace Reir
open Gen BlockGraph

section
variable {Γ : TypeEnv} {n : ℕ}

theorem Expression.judged_value (e : Expression) :
    e.getValue.Judged Γ n (AllAgree Γ e.evaluated) ((e.infer Γ).isSome = true) :=
  e.judged.1.mono (Nat.zero_le n)

theorem judged_letCode (x : Text) (e : Expression) : (letCode x e).Judged Γ n (AllAgree Γ e.evaluated)
    (((e.infer Γ).isSome && e.infer Γ == Γ.slot x) = true) := by
  intro d u d' hd hn h
  obtain ⟨_, d₁, h₁, h⟩ := bind_eq_ok.mp h
  obtain ⟨_, _, hget, h⟩ := bind_eq_ok.mp h
  obtain ⟨rfl, rfl⟩ := get_eq_ok.mp hget
  obtain ⟨i, _, hvar, h⟩ := bind_eq_ok.mp h
  obtain ⟨hi, rfl⟩ := require_eq_ok.mp hvar
  obtain ⟨stack, d₂, h₂, h⟩ := bind_eq_ok.mp h
  obtain ⟨v, d₃, h₃, h₄⟩ := bind_eq_ok.mp h
  obtain ⟨hd₁, he₁, hiff₁⟩ := judgedLookup.getType e hd hn h₁
  obtain ⟨hd₂, he₂, hiff₂⟩ := judgedLookup.slotOf (some i) hd₁ (Nat.zero_le _) h₂
  obtain ⟨hd₃, he₃, hiff₃⟩ := e.judged.1 hd₂ (Nat.zero_le _) h₃
  obtain ⟨hd₄, he₄, hiff₄⟩ := judged_emitInstr _ hd₃ (Nat.zero_le _) h₄
  refine ⟨hd₄, he₁.trans (he₂.trans (he₃.trans he₄)), ?_⟩
  have hslot : Γ.slot x = some v.ty ↔ stack.ty = .ptr v.ty := by
    simp only [slotOf, bind_eq_ok, get_eq_ok, require_eq_ok, pure_eq_ok] at h₂
    obtain ⟨_, _, ⟨hsome, rfl⟩, _, _, ⟨rfl, rfl⟩, ty, _, ⟨hty, rfl⟩, rfl, rfl⟩ := h₂
    obtain rfl := Option.some.inj hsome
    have hx : Γ.slot x = some ty := by
      rw [← hd₁.env]
      exact slot_eq_some.mpr ⟨i, Option.join_eq_some_iff.mp hi, hty⟩
    simp [hx, slotPtr]
  have hstore : NewTyped d₃ d' ↔ stack.ty = .ptr v.ty := by
    rw [and_true] at hiff₄
    simpa [Instr.wellTyped] using hiff₄
  rw [newTyped_trans he₁ (he₂.trans (he₃.trans he₄)), newTyped_trans he₂ (he₃.trans he₄),
    newTyped_trans he₃ he₄, and_iff_right (hiff₁.mpr trivial).1,
    and_iff_right (hiff₂.mpr trivial).1, hstore, ← hslot, Bool.and_eq_true, beq_iff_eq, ← hiff₃]
  have hty := (e.valueTyped.1 hd₂ h₃).2.2
  constructor
  · rintro ⟨⟨hnew, hx⟩, hagree⟩
    obtain ⟨t, ht⟩ := Option.isSome_iff_exists.mp (hiff₃.mp ⟨hnew, hagree⟩)
    exact ⟨⟨hnew, hagree⟩, by rw [hx, hty t ht, ht]⟩
  · rintro ⟨⟨hnew, hagree⟩, hx⟩
    obtain ⟨t, ht⟩ := Option.isSome_iff_exists.mp (hiff₃.mp ⟨hnew, hagree⟩)
    exact ⟨⟨hnew, by rw [← hx, hty t ht, ht]⟩, hagree⟩

theorem judged_ifCode {cond : Gen LLValue} {ts fs : Gen Unit} {A B C P Q R : Prop}
    (hc : cond.Judged Γ 0 A P) (ht : ∀ n, ts.Judged Γ n B Q) (hf : ∀ n, fs.Judged Γ n C R) :
    (ifCode cond ts fs).Judged Γ n (A ∧ B ∧ C) (P ∧ Q ∧ R) := by
  refine judged_createBlock fun trueBlock h₁ => judged_createBlock fun falseBlock h₂ =>
    judged_createBlock fun fin h₃ => ?_
  refine (hc.mono (Nat.zero_le _)).bind fun v => ?_
  refine ((judged_toI1 v).bindYields (toI1_yields v) fun w hw => ?_).congr (iff_of_eq (true_and _))
    (iff_of_eq (true_and _))
  have hbr : (emitInstr (.condBr ⟨.ifStmt, 0⟩ w trueBlock falseBlock)).Judged Γ (fin+1) True True :=
    judged_neutral (by simp [Instr.wellTyped, hw])
  refine hbr.seq fun _ => (judged_setInsertPoint (by omega)).seq fun _ => (ht _).bind fun _ =>
    (judged_neutral rfl).seq fun _ => (judged_setInsertPoint (by omega)).seq fun _ =>
      (hf _).seq_left fun _ => (judged_neutral rfl).seq fun _ => judged_setInsertPoint (by omega)

theorem judged_loopCondition (cond : Ptr Expression) (body finish : ℕ) :
    (loopCondition cond body finish).Judged Γ n (AllAgree Γ cond.evaluated)
      (cond.typedBy (fun e => e.infer Γ == some .i1) = true) := by
  match cond with
  | .null => exact (judgedLookup.pure _).congr (by simp [Ptr.evaluated]) (by simp [Ptr.typedBy])
  | .uninit =>
    intro d u d' hd hn h
    exact absurd h (by simp [loopCondition])
  | .to e =>
    intro d u d' hd hn h
    obtain ⟨v, d₁, h₁, h₂⟩ := bind_eq_ok.mp h
    obtain ⟨hd₁, he₁, hiff₁⟩ := e.judged.1 hd (Nat.zero_le _) h₁
    obtain ⟨hd₂, he₂, hiff₂⟩ := judged_emitInstr _ hd₁ (Nat.zero_le _) h₂
    refine ⟨hd₂, he₁.trans he₂, ?_⟩
    have hbr : NewTyped d₁ d' ↔ v.ty = .i1 := by
      rw [and_true] at hiff₂
      simpa [Instr.wellTyped] using hiff₂
    have hty := (e.valueTyped.1 hd h₁).2.2
    rw [newTyped_trans he₁ he₂, hbr, Ptr.typedBy, beq_iff_eq]
    constructor
    · rintro ⟨⟨hnew, hi⟩, hagree⟩
      obtain ⟨t, ht⟩ := Option.isSome_iff_exists.mp (hiff₁.mp ⟨hnew, hagree⟩)
      rw [ht, ← hty t ht, hi]
    · intro ht
      obtain ⟨hnew, hagree⟩ := hiff₁.mpr (by simp [ht])
      exact ⟨⟨hnew, hty _ ht⟩, hagree⟩

theorem judged_loopEvery (every : Ptr Expression) :
    (loopEvery every).Judged Γ n (AllAgree Γ every.evaluated)
      (every.typedBy (fun e => (e.infer Γ).isSome) = true) := by
  match every with
  | .null => exact (judgedLookup.pure _).congr (by simp [Ptr.evaluated]) (by simp [Ptr.typedBy])
  | .uninit =>
    intro d u d' hd hn h
    exact absurd h (by simp [loopEvery])
  | .to e => exact e.judged_value.seq_left fun _ => judgedLookup.pure _

theorem judged_forCode {init blk : Gen Unit} {cond every : Ptr Expression} {A B P Q : Prop}
    (hi : ∀ n, init.Judged Γ n A P) (hb : ∀ n, blk.Judged Γ n B Q) :
    (forCode init cond every blk).Judged Γ n
      (A ∧ AllAgree Γ cond.evaluated ∧ B ∧ AllAgree Γ every.evaluated)
      (P ∧ cond.typedBy (fun e => e.infer Γ == some .i1) = true ∧ Q ∧
        every.typedBy (fun e => (e.infer Γ).isSome) = true) := by
  refine (hi n).bind fun _ => judged_createBlock fun begin h₁ => judged_createBlock fun body h₂ =>
    judged_createBlock fun next h₃ => judged_createBlock fun finish h₄ => ?_
  have henter : ∀ l, (enterLoop l).Judged Γ (finish+1) True True := fun l =>
    judged_of_graph_eq (emits_enterLoop l) fun _ _ _ h => by rw [← enterLoop_eq_ok.mp h]; rfl
  have hexit : exitLoop.Judged Γ (finish+1) True True :=
    judged_of_graph_eq emits_exitLoop fun _ _ _ h => by rw [← exitLoop_eq_ok.mp h]; rfl
  refine (henter _).seq fun _ => (judged_neutral rfl).seq fun _ =>
    (judged_setInsertPoint (by omega)).seq fun _ => (judged_loopCondition cond _ _).bind fun _ =>
      (judged_setInsertPoint (by omega)).seq fun _ => (hb _).bind fun _ =>
        (judged_neutral rfl).seq fun _ => (judged_setInsertPoint (by omega)).seq fun _ =>
          (judged_loopEvery every).seq_left fun _ => (judged_neutral rfl).seq fun _ =>
            (judged_setInsertPoint (by omega)).seq fun _ => hexit

theorem judged_emitCode (slot : Option ℕ) (e : Expression) :
    (emitCode slot e).Judged Γ n (AllAgree Γ e.evaluated) ((e.infer Γ).isSome = true) :=
  (judgedLookup.getType e).seq fun _ => (judgedLookup.require _ _).seq fun _ =>
    e.judged_value.seq_left fun _ => (judgedLookup.slotOf _).seq fun _ =>
      (judged_neutral (by simp [Instr.wellTyped])).seq fun _ => (judged_createBitCast _ _).seq fun _ =>
        (judged_createCall _ _ _).seq fun _ => judgedLookup.pure _

theorem judged_createGEP (base : LLValue) (indices : List LLValue) (ty : LLType) :
    (createGEP base indices ty).Judged Γ n True True :=
  judged_result (fun _ => rfl) _

theorem judged_copyCells (buff key value : LLValue) (cs : List CellCopy) :
    (copyCells buff key value cs).Judged Γ n True True := by
  induction cs with
  | nil => exact judgedLookup.pure _
  | cons c cs ih =>
    exact (judged_createGEP _ _ _).seq fun _ => (judged_createGEP _ _ _).seq fun _ =>
      (judged_neutral rfl).seq fun _ => ih

theorem judged_insertCode (table : Text) (e : Expression) (frame : InsertFrame) :
    (insertCode table e frame).Judged Γ n (AllAgree Γ e.evaluated) ((e.infer Γ).isSome = true) :=
  e.judged_value.seq_left fun _ => (judgedLookup.lookupSchema _ _).seq fun _ =>
    (judgedLookup.getType e).seq fun _ => (judgedLookup.require _ _).seq fun _ =>
      (judgedLookup.slotOf _).seq fun _ => (judgedLookup.slotOf _).seq fun _ =>
        (judgedLookup.slotOf _).seq fun _ => (judged_neutral (by simp [Instr.wellTyped])).seq fun _ =>
          (judged_createBitCast _ _).seq fun _ => (judgedLookup.require _ _).seq fun _ =>
            (judged_neutral rfl).seq fun _ => (judgedLookup.insertCells _ _).seq fun _ =>
              (judged_copyCells _ _ _ _).seq fun _ => (judged_createBitCast _ _).seq fun _ =>
                (judged_createBitCast _ _).seq fun _ => (judged_createCall _ _ _).seq fun _ =>
                  judgedLookup.pure _

theorem judged_scanFields (key value : LLValue) (ls : List (Bool × ℕ)) (i : ℕ) (prev : LLValue) :
    (scanFields key value ls i prev).Judged Γ n True True := by
  induction ls generalizing i prev with
  | nil => exact judgedLookup.pure prev
  | cons l ls ih =>
    have hcolumn : (scanColumn key value l).Judged Γ n True True := by
      unfold scanColumn
      split_ifs
      · exact judged_createGEP _ _ _
      · exact judged_createGEP _ _ _
    exact hcolumn.seq fun _ => (judged_createBitCast _ _).seq fun _ => (judged_createLoad _).seq
      fun _ => ((judgedLookup.require _ _).seq fun _ => judged_result (fun _ => rfl) _).seq fun _ =>
        ih _ _

theorem judged_scanRow (s : Schema) (t : LLType) (frame : ScanFrame) (cursor : LLValue) :
    (scanRow s t frame cursor).Judged Γ n True True :=
  (judgedLookup.slotOf _).seq fun _ => (judged_createBitCast _ _).seq fun _ =>
    (judged_createCall _ _ _).seq fun _ => (judgedLookup.slotOf _).seq fun _ =>
      (judged_createBitCast _ _).seq fun _ => (judged_createCall _ _ _).seq fun _ =>
        (judged_scanFields _ _ _ _ _).seq fun _ => (judgedLookup.slotOf _).seq fun _ =>
          judged_neutral (by simp [Instr.wellTyped])

theorem judged_scanCode (table rowName : Text) (frame : ScanFrame) {blk : Gen Unit} {A P : Prop}
    (hb : ∀ n, blk.Judged Γ n A P) : (scanCode table rowName frame blk).Judged Γ n A P := by
  refine (judgedLookup.lookupSchema _ _).seq fun _ => judgedLookup.get.seq fun _ =>
    (judgedLookup.require _ _).seq fun _ => ?_
  refine ((judgedLookup.require _ _).seq fun _ => (judgedLookup.require _ _).seq fun _ =>
    judged_createCall _ _ _).seq fun _ => ?_
  refine judged_createBlock fun check h₁ => judged_createBlock fun begin h₂ =>
    judged_createBlock fun fin h₃ => ?_
  have hicmp : ∀ l r, (createICmp .eq l r).Judged Γ (fin+1) True True := fun _ _ =>
    judged_result (fun _ => rfl) _
  refine (judged_neutral rfl).seq fun _ => (judged_setInsertPoint (by omega)).seq fun _ =>
    (judged_createCall _ _ _).seq fun _ => (hicmp _ _).seq fun _ => (judged_neutral rfl).seq fun _ =>
      (judged_setInsertPoint (by omega)).seq fun _ => (judged_scanRow _ _ _ _).seq fun _ =>
        (hb _).seq_left fun _ => (judged_createCall _ _ _).seq fun _ => (judged_neutral rfl).seq
          fun _ => (judged_setInsertPoint (by omega)).seq fun _ => (judged_createCall _ _ _).seq
            fun _ => judgedLookup.pure _

theorem judged_codegenAll_of {around : List Frame} {ss : List Statement} (h : ∀ s ∈ ss, ∀ around n,
    (s.codegen around).Judged Γ n (AllAgree Γ s.evaluated) (s.typed Γ = true)) (n : ℕ) :
    (codegenAll around ss).Judged Γ n (AllAgree Γ (evaluatedIn ss)) (typedAll Γ ss = true) := by
  induction ss with
  | nil => exact (judgedLookup.pure _).congr (by simp [evaluatedIn]) (by simp [typedAll])
  | cons s ss ih =>
    rw [List.forall_mem_cons] at h
    refine ((h.1 around n).bind fun _ => ih h.2).congr ?_ ?_
    · rw [evaluatedIn, allAgree_append]
    · rw [typedAll, Bool.and_eq_true]

theorem Statement.judged (s : Statement) (around : List Frame) (n : ℕ) :
    (s.codegen around).Judged Γ n (AllAgree Γ s.evaluated) (s.typed Γ = true) := by
  have hnone : ∀ {p : Gen Unit} {s : Statement} {n : ℕ}, p.Judged Γ n True True →
      s.evaluated = [] → s.typed Γ = true → p.Judged Γ n (AllAgree Γ s.evaluated) (s.typed Γ = true) := by
    intro p s n hp hs ht
    exact hp.congr (by simp [hs]) (by simp [ht])
  induction s using Statement.induction generalizing around n with
  | block ss hss => exact judged_codegenAll_of hss n
  | transaction isolation ss hss =>
    exact (judged_createCall _ _ _).seq fun _ => (judged_codegenAll_of hss n).seq_left fun _ =>
      (judged_createCall _ _ _).seq fun _ => judgedLookup.pure _
  | define schema name => exact hnone (judgedLookup.pure _) rfl rfl
  | forStmt init cond every blk hinit hblk =>
    have hinit' : ∀ n, (codegenInit around init).Judged Γ n (AllAgree Γ (evaluatedInit init))
        (typedInit Γ init = true) := fun n =>
      match init, hinit with
      | .null, _ => (judgedLookup.pure _).congr (by simp [evaluatedInit]) (by simp [typedInit])
      | .uninit, _ => fun d u d' _ _ h => absurd h (by simp [codegenInit])
      | .to s, hinit => hinit s rfl around n
    refine (judged_forCode hinit' (judged_codegenAll_of hblk)).congr ?_ ?_
    · simp only [evaluated, allAgree_append]
      tauto
    · simp only [typed, Bool.and_eq_true]
      tauto
  | jump t =>
    exact hnone (judgedLookup.get.seq fun _ => (judgedLookup.require _ _).seq fun _ =>
      judged_neutral rfl) rfl rfl
  | emit stack e => exact judged_emitCode stack e
  | insert table e frame => exact judged_insertCode table e frame
  | scan table rowName blk frame hblk =>
    exact judged_scanCode table rowName frame (judged_codegenAll_of hblk)
  | letStmt name e type => exact judged_letCode name e
  | defineTuple name type => exact hnone (judgedLookup.pure _) rfl rfl
  | ifStmt cond ts fs hts hfs =>
    have helse : ∀ n, (codegenElse around fs).Judged Γ n (AllAgree Γ (evaluatedElse fs))
        (typedElse Γ fs = true) := by
      intro n
      cases fs with
      | none => exact (judgedLookup.pure _).congr (by simp [evaluatedElse]) (by simp [typedElse])
      | some fs => exact judged_codegenAll_of (hfs fs rfl) n
    refine (judged_ifCode cond.judged_value (judged_codegenAll_of hts) helse).congr ?_ ?_
    · simp only [evaluated, allAgree_append]
    · simp only [typed, Bool.and_eq_true]
  | exprStatement stack e => exact e.judged_value.seq_left fun _ => judgedLookup.pure _

end

end Reir
