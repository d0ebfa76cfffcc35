import Mathlib.Data.List.Basic
import Mathlib.Tactic

/-! A control-flow graph under construction. Code is appended to the current block, empty
blocks are reserved and filled later. What a construction step has added is compared with the
graph it started from: a region owns the block it started in and the blocks it created. -/
namespace BlockGraph
variable {ι : Type}

structure Cfg (ι : Type) where
  blocks : List (List ι)
  cur : ℕ

namespace Cfg

def size (g : Cfg ι) : ℕ := g.blocks.length

/-- The code of a block; a block that does not exist has none. -/
def code (g : Cfg ι) (i : ℕ) : List ι := g.blocks.getD i []

def append (g : Cfg ι) (x : ι) : Cfg ι := { g with blocks := g.blocks.modify g.cur (· ++ [x]) }

def reserve (g : Cfg ι) (n : ℕ) : Cfg ι :=
  { g with blocks := g.blocks ++ List.replicate n [] }

def moveTo (g : Cfg ι) (i : ℕ) : Cfg ι := { g with cur := i }

@[simp] theorem append_cur (g : Cfg ι) (x : ι) : (g.append x).cur = g.cur := rfl

@[simp] theorem reserve_cur (g : Cfg ι) (n : ℕ) : (g.reserve n).cur = g.cur := rfl

@[simp] theorem moveTo_cur (g : Cfg ι) (i : ℕ) : (g.moveTo i).cur = i := rfl

@[simp] theorem append_size (g : Cfg ι) (x : ι) : (g.append x).size = g.size := by
  simp [append, size]

@[simp] theorem reserve_size (g : Cfg ι) (n : ℕ) : (g.reserve n).size = g.size + n := by
  simp [reserve, size]

@[simp] theorem moveTo_size (g : Cfg ι) (i : ℕ) : (g.moveTo i).size = g.size := rfl

theorem code_of_size_le {g : Cfg ι} {i : ℕ} (h : g.size ≤ i) : g.code i = [] := by
  simp [code, List.getD, List.getElem?_eq_none_iff.mpr h]

theorem append_code {g : Cfg ι} (h : g.cur < g.size) (x : ι) (i : ℕ) :
    (g.append x).code i = g.code i ++ if i = g.cur then [x] else [] := by
  have hlt : g.cur < g.blocks.length := h
  by_cases hi : i = g.cur
  · subst hi
    simp [append, code, List.getD, hlt]
  · have hne : ¬g.cur = i := fun heq => hi heq.symm
    simp [append, code, List.getD, hi, hne]

@[simp] theorem reserve_code (g : Cfg ι) (n i : ℕ) : (g.reserve n).code i = g.code i := by
  by_cases hi : i < g.blocks.length
  · simp [reserve, code, List.getD, List.getElem?_append_left hi]
  · have hle : g.blocks.length ≤ i := by omega
    have hnone : g.blocks[i]? = none := List.getElem?_eq_none_iff.mpr hle
    rcases lt_or_ge (i - g.blocks.length) n with hn | hn
    · simp [reserve, code, List.getD, List.getElem?_append_right hle, hnone, hn]
    · have hout : (List.replicate n ([] : List ι))[i - g.blocks.length]? = none :=
        List.getElem?_eq_none_iff.mpr (by simpa using hn)
      simp [reserve, code, List.getD, List.getElem?_append_right hle, hnone, hout]

@[simp] theorem reserve_reserve (g : Cfg ι) (m n : ℕ) :
    (g.reserve m).reserve n = g.reserve (m+n) := by
  simp [reserve, List.append_assoc]

@[simp] theorem moveTo_code (g : Cfg ι) (j i : ℕ) : (g.moveTo j).code i = g.code i := rfl

end Cfg

/-- Blocks are only created and extended at their ends. -/
structure Grows (a b : Cfg ι) : Prop where
  size_le : a.size ≤ b.size
  code_le : ∀ i, a.code i <+: b.code i

/-- The code a step has added to a block. -/
def added (a b : Cfg ι) (i : ℕ) : List ι := (b.code i).drop (a.code i).length

@[simp] theorem added_self (a : Cfg ι) (i : ℕ) : added a a i = [] := by simp [added]

namespace Grows

theorem refl (a : Cfg ι) : Grows a a := ⟨le_rfl, fun _ => List.prefix_rfl⟩

theorem trans {a b c : Cfg ι} (h : Grows a b) (k : Grows b c) : Grows a c :=
  ⟨h.size_le.trans k.size_le, fun i => (h.code_le i).trans (k.code_le i)⟩

theorem code_eq {a b : Cfg ι} (h : Grows a b) (i : ℕ) : b.code i = a.code i ++ added a b i := by
  obtain ⟨suffix, hsuffix⟩ := h.code_le i
  simp [added, ← hsuffix]

theorem added_eq {a b : Cfg ι} {i : ℕ} {xs : List ι} (h : b.code i = a.code i ++ xs) :
    added a b i = xs := by
  simp [added, h]

theorem added_trans {a b c : Cfg ι} (h : Grows a b) (k : Grows b c) (i : ℕ) :
    added a c i = added a b i ++ added b c i := by
  apply added_eq
  rw [k.code_eq i, h.code_eq i, List.append_assoc]

/-- Only the code of the blocks counts, not the insert point or the number of empty blocks. -/
theorem added_congr {a a' b b' : Cfg ι} (ha : ∀ i, a'.code i = a.code i)
    (hb : ∀ i, b'.code i = b.code i) (i : ℕ) : added a' b' i = added a b i := by
  simp [added, ha, hb]

theorem append {a b : Cfg ι} (h : Grows a b) (hcur : b.cur < b.size) (x : ι) :
    Grows a (b.append x) := by
  constructor
  · simpa using h.size_le
  · intro i
    rw [Cfg.append_code hcur]
    exact (h.code_le i).trans (List.prefix_append _ _)

theorem added_append {a b : Cfg ι} (h : Grows a b) (hcur : b.cur < b.size) (x : ι) (i : ℕ) :
    added a (b.append x) i = added a b i ++ if i = b.cur then [x] else [] := by
  apply added_eq
  rw [Cfg.append_code hcur, h.code_eq i, List.append_assoc]

theorem added_out {a b : Cfg ι} {i : ℕ} (h : b.size ≤ i) : added a b i = [] := by
  simp [added, Cfg.code_of_size_le h]

end Grows

/-- A step that adds code only to the block it starts in and to blocks it creates. It leaves
its block only after adding something to it. -/
structure Region (a b : Cfg ι) : Prop where
  grows : Grows a b
  own : ∀ i, added a b i ≠ [] → i = a.cur ∨ a.size ≤ i
  valid : b.cur < b.size
  moved : b.cur = a.cur ∨ a.size ≤ b.cur ∧ added a b a.cur ≠ []

/-- The blocks of a region. -/
def Owns (a b : Cfg ι) (i : ℕ) : Prop := i = a.cur ∨ a.size ≤ i ∧ i < b.size

theorem Region.refl {a : Cfg ι} (h : a.cur < a.size) : Region a a where
  grows := Grows.refl a
  own := by simp
  valid := h
  moved := Or.inl rfl

theorem Region.append {a : Cfg ι} (h : a.cur < a.size) (x : ι) : Region a (a.append x) where
  grows := (Grows.refl a).append h x
  own := by
    intro i hi
    rw [(Grows.refl a).added_append h] at hi
    by_cases hc : i = a.cur
    · exact Or.inl hc
    · simp [hc] at hi
  valid := by simpa using h
  moved := Or.inl rfl

theorem Region.added_nil {a b : Cfg ι} (h : Region a b) {i : ℕ} (hc : i ≠ a.cur)
    (hi : i < a.size) : added a b i = [] := by
  by_contra hne
  rcases h.own i hne with hcur | hle
  · exact hc hcur
  · omega

theorem Region.trans {a b c : Cfg ι} (h : Region a b) (k : Region b c) : Region a c where
  grows := h.grows.trans k.grows
  own := by
    intro i hi
    rw [h.grows.added_trans k.grows] at hi
    have hsize := h.grows.size_le
    by_cases hab : added a b i = []
    · have hbc : added b c i ≠ [] := by simpa [hab] using hi
      rcases k.own i hbc with hb | hb
      · rcases h.moved with hm | hm
        · exact Or.inl (hb.trans hm)
        · exact Or.inr (by omega)
      · exact Or.inr (by omega)
    · exact h.own i hab
  valid := k.valid
  moved := by
    have hsize := h.grows.size_le
    rw [h.grows.added_trans k.grows]
    rcases h.moved with hm | ⟨hm, hne⟩
    · rcases k.moved with hk | ⟨hk, hne⟩
      · exact Or.inl (hk.trans hm)
      · rw [hm] at hne
        exact Or.inr ⟨by omega, by simp [hne]⟩
    · rcases k.moved with hk | ⟨hk, -⟩
      · exact Or.inr ⟨by omega, by simp [hne]⟩
      · exact Or.inr ⟨by omega, by simp [hne]⟩

section
variable (t : ι → Bool)

def Straight (xs : List ι) : Prop := ∀ x ∈ xs, t x = false

/-- Exactly one terminator, at the end. -/
def Terminated (xs : List ι) : Prop := ∃ ys x, xs = ys ++ [x] ∧ Straight t ys ∧ t x = true

instance (xs : List ι) : Decidable (Straight t xs) := inferInstanceAs (Decidable (∀ x ∈ xs, _))

/-- The last instruction is a terminator and the only one. -/
theorem terminated_iff (xs : List ι) :
    Terminated t xs ↔ Straight t xs.dropLast ∧ xs.getLast?.any t = true := by
  constructor
  · rintro ⟨ys, x, rfl, hys, hx⟩
    simpa using ⟨hys, hx⟩
  · rintro ⟨hs, hx⟩
    cases hlast : xs.getLast? with
    | none => simp [hlast] at hx
    | some x =>
      obtain ⟨ys, rfl⟩ := List.getLast?_eq_some_iff.mp hlast
      exact ⟨ys, x, rfl, by simpa using hs, by simpa [hlast] using hx⟩

instance (xs : List ι) : Decidable (Terminated t xs) := decidable_of_iff _ (terminated_iff t xs).symm

/-- Every block of a region is finished, but for the one it ends in, which has no terminator. -/
def Clean (a b : Cfg ι) : Prop :=
  ∀ i, Owns a b i → if i = b.cur then Straight t (added a b i) else Terminated t (added a b i)

variable {t}

theorem straight_append {xs ys : List ι} :
    Straight t (xs ++ ys) ↔ Straight t xs ∧ Straight t ys := by
  simp [Straight, or_imp, forall_and]

theorem not_terminated_nil : ¬Terminated t ([] : List ι) := by
  rintro ⟨ys, x, h, -⟩
  simp at h

theorem terminated_append {xs ys : List ι} (h : ys ≠ []) :
    Terminated t (xs ++ ys) ↔ Straight t xs ∧ Terminated t ys := by
  constructor
  · rintro ⟨zs, x, heq, hzs, hx⟩
    obtain ⟨ws, w, rfl⟩ := List.eq_nil_or_concat ys |>.resolve_left h
    rw [List.concat_eq_append, ← List.append_assoc] at heq
    obtain ⟨rfl, hw⟩ := List.append_inj' heq rfl
    obtain ⟨hxs, hws⟩ := straight_append.mp hzs
    refine ⟨hxs, ws, x, ?_, hws, hx⟩
    rw [List.concat_eq_append, hw]
  · rintro ⟨hxs, ws, x, rfl, hws, hx⟩
    exact ⟨xs ++ ws, x, by simp, straight_append.mpr ⟨hxs, hws⟩, hx⟩

theorem terminated_snoc {xs : List ι} {x : ι} (hx : t x = true) :
    Terminated t (xs ++ [x]) ↔ Straight t xs := by
  rw [terminated_append (List.cons_ne_nil x [])]
  have hone : Terminated t [x] := ⟨[], x, rfl, by simp [Straight], hx⟩
  simp [hone]

theorem clean_refl (a : Cfg ι) : Clean t a a := by
  rintro i (rfl | ⟨h₁, h₂⟩)
  · simp [Straight]
  · omega

theorem clean_append {a : Cfg ι} (h : a.cur < a.size) (x : ι) :
    Clean t a (a.append x) ↔ t x = false := by
  have hadded := (Grows.refl a).added_append h x
  constructor
  · intro hc
    have hcur := hc a.cur (Or.inl rfl)
    simpa [hadded, Straight] using hcur
  · rintro hx i (rfl | ⟨h₁, h₂⟩)
    · simpa [hadded, Straight] using hx
    · simp at h₂
      omega

/-- Two regions in sequence are clean exactly when both are. -/
theorem clean_trans {a b c : Cfg ι} (hcur : a.cur < a.size) (h : Region a b) (k : Region b c) :
    Clean t a c ↔ Clean t a b ∧ Clean t b c := by
  have hadd := h.grows.added_trans k.grows
  have hab := h.grows.size_le
  have hbc := k.grows.size_le
  have hcb : Owns a b b.cur := by
    rcases h.moved with hm | hm
    · exact Or.inl hm
    · exact Or.inr ⟨hm.1, h.valid⟩
  have hback : ∀ i, Owns a b i → i ≠ b.cur → i < b.size ∧ i ≠ c.cur ∧ added b c i = [] := by
    intro i hi hne
    have hlt : i < b.size := by
      rcases hi with rfl | hi <;> omega
    refine ⟨hlt, ?_, k.added_nil hne hlt⟩
    rcases k.moved with hk | hk <;> omega
  have hat : (if b.cur = c.cur then Straight t (added a c b.cur)
      else Terminated t (added a c b.cur)) ↔ Straight t (added a b b.cur) ∧
        (if b.cur = c.cur then Straight t (added b c b.cur)
          else Terminated t (added b c b.cur)) := by
    rw [hadd]
    split_ifs with hbc
    · exact straight_append
    · rcases k.moved with hk | hk
      · exact absurd hk.symm hbc
      · exact terminated_append hk.2
  constructor
  · intro hc
    have hcurb := hc b.cur (hcb.imp id fun h' => ⟨h'.1, by omega⟩)
    constructor
    · intro i hi
      by_cases hib : i = b.cur
      · rw [if_pos hib, hib]
        exact (hat.mp hcurb).1
      · obtain ⟨hlt, hne, hnil⟩ := hback i hi hib
        have := hc i (hi.imp id fun h' => ⟨h'.1, by omega⟩)
        rw [if_neg hne, hadd, hnil, List.append_nil] at this
        rwa [if_neg hib]
    · rintro i (rfl | ⟨h₁, h₂⟩)
      · exact (hat.mp hcurb).2
      · have := hc i (Or.inr ⟨by omega, h₂⟩)
        rwa [hadd, Grows.added_out h₁, List.nil_append] at this
  · rintro ⟨h₁, h₂⟩ i hi
    by_cases hib : i = b.cur
    · subst hib
      have hs := h₁ b.cur hcb
      rw [if_pos rfl] at hs
      exact hat.mpr ⟨hs, h₂ b.cur (Or.inl rfl)⟩
    · by_cases hlt : i < b.size
      · have hown : Owns a b i := by
          rcases hi with rfl | hi
          · exact Or.inl rfl
          · exact Or.inr ⟨hi.1, hlt⟩
        obtain ⟨-, hne, hnil⟩ := hback i hown hib
        have := h₁ i hown
        rw [if_neg hib] at this
        rwa [if_neg hne, hadd, hnil, List.append_nil]
      · have hi' : i < c.size := by
          rcases hi with rfl | hi <;> omega
        have := h₂ i (Or.inr ⟨by omega, hi'⟩)
        rwa [hadd, Grows.added_out (by omega), List.nil_append]

/-- A terminator behind a region finishes all of its blocks exactly when the region is clean. -/
theorem sealed_iff {a b : Cfg ι} (h : Region a b) {x : ι} (hx : t x = true) :
    (∀ i, Owns a b i → Terminated t (added a (b.append x) i)) ↔ Clean t a b := by
  have hadd := h.grows.added_append h.valid x
  apply forall₂_congr
  intro i _
  rw [hadd]
  split_ifs with hi
  · exact terminated_snoc hx
  · rw [List.append_nil]

/-- A step that ended its block with a branch and has reserved blocks still to be filled. -/
structure Fork (a b : Cfg ι) (pending : List ℕ) : Prop where
  grows : Grows a b
  own : ∀ i, added a b i ≠ [] → i = a.cur ∨ a.size ≤ i
  left : added a b a.cur ≠ []
  pending_new : ∀ i ∈ pending, a.size ≤ i ∧ i < b.size ∧ added a b i = []

variable (t) in
/-- Every block of a fork is finished, but for the pending ones. -/
def Filled (a b : Cfg ι) (pending : List ℕ) : Prop :=
  ∀ i, Owns a b i → i ∉ pending → Terminated t (added a b i)

/-- A region that starts behind reserved blocks and ends in a branch. -/
theorem Fork.start {a b : Cfg ι} {n : ℕ} (hcur : a.cur < a.size) (h : Region (a.reserve n) b)
    (x : ι) : Fork a (b.append x) (List.range' a.size n) := by
  have hadd : ∀ i, added a (b.append x) i = added (a.reserve n) b i ++ if i = b.cur then [x] else [] := by
    intro i
    rw [← h.grows.added_append h.valid]
    exact Grows.added_congr (fun j => (a.reserve_code n j).symm) (fun _ => rfl) i
  have hsize := h.grows.size_le
  rw [Cfg.reserve_size] at hsize
  have hmoved := h.moved
  rw [Cfg.reserve_cur, Cfg.reserve_size] at hmoved
  constructor
  · have hgrow : Grows a (a.reserve n) := ⟨by simp, by simp⟩
    exact hgrow.trans (h.grows.append h.valid x)
  · intro i hi
    rw [hadd] at hi
    by_cases hb : i = b.cur
    · omega
    · rw [if_neg hb, List.append_nil] at hi
      have hown := h.own i hi
      rw [Cfg.reserve_cur, Cfg.reserve_size] at hown
      omega
  · rw [hadd]
    rcases hmoved with hm | ⟨-, hm⟩
    · simp [hm]
    · simp [hm]
  · intro i hi
    rw [List.mem_range'_1] at hi
    rw [hadd]
    have hnil : added (a.reserve n) b i = [] := by
      apply h.added_nil
      · rw [Cfg.reserve_cur]
        omega
      · rw [Cfg.reserve_size]
        omega
    rw [hnil, if_neg (by omega), Cfg.append_size]
    exact ⟨hi.1, by omega, rfl⟩

theorem filled_start {a b : Cfg ι} {n : ℕ} (hcur : a.cur < a.size) (h : Region (a.reserve n) b)
    {x : ι} (hx : t x = true) :
    Filled t a (b.append x) (List.range' a.size n) ↔ Clean t (a.reserve n) b := by
  have hsize := h.grows.size_le
  rw [Cfg.reserve_size] at hsize
  rw [← sealed_iff h hx]
  have hadd : ∀ i, added a (b.append x) i = added (a.reserve n) (b.append x) i :=
    Grows.added_congr (fun j => (a.reserve_code n j).symm) fun _ => rfl
  constructor
  · intro hf i hi
    rw [← hadd]
    apply hf i
    · rcases hi with hi | ⟨h₁, h₂⟩
      · exact Or.inl hi
      · rw [Cfg.reserve_size] at h₁
        exact Or.inr ⟨by omega, by simpa using h₂⟩
    · rw [List.mem_range'_1]
      rcases hi with hi | ⟨h₁, h₂⟩
      · rw [Cfg.reserve_cur] at hi
        omega
      · rw [Cfg.reserve_size] at h₁
        omega
  · intro hs i hi hp
    rw [List.mem_range'_1] at hp
    rw [hadd]
    apply hs i
    rcases hi with hi | ⟨h₁, h₂⟩
    · exact Or.inl hi
    · rw [Cfg.append_size] at h₂
      exact Or.inr ⟨by rw [Cfg.reserve_size]; omega, h₂⟩

section
variable {a b c : Cfg ι} {i : ℕ} {pending : List ℕ}

/-- What is added to a fork when one of its pending blocks is filled and branches on. -/
theorem Fork.added_fill (h : Fork a b (i :: pending)) (k : Region (b.moveTo i) c) (x : ι) (j : ℕ) :
    added a (c.append x) j = added a b j ++ added (b.moveTo i) (c.append x) j := by
  have hgrow : Grows b (b.moveTo i) := ⟨by simp, by simp⟩
  have hbc := hgrow.trans (k.grows.append k.valid x)
  rw [h.grows.added_trans hbc]
  rfl

/-- A filling adds only to the block it fills and to new ones. -/
theorem Fork.fill_own (k : Region (b.moveTo i) c) (x : ι) {j : ℕ}
    (hj : added (b.moveTo i) (c.append x) j ≠ []) : j = i ∨ b.size ≤ j := by
  rw [k.grows.added_append k.valid] at hj
  by_cases hc : j = c.cur
  · rcases k.moved with hm | ⟨hm, -⟩
    · exact Or.inl (hc.trans hm)
    · exact Or.inr (hc ▸ hm)
  · rw [if_neg hc, List.append_nil] at hj
    exact k.own j hj

theorem Fork.fill (h : Fork a b (i :: pending)) (hi : i ∉ pending) (k : Region (b.moveTo i) c)
    (x : ι) : Fork a (c.append x) pending := by
  have hadd := h.added_fill k x
  have hnew := h.pending_new i List.mem_cons_self
  have hab := h.grows.size_le
  have hbc : b.size ≤ c.size := k.grows.size_le
  constructor
  · have hgrow : Grows b (b.moveTo i) := ⟨by simp, by simp⟩
    exact h.grows.trans (hgrow.trans (k.grows.append k.valid x))
  · intro j hj
    by_cases hbj : added a b j = []
    · rw [hadd, hbj, List.nil_append] at hj
      have := Fork.fill_own k x hj
      omega
    · exact h.own j hbj
  · rw [hadd]
    simp [h.left]
  · intro j hj
    obtain ⟨h₁, h₂, h₃⟩ := h.pending_new j (List.mem_cons_of_mem i hj)
    have hne : j ≠ i := fun heq => hi (heq ▸ hj)
    refine ⟨h₁, by rw [Cfg.append_size]; omega, ?_⟩
    rw [hadd, h₃, List.nil_append]
    by_contra hcj
    have := Fork.fill_own k x hcj
    omega

theorem Fork.filled_fill (h : Fork a b (i :: pending)) (hi : i ∉ pending) (ha : a.cur < a.size)
    (k : Region (b.moveTo i) c) {x : ι} (hx : t x = true) :
    Filled t a (c.append x) pending ↔ Filled t a b (i :: pending) ∧ Clean t (b.moveTo i) c := by
  have hadd := h.added_fill k x
  have hnew := h.pending_new i List.mem_cons_self
  have hab := h.grows.size_le
  have hbc : b.size ≤ c.size := k.grows.size_le
  have hpend : ∀ j ∈ pending, j ≠ i ∧ j < b.size := by
    intro j hj
    exact ⟨fun heq => hi (heq ▸ hj), (h.pending_new j (List.mem_cons_of_mem i hj)).2.1⟩
  rw [← sealed_iff k hx]
  constructor
  · intro hf
    constructor
    · intro j hj hp
      rw [List.mem_cons, not_or] at hp
      have hlt : j < b.size := by
        rcases hj with rfl | hj <;> omega
      have hnil : added (b.moveTo i) (c.append x) j = [] := by
        by_contra hne
        have := Fork.fill_own k x hne
        omega
      have := hf j (hj.imp id fun h' => ⟨h'.1, by rw [Cfg.append_size]; omega⟩) hp.2
      rwa [hadd, hnil, List.append_nil] at this
    · intro j hj
      have hnil : added a b j = [] := by
        rcases hj with rfl | hj
        · exact hnew.2.2
        · exact Grows.added_out hj.1
      have hlt : a.size ≤ j ∧ j < c.size := by
        have hvalid := k.valid
        rcases hj with rfl | hj
        · omega
        · rw [Cfg.moveTo_size] at hj
          omega
      have hp : j ∉ pending := by
        intro hmem
        have := hpend j hmem
        rcases hj with rfl | hj
        · exact this.1 rfl
        · rw [Cfg.moveTo_size] at hj
          omega
      have := hf j (Or.inr ⟨hlt.1, by rw [Cfg.append_size]; omega⟩) hp
      rwa [hadd, hnil, List.nil_append] at this
  · rintro ⟨hf, hs⟩ j hj hp
    rw [hadd]
    by_cases hown : j = i ∨ b.size ≤ j
    · have hnil : added a b j = [] := by
        rcases hown with rfl | hown
        · exact hnew.2.2
        · exact Grows.added_out hown
      rw [hnil, List.nil_append]
      apply hs j
      rcases hown with rfl | hown
      · exact Or.inl rfl
      · rw [Owns, Cfg.append_size] at hj
        exact Or.inr ⟨hown, by omega⟩
    · have hnil : added (b.moveTo i) (c.append x) j = [] := by
        by_contra hne
        exact hown (Fork.fill_own k x hne)
      rw [hnil, List.append_nil]
      apply hf j
      · exact hj.imp id fun h' => ⟨h'.1, by omega⟩
      · rw [List.mem_cons, not_or]
        exact ⟨fun heq => hown (Or.inl heq), hp⟩

/-- A block that is still to be filled is empty. -/
theorem Fork.code_nil (h : Fork a b pending) (hi : i ∈ pending) : b.code i = [] := by
  obtain ⟨hle, -, hadded⟩ := h.pending_new i hi
  rw [h.grows.code_eq, Cfg.code_of_size_le hle, hadded, List.append_nil]

/-- A pending block that is never filled. -/
theorem Fork.drop (h : Fork a b (i :: pending)) : Fork a b pending :=
  ⟨h.grows, h.own, h.left, fun j hj => h.pending_new j (List.mem_cons_of_mem i hj)⟩

theorem Fork.not_filled_drop (h : Fork a b (i :: pending)) (hi : i ∉ pending) :
    ¬Filled t a b pending := by
  intro hf
  have hnew := h.pending_new i List.mem_cons_self
  have := hf i (Or.inr ⟨hnew.1, hnew.2.1⟩) hi
  rw [hnew.2.2] at this
  exact not_terminated_nil this

/-- The insert point does not matter while blocks are pending. -/
theorem Fork.moveTo (h : Fork a b pending) (j : ℕ) : Fork a (b.moveTo j) pending :=
  ⟨⟨h.grows.size_le, h.grows.code_le⟩, h.own, h.left, h.pending_new⟩

/-- Construction goes on in the last pending block. -/
theorem Fork.close (h : Fork a b [i]) : Region a (b.moveTo i) := by
  have hnew := h.pending_new i List.mem_cons_self
  have hadd : ∀ j, added a (b.moveTo i) j = added a b j := fun _ => rfl
  constructor
  · exact ⟨h.grows.size_le, h.grows.code_le⟩
  · exact h.own
  · exact hnew.2.1
  · exact Or.inr ⟨hnew.1, h.left⟩

theorem Fork.clean_close (h : Fork a b [i]) :
    Clean t a (b.moveTo i) ↔ Filled t a b [i] := by
  have hnew := h.pending_new i List.mem_cons_self
  apply forall₂_congr
  intro j _
  have hadd : added a (b.moveTo i) j = added a b j := rfl
  by_cases hj : j = i
  · subst hj
    simp [hadd, hnew.2.2, Straight]
  · simp [hadd, hj]

end

end

end BlockGraph
