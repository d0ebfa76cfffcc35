import Reir.RowKeys

/-! The rows of all tables in one ordered store. A table is scanned by the range of keys
from its prefix to the prefix with the byte in front of the colon incremented; the byte is
the last one of the name. -/
namespace Reir
open ByteMemory

abbrev Store := Text → Option Text

/-- `insert_record`: an existing key is an error and the store stays as it is. -/
def Store.insert (st : Store) (record : Text × Text) : Store :=
  fun k => if k = record.1 ∧ st k = none then some record.2 else st k

/-- The cursor opened on `lo` and `hi` visits the stored key `k`. -/
def Store.Visits (st : Store) (lo hi k : Text) : Prop := st k ≠ none ∧ lo ≤ k ∧ k < hi

def runInserts (inserts : List Insertion) : Store :=
  inserts.foldl (fun st i => match i.record with
    | some record => st.insert record
    | none => st) fun _ => none

/-- Tables of `int` columns that are not nullable, under distinct names, and rows inserted
into them under distinct keys. -/
structure Workload where
  tables : List Schema
  names : tables.Pairwise fun s t => s.name ≠ t.name
  identifiers : ∀ t ∈ tables, t.name ≠ [] ∧ Schema.colonByte ∉ t.name
  columns : ∀ t ∈ tables, ∀ a ∈ t.attrs, a.type.kind = .integer ∧ a.isNullable = false
  inserts : List Insertion
  rows : ∀ i ∈ inserts, i.table ∈ tables ∧ i.row.length = i.table.attrs.length
  keys : inserts.Pairwise fun i j => i.table.name ≠ j.table.name ∨ i.keyColumns ≠ j.keyColumns

/-- The scan of `t` visits exactly the keys that were inserted into `t`. -/
def Workload.ScanExact (w : Workload) (t : Schema) : Prop :=
  ∀ k, (runInserts w.inserts).Visits t.prefixBegin t.prefixEnd k ↔
    ∃ i ∈ w.inserts, i.table = t ∧ i.record.map Prod.fst = some k

theorem Workload.record_key (w : Workload) {i : Insertion} (hi : i ∈ w.inserts) :
    ∃ v, i.record = some (i.table.name ++ Schema.colonByte :: i.payload, v) := by
  obtain ⟨htable, hrow⟩ := w.rows i hi
  have hplain : i.Plain := ⟨(w.identifiers i.table htable).2, w.columns i.table htable, hrow⟩
  exact hplain.record_key

/-- The stored keys are the inserted ones. -/
theorem foldl_insert_ne_none (inserts : List Insertion) (st : Store) (k : Text) :
    (inserts.foldl (fun st i => match i.record with
      | some record => st.insert record
      | none => st) st) k ≠ none ↔
      st k ≠ none ∨ ∃ i ∈ inserts, i.record.map Prod.fst = some k := by
  induction inserts generalizing st with
  | nil => simp
  | cons i inserts ih =>
    rw [List.foldl_cons, ih]
    cases hr : i.record with
    | none => simp [hr]
    | some record =>
      have hins : st.insert record k ≠ none ↔ st k ≠ none ∨ record.1 = k := by
        by_cases hk : k = record.1
        · subst hk
          cases hst : st record.1 <;> simp [Store.insert, hst]
        · have hk' : ¬record.1 = k := fun h => hk h.symm
          simp [Store.insert, hk, hk']
      simp only [hins, List.mem_cons, exists_eq_or_imp, hr, Option.map_some, Option.some.injEq]
      tauto

theorem Workload.visits_iff (w : Workload) (lo hi k : Text) :
    (runInserts w.inserts).Visits lo hi k ↔
      (∃ i ∈ w.inserts, i.record.map Prod.fst = some k) ∧ lo ≤ k ∧ k < hi := by
  have h := foldl_insert_ne_none w.inserts (fun _ => none) k
  simp only [ne_eq, not_true_eq_false, false_or] at h
  rw [Store.Visits, runInserts, ne_eq, h]

theorem modify_append_length {α : Type} (f : α → α) (xs ys : List α) (a : α) :
    (xs ++ a :: ys).modify xs.length f = xs ++ f a :: ys := by
  induction xs with
  | nil => rfl
  | cons x xs ih => simp [ih]

/-- The bounds of a scan, for a name that ends in the byte `c`. -/
theorem Schema.prefixEnd_eq {s : Schema} {stem : Text} {c : UInt8} (h : s.name = stem ++ [c]) :
    s.prefixEnd = stem ++ [c+1, colonByte] := by
  rw [prefixEnd, getKeyPrefix, h, List.append_assoc]
  have hlen : (stem ++ ([c] ++ [colonByte])).length - 2 = stem.length := by simp
  rw [hlen]
  exact modify_append_length _ stem [colonByte] c

theorem Schema.prefixBegin_eq {s : Schema} {stem : Text} {c : UInt8} (h : s.name = stem ++ [c]) :
    s.prefixBegin = stem ++ [c, colonByte] := by
  simp [prefixBegin, getKeyPrefix, h]

theorem singleton_le_iff {b : UInt8} {r : Text} : [b] ≤ r ↔ ∃ x u, r = x :: u ∧ b ≤ x := by
  cases r with
  | nil => simp
  | cons x u =>
    rw [← List.not_lt, List.cons_lt_cons_iff]
    simp

theorem lt_singleton_iff {b : UInt8} {r : Text} :
    r < [b] ↔ r = [] ∨ ∃ x u, r = x :: u ∧ x < b := by
  cases r with
  | nil => simp
  | cons x u =>
    rw [List.cons_lt_cons_iff]
    simp

/-- Between `c:` and the next byte with a colon lie the strings that go on from `c` with a
colon or more, and from the next byte with less than a colon. -/
theorem between_colon_iff {c b : UInt8} (hc : c ≠ 255) {r : Text} :
    ([c, b] ≤ r ∧ r < [c+1, b]) ↔
      (∃ x u, r = c :: x :: u ∧ b ≤ x) ∨ r = [c+1] ∨ ∃ x u, r = (c+1) :: x :: u ∧ x < b := by
  have hsucc : (c+1).toNat = c.toNat+1 := by
    have hlt := c.toNat_lt
    have hne : c.toNat ≠ 255 := fun h => hc (UInt8.toNat_inj.mp h)
    rw [UInt8.toNat_add]
    simp
    omega
  have hself : c < c+1 := by
    rw [UInt8.lt_iff_toNat_lt]
    omega
  cases r with
  | nil => simp
  | cons y r =>
    rw [← List.not_lt, List.cons_lt_cons_iff, List.cons_lt_cons_iff, lt_singleton_iff]
    by_cases hy : y = c
    · subst hy
      have hne : y ≠ y+1 := fun h => by
        rw [← h] at hself
        exact UInt8.lt_irrefl y hself
      simp only [UInt8.lt_irrefl, true_and, false_or, hself, and_true, List.cons.injEq, hne,
        false_and, exists_false, or_false]
      rw [← lt_singleton_iff, List.not_lt, singleton_le_iff]
    · by_cases hy' : y = c+1
      · subst hy'
        have hgt : ¬c+1 < c := by
          rw [UInt8.lt_iff_toNat_lt]
          omega
        simp [hgt, hy, UInt8.lt_irrefl]
      · have hcases : y < c ∨ ¬y < c+1 := by
          by_contra hno
          push Not at hno
          have h1 : c.toNat ≤ y.toNat := by
            have := hno.1
            rw [UInt8.lt_iff_toNat_lt] at this
            omega
          have h2 : y.toNat < (c+1).toNat := UInt8.lt_iff_toNat_lt.mp hno.2
          exact hy (UInt8.toNat_inj.mp (by omega))
        have hflip : ∀ h : y = c ∨ y = c+1, False := by
          rintro (h | h)
          · exact hy h
          · exact hy' h
        simp only [hy, hy', false_and, or_false, List.cons.injEq, exists_false, or_self, iff_false]
        rintro ⟨h1, h2⟩
        rcases hcases with h | h
        · exact h1 h
        · exact h h2

/-- A name without a colon that starts a key is the stem of the name of the key's table. -/
theorem exists_append_of_key {m n p r : Text} (hn : Schema.colonByte ∉ n)
    (h : m ++ Schema.colonByte :: p = n ++ r) : ∃ u, m = n ++ u ∧ r = u ++ Schema.colonByte :: p := by
  induction n generalizing m with
  | nil => exact ⟨m, rfl, h.symm⟩
  | cons y n ih =>
    cases m with
    | nil =>
      simp only [List.nil_append, List.cons_append, List.cons.injEq] at h
      exact absurd (by simp [h.1]) hn
    | cons x m =>
      simp only [List.cons_append, List.cons.injEq] at h
      obtain ⟨rfl, h⟩ := h
      obtain ⟨u, rfl, hr⟩ := ih (fun hx => hn (List.mem_cons_of_mem x hx)) h
      exact ⟨u, rfl, hr⟩

/-- The key `m:p` of a table other than `n` lies in the range of `n`. The name `m` goes on
from `n` with a byte above the colon, or from `n` with its last byte incremented with a byte
below the colon; or the last byte of `n` is a `9`, `m` is `n` without it, and what follows the
colon starts below the colon. -/
def Intrudes (n m p : Text) : Prop :=
  (∃ x u, m = n ++ x :: u ∧ Schema.colonByte < x) ∨
  ∃ stem c, n = stem ++ [c] ∧
    ((∃ x u, m = stem ++ (c+1) :: x :: u ∧ x < Schema.colonByte) ∨
      (c = 57 ∧ m = stem ∧ ∀ b ∈ p.head?, b < Schema.colonByte))

theorem lt_of_le_of_ne_colon {x b : UInt8} (h : b ≤ x) (hne : x ≠ b) : b < x := by
  rw [UInt8.lt_iff_toNat_lt]
  have hle := UInt8.le_iff_toNat_le.mp h
  have hne : x.toNat ≠ b.toNat := fun h => hne (UInt8.toNat_inj.mp h)
  omega

/-- The keys in the range of a table. -/
theorem in_range_iff {s : Schema} {stem m p : Text} {c : UInt8} (hname : s.name = stem ++ [c])
    (hs : Schema.colonByte ∉ s.name) (hm : Schema.colonByte ∉ m) (hc : c ≠ 255) :
    (s.prefixBegin ≤ m ++ Schema.colonByte :: p ∧ m ++ Schema.colonByte :: p < s.prefixEnd) ↔
      m = s.name ∨ Intrudes s.name m p := by
  have hstem : Schema.colonByte ∉ stem := fun h => hs (by simp [hname, h])
  rw [Schema.prefixBegin_eq hname, Schema.prefixEnd_eq hname, between_iff]
  simp only [between_colon_iff hc]
  constructor
  · rintro ⟨r, hk, hr⟩
    rcases hr with ⟨x, u, rfl, hx⟩ | hr
    · have hk : m ++ Schema.colonByte :: p = s.name ++ x :: u := by rw [hk, hname]; simp
      obtain ⟨v, rfl, hv⟩ := exists_append_of_key hs hk
      cases v with
      | nil => exact .inl (by simp)
      | cons y v =>
        simp only [List.cons_append, List.cons.injEq] at hv
        obtain ⟨rfl, _⟩ := hv
        have hne : x ≠ Schema.colonByte := by
          rintro rfl
          exact hm (by simp)
        exact .inr (.inl ⟨x, v, rfl, lt_of_le_of_ne_colon hx hne⟩)
    · obtain ⟨v, rfl, hv⟩ := exists_append_of_key hstem hk
      refine .inr (.inr ⟨stem, c, hname, ?_⟩)
      have hplus : c+1 = Schema.colonByte → c = 57 := by
        intro h
        have : c = Schema.colonByte - 1 := by rw [← h]; simp
        rw [this]
        decide
      cases v with
      | nil =>
        rw [List.nil_append] at hv
        rcases hr with hr | ⟨x, u, hr, hx⟩
        · rw [hv] at hr
          simp only [List.cons.injEq] at hr
          exact .inr ⟨hplus hr.1.symm, by simp, by simp [hr.2]⟩
        · rw [hv] at hr
          simp only [List.cons.injEq] at hr
          exact .inr ⟨hplus hr.1.symm, by simp, by simp [hr.2, hx]⟩
      | cons y v =>
        rcases hr with hr | ⟨x, u, hr, hx⟩
        · rw [hv] at hr
          simp at hr
        · rw [hv] at hr
          simp only [List.cons_append, List.cons.injEq] at hr
          obtain ⟨rfl, hr⟩ := hr
          cases v with
          | nil =>
            simp only [List.nil_append, List.cons.injEq] at hr
            rw [← hr.1] at hx
            exact absurd hx (UInt8.lt_irrefl _)
          | cons z v =>
            simp only [List.cons_append, List.cons.injEq] at hr
            exact .inl ⟨z, v, rfl, by rw [hr.1]; exact hx⟩
  · rintro (rfl | ⟨x, u, rfl, hx⟩ | ⟨stem', c', hname', hrest⟩)
    · exact ⟨c :: Schema.colonByte :: p, by simp [hname], .inl ⟨_, _, rfl, UInt8.le_refl _⟩⟩
    · exact ⟨c :: x :: (u ++ Schema.colonByte :: p), by simp [hname],
        .inl ⟨_, _, rfl, UInt8.le_of_lt hx⟩⟩
    · rw [hname] at hname'
      obtain ⟨rfl, hc'⟩ := List.append_inj' hname' rfl
      simp only [List.cons.injEq, and_true] at hc'
      subst hc'
      rcases hrest with ⟨x, u, rfl, hx⟩ | ⟨rfl, rfl, hp⟩
      · exact ⟨(c+1) :: x :: (u ++ Schema.colonByte :: p), by simp, .inr (.inr ⟨_, _, rfl, hx⟩)⟩
      · refine ⟨Schema.colonByte :: p, rfl, .inr ?_⟩
        cases p with
        | nil => exact .inl rfl
        | cons b p => exact .inr ⟨b, p, rfl, hp b (by simp)⟩

/-- A name whose last byte is the largest one gives an empty range. -/
theorem range_empty {s : Schema} {stem : Text} (hname : s.name = stem ++ [255]) (k : Text) :
    ¬(s.prefixBegin ≤ k ∧ k < s.prefixEnd) := by
  rw [Schema.prefixBegin_eq hname, Schema.prefixEnd_eq hname, between_iff]
  rintro ⟨r, _, h₁, h₂⟩
  have hwrap : (255 : UInt8)+1 = 0 := by decide
  rw [hwrap] at h₂
  cases r with
  | nil => simp at h₁
  | cons y r =>
    rw [← List.not_lt, List.cons_lt_cons_iff] at h₁
    rw [List.cons_lt_cons_iff] at h₂
    rcases h₂ with h | ⟨rfl, _⟩
    · exact absurd h (by simp)
    · exact h₁ (.inl (by decide))

theorem Workload.table_eq_of_name (w : Workload) {s t : Schema} (hs : s ∈ w.tables)
    (ht : t ∈ w.tables) (h : s.name = t.name) : s = t := by
  by_contra hne
  have : Std.Symm fun s t : Schema => s.name ≠ t.name := ⟨fun _ _ h => Ne.symm h⟩
  exact w.names.forall hs ht hne h

/-- The scan of a table is exact if and only if no inserted row of another table intrudes on
its range and, where the last byte of its name has no successor, it has no rows. -/
theorem scan_exact_iff (w : Workload) {t : Schema} (ht : t ∈ w.tables) :
    w.ScanExact t ↔
      if t.name.getLast? = some 255 then ∀ i ∈ w.inserts, i.table ≠ t
      else ∀ i ∈ w.inserts, ¬Intrudes t.name i.table.name i.payload := by
  obtain ⟨hne, hcolon⟩ := w.identifiers t ht
  obtain ⟨stem, c, hname⟩ : ∃ stem c, t.name = stem ++ [c] :=
    ⟨_, _, (List.dropLast_append_getLast hne).symm⟩
  have hlast : t.name.getLast? = some 255 ↔ c = 255 := by simp [hname]
  rw [if_congr hlast rfl rfl]
  by_cases hc : c = 255
  · rw [if_pos hc]
    subst hc
    constructor
    · intro h i hi htable
      obtain ⟨v, hrec⟩ := w.record_key hi
      have hvis := (h _).mpr ⟨i, hi, htable, by rw [hrec]; rfl⟩
      rw [w.visits_iff] at hvis
      exact range_empty hname _ hvis.2
    · intro h k
      rw [w.visits_iff]
      constructor
      · rintro ⟨_, hrange⟩
        exact absurd hrange (range_empty hname k)
      · rintro ⟨i, hi, htable, _⟩
        exact absurd htable (h i hi)
  · rw [if_neg hc]
    have hrange : ∀ i ∈ w.inserts, ∀ k, i.record.map Prod.fst = some k →
        ((t.prefixBegin ≤ k ∧ k < t.prefixEnd) ↔
          i.table = t ∨ Intrudes t.name i.table.name i.payload) := by
      intro i hi k hk
      obtain ⟨v, hrec⟩ := w.record_key hi
      have htable := (w.rows i hi).1
      rw [hrec, Option.map_some, Option.some.injEq] at hk
      subst hk
      rw [in_range_iff hname hcolon (w.identifiers i.table htable).2 hc]
      constructor
      · rintro (h | h)
        · exact .inl (w.table_eq_of_name htable ht h)
        · exact .inr h
      · rintro (h | h)
        · exact .inl (by rw [h])
        · exact .inr h
    constructor
    · intro h i hi hintr
      obtain ⟨v, hrec⟩ := w.record_key hi
      have hkey : i.record.map Prod.fst = some (i.table.name ++ Schema.colonByte :: i.payload) := by
        rw [hrec]
        rfl
      have hvis := (w.visits_iff t.prefixBegin t.prefixEnd _).mpr
        ⟨⟨i, hi, hkey⟩, (hrange i hi _ hkey).mpr (.inr hintr)⟩
      obtain ⟨j, hj, rfl, hkey'⟩ := (h _).mp hvis
      obtain ⟨v', hrec'⟩ := w.record_key hj
      rw [hrec', Option.map_some, Option.some.injEq] at hkey'
      have hsame := (append_colon_inj hcolon (w.identifiers i.table (w.rows i hi).1).2 hkey').1
      rw [← hsame] at hintr
      rcases hintr with ⟨x, u, hx, _⟩ | ⟨stem', c', hn, ⟨x, u, hx, _⟩ | ⟨_, hx, _⟩⟩
      · simpa using congrArg List.length hx
      · have h1 := congrArg List.length hn
        have h2 := congrArg List.length hx
        simp at h1 h2
        omega
      · have h1 := congrArg List.length hn
        rw [hx] at h1
        simp at h1
    · intro h k
      rw [w.visits_iff]
      constructor
      · rintro ⟨⟨i, hi, hkey⟩, hk⟩
        rcases (hrange i hi k hkey).mp hk with htable | hintr
        · exact ⟨i, hi, htable, hkey⟩
        · exact absurd hintr (h i hi)
      · rintro ⟨i, hi, htable, hkey⟩
        exact ⟨⟨i, hi, hkey⟩, (hrange i hi k hkey).mpr (.inl htable)⟩

/-- A table with one key column. -/
def keyTable (name : String) : Schema := ⟨text name, [⟨text "k", ⟨.integer, 0⟩, propKey⟩]⟩

def insertion (table : Schema) (row : List (BitVec 64)) : Insertion :=
  ⟨table, row, fun _ => 0, fun _ => 0, fun _ => 0⟩

/-- One row in each of the tables `foo` and `foobar`. -/
def fooWorkload : Workload where
  tables := [keyTable "foo", keyTable "foobar"]
  names := by decide
  identifiers := by decide
  columns := by decide
  inserts := [insertion (keyTable "foo") [1], insertion (keyTable "foobar") [2]]
  rows := by simp [insertion, keyTable]
  keys := by
    simp only [List.pairwise_cons, List.mem_singleton, forall_eq, List.not_mem_nil,
      false_implies, implies_true, List.Pairwise.nil, and_true]
    exact .inl (by decide)

theorem scan_exact_iff_foobar :
    fooWorkload.ScanExact (keyTable "foobar") ↔
      if (keyTable "foobar").name.getLast? = some 255 then
        ∀ i ∈ fooWorkload.inserts, i.table ≠ keyTable "foobar"
      else ∀ i ∈ fooWorkload.inserts,
        ¬Intrudes (keyTable "foobar").name i.table.name i.payload :=
  scan_exact_iff fooWorkload (by simp [fooWorkload])

/-- The scan of `foo` visits the row of `foobar`. -/
theorem foo_scan_not_exact : ¬fooWorkload.ScanExact (keyTable "foo") := by
  intro h
  have hmem : insertion (keyTable "foobar") [2] ∈ fooWorkload.inserts := by simp [fooWorkload]
  obtain ⟨v, hrec⟩ := fooWorkload.record_key hmem
  have hkey : (insertion (keyTable "foobar") [2]).record.map Prod.fst =
      some (text "foobar" ++ Schema.colonByte :: (insertion (keyTable "foobar") [2]).payload) := by
    rw [hrec]
    rfl
  have hname : (keyTable "foo").name = text "fo" ++ [111] := by decide
  have hrange := (in_range_iff (p := (insertion (keyTable "foobar") [2]).payload) hname
    (by decide) (m := text "foobar") (by decide) (by decide)).mpr
    (.inr (.inl ⟨98, text "ar", by decide, by decide⟩))
  obtain ⟨i, hi, htable, hkey'⟩ := (h _).mp
    ((fooWorkload.visits_iff _ _ _).mpr ⟨⟨_, hmem, hkey⟩, hrange⟩)
  obtain ⟨v', hrec'⟩ := fooWorkload.record_key hi
  rw [hrec', htable, Option.map_some, Option.some.injEq] at hkey'
  have hsame := (append_colon_inj (by decide) (by decide) hkey').1
  exact absurd hsame (by decide)

end Reir
