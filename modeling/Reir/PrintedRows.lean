import Reir.EmittedRows

/-! The printed output. A row of integers is stored as a struct, copied byte by byte and printed
word by word; the printer takes the words for unsigned numbers, the language for signed ones. -/
namespace Reir
open ByteMemory

def signedDecimal (z : Int) : Text := if z < 0 then 45 :: decimal z.natAbs else decimal z.natAbs

/-- Signed decimals in brackets, with a comma and a blank between them. -/
def formatRow (zs : List Int) : Text :=
  91 :: ((text ", ").intercalate (zs.map signedDecimal) ++ [93])

def formatRows (rows : List (List Int)) : Text := [10].intercalate (rows.map formatRow)

def readInt (t : Text) : Option Int :=
  let body := readSign t
  if body.2 ≠ [] ∧ body.2.all isDigit then
    some (if body.1 then -(digitsValue body.2 : Int) else digitsValue body.2)
  else none

/-- The numbers between two brackets. Blanks do not matter. -/
def readElements (t : Text) : Option (List Int) :=
  if t = [] then some [] else ((t.filter fun c => c != 32).splitOn 44).mapM readInt

def readRow : Text → Option (List Int)
  | [] => none
  | c :: t => if c = 91 ∧ t.getLast? = some 93 then readElements t.dropLast else none

def readRows (t : Text) : Option (List (List Int)) :=
  if t = [] then some [] else (t.splitOn 10).mapM readRow

theorem readInt_signedDecimal (z : Int) : readInt (signedDecimal z) = some z := by
  have hne := decimal_ne_nil z.natAbs
  have hdigits : (decimal z.natAbs).all isDigit = true := List.all_eq_true.mpr (decimal_isDigit z.natAbs)
  unfold signedDecimal
  split_ifs with hz
  · have hsign : readSign (45 :: decimal z.natAbs) = (true, decimal z.natAbs) := rfl
    simp only [readInt, hsign, ne_eq, hne, not_false_eq_true, hdigits, and_self, if_true,
      digitsValue_decimal, Option.some.injEq]
    omega
  · obtain ⟨d, ds, hds⟩ := List.exists_cons_of_ne_nil hne
    have hd : isDigit d = true := decimal_isDigit z.natAbs d (by simp [hds])
    have hsign : readSign (decimal z.natAbs) = (false, decimal z.natAbs) := by
      rw [hds]
      exact readSign_digits hd ds
    simp only [readInt, hsign, ne_eq, hne, not_false_eq_true, hdigits, and_self, if_true,
      digitsValue_decimal, Option.some.injEq]
    simp
    omega

/-- The characters of a number. -/
theorem signedDecimal_chars (z : Int) :
    signedDecimal z ≠ [] ∧ ∀ c ∈ signedDecimal z, c = 45 ∨ isDigit c = true := by
  unfold signedDecimal
  split_ifs
  · refine ⟨by simp, ?_⟩
    intro c hc
    rcases List.mem_cons.mp hc with rfl | hc
    · exact .inl rfl
    · exact .inr (decimal_isDigit _ c hc)
  · exact ⟨decimal_ne_nil _, fun c hc => .inr (decimal_isDigit _ c hc)⟩

theorem not_mem_signedDecimal {c : UInt8} (hc : c ≠ 45) (hd : isDigit c = false) (z : Int) :
    c ∉ signedDecimal z := by
  intro hmem
  rcases (signedDecimal_chars z).2 c hmem with h | h
  · exact hc h
  · rw [hd] at h
    simp at h

/-- A separator of more than one character, without those that do not matter. -/
theorem filter_intercalate {α : Type} (p : α → Bool) (sep : List α) {ts : List (List α)}
    (h : ∀ t ∈ ts, t.filter p = t) :
    (sep.intercalate ts).filter p = (sep.filter p).intercalate ts := by
  induction ts with
  | nil => rfl
  | cons t ts ih =>
    rw [List.forall_mem_cons] at h
    cases ts with
    | nil => simpa using h.1
    | cons u us =>
      rw [List.intercalate_cons_cons, List.intercalate_cons_cons, List.filter_append, List.filter_append,
        h.1, ih h.2]

theorem mapM_map_of {α β : Type} {f : α → β} {g : β → Option α} (h : ∀ a, g (f a) = some a)
    (as : List α) : (as.map f).mapM g = some as := by
  induction as with
  | nil => rfl
  | cons a as ih => simp [List.mapM_cons, h, ih]

theorem intercalate_ne_nil {α : Type} {sep t : List α} {ts : List (List α)} (h : t ≠ []) :
    sep.intercalate (t :: ts) ≠ [] := by
  cases ts with
  | nil => simpa using h
  | cons u us => simp [List.intercalate_cons_cons, h]

theorem readElements_intercalate (zs : List Int) :
    readElements ((text ", ").intercalate (zs.map signedDecimal)) = some zs := by
  cases zs with
  | nil => rfl
  | cons z zs =>
    have hsep : (text ", ").filter (fun c => c != 32) = [44] := rfl
    have hblank : ∀ t ∈ (z :: zs).map signedDecimal, t.filter (fun c => c != 32) = t := by
      intro t ht
      obtain ⟨y, -, rfl⟩ := List.mem_map.mp ht
      rw [List.filter_eq_self]
      intro c hc
      rw [bne_iff_ne]
      rintro rfl
      exact not_mem_signedDecimal (by decide) rfl y hc
    have hcomma : ∀ t ∈ (z :: zs).map signedDecimal, 44 ∉ t := by
      intro t ht
      obtain ⟨y, -, rfl⟩ := List.mem_map.mp ht
      exact not_mem_signedDecimal (by decide) rfl y
    have hne : (text ", ").intercalate ((z :: zs).map signedDecimal) ≠ [] :=
      intercalate_ne_nil (signedDecimal_chars z).1
    rw [readElements, if_neg hne, filter_intercalate _ _ hblank, hsep,
      List.splitOn_intercalate _ hcomma (by simp), mapM_map_of readInt_signedDecimal]

theorem readRow_formatRow (zs : List Int) : readRow (formatRow zs) = some zs := by
  rw [formatRow, readRow, if_pos ⟨rfl, by simp⟩, List.dropLast_concat, readElements_intercalate]

theorem mem_intercalate {α : Type} {sep : List α} {ts : List (List α)} {a : α}
    (h : a ∈ sep.intercalate ts) : a ∈ sep ∨ ∃ t ∈ ts, a ∈ t := by
  induction ts with
  | nil => simp at h
  | cons t ts ih =>
    cases ts with
    | nil => exact .inr ⟨t, by simp, by simpa using h⟩
    | cons u us =>
      rw [List.intercalate_cons_cons, List.mem_append, List.mem_append] at h
      rcases h with (h | h) | h
      · exact .inr ⟨t, by simp, h⟩
      · exact .inl h
      · exact (ih h).imp_right fun ⟨v, hv, ha⟩ => ⟨v, List.mem_cons_of_mem t hv, ha⟩

theorem newline_not_mem_formatRow (zs : List Int) : 10 ∉ formatRow zs := by
  intro hmem
  rcases List.mem_cons.mp hmem with h | h
  · exact absurd h (by decide)
  · rcases List.mem_append.mp h with h | h
    · rcases mem_intercalate h with h | ⟨t, ht, h⟩
      · exact absurd h (by decide)
      · obtain ⟨z, -, rfl⟩ := List.mem_map.mp ht
        exact not_mem_signedDecimal (by decide) rfl z h
    · exact absurd h (by decide)

theorem readRows_formatRows (rows : List (List Int)) : readRows (formatRows rows) = some rows := by
  cases rows with
  | nil => rfl
  | cons row rows =>
    have hne : formatRows (row :: rows) ≠ [] := intercalate_ne_nil (by simp [formatRow])
    have hnl : ∀ t ∈ (row :: rows).map formatRow, 10 ∉ t := by
      intro t ht
      obtain ⟨zs, -, rfl⟩ := List.mem_map.mp ht
      exact newline_not_mem_formatRow zs
    rw [readRows, if_neg hne, formatRows, List.splitOn_intercalate _ hnl (by simp),
      mapM_map_of readRow_formatRow]

/-- The word at an index of the captured bytes. -/
def RawRow.word (r : RawRow) (i : ℕ) : BitVec 64 := wordOf ((r.buff.drop (8*i)).take 8)

/-- `operator<<` of `RawRow`. -/
def RawRow.print (r : RawRow) : Text :=
  let size := r.len.toNat/8
  91 :: ((text ", ").intercalate ((List.range size).map fun i => decimal (r.word i).toNat) ++ [93])

/-- What `compile_and_exec` prints for the outputs. The index of its loop is an `int`. -/
def printOutputs (outputs : List RawRow) : Option Text :=
  if outputs.length < 2^31 then
    some (text "emitted values: " ++ [10].intercalate (outputs.map RawRow.print) ++ [10])
  else none

/-- The rows between the words in front of them and the newline behind them. -/
def readOutputs (t : Text) : Option (List (List Int)) :=
  if t.take 16 = text "emitted values: " ∧ (t.drop 16).getLast? = some 10 then
    readRows (t.drop 16).dropLast
  else none

/-- The fields of a row of integers are stored at the offsets of its struct type. -/
def storeRow (m : Memory) (row : List (BitVec 64)) : Memory :=
  ((offsets 0 (row.map fun _ => .i64)).zip row).foldl (fun m p => write m p.1 (wordBytes p.2)) m

/-- The row that is captured when a row of integers is stored over the old contents of its slot. -/
def emittedRow (m : Memory) (row : List (BitVec 64)) : RawRow :=
  RawRow.copy (storeRow m row) (emittedLength (row.map fun _ => .i64))

theorem write_nil (m : Memory) (off : ℕ) : write m off [] = m := by
  funext a
  simp [write]

theorem storeFields {row : List (BitVec 64)} {pre : List UInt8} (m : Memory) (hpre : 8 ∣ pre.length) :
    ((offsets pre.length (row.map fun _ => .i64)).zip row).foldl
      (fun m p => write m p.1 (wordBytes p.2)) (write m 0 pre) =
      write m 0 (pre ++ row.flatMap wordBytes) := by
  induction row generalizing pre with
  | nil => simp
  | cons v row ih =>
    have halign : alignTo pre.length LLType.i64.align = pre.length := alignTo_of_dvd hpre
    have hlength : (pre ++ wordBytes v).length = pre.length+LLType.i64.size := by
      rw [List.length_append, wordBytes_length]
      rfl
    have hnext := @ih (pre ++ wordBytes v) (hlength ▸ hpre.add (by decide))
    rw [List.map_cons, offsets, halign, List.zip_cons_cons, List.foldl_cons, write_write_append,
      ← hlength, hnext, List.flatMap_cons, List.append_assoc]

theorem storeRow_eq (m : Memory) (row : List (BitVec 64)) :
    storeRow m row = write m 0 (row.flatMap wordBytes) := by
  have hstore := @storeFields row [] m (by simp)
  rwa [write_nil, List.nil_append] at hstore

theorem words_length (row : List (BitVec 64)) : (row.flatMap wordBytes).length = 8*row.length := by
  induction row with
  | nil => rfl
  | cons v row ih =>
    rw [List.flatMap_cons, List.length_append, wordBytes_length, ih, List.length_cons]
    omega

theorem words_take {row : List (BitVec 64)} {i : ℕ} {v : BitVec 64} (h : row[i]? = some v) :
    ((row.flatMap wordBytes).drop (8*i)).take 8 = wordBytes v := by
  induction row generalizing i with
  | nil => simp at h
  | cons w row ih =>
    rw [List.flatMap_cons]
    cases i with
    | zero =>
      obtain rfl : w = v := by simpa using h
      exact List.take_left' (wordBytes_length w)
    | succ i =>
      have hdrop : 8*(i+1) = (wordBytes w).length+8*i := by
        rw [wordBytes_length]
        omega
      rw [hdrop, List.drop_length_add_append]
      exact ih (by simpa using h)

/-- The number of words that are captured. -/
def capturedWords (row : List (BitVec 64)) : ℕ := 8*row.length%2^64/8

theorem capturedWords_le (row : List (BitVec 64)) : capturedWords row ≤ row.length := by
  have hmod := Nat.mod_le (8*row.length) (2^64)
  unfold capturedWords
  omega

theorem emittedRow_len (m : Memory) (row : List (BitVec 64)) :
    (emittedRow m row).len.toNat = 8*row.length%2^64 := by
  have hsum : ((row.map fun _ => LLType.i64).map LLType.primitiveBytes).sum = 8*row.length := by
    simp [LLType.primitiveBytes, Nat.mul_comm]
  change (emittedLength (row.map fun _ => .i64)).toNat = _
  rw [emittedLength, hsum]
  exact BitVec.toNat_ofNat _ _

theorem emittedRow_word {row : List (BitVec 64)} {i : ℕ} {v : BitVec 64} (m : Memory)
    (h : row[i]? = some v) (hi : i < capturedWords row) : (emittedRow m row).word i = v := by
  have hlen := emittedRow_len m row
  have hle : 8*i+8 ≤ (emittedRow m row).len.toNat := by
    unfold capturedWords at hi
    omega
  have hend : 8*i+8 ≤ 8*row.length := by
    have hmod := Nat.mod_le (8*row.length) (2^64)
    omega
  have hbuff := drop_take_read (storeRow m row) 0 (emittedRow m row).len.toNat (8*i) 8 hle
  have hstored : read (storeRow m row) 0 (8*row.length) = row.flatMap wordBytes := by
    rw [storeRow_eq, ← words_length]
    exact read_write m 0 _
  have hword := drop_take_read (storeRow m row) 0 (8*row.length) (8*i) 8 hend
  rw [hstored, words_take h] at hword
  change wordOf (((read (storeRow m row) 0 (emittedRow m row).len.toNat).drop (8*i)).take 8) = v
  rw [hbuff, ← hword, wordOf_wordBytes]

/-- The numbers that are printed for a row. -/
def printedInts (row : List (BitVec 64)) : List Int :=
  (row.take (capturedWords row)).map fun v => (v.toNat : Int)

theorem print_emittedRow (m : Memory) (row : List (BitVec 64)) :
    (emittedRow m row).print = formatRow (printedInts row) := by
  have hle := capturedWords_le row
  have hsame : (List.range (capturedWords row)).map
      (fun i => decimal ((emittedRow m row).word i).toNat) = (printedInts row).map signedDecimal := by
    apply List.ext_getElem
    · simp [printedInts, hle]
    · intro i hi hi'
      have hlt : i < capturedWords row := by simpa using hi
      have hword := emittedRow_word m (List.getElem?_eq_getElem (lt_of_lt_of_le hlt hle)) hlt
      simp only [List.getElem_map, List.getElem_range, hword, printedInts, List.getElem_take]
      rfl
  rw [RawRow.print, emittedRow_len]
  change 91 :: ((text ", ").intercalate ((List.range (capturedWords row)).map
    fun i => decimal ((emittedRow m row).word i).toNat) ++ [93]) = _
  rw [hsame, formatRow]

theorem readOutputs_printOutputs (m : Memory) (rows : List (List (BitVec 64))) :
    (printOutputs (rows.map (emittedRow m))).bind readOutputs =
      if rows.length < 2^31 then some (rows.map printedInts) else none := by
  have hprint : (rows.map (emittedRow m)).map RawRow.print = (rows.map printedInts).map formatRow := by
    rw [List.map_map, List.map_map]
    exact List.map_congr_left fun row _ => print_emittedRow m row
  unfold printOutputs
  rw [List.length_map, hprint]
  split_ifs
  · have hlength : (text "emitted values: ").length = 16 := rfl
    change readOutputs (text "emitted values: " ++ formatRows (rows.map printedInts) ++ [10]) = _
    rw [readOutputs, List.append_assoc, List.take_left' hlength, List.drop_left' hlength,
      if_pos ⟨rfl, by simp⟩, List.dropLast_concat, readRows_formatRows]
  · rfl

theorem toNat_eq_toInt (v : BitVec 64) : (v.toNat : Int) = v.toInt ↔ 0 ≤ v.toInt := by
  have hv := v.isLt
  rw [BitVec.toInt_eq_toNat_cond]
  split_ifs <;> omega

theorem capturedWords_eq_length (row : List (BitVec 64)) :
    capturedWords row = row.length ↔ 8*row.length < 2^64 := by
  unfold capturedWords
  omega

theorem printedInts_eq_iff (row : List (BitVec 64)) :
    printedInts row = row.map BitVec.toInt ↔ (∀ v ∈ row, 0 ≤ v.toInt) ∧ 8*row.length < 2^64 := by
  rw [← capturedWords_eq_length]
  constructor
  · intro h
    have hlength := congrArg List.length h
    have hle := capturedWords_le row
    simp only [printedInts, List.length_map, List.length_take] at hlength
    have hwords : capturedWords row = row.length := by omega
    rw [printedInts, hwords, List.take_length, List.map_inj_left] at h
    exact ⟨fun v hv => (toNat_eq_toInt v).mp (h v hv), hwords⟩
  · rintro ⟨hnonneg, hwords⟩
    rw [printedInts, hwords, List.take_length, List.map_inj_left]
    exact fun v hv => (toNat_eq_toInt v).mpr (hnonneg v hv)

/-- The printed text gives the emitted rows back exactly when no emitted number is negative, as long
as the rows can be counted by an `int` and their bytes by a `uint64_t`. -/
theorem printed_readsBack_iff (m : Memory) (rows : List (List (BitVec 64))) :
    (printOutputs (rows.map (emittedRow m))).bind readOutputs =
      some (rows.map fun row => row.map BitVec.toInt) ↔
    rows.length < 2^31 ∧ ∀ row ∈ rows, (∀ v ∈ row, 0 ≤ v.toInt) ∧ 8*row.length < 2^64 := by
  have hrows : rows.map printedInts = (rows.map fun row => row.map BitVec.toInt) ↔
      ∀ row ∈ rows, (∀ v ∈ row, 0 ≤ v.toInt) ∧ 8*row.length < 2^64 := by
    rw [List.map_inj_left]
    exact forall₂_congr fun row _ => printedInts_eq_iff row
  rw [readOutputs_printOutputs, ← hrows]
  split_ifs with hcount
  · rw [Option.some.injEq]
    exact (and_iff_right hcount).symm
  · constructor
    · intro hnone
      simp at hnone
    · intro h
      exact absurd h.1 hcount

/-- The number -1 is read back as 2^64-1. -/
theorem negative_not_readBack :
    (printOutputs [emittedRow (fun _ => 0) [-1]]).bind readOutputs = some [[18446744073709551615]] ∧
      (-1 : BitVec 64).toInt = -1 := by
  have hread := readOutputs_printOutputs (fun _ => 0) [[-1]]
  rw [List.length_singleton, if_pos (by decide)] at hread
  exact ⟨hread, rfl⟩

end Reir
