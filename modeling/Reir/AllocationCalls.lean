import Reir.CompileFailure

/-! The calls of `alloca_stack`. The pass calls it on a statement and then on everything that
`each_statement` goes to; a `For` passes the call on to its init part, which `each_statement` goes to
once more without going into it. -/
namespace Reir

/-- The way from a statement to one inside of it. -/
inductive Place
  | item (i : ℕ)
  | init
  | otherwise (i : ℕ)
  deriving DecidableEq, Repr

/-- The way to a statement from the top of the program, its last step first. -/
abbrev Address := List Place

mutual

/-- The calls of `alloca_stack` that one call of it makes, with itself. -/
def Statement.allocaCalls (a : Address) : Statement → List (Address × Statement)
  | .forStmt init cond every blk =>
    (a, .forStmt init cond every blk) :: allocaCallsInit (.init :: a) init
  | s => [(a, s)]

def allocaCallsInit (a : Address) : Ptr Statement → List (Address × Statement)
  | .to s => s.allocaCalls a
  | _ => []

end

mutual

/-- The calls that the pass makes for a statement of a block: `alloca_stack` of the statement, and then
of what its `each_statement` goes to. -/
def Statement.passCalls (a : Address) : Statement → List (Address × Statement)
  | .block ss => (a, .block ss) :: passCallsAll .item a 0 ss
  | .transaction isolation ss => (a, .transaction isolation ss) :: passCallsAll .item a 0 ss
  | .forStmt init cond every blk =>
    (a, .forStmt init cond every blk) :: (allocaCallsInit (.init :: a) init ++
      (allocaCallsInit (.init :: a) init ++ passCallsAll .item a 0 blk))
  | .scan table rowName blk frame => (a, .scan table rowName blk frame) :: passCallsAll .item a 0 blk
  | .ifStmt cond ts fs =>
    (a, .ifStmt cond ts fs) :: (passCallsAll .item a 0 ts ++ passCallsElse a fs)
  | .define schema name => [(a, .define schema name)]
  | .jump t => [(a, .jump t)]
  | .emit stack e => [(a, .emit stack e)]
  | .insert table e frame => [(a, .insert table e frame)]
  | .letStmt name e type => [(a, .letStmt name e type)]
  | .defineTuple name type => [(a, .defineTuple name type)]
  | .exprStatement stack e => [(a, .exprStatement stack e)]

def passCallsElse (a : Address) : Option (List Statement) → List (Address × Statement)
  | some ss => passCallsAll .otherwise a 0 ss
  | none => []

def passCallsAll (place : ℕ → Place) (a : Address) (i : ℕ) : List Statement → List (Address × Statement)
  | [] => []
  | s :: ss => s.passCalls (place i :: a) ++ passCallsAll place a (i+1) ss

end

mutual

/-- The statements that `codegen` is called on. -/
def Statement.codeCalls (a : Address) : Statement → List Address
  | .block ss => a :: codeCallsAll .item a 0 ss
  | .transaction _ ss => a :: codeCallsAll .item a 0 ss
  | .forStmt init _ _ blk => a :: (codeCallsInit (.init :: a) init ++ codeCallsAll .item a 0 blk)
  | .scan _ _ blk _ => a :: codeCallsAll .item a 0 blk
  | .ifStmt _ ts fs => a :: (codeCallsAll .item a 0 ts ++ codeCallsElse a fs)
  | .define _ _ => [a]
  | .jump _ => [a]
  | .emit _ _ => [a]
  | .insert _ _ _ => [a]
  | .letStmt _ _ _ => [a]
  | .defineTuple _ _ => [a]
  | .exprStatement _ _ => [a]

def codeCallsInit (a : Address) : Ptr Statement → List Address
  | .to s => s.codeCalls a
  | _ => []

def codeCallsElse (a : Address) : Option (List Statement) → List Address
  | some ss => codeCallsAll .otherwise a 0 ss
  | none => []

def codeCallsAll (place : ℕ → Place) (a : Address) (i : ℕ) : List Statement → List Address
  | [] => []
  | s :: ss => s.codeCalls (place i :: a) ++ codeCallsAll place a (i+1) ss

end

mutual

/-- No `For` has an init part. -/
def Statement.initless : Statement → Bool
  | .block ss => initlessAll ss
  | .transaction _ ss => initlessAll ss
  | .forStmt init _ _ blk => !init.isTo && initlessAll blk
  | .scan _ _ blk _ => initlessAll blk
  | .ifStmt _ ts fs => initlessAll ts && initlessElse fs
  | .define _ _ => true
  | .jump _ => true
  | .emit _ _ => true
  | .insert _ _ _ => true
  | .letStmt _ _ _ => true
  | .defineTuple _ _ => true
  | .exprStatement _ _ => true

def initlessElse : Option (List Statement) → Bool
  | some ss => initlessAll ss
  | none => true

def initlessAll : List Statement → Bool
  | [] => true
  | s :: ss => s.initless && initlessAll ss

end

/-- The statements whose `alloca_stack` does something by itself. -/
def Visit.allocates (v : Visit) : Bool :=
  match v.statement with
  | .block _ => false
  | .transaction _ _ => false
  | .forStmt _ _ _ _ => false
  | .ifStmt _ _ _ => false
  | _ => true

def allocatingCalls (calls : List (Address × Statement)) : List Visit :=
  (calls.map fun x => x.2.visited).filter Visit.allocates

theorem allocatingCalls_append (cs ds : List (Address × Statement)) :
    allocatingCalls (cs ++ ds) = allocatingCalls cs ++ allocatingCalls ds := by
  simp [allocatingCalls]

theorem allocatingCalls_cons (a : Address) (s : Statement) (cs : List (Address × Statement)) :
    allocatingCalls ((a, s) :: cs) = [s.visited].filter Visit.allocates ++ allocatingCalls cs := by
  exact List.filter_append [s.visited] _

theorem allocaCalls_visits (s : Statement) (a : Address) :
    allocatingCalls (s.allocaCalls a) = s.allocas.filter Visit.allocates := by
  induction s using Statement.induction generalizing a with
  | forStmt init cond every blk hinit _ =>
    cases init with
    | null => rfl
    | uninit => rfl
    | «to» s => exact (allocatingCalls_cons _ _ _).trans (hinit s rfl _)
  | _ => rfl

theorem allocaCallsInit_visits {self : Visit} (hself : self.allocates = false) (init : Ptr Statement)
    (a : Address) :
    allocatingCalls (allocaCallsInit a init) = (allocasInit self init).filter Visit.allocates := by
  cases init with
  | null => rfl
  | uninit => simp [allocaCallsInit, allocatingCalls, allocasInit, hself]
  | «to» s => exact allocaCalls_visits s a

theorem passCallsAll_visits_of {ss : List Statement}
    (h : ∀ s ∈ ss, ∀ a, allocatingCalls (s.passCalls a) = s.visits.filter Visit.allocates)
    (place : ℕ → Place) (a : Address) (i : ℕ) :
    allocatingCalls (passCallsAll place a i ss) = (visitsAll ss).filter Visit.allocates := by
  induction ss generalizing i with
  | nil => rfl
  | cons s ss ih =>
    rw [List.forall_mem_cons] at h
    rw [passCallsAll, visitsAll, allocatingCalls_append, List.filter_append, h.1, ih h.2]

theorem Statement.passCalls_visits (s : Statement) (a : Address) :
    allocatingCalls (s.passCalls a) = s.visits.filter Visit.allocates := by
  induction s using Statement.induction generalizing a with
  | block ss hss => exact (allocatingCalls_cons _ _ _).trans (passCallsAll_visits_of hss _ _ _)
  | transaction isolation ss hss =>
    exact (allocatingCalls_cons _ _ _).trans (passCallsAll_visits_of hss _ _ _)
  | forStmt init cond every blk _ hblk =>
    have hself : (Statement.forStmt init cond every blk).visited.allocates = false := rfl
    rw [Statement.passCalls, allocatingCalls_cons, allocatingCalls_append, allocatingCalls_append,
      allocaCallsInit_visits hself, passCallsAll_visits_of hblk, Statement.visits]
    simp [List.filter_append, hself]
  | scan table rowName blk frame hblk =>
    rw [Statement.passCalls, allocatingCalls_cons, passCallsAll_visits_of hblk, Statement.visits,
      ← List.filter_append]
    rfl
  | ifStmt cond ts fs hts hfs =>
    have helse : allocatingCalls (passCallsElse a fs) = (visitsElse fs).filter Visit.allocates := by
      cases fs with
      | none => rfl
      | some fs => exact passCallsAll_visits_of (hfs fs rfl) _ _ _
    have hself : (Statement.ifStmt cond ts fs).visited.allocates = false := rfl
    rw [Statement.passCalls, allocatingCalls_cons, allocatingCalls_append, passCallsAll_visits_of hts,
      helse, Statement.visits, List.filter_append]
    simp [hself]
  | _ => rfl

/-- The calls are the visits of the allocation pass. -/
theorem passCallsAll_visits (ss : List Statement) (a : Address) (i : ℕ) :
    allocatingCalls (passCallsAll .item a i ss) = (visitsAll ss).filter Visit.allocates :=
  passCallsAll_visits_of (fun s _ => s.passCalls_visits) _ a i

def addresses (calls : List (Address × Statement)) : List Address := calls.map Prod.fst

/-- Every statement that code is generated for has been allocated exactly once. -/
def OnceEach (sites calls : List Address) : Prop := ∀ a ∈ sites, calls.count a = 1

/-- The addresses in a list are those of statements at a place of a statement. -/
def Within (a : Address) (as : List Address) : Prop := ∀ b ∈ as, a <:+ b

theorem Within.mono {a : Address} {p : Place} {as : List Address} (h : Within (p :: a) as) :
    Within a as := fun b hb => (List.suffix_cons p a).trans (h b hb)

theorem within_append {a : Address} {as bs : List Address} :
    Within a (as ++ bs) ↔ Within a as ∧ Within a bs := List.forall_mem_append

theorem within_cons {a b : Address} {as : List Address} :
    Within a (b :: as) ↔ a <:+ b ∧ Within a as := List.forall_mem_cons

theorem within_nil (a : Address) : Within a [] := fun _ hb => absurd hb (by simp)

theorem Within.cons_self {a : Address} {as : List Address} (h : Within a as) : Within a (a :: as) :=
  within_cons.mpr ⟨List.suffix_rfl, h⟩

theorem addresses_append (cs ds : List (Address × Statement)) :
    addresses (cs ++ ds) = addresses cs ++ addresses ds := List.map_append

theorem within_allocaCalls (s : Statement) (a : Address) : Within a (addresses (s.allocaCalls a)) := by
  induction s using Statement.induction generalizing a with
  | forStmt init cond every blk hinit _ =>
    refine Within.cons_self ?_
    cases init with
    | null => exact within_nil a
    | uninit => exact within_nil a
    | «to» s => exact (hinit s rfl _).mono
  | _ => exact (within_nil a).cons_self

theorem within_allocaCallsInit (init : Ptr Statement) (a : Address) :
    Within a (addresses (allocaCallsInit a init)) := by
  cases init with
  | null => exact within_nil a
  | uninit => exact within_nil a
  | «to» s => exact within_allocaCalls s a

/-- The addresses in a list are those of statements at some of the places of a statement. -/
def Below (a : Address) (Q : Place → Prop) (as : List Address) : Prop :=
  ∀ b ∈ as, ∃ q, Q q ∧ (q :: a) <:+ b

section
variable {a : Address} {Q R : Place → Prop} {as bs sites sites' calls calls' : List Address}

theorem Below.mono (h : Below a Q as) (hQ : ∀ q, Q q → R q) : Below a R as := by
  intro b hb
  obtain ⟨q, hq, hsuffix⟩ := h b hb
  exact ⟨q, hQ q hq, hsuffix⟩

theorem Below.within (h : Below a Q as) : Within a as := by
  intro b hb
  obtain ⟨q, -, hsuffix⟩ := h b hb
  exact (List.suffix_cons q a).trans hsuffix

theorem Within.below {q : Place} (h : Within (q :: a) as) : Below a (· = q) as :=
  fun b hb => ⟨q, rfl, h b hb⟩

theorem below_append : Below a Q (as ++ bs) ↔ Below a Q as ∧ Below a Q bs := List.forall_mem_append

theorem Below.not_mem (h : Below a Q as) : a ∉ as := by
  intro ha
  obtain ⟨q, -, hsuffix⟩ := h a ha
  have hlength := hsuffix.length_le
  rw [List.length_cons] at hlength
  omega

/-- An address lies at one place of a statement only. -/
theorem Below.disjoint (h : Below a Q as) (k : Below a R bs) (hQR : ∀ q, Q q → ¬R q) {b : Address}
    (hb : b ∈ as) : b ∉ bs := by
  intro hb'
  obtain ⟨q, hq, hsuffix⟩ := h b hb
  obtain ⟨r, hr, hsuffix'⟩ := k b hb'
  have hsame : q :: a = r :: a := by
    rcases List.suffix_or_suffix_of_suffix hsuffix hsuffix' with hle | hle
    · exact hle.eq_of_length rfl
    · exact (hle.eq_of_length rfl).symm
  obtain ⟨rfl, -⟩ := List.cons.inj hsame
  exact hQR q hq hr

theorem onceEach_self (h : Below a Q sites) (k : Below a R calls) :
    OnceEach (a :: sites) (a :: calls) ↔ OnceEach sites calls := by
  unfold OnceEach
  rw [List.forall_mem_cons]
  have hself : (a :: calls).count a = 1 := by
    rw [List.count_cons_self, List.count_eq_zero_of_not_mem k.not_mem]
  have hother : ∀ b ∈ sites, (a :: calls).count b = calls.count b := by
    intro b hb
    refine List.count_cons_of_ne ?_
    rintro rfl
    exact h.not_mem hb
  constructor
  · rintro ⟨-, hall⟩ b hb
    rw [← hother b hb, hall b hb]
  · intro hall
    refine ⟨hself, fun b hb => ?_⟩
    rw [hother b hb, hall b hb]

theorem onceEach_append (hs : Below a Q sites) (hc : Below a Q calls) (hs' : Below a R sites')
    (hc' : Below a R calls') (hQR : ∀ q, Q q → ¬R q) :
    OnceEach (sites ++ sites') (calls ++ calls') ↔ OnceEach sites calls ∧ OnceEach sites' calls' := by
  unfold OnceEach
  rw [List.forall_mem_append]
  have hleft : ∀ b ∈ sites, (calls ++ calls').count b = calls.count b := by
    intro b hb
    rw [List.count_append, List.count_eq_zero_of_not_mem (hs.disjoint hc' hQR hb), Nat.add_zero]
  have hright : ∀ b ∈ sites', (calls ++ calls').count b = calls'.count b := by
    intro b hb
    have hRQ : ∀ q, R q → ¬Q q := fun q hr hq => hQR q hq hr
    rw [List.count_append, List.count_eq_zero_of_not_mem (hs'.disjoint hc hRQ hb), Nat.zero_add]
  refine and_congr ?_ ?_
  · exact forall₂_congr fun b hb => by rw [hleft b hb]
  · exact forall₂_congr fun b hb => by rw [hright b hb]

end

/-- The places of a body from an index on. -/
def Place.From (place : ℕ → Place) (i : ℕ) (q : Place) : Prop := ∃ j, i ≤ j ∧ q = place j

theorem below_nil (a : Address) (Q : Place → Prop) : Below a Q [] := fun _ hb => absurd hb (by simp)

theorem below_bodies {ss : List Statement}
    (h : ∀ s ∈ ss, ∀ a, Within a (addresses (s.passCalls a)) ∧ Within a (s.codeCalls a))
    (place : ℕ → Place) (a : Address) (i : ℕ) :
    Below a (Place.From place i) (addresses (passCallsAll place a i ss)) ∧
      Below a (Place.From place i) (codeCallsAll place a i ss) := by
  induction ss generalizing i with
  | nil => exact ⟨below_nil a _, below_nil a _⟩
  | cons s ss ih =>
    rw [List.forall_mem_cons] at h
    obtain ⟨hpass, hcode⟩ := h.1 (place i :: a)
    obtain ⟨hpass', hcode'⟩ := ih h.2 (i+1)
    have hhead : ∀ q, q = place i → Place.From place i q := fun q hq => ⟨i, le_rfl, hq⟩
    have htail : ∀ q, Place.From place (i+1) q → Place.From place i q := by
      rintro q ⟨j, hj, rfl⟩
      exact ⟨j, by omega, rfl⟩
    refine ⟨?_, ?_⟩
    · rw [passCallsAll, addresses_append, below_append]
      exact ⟨hpass.below.mono hhead, hpass'.mono htail⟩
    · rw [codeCallsAll, below_append]
      exact ⟨hcode.below.mono hhead, hcode'.mono htail⟩

theorem Statement.within_calls (s : Statement) (a : Address) :
    Within a (addresses (s.passCalls a)) ∧ Within a (s.codeCalls a) := by
  induction s using Statement.induction generalizing a with
  | block ss hss =>
    obtain ⟨hpass, hcode⟩ := below_bodies hss .item a 0
    exact ⟨hpass.within.cons_self, hcode.within.cons_self⟩
  | transaction isolation ss hss =>
    obtain ⟨hpass, hcode⟩ := below_bodies hss .item a 0
    exact ⟨hpass.within.cons_self, hcode.within.cons_self⟩
  | forStmt init cond every blk hinit hblk =>
    obtain ⟨hpass, hcode⟩ := below_bodies hblk .item a 0
    have hcalls := (within_allocaCallsInit init (.init :: a)).mono
    have hinitCode : Within a (codeCallsInit (.init :: a) init) := by
      cases init with
      | null => exact within_nil a
      | uninit => exact within_nil a
      | «to» s => exact (hinit s rfl (.init :: a)).2.mono
    refine ⟨Within.cons_self ?_, (within_append.mpr ⟨hinitCode, hcode.within⟩).cons_self⟩
    change Within a (addresses (_ ++ (_ ++ _)))
    rw [addresses_append, addresses_append, within_append, within_append]
    exact ⟨hcalls, hcalls, hpass.within⟩
  | scan table rowName blk frame hblk =>
    obtain ⟨hpass, hcode⟩ := below_bodies hblk .item a 0
    exact ⟨hpass.within.cons_self, hcode.within.cons_self⟩
  | ifStmt cond ts fs hts hfs =>
    obtain ⟨hpass, hcode⟩ := below_bodies hts .item a 0
    have helse : Within a (addresses (passCallsElse a fs)) ∧ Within a (codeCallsElse a fs) := by
      cases fs with
      | none => exact ⟨within_nil a, within_nil a⟩
      | some fs =>
        obtain ⟨hpass', hcode'⟩ := below_bodies (hfs fs rfl) .otherwise a 0
        exact ⟨hpass'.within, hcode'.within⟩
    refine ⟨Within.cons_self ?_, (within_append.mpr ⟨hcode.within, helse.2⟩).cons_self⟩
    change Within a (addresses (_ ++ _))
    rw [addresses_append, within_append]
    exact ⟨hpass.within, helse.1⟩
  | _ => exact ⟨(within_nil a).cons_self, (within_nil a).cons_self⟩

theorem onceEach_all_of {ss : List Statement}
    (h : ∀ s ∈ ss, ∀ a, OnceEach (s.codeCalls a) (addresses (s.passCalls a)) ↔ s.initless = true)
    {place : ℕ → Place} (hplace : Function.Injective place) (a : Address) (i : ℕ) :
    OnceEach (codeCallsAll place a i ss) (addresses (passCallsAll place a i ss)) ↔
      initlessAll ss = true := by
  induction ss generalizing i with
  | nil => simp [OnceEach, codeCallsAll, initlessAll]
  | cons s ss ih =>
    rw [List.forall_mem_cons] at h
    obtain ⟨hpass, hcode⟩ := s.within_calls (place i :: a)
    obtain ⟨hpass', hcode'⟩ := below_bodies (fun s (_ : s ∈ ss) => s.within_calls) place a (i+1)
    have hapart : ∀ q, q = place i → ¬Place.From place (i+1) q := by
      rintro q rfl ⟨j, hj, hij⟩
      have heq := hplace hij
      omega
    rw [codeCallsAll, passCallsAll, addresses_append,
      onceEach_append hcode.below hpass.below hcode' hpass' hapart, h.1, ih h.2, initlessAll,
      Bool.and_eq_true]

theorem onceEach_body {ss : List Statement}
    (h : ∀ s ∈ ss, ∀ a, OnceEach (s.codeCalls a) (addresses (s.passCalls a)) ↔ s.initless = true)
    (a : Address) :
    OnceEach (a :: codeCallsAll .item a 0 ss) (a :: addresses (passCallsAll .item a 0 ss)) ↔
      initlessAll ss = true := by
  obtain ⟨hpass, hcode⟩ := below_bodies (fun s (_ : s ∈ ss) => s.within_calls) .item a 0
  rw [onceEach_self hcode hpass]
  exact onceEach_all_of h (fun _ _ => Place.item.inj) a 0

/-- The init part of a `For` is allocated twice. -/
theorem two_le_count_init (s : Statement) (a : Address) (calls : List (Address × Statement)) :
    2 ≤ (addresses (s.allocaCalls a ++ (s.allocaCalls a ++ calls))).count a := by
  have hmem : a ∈ addresses (s.allocaCalls a) := by
    cases s <;> simp [Statement.allocaCalls, addresses]
  have hone : 0 < (addresses (s.allocaCalls a)).count a := List.count_pos_iff.mpr hmem
  rw [addresses_append, addresses_append, List.count_append, List.count_append]
  omega

theorem Statement.onceEach_iff (s : Statement) (a : Address) :
    OnceEach (s.codeCalls a) (addresses (s.passCalls a)) ↔ s.initless = true := by
  induction s using Statement.induction generalizing a with
  | block ss hss => exact onceEach_body hss a
  | transaction isolation ss hss => exact onceEach_body hss a
  | forStmt init cond every blk _ hblk =>
    cases init with
    | null => exact onceEach_body hblk a
    | uninit => exact onceEach_body hblk a
    | «to» s =>
      refine iff_of_false (fun hall => ?_) (by simp [Statement.initless, Ptr.isTo])
      have hmem : Place.init :: a ∈
          (Statement.forStmt (.to s) cond every blk).codeCalls a := by
        cases s <;> simp [Statement.codeCalls, codeCallsInit]
      have hcount := hall _ hmem
      have htwo := two_le_count_init s (.init :: a) (passCallsAll .item a 0 blk)
      have hne : a ≠ Place.init :: a := by simp
      change (a :: addresses (s.allocaCalls (.init :: a) ++ (s.allocaCalls (.init :: a) ++ _))).count
        (.init :: a) = 1 at hcount
      rw [List.count_cons_of_ne hne] at hcount
      omega
  | scan table rowName blk frame hblk => exact onceEach_body hblk a
  | ifStmt cond ts fs hts hfs =>
    obtain ⟨hpass, hcode⟩ := below_bodies (fun s (_ : s ∈ ts) => s.within_calls) .item a 0
    have htrue := onceEach_all_of hts (fun _ _ => Place.item.inj) a 0
    cases fs with
    | none =>
      rw [Statement.codeCalls, Statement.passCalls, codeCallsElse, passCallsElse, List.append_nil,
        List.append_nil, Statement.initless, initlessElse, Bool.and_true]
      exact onceEach_body hts a
    | some fs =>
      obtain ⟨hpass', hcode'⟩ := below_bodies (fun s (_ : s ∈ fs) => s.within_calls) .otherwise a 0
      have hfalse := onceEach_all_of (hfs fs rfl) (fun _ _ => Place.otherwise.inj) a 0
      have hapart : ∀ q, Place.From .item 0 q → ¬Place.From .otherwise 0 q := by
        rintro q ⟨i, -, rfl⟩ ⟨j, -, hij⟩
        exact absurd hij (by simp)
      have hany : ∀ q, Place.From .item 0 q → True := fun _ _ => trivial
      have hsites := below_append.mpr ⟨hcode.mono hany, hcode'.mono fun _ _ => trivial⟩
      have hcalls := below_append.mpr ⟨hpass.mono hany, hpass'.mono fun _ _ => trivial⟩
      change OnceEach (a :: (codeCallsAll .item a 0 ts ++ codeCallsAll .otherwise a 0 fs))
        (a :: addresses (passCallsAll .item a 0 ts ++ passCallsAll .otherwise a 0 fs)) ↔
          (initlessAll ts && initlessAll fs) = true
      rw [addresses_append, onceEach_self hsites hcalls, onceEach_append hcode hpass hcode' hpass' hapart,
        Bool.and_eq_true]
      exact and_congr htrue hfalse
  | _ => simp [Statement.codeCalls, Statement.passCalls, Statement.initless, OnceEach, addresses]

/-- The allocation pass calls `alloca_stack` exactly once on every statement that `codegen` is called
on, if and only if no `For` has an init part. -/
theorem allocated_once_iff (ss : List Statement) :
    OnceEach (codeCallsAll .item [] 0 ss) (addresses (passCallsAll .item [] 0 ss)) ↔
      initlessAll ss = true :=
  onceEach_all_of (fun s _ => s.onceEach_iff) (fun _ _ => Place.item.inj) [] 0

instance (sites calls : List Address) : Decidable (OnceEach sites calls) :=
  inferInstanceAs (Decidable (∀ a ∈ sites, calls.count a = 1))

def countingLoop : Text := text "for let i = 0; i < 1; i = i + 1 { }"

/-- The `let` of the loop is allocated twice. -/
theorem countingLoop_not_once : ∃ ss rest, parse 30 countingLoop = .ok ss rest ∧
    ¬OnceEach (codeCallsAll .item [] 0 ss) (addresses (passCallsAll .item [] 0 ss)) := by
  have hcheck : (parse 30 countingLoop).returnsWith (fun ss => !decide (OnceEach
      (codeCallsAll .item [] 0 ss) (addresses (passCallsAll .item [] 0 ss)))) = true := by
    decide +kernel
  obtain ⟨ss, rest, hparse, hnot⟩ := StreamParser.Outcome.returnsWith_iff.mp hcheck
  exact ⟨ss, rest, hparse, by simpa using hnot⟩

end Reir
