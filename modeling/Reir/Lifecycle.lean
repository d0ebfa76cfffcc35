import Mathlib.Data.List.Induction

/-! The life of resources in a sequence of events. A resource is created, used and ended by events;
the ledger of a sequence is the list of the resources that have been created and not been ended. -/
namespace Lifecycle

/-- What events do with resources. The end of a resource is a use of it. -/
structure Roles (ε η : Type) where
  creates : ε → Option η
  uses : ε → Option η
  ends : ε → Option η
  uses_of_ends : ∀ {e h}, ends e = some h → uses e = some h

variable {ε η : Type} {R : Roles ε η} {es : List ε} {live : List η} {e : ε} {h : η}

/-- A resource is ended by one of the events, with no end of it before and no use behind. -/
def Roles.Ended (R : Roles ε η) (h : η) (es : List ε) : Prop :=
  ∃ mid x rest, es = mid ++ x :: rest ∧ R.ends x = some h ∧ (∀ y ∈ mid, R.ends y ≠ some h) ∧
    ∀ y ∈ rest, R.uses y ≠ some h

/-- Every resource that is created is ended exactly once, after its last use. -/
def Roles.Complete (R : Roles ε η) (es : List ε) : Prop :=
  ∀ pre e post h, es = pre ++ e :: post → R.creates e = some h → R.Ended h post

structure Roles.Ledger (R : Roles ε η) (live : List η) (es : List ε) : Prop where
  nodup : live.Nodup
  created : ∀ h ∈ live, ∃ e ∈ es, R.creates e = some h
  running : ∀ pre e post h, es = pre ++ e :: post → R.creates e = some h → h ∈ live →
    ∀ y ∈ post, R.ends y ≠ some h
  ended : ∀ pre e post h, es = pre ++ e :: post → R.creates e = some h → h ∉ live → R.Ended h post

/-- An event in a sequence with one more event is that event or comes before it. -/
theorem snoc_split {pre post : List ε} {x : ε} (heq : es ++ [e] = pre ++ x :: post) :
    (post = [] ∧ x = e ∧ pre = es) ∨ ∃ post', post = post' ++ [e] ∧ es = pre ++ x :: post' := by
  induction post using List.reverseRecOn with
  | nil =>
    obtain ⟨rfl, hx⟩ := List.append_inj' heq rfl
    exact .inl ⟨rfl, (List.cons.inj hx).1.symm, rfl⟩
  | append_singleton post' y _ =>
    rw [← List.cons_append, ← List.append_assoc] at heq
    obtain ⟨rfl, hy⟩ := List.append_inj' heq rfl
    rw [← (List.cons.inj hy).1]
    exact .inr ⟨post', rfl, rfl⟩

theorem Roles.Ended.snoc (hd : R.Ended h es) (he : R.uses e ≠ some h) : R.Ended h (es ++ [e]) := by
  obtain ⟨mid, x, rest, rfl, hx, hmid, hrest⟩ := hd
  refine ⟨mid, x, rest ++ [e], by simp, hx, hmid, ?_⟩
  rw [List.forall_mem_append]
  exact ⟨hrest, by simpa using he⟩

namespace Roles.Ledger

theorem nil (R : Roles ε η) : R.Ledger [] [] where
  nodup := List.nodup_nil
  created := by simp
  running := by simp
  ended := by simp

/-- An event that creates and ends nothing, and uses none but a running resource. -/
theorem step (hl : R.Ledger live es) (hcreate : R.creates e = none) (hend : R.ends e = none)
    (huse : ∀ h ∈ R.uses e, h ∈ live) : R.Ledger live (es ++ [e]) where
  nodup := hl.nodup
  created := by
    intro h hh
    obtain ⟨x, hx, hc⟩ := hl.created h hh
    exact ⟨x, List.mem_append_left _ hx, hc⟩
  running := by
    intro pre x post h heq hc hh
    rcases snoc_split heq with ⟨rfl, rfl, rfl⟩ | ⟨post', rfl, rfl⟩
    · simp
    · rw [List.forall_mem_append]
      exact ⟨hl.running pre x post' h rfl hc hh, by simp [hend]⟩
  ended := by
    intro pre x post h heq hc hh
    rcases snoc_split heq with ⟨rfl, rfl, rfl⟩ | ⟨post', rfl, rfl⟩
    · rw [hcreate] at hc
      exact absurd hc (by simp)
    · exact (hl.ended pre x post' h rfl hc hh).snoc fun hu => hh (huse h hu)

theorem create (hl : R.Ledger live es) (hcreate : R.creates e = some h) (huse : R.uses e = none)
    (hfresh : ∀ x ∈ es, R.creates x ≠ some h) : R.Ledger (h :: live) (es ++ [e]) where
  nodup := by
    refine List.nodup_cons.mpr ⟨?_, hl.nodup⟩
    intro hh
    obtain ⟨x, hx, hc⟩ := hl.created h hh
    exact hfresh x hx hc
  created := by
    rw [List.forall_mem_cons]
    refine ⟨⟨e, by simp, hcreate⟩, ?_⟩
    intro h' hh
    obtain ⟨x, hx, hc⟩ := hl.created h' hh
    exact ⟨x, List.mem_append_left _ hx, hc⟩
  running := by
    have hend : ∀ h', R.ends e ≠ some h' := by
      intro h' he
      rw [R.uses_of_ends he] at huse
      exact absurd huse (by simp)
    intro pre x post h' heq hc hh
    rcases snoc_split heq with ⟨rfl, rfl, rfl⟩ | ⟨post', rfl, rfl⟩
    · simp
    · have hne : h' ≠ h := by
        rintro rfl
        exact hfresh x (by simp) hc
      have hmem : h' ∈ live := (List.mem_cons.mp hh).resolve_left hne
      rw [List.forall_mem_append]
      exact ⟨hl.running pre x post' h' rfl hc hmem, by simpa using hend h'⟩
  ended := by
    intro pre x post h' heq hc hh
    rcases snoc_split heq with ⟨rfl, rfl, rfl⟩ | ⟨post', rfl, rfl⟩
    · rw [hcreate] at hc
      obtain rfl := Option.some.inj hc
      exact absurd (List.mem_cons_self) hh
    · refine (hl.ended pre x post' h' rfl hc fun hmem => hh (List.mem_cons_of_mem _ hmem)).snoc ?_
      simp [huse]

theorem finish (hl : R.Ledger (h :: live) es) (hend : R.ends e = some h) (hcreate : R.creates e = none) :
    R.Ledger live (es ++ [e]) where
  nodup := (List.nodup_cons.mp hl.nodup).2
  created := by
    intro h' hh
    obtain ⟨x, hx, hc⟩ := hl.created h' (List.mem_cons_of_mem _ hh)
    exact ⟨x, List.mem_append_left _ hx, hc⟩
  running := by
    intro pre x post h' heq hc hh
    rcases snoc_split heq with ⟨rfl, rfl, rfl⟩ | ⟨post', rfl, rfl⟩
    · simp
    · rw [List.forall_mem_append]
      refine ⟨hl.running pre x post' h' rfl hc (List.mem_cons_of_mem _ hh), ?_⟩
      have hne : h ≠ h' := by
        rintro rfl
        exact (List.nodup_cons.mp hl.nodup).1 hh
      simpa [hend] using hne
  ended := by
    intro pre x post h' heq hc hh
    rcases snoc_split heq with ⟨rfl, rfl, rfl⟩ | ⟨post', rfl, rfl⟩
    · rw [hcreate] at hc
      exact absurd hc (by simp)
    · by_cases hne : h' = h
      · subst hne
        exact ⟨post', e, [], rfl, hend, hl.running pre x post' h' rfl hc List.mem_cons_self, by simp⟩
      · refine (hl.ended pre x post' h' rfl hc ?_).snoc ?_
        · simpa [hne] using hh
        · rw [R.uses_of_ends hend]
          simpa using Ne.symm hne

/-- With nothing left running, every resource has been ended. -/
theorem complete (hl : R.Ledger [] es) : R.Complete es :=
  fun pre e post h heq hc => hl.ended pre e post h heq hc (by simp)

end Roles.Ledger

end Lifecycle
