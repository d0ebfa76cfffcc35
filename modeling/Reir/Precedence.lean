import Mathlib

/-! Grouping of an infix sequence by operator precedence. Operators of a higher level bind
tighter and operators of one level associate to the left. -/
namespace Reir.Precedence

/-- A grouped sequence. The operands are the leaves. -/
inductive Tree (O α : Type)
  | leaf (a : α)
  | node (l : Tree O α) (op : O) (r : Tree O α)

variable {O α : Type}

namespace Tree

/-- The first operand in reading order. -/
def first : Tree O α → α
  | .leaf a => a
  | .node l _ _ => l.first

/-- The operators and operands behind the first one, in reading order. -/
def tail : Tree O α → List (O × α)
  | .leaf _ => []
  | .node l op r => l.tail ++ (op, r.first) :: r.tail

def ops : Tree O α → List O
  | .leaf _ => []
  | .node l op r => l.ops ++ op :: r.ops

/-- The value of a tree under an interpretation of its nodes. -/
def build (mk : α → O → α → α) : Tree O α → α
  | .leaf a => a
  | .node l op r => mk (l.build mk) op (r.build mk)

/-- No operator under a node binds looser than it, and none on its right as loose. -/
def WellGrouped (level : O → ℕ) : Tree O α → Prop
  | .leaf _ => True
  | .node l op r => l.WellGrouped level ∧ r.WellGrouped level ∧
      (∀ o ∈ l.ops, level op ≤ level o) ∧ ∀ o ∈ r.ops, level op < level o

theorem ops_eq_map_tail (t : Tree O α) : t.ops = t.tail.map Prod.fst := by
  induction t with
  | leaf a => rfl
  | node l op r ihl ihr => simp [ops, tail, ihl, ihr]

end Tree

/-- Put an operand and an operator in front of a grouped sequence: the operand goes down the
left side, below every operator that does not bind tighter. -/
def attach (level : O → ℕ) (a : α) (op : O) : Tree O α → Tree O α
  | .leaf b => .node (.leaf a) op (.leaf b)
  | .node l op' r =>
    if level op' ≤ level op then .node (attach level a op l) op' r
    else .node (.leaf a) op (.node l op' r)

def group (level : O → ℕ) (a : α) : List (O × α) → Tree O α
  | [] => .leaf a
  | (op, b) :: rest => attach level a op (group level b rest)

variable {level : O → ℕ}

theorem attach_first (a : α) (op : O) (t : Tree O α) : (attach level a op t).first = a := by
  induction t with
  | leaf b => rfl
  | node l op' r ihl _ =>
    unfold attach
    split_ifs
    · exact ihl
    · rfl

theorem attach_tail (a : α) (op : O) (t : Tree O α) :
    (attach level a op t).tail = (op, t.first) :: t.tail := by
  induction t with
  | leaf b => rfl
  | node l op' r ihl _ =>
    unfold attach
    split_ifs
    · simp [Tree.tail, Tree.first, ihl]
    · simp [Tree.tail, Tree.first]

theorem attach_ops (a : α) (op : O) (t : Tree O α) :
    (attach level a op t).ops = op :: t.ops := by
  rw [Tree.ops_eq_map_tail, attach_tail, Tree.ops_eq_map_tail]
  rfl

/-- In front of tighter operators only, the operator becomes the root. -/
theorem attach_eq_node {a : α} {op : O} {t : Tree O α} (h : ∀ o ∈ t.ops, level op < level o) :
    attach level a op t = .node (.leaf a) op t := by
  cases t with
  | leaf b => rfl
  | node l op' r =>
    have hop : level op < level op' := h op' (by simp [Tree.ops])
    rw [attach, if_neg (by omega)]

theorem attach_wellGrouped {a : α} {op : O} {t : Tree O α} (h : t.WellGrouped level) :
    (attach level a op t).WellGrouped level := by
  induction t with
  | leaf b => simp [attach, Tree.WellGrouped, Tree.ops]
  | node l op' r ihl _ =>
    obtain ⟨hl, hr, hle, hlt⟩ := h
    unfold attach
    split_ifs with hop
    · refine ⟨ihl hl, hr, ?_, hlt⟩
      intro o ho
      rw [attach_ops] at ho
      rcases List.mem_cons.mp ho with rfl | ho
      · exact hop
      · exact hle o ho
    · refine ⟨trivial, ⟨hl, hr, hle, hlt⟩, by simp [Tree.ops], ?_⟩
      intro o ho
      simp only [Tree.ops, List.mem_append, List.mem_cons] at ho
      rcases ho with ho | rfl | ho
      · have := hle o ho
        omega
      · omega
      · have := hlt o ho
        omega

theorem group_wellGrouped (a : α) (rest : List (O × α)) :
    (group level a rest).WellGrouped level := by
  induction rest generalizing a with
  | nil => trivial
  | cons p rest ih => exact attach_wellGrouped (ih p.2)

theorem group_first (a : α) (rest : List (O × α)) : (group level a rest).first = a := by
  cases rest with
  | nil => rfl
  | cons p rest => exact attach_first a p.1 _

theorem group_tail (a : α) (rest : List (O × α)) : (group level a rest).tail = rest := by
  induction rest generalizing a with
  | nil => rfl
  | cons p rest ih => rw [group, attach_tail, group_first, ih]

theorem group_append (a b : α) (op : O) (xs ys : List (O × α))
    (hx : ∀ p ∈ xs, level op ≤ level p.1) (hy : ∀ p ∈ ys, level op < level p.1) :
    group level a (xs ++ (op, b) :: ys) = .node (group level a xs) op (group level b ys) := by
  induction xs generalizing a with
  | nil =>
    apply attach_eq_node
    intro o ho
    rw [Tree.ops_eq_map_tail, group_tail, List.mem_map] at ho
    obtain ⟨p, hp, rfl⟩ := ho
    exact hy p hp
  | cons p xs ih =>
    have hp : level op ≤ level p.1 := hx p (by simp)
    rw [List.cons_append, group, ih p.2 fun q hq => hx q (List.mem_cons_of_mem p hq), attach,
      if_pos hp]
    rfl

/-- A well grouped tree is the grouping of what it reads as, so there is only one. -/
theorem Tree.WellGrouped.eq_group {t : Tree O α} (h : t.WellGrouped level) :
    t = group level t.first t.tail := by
  induction t with
  | leaf a => rfl
  | node l op r ihl ihr =>
    obtain ⟨hl, hr, hle, hlt⟩ := h
    have hmem : ∀ (s : Tree O α) (p : O × α), p ∈ s.tail → p.1 ∈ s.ops := by
      intro s p hp
      rw [Tree.ops_eq_map_tail]
      exact List.mem_map_of_mem hp
    rw [Tree.tail, Tree.first, group_append _ _ _ _ _ (fun p hp => hle _ (hmem l p hp))
      (fun p hp => hlt _ (hmem r p hp)), ← ihl hl, ← ihr hr]

end Reir.Precedence
