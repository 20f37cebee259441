import ZPlane.Expr.Basic

/-!
# The Names of an Expression

The names of an expression are collected in one walk from left to right, which carries the
names that were seen before. What the walk adds for a tree therefore depends on what came
before it, and the laws here are stated for every list of names that was seen already.

The leaves of a tree are its names with repetitions. The names of the tree are its leaves,
each at the place where it comes first. For an operation that comes to the names of the left
operand, followed by those names of the right operand that are new.

## Main definitions

* `Expr.leaves`: The names at the leaves, from left to right, as often as they occur.
* `Expr.rename`: The tree with other names at its leaves.

## Theorems

* `Expr.addNames_eq`: What a walk adds to the names that were seen.
* `Expr.names_eq_eraseDups`: The names are the leaves without repetitions.
* `Expr.names_operation`, `Expr.mem_names_operation`: The names of an operation are those of its
  operands.
* `Expr.nodup_names`: No name is listed twice.
* `Expr.idxOf_names_lt_iff`: Names are listed in the order in which they are first met.
* `Expr.names_rename`: Renaming a tree renames its names, if it keeps them apart.
* `Expr.names_listed`: All of it together.
-/

namespace ZPlane

/-- Whether repetitions or other items are left out first does not matter. -/
theorem eraseDups_filter {α : Type} [BEq α] [LawfulBEq α] (p : α → Bool) (as : List α) :
    (as.filter p).eraseDups = as.eraseDups.filter p := by
  induction h : as.length using Nat.strongRecOn generalizing as with
  | _ n ih =>
    cases as with
    | nil => rfl
    | cons a as =>
      have hlt : (as.filter fun b => !b == a).length < n := by
        have := List.length_filter_le (fun b => !b == a) as
        simp only [List.length_cons] at h
        omega
      have hrest := ih _ hlt _ rfl
      rw [List.eraseDups_cons]
      by_cases ha : p a = true
      · rw [List.filter_cons_of_pos ha, List.filter_cons_of_pos ha, List.eraseDups_cons, ← hrest,
          List.filter_filter, List.filter_filter]
        simp only [Bool.and_comm]
      · -- What is kept is not `a`, so `a` does not have to be left out again.
        rw [List.filter_cons_of_neg ha, List.filter_cons_of_neg ha, ← hrest, List.filter_filter]
        congr 1
        refine List.filter_congr fun b _ => ?_
        by_cases hb : b = a
        · simp [hb, ha]
        · simp [hb]

/-- Items that are kept stay in their order. -/
theorem idxOf_filter_lt_iff {α : Type} [BEq α] [LawfulBEq α] {p : α → Bool} {x y : α}
    (hx : p x = true) (hy : p y = true) (as : List α) :
    (as.filter p).idxOf x < (as.filter p).idxOf y ↔ as.idxOf x < as.idxOf y := by
  induction as with
  | nil => rfl
  | cons a as ih =>
    by_cases ha : p a = true
    · simp only [List.filter_cons_of_pos ha, List.idxOf_cons]
      cases a == x <;> cases a == y <;> simp [ih]
    · have hax : (a == x) = false := beq_false_of_ne fun h => ha (h ▸ hx)
      have hay : (a == y) = false := beq_false_of_ne fun h => ha (h ▸ hy)
      simp [List.filter_cons_of_neg ha, List.idxOf_cons, hax, hay, ih]

namespace Expr

/-- The names at the leaves, from left to right, as often as they occur. -/
def leaves : Expr → List String
  | .literal _ => []
  | .name x => [x]
  | .operation _ l r => l.leaves ++ r.leaves

/-- The tree with `f x` at every leaf that was the name `x`. -/
def rename (f : String → String) : Expr → Expr
  | .literal z => .literal z
  | .name x => .name (f x)
  | .operation op l r => .operation op (l.rename f) (r.rename f)

/-- A walk adds the leaves that were not seen, each once. -/
theorem addNames_eq (e : Expr) (seen : List String) :
    e.addNames seen = seen ++ (e.leaves.removeAll seen).eraseDups := by
  induction e generalizing seen with
  | literal z => simp [addNames, leaves]
  | name x =>
    unfold addNames leaves
    by_cases hx : x ∈ seen
    · simp [hx, List.removeAll]
    · simp [hx, List.removeAll, List.eraseDups_cons]
  | operation op l r ihl ihr =>
    -- For the right operand, what the left one added counts as seen.
    have hright (added : List String) :
        r.leaves.removeAll (seen ++ added.eraseDups) =
          (r.leaves.removeAll seen).removeAll added := by
      simp only [List.removeAll, List.filter_filter]
      refine List.filter_congr fun x _ => ?_
      simp [List.mem_eraseDups, Bool.and_comm]
    have hboth : (l.leaves ++ r.leaves).removeAll seen =
        l.leaves.removeAll seen ++ r.leaves.removeAll seen :=
      List.filter_append _ _
    rw [addNames, ihr, ihl, hright, leaves, hboth, List.eraseDups_append, List.append_assoc]

/-- The names of a tree are its leaves, each where it comes first. -/
theorem names_eq_eraseDups (e : Expr) : e.names = e.leaves.eraseDups := by
  rw [names, addNames_eq, List.nil_append, List.removeAll_nil]

theorem mem_names_iff {x : String} {e : Expr} : x ∈ e.names ↔ x ∈ e.leaves := by
  rw [names_eq_eraseDups, List.mem_eraseDups]

@[simp]
theorem names_name (x : String) : (name x).names = [x] := rfl

/-- The names of an operation are those of its left operand, and then the new ones of its right
    operand. -/
theorem names_operation (op : Operator) (l r : Expr) :
    (operation op l r).names = l.names ++ r.names.filter (· ∉ l.names) := by
  rw [names_eq_eraseDups, leaves, List.eraseDups_append, List.removeAll, eraseDups_filter,
    ← names_eq_eraseDups, ← names_eq_eraseDups]
  congr 1
  refine List.filter_congr fun x _ => ?_
  simp [mem_names_iff]

theorem mem_names_operation {x : String} {op : Operator} {l r : Expr} :
    x ∈ (operation op l r).names ↔ x ∈ l.names ∨ x ∈ r.names := by
  simp only [mem_names_iff, leaves, List.mem_append]

theorem nodup_addNames {e : Expr} {seen : List String} (h : seen.Nodup) :
    (e.addNames seen).Nodup := by
  induction e generalizing seen with
  | literal z => exact h
  | name x =>
    unfold addNames
    by_cases hx : x ∈ seen
    · simpa [hx] using h
    · simp only [List.contains_eq_mem, hx, decide_false, Bool.false_eq_true, if_false]
      refine List.nodup_append.mpr ⟨h, List.pairwise_singleton _ _, fun a ha b hb => ?_⟩
      rw [List.mem_singleton.mp hb]
      exact fun hax => hx (hax ▸ ha)
  | operation op l r ihl ihr => exact ihr (ihl h)

theorem nodup_names (e : Expr) : e.names.Nodup :=
  nodup_addNames List.nodup_nil

/-- The names come in the order in which they are first met. -/
theorem idxOf_names_lt_iff (e : Expr) (x y : String) :
    e.names.idxOf x < e.names.idxOf y ↔ e.leaves.idxOf x < e.leaves.idxOf y := by
  induction e with
  | literal z => rfl
  | name a => rfl
  | operation op l r ihl ihr =>
    rw [names_operation, leaves]
    by_cases hx : x ∈ l.leaves <;> by_cases hy : y ∈ l.leaves <;>
      simp only [List.idxOf_append, mem_names_iff, hx, hy, if_true, if_false]
    · exact ihl
    · -- Whatever is met on the left comes before what is met on the right only.
      have hnames := List.idxOf_lt_length_of_mem (mem_names_iff.mpr hx)
      have hleaves := List.idxOf_lt_length_of_mem hx
      exact iff_of_true (by omega) (by omega)
    · have hnames := List.idxOf_lt_length_of_mem (mem_names_iff.mpr hy)
      have hleaves := List.idxOf_lt_length_of_mem hy
      exact iff_of_false (by omega) (by omega)
    · rw [Nat.add_lt_add_iff_right, Nat.add_lt_add_iff_right, ← ihr]
      exact idxOf_filter_lt_iff (by simp [hx]) (by simp [hy]) _

/-- A renaming that keeps the names of a tree apart goes through the list of its names. -/
theorem names_rename {f : String → String} {e : Expr}
    (h : ∀ x ∈ e.leaves, ∀ y ∈ e.leaves, f x = f y → x = y) :
    (e.rename f).names = e.names.map f := by
  induction e with
  | literal z => rfl
  | name x => rfl
  | operation op l r ihl ihr =>
    simp only [leaves, List.mem_append] at h
    rw [rename, names_operation, names_operation,
      ihl fun x hx y hy => h x (.inl hx) y (.inl hy),
      ihr fun x hx y hy => h x (.inr hx) y (.inr hy), List.map_append, List.filter_map]
    congr 2
    refine List.filter_congr fun x hx => ?_
    -- The new name of `x` is new on the right exactly if `x` is.
    have hnew : f x ∈ l.names.map f ↔ x ∈ l.names := by
      refine ⟨fun hmem => ?_, List.mem_map_of_mem⟩
      rcases List.mem_map.mp hmem with ⟨y, hy, hfy⟩
      exact h y (.inl (mem_names_iff.mp hy)) x (.inr (mem_names_iff.mp hx)) hfy ▸ hy
    exact decide_eq_decide.mpr (not_congr hnew)

/-- The names of a tree are listed once each, as they are first met from left to right. What an
    operation lists follows from its operands, and other names are listed in the same places. -/
theorem names_listed (e : Expr) :
    e.names.Nodup ∧ (∀ x, x ∈ e.names ↔ x ∈ e.leaves) ∧
      (∀ x y, e.names.idxOf x < e.names.idxOf y ↔ e.leaves.idxOf x < e.leaves.idxOf y) ∧
      (∀ op l r, e = operation op l r → e.names = l.names ++ r.names.filter (· ∉ l.names)) ∧
      ∀ f : String → String, (∀ x ∈ e.leaves, ∀ y ∈ e.leaves, f x = f y → x = y) →
        (e.rename f).names = e.names.map f := by
  refine ⟨e.nodup_names, fun x => mem_names_iff, e.idxOf_names_lt_iff, ?_, ?_⟩
  · rintro op l r rfl
    exact names_operation op l r
  · exact fun f hf => names_rename hf

/-- Two names are exchanged in a tree that assigns one, calls a function and uses both. -/
theorem names_listed_exchange :
    ((operation .assign (name "w") (operation .call (name "sqrt")
        (operation (.arith .mul) (name "z") (name "w")))).rename
      fun x => if x = "w" then "z" else if x = "z" then "w" else x).names = ["z", "sqrt", "w"] :=
  (names_listed _).2.2.2.2 _ (by decide)

end Expr

end ZPlane
