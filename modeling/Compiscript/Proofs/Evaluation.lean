import Compiscript.Check

/-!
# Evaluating the Check

The checker by recursion on a bound.

`check` goes from a tree to smaller trees, and nothing bounds the number of steps
but the size of the tree. Such a definition is known by its equation only: it does
not come to a result by unfolding. With a bound that is at least the size of the
tree, the definition here is the same steps, and it does.
-/

namespace Compiscript

/-- The check of a tree up to a size. -/
def checkUpTo : Nat → Tree → Check Ty
  | 0, _ => throw .node
  | n + 1, t => Check.node t fun c => checkUpTo n c.tree

variable {n : Nat} {t : Tree}

theorem Tree.Sub.sizeOf_le (c : t.Sub) (h : sizeOf t ≤ n + 1) : sizeOf c.tree ≤ n :=
  Nat.le_of_lt_succ (Nat.lt_of_lt_of_le c.2 h)

theorem checkUpTo_eq (h : sizeOf t ≤ n) : checkUpTo n t = check t := by
  induction n generalizing t with
  | zero => cases t <;> simp at h
  | succ n ih =>
    rw [check_eq, checkUpTo]
    congr 1
    funext c
    exact ih (c.sizeOf_le h)

theorem Checker.run_eq (h : sizeOf t ≤ n) (s : Checker) :
    Checker.run t s = (checkUpTo n t).run s := by
  rw [Checker.run, checkUpTo_eq h]

end Compiscript
