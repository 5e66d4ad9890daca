/-!
# Temporaries

A pool of numbers for temporaries. A number that was given back is handed out
again before a new one is made, the last one given back first. The pool does
not look at what is given back: a number can come back twice.

The pool keeps its history. Which numbers are free does not tell whether one of
them was given back by someone who did not have it, since it may have been handed
out again.
-/

namespace Compiscript

namespace Temps

/-- What can happen to a number: it is taken, or given back. -/
inductive Use where
  | take (n : Int)
  | give (n : Int)
deriving DecidableEq, Repr

end Temps

/-- The numbers that were given back, the last one first, and the first number
    that was never handed out. -/
structure Temps where
  free : List Int
  next : Int
  /-- What has happened so far, in its order. -/
  history : List Temps.Use
deriving DecidableEq, Repr, Inhabited

namespace Temps

def empty : Temps := ⟨[], 0, []⟩

/-- Take a number. -/
def get (p : Temps) : Int × Temps :=
  match p.free with
  | n :: rest => (n, { p with free := rest, history := p.history ++ [.take n] })
  | [] => (p.next, { p with next := p.next + 1, history := p.history ++ [.take p.next] })

/-- Give a number back. -/
def release (p : Temps) (n : Int) : Temps :=
  { p with free := n :: p.free, history := p.history ++ [.give n] }

end Temps

end Compiscript
