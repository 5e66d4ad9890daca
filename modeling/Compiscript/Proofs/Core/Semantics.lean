import Compiscript.Proofs.Core.Syntax

/-!
# What Core Programs Mean

A big-step evaluator for the core.

Numbers are those of any arithmetic. Truth values are zero and one. `a && b` is
zero if `a` is, and the value of `b` otherwise; `a || b` is one unless `a` is
zero, and the value of `b` then.

Statements work on an environment and add to an output. How variables are kept
is left open: `Memory.blocks` is the meaning of the language, with a scope for
every block, and `Memory.flat` has one value for every name and no scopes at
all.
-/

namespace Compiscript.Core

/-- Why a program stops before its end. -/
inductive Fault where
  | zeroDivision
  /-- A name that no declaration is visible for. -/
  | unbound (x : String)
deriving DecidableEq, Repr, Inhabited

/-- How a run ends. -/
inductive Ending where
  | done
  | fault (f : Fault)
  /-- A loop has had as many rounds as it may. -/
  | timeout
deriving DecidableEq, Repr, Inhabited

section Eval

variable {V : Type} [DecidableEq V] (A : Arith V) (look : String → Option V)

/-- The value of an expression. -/
def Expr.eval : Expr → Except Fault V
  | .int n => .ok (A.ofInt n)
  | .bool b => .ok (A.flag b)
  | .var x =>
    match look x with
    | some v => .ok v
    | none => .error (.unbound x)
  | .minus e => do return A.neg (← e.eval)
  | .bang e => do return A.flag (decide ((← e.eval) = A.zero))
  | .binary op a b => do
    let x ← a.eval
    let y ← b.eval
    match A.result? op x y with
    | some v => .ok v
    | none => .error .zeroDivision
  | .andAlso a b => do if (← a.eval) = A.zero then return A.zero else b.eval
  | .orElse a b => do if (← a.eval) = A.zero then b.eval else return A.one
  | .question c a b => do if (← c.eval) = A.zero then b.eval else a.eval

end Eval

/-- A way to keep variables with values in `V`. -/
structure Memory (E V : Type) where
  get? : E → String → Option V
  declare : E → String → V → E
  assign? : E → String → V → Option E
  /-- A block begins. -/
  enter : E → E
  /-- A block is over. -/
  leave : E → E

namespace Memory

variable {V : Type}

/-- Write a variable in the first scope that has it. -/
def assignIn (x : String) (v : V) :
    List (List (String × V)) → Option (List (List (String × V)))
  | [] => none
  | scope :: rest =>
    if (scope.lookup x).isSome then
      some ((scope.map fun p => if p.1 = x then (x, v) else p) :: rest)
    else (assignIn x v rest).map (scope :: ·)

/-- Block scopes, the innermost first, each with its latest variable first. -/
def blocks : Memory (List (List (String × V))) V where
  get? env x := env.findSome? (·.lookup x)
  declare env x v :=
    match env with
    | [] => [[(x, v)]]
    | scope :: rest => ((x, v) :: scope) :: rest
  assign? env x v := assignIn x v env
  enter env := [] :: env
  leave env := env.tail

/-- One value for every name. -/
def flat : Memory (String → V) V where
  get? store x := some (store x)
  declare store x v := Function.update store x v
  assign? store x v := some (Function.update store x v)
  enter store := store
  leave store := store

end Memory

/-- An environment and what was printed so far. -/
structure Config (E V : Type) where
  env : E
  out : List V

section Exec

variable {E V C : Type} [DecidableEq V] (A : Arith V) (M : Memory E V)

/-- Go on after a run that came to its end. -/
def andThen (r : Ending × C) (next : C → Ending × C) : Ending × C :=
  match r with
  | (.done, c) => next c
  | r => r

/-- Go on with a value, if there is one. -/
def withValue {α : Type} (r : Except Fault α) (c : C) (next : α → Ending × C) : Ending × C :=
  match r with
  | .ok a => next a
  | .error f => (.fault f, c)

/-- Run a body as long as a test holds, but no more than a number of times. -/
def repeatWhile (test : C → Except Fault Bool) (body : C → Ending × C) : Nat → C → Ending × C
  | 0, c => (.timeout, c)
  | n + 1, c =>
    withValue (test c) c fun go =>
      if go then andThen (body c) (repeatWhile test body n) else (.done, c)

/-- The value of an expression in an environment. -/
def Config.eval (c : Config E V) (e : Expr) : Except Fault V := e.eval A (M.get? c.env)

/-- Whether an expression is true in an environment. -/
def Config.test (c : Config E V) (e : Expr) : Except Fault Bool :=
  (c.eval A M e).map fun v => !decide (v = A.zero)

/-- Run a block in a scope of its own. -/
def inBlock (body : Config E V → Ending × Config E V) (c : Config E V) :
    Ending × Config E V :=
  andThen (body { c with env := M.enter c.env }) fun c =>
    (.done, { c with env := M.leave c.env })

/-- Run a statement, with at most `fuel` rounds for each loop. -/
def exec (fuel : Nat) : Stmt → Config E V → Ending × Config E V
  | .skip, c => (.done, c)
  | .seq a b, c => andThen (exec fuel a c) (exec fuel b)
  | .declare x e, c =>
    withValue (c.eval A M e) c fun v => (.done, { c with env := M.declare c.env x v })
  | .assign x e, c =>
    withValue (c.eval A M e) c fun v =>
      match M.assign? c.env x v with
      | some env => (.done, { c with env })
      | none => (.fault (.unbound x), c)
  | .print e, c => withValue (c.eval A M e) c fun v => (.done, { c with out := c.out ++ [v] })
  | .block s, c => inBlock M (exec fuel s) c
  | .branch e a b, c =>
    withValue (c.test A M e) c fun go =>
      if go then inBlock M (exec fuel a) c else inBlock M (exec fuel b) c
  | .loop e s, c => repeatWhile (fun c => c.test A M e) (inBlock M (exec fuel s)) fuel c

end Exec

end Compiscript.Core
