import Compiscript.Grammar.Lookahead
import Compiscript.Parse.Stacks

/-!
# Prediction

Choosing a branch of a decision by reading ahead as far as it takes.

All branches are followed at once. After each token the branches that cannot
have read it drop out, and once a single one is left it is chosen. If several
branches are left that have come to the very same configurations, no further
reading can tell them apart, and the lowest of them is chosen.

This is done in two stages. The first one knows nothing about who called the
rule that the decision stands in: where that rule ends, every place that can
follow any call of it is taken into account. Only if it ends in a conflict are
the same tokens read again with the full stack of calls.
-/

namespace Compiscript

/-- A place in the network and the stacks with which it can be reached. -/
structure Config where
  node : Nat
  returns : Stacks
  /-- Whether the rule of the decision has been left on the way here. -/
  left : Bool
deriving Inhabited, Repr

/-- How much of the call stack is known. -/
inductive Scope where
  /-- Only calls since the start of the decision. -/
  | local
  /-- All calls. -/
  | full
deriving DecidableEq, Repr, Inhabited

namespace Config

/-- Add a configuration; the stacks of one place are united. -/
def add (scope : Scope) (c : Config) : List Config → List Config
  | [] => [c]
  | d :: rest =>
    if d.node = c.node then
      ⟨d.node, d.returns.merge (scope == .local) c.returns, d.left || c.left⟩ :: rest
    else d :: add scope c rest

/-- A way to go on from a place whose rule can end: return to a caller, or
    find no more callers at the end of a rule. -/
inductive Exit where
  | return (node : Nat) (returns : Stacks)
  | bottom (r : Rule)

/-- All ways to go on after a rule, given the stacks it was called with.
    Returning to a place whose rule can end as well leads on from there. -/
def exits (la : Lookahead) (r : Rule) : Stacks → List Exit
  | .nil false => []
  | .nil true => [.bottom r]
  | .cons _ frame below others =>
    .return frame below ::
      (if la.canEnd frame then exits la (la.ruleOf frame) below else []) ++ exits la r others

/-- The configurations that rest at a token, reached from a place without
    reading. Of those only the ones that can read `k` are wanted, if it is
    given. -/
def land (la : Lookahead) (k? : Option Kind) (n : Nat) (returns : Stacks) (left : Bool) :
    List Config :=
  (la.landingsAt n).filterMap fun l =>
    let wanted := match k?, la.node l.node with
      | none, _ => true
      | some k, .token k' _ => k == k'
      | some k, .oneOf ks _ => ks.mem k
      | some _, _ => false
    if wanted then some ⟨l.node, returns.pushAll l.returns, left⟩ else none

/-- The configurations in which a configuration can come to rest: at a token,
    or at the end of the outermost rule. -/
def settle (la : Lookahead) (scope : Scope) (k? : Option Kind) (c : Config) : List Config :=
  let outside := if la.canEnd c.node then exits la (la.ruleOf c.node) c.returns else []
  land la k? c.node c.returns c.left ++ outside.flatMap fun
    | .return n returns => land la k? n returns c.left
    | .bottom r =>
      match scope with
      | .full => [⟨r.index, .empty, c.left⟩]
      | .local => (la.resume r).flatMap fun n =>
        match la.node n with
        -- What follows the end of any other rule is among the places as well.
        | .stop q => if q = .program then [⟨n, .empty, true⟩] else []
        | _ => land la k? n .empty true

/-- Whether a configuration rests at the end of the outermost rule. -/
def isFinal (la : Lookahead) (c : Config) : Bool :=
  match la.node c.node with
  | .stop _ => true
  | _ => false

/-- The configuration behind a token. -/
def advance? (la : Lookahead) (c : Config) : Option Config :=
  match la.node c.node with
  | .token _ next => some { c with node := next }
  | .oneOf _ next => some { c with node := next }
  | _ => none

end Config

/-- A branch of a decision, by its number from 1, and where it stands after
    the tokens read so far. -/
structure Branch where
  alt : Nat
  configs : List Config
deriving Inhabited, Repr

namespace Branch

/-- Where a branch can come to rest, the stacks of one place united. -/
def settle (la : Lookahead) (scope : Scope) (k? : Option Kind) (b : Branch) : Branch :=
  { b with
    configs := (b.configs.flatMap (Config.settle la scope k?)).foldl
      (fun cs c => c.add scope cs) [] }

/-- Where a settled branch stands after a token that it can read. -/
def advance (la : Lookahead) (scope : Scope) (b : Branch) : Branch :=
  { b with
    configs := (b.configs.filterMap (Config.advance? la)).foldl
      (fun cs c => c.add scope cs) [] }

/-- The part of a settled branch that rests at the end of the outermost
    rule. -/
def finals (la : Lookahead) (b : Branch) : Branch :=
  { b with configs := b.configs.filter (Config.isFinal la) }

/-- Whether a settled branch has a configuration. -/
def has (b : Branch) (c : Config) : Bool :=
  b.configs.any fun d => d.node == c.node && d.returns == c.returns

/-- Whether a settled branch has been at a place. -/
def visits (b : Branch) (n : Nat) : Bool := b.configs.any (·.node == n)

/-- Whether a branch can leave the rule of the decision. -/
def leaves (la : Lookahead) (b : Branch) : Bool :=
  (b.settle la .local none).configs.any (·.left)

end Branch

/-- The outcome of a prediction. -/
inductive Prediction where
  | alt (n : Nat)
  /-- No branch is left after this many tokens and the one behind them. -/
  | dead (read : Nat)
deriving DecidableEq, Repr, Inhabited

namespace Prediction

/-- Drop the branches that stand nowhere. -/
def alive (bs : List Branch) : List Branch := bs.filter (!·.configs.isEmpty)

/-- The branches after one more token. Branches that rest at the end of the
    outermost rule stay there, unless others have just come to it; at the end
    of the input nothing else counts. -/
def step (la : Lookahead) (scope : Scope) (k : Kind) (bs : List Branch) : List Branch :=
  let settled := bs.map (Branch.settle la scope (some k))
  let moved := settled.map (Branch.advance la scope)
  let ended := moved.map fun b => (b.settle la scope (some k)).finals la
  let kept := settled.map (Branch.finals la)
  let moved := if k = .endOfInput then ended else moved
  let keep : Bool := match scope with
    | .full => ended.all (·.configs.isEmpty)
    | .local => k == .endOfInput
  let join (m s : Branch) : Branch :=
    { m with configs := s.configs.foldl (fun cs c => c.add scope cs) m.configs }
  alive (if keep then moved.zipWith join kept else moved)

/-- Whether branches cannot be told apart without the full stack of calls. -/
def isConflict (la : Lookahead) (bs : List Branch) : Bool :=
  let settled := bs.map (Branch.settle la .local none)
  let others (b : Branch) := settled.filter (·.alt != b.alt)
  let all (p : Branch → Config → Bool) := settled.all fun b => b.configs.all (p b)
  all (fun b c => (others b).any (·.visits c.node)) &&
    settled.any fun b => b.configs.any fun c => (others b).any (·.has c)

/-- Whether every configuration is one of the first branch. -/
def isSettledByFirst (la : Lookahead) (bs : List Branch) : Bool :=
  match bs.map (Branch.settle la .full none) with
  | [] => false
  | b :: rest => rest.all fun b' => b'.configs.all b.has

/-- Read ahead with the full stack of calls. What is left at the end of the input
    rests at one place. -/
def readFull (la : Lookahead) (n : Nat) (bs : List Branch) : List Token → Prediction
  | [] => .dead n
  | t :: ts =>
    match step la .full t.kind bs with
    | [] => .dead n
    | [b] => .alt b.alt
    | b :: bs' =>
      if t.kind == .endOfInput || isSettledByFirst la (b :: bs') then .alt b.alt
      else readFull la (n + 1) (b :: bs') ts

/-- Read ahead without knowing the callers. `full` is the answer of the second
    stage. Where all branches drop out, one that can end the rule of the
    decision is taken all the same: the error then shows up behind it. -/
def readLocal (la : Lookahead) (full : Unit → Prediction) (n : Nat) (bs : List Branch) :
    List Token → Prediction
  | [] => .dead n
  | t :: ts =>
    match step la .local t.kind bs with
    | [] =>
      match bs.find? (Branch.leaves la) with
      | some b => .alt b.alt
      | none => .dead n
    | [b] => .alt b.alt
    | bs' =>
      if t.kind == .endOfInput || isConflict la bs' then full ()
      else readLocal la full (n + 1) bs' ts

/-- The branches at the start of a decision. -/
def start (branches : List Nat) (returns : Stacks) : List Branch :=
  branches.zipIdx.map fun (n, i) => ⟨i + 1, [⟨n, returns, false⟩]⟩

end Prediction

/-- The branch to take at a decision, given the returns due after the current
    rule, the innermost first, and the tokens ahead. -/
def predict (la : Lookahead) (branches : List Nat) (returns : List Nat) (ahead : List Token) :
    Prediction :=
  let full (_ : Unit) :=
    Prediction.readFull la 0 (Prediction.start branches (.ofList returns)) ahead
  Prediction.readLocal la full 0 (Prediction.start branches .empty) ahead

end Compiscript
