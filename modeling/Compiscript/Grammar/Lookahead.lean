import Compiscript.Grammar.Network

/-!
# Lookahead

What can be read next at each place of the network.

Three questions are answered once for every node, and the answers are kept in a
table. Which tokens can come next before the rule of the node ends? Can the rule
end right here? And at which tokens can the parser come to rest, with which
calls still open? The last answer is a list of `Landing`s; it makes a jump over
any number of calls a single step, so that prediction never walks the network
itself.
-/

namespace Compiscript

/-- A node that reads a token, and the returns that are due after it, the
    innermost first. -/
structure Landing where
  returns : List Nat
  node : Nat
deriving Repr, Inhabited, DecidableEq

/-- Tokens that can come next inside a rule, and whether the rule can end
    without reading one. -/
structure First where
  kinds : Kinds
  canEnd : Bool
deriving Repr, Inhabited, DecidableEq

namespace First

def none : First := ⟨.empty, false⟩

def union (a b : First) : First := ⟨a.kinds.union b.kinds, a.canEnd || b.canEnd⟩

/-- What can come next in `a` followed by `b`. -/
def append (a b : First) : First :=
  if a.canEnd then ⟨a.kinds.union b.kinds, b.canEnd⟩ else a

end First

namespace Network

/-- What can come next at a node. `depth` bounds the nodes on the way. -/
def firstFrom (net : Network) : (depth : Nat) → (n : Nat) → First
  | 0, _ => .none
  | depth + 1, n =>
    match net.node n with
    | .token k _ => ⟨.ofList [k], false⟩
    | .oneOf ks _ => ⟨ks, false⟩
    | .call r next => (net.firstFrom depth (net.start r)).append (net.firstFrom depth next)
    | .fork _ branches => (branches.map (net.firstFrom depth)).foldl First.union .none
    | .again entry => net.firstFrom depth entry
    | .name _ next => net.firstFrom depth next
    | .stop _ => ⟨.empty, true⟩

/-- At the end of its rule nothing is to come. -/
theorem firstFrom_stop {net : Network} {n : Nat} {r : Rule} (h : net.node n = .stop r) (d : Nat) :
    net.firstFrom (d + 1) n = ⟨.empty, true⟩ := by
  rw [firstFrom, h]

/-- Where the walk from a node can come to rest. `depth` bounds the nodes on
    the way. -/
def landingsFrom (net : Network) (canEnd : Nat → Bool) : (depth : Nat) → (n : Nat) → List Landing
  | 0, _ => []
  | depth + 1, n =>
    match net.node n with
    | .token _ _ => [⟨[], n⟩]
    | .oneOf _ _ => [⟨[], n⟩]
    | .call r next =>
      let inside := (net.landingsFrom canEnd depth (net.start r)).map fun l =>
        { l with returns := l.returns ++ [next] }
      if canEnd (net.start r) then inside ++ net.landingsFrom canEnd depth next else inside
    | .fork _ branches => branches.flatMap (net.landingsFrom canEnd depth)
    | .again entry => net.landingsFrom canEnd depth entry
    | .name _ next => net.landingsFrom canEnd depth next
    | .stop _ => []

/-- The rule a node belongs to, for nodes that lie on the way from the start
    of a rule to its end. -/
def ruleFrom (net : Network) : (depth : Nat) → (n : Nat) → Rule
  | 0, _ => .program
  | depth + 1, n =>
    match net.node n with
    | .token _ next | .oneOf _ next | .call _ next | .name _ next => net.ruleFrom depth next
    -- The last branch of a decision leads away from a repeated group.
    | .fork _ branches => net.ruleFrom depth (branches.getLast?.getD 0)
    | .again entry => net.ruleFrom depth entry
    | .stop r => r

/-- Where a parser goes on after a call of a rule, for each call there is. -/
def followers (net : Network) (r : Rule) : List Nat :=
  net.nodes.toList.filterMap fun
    | .call r' next => if r' = r then some next else none
    | _ => none

end Network

/-- A network with the answers for all its nodes. -/
structure Lookahead extends Network where
  firsts : List First
  landings : List (List Landing)
  rules : List Rule
  /-- For each rule, the places where a parser can go on after it if nothing
      is known about who called it. A rule that nobody calls goes on at its
      own end. -/
  resumptions : List (List Nat)
  /-- For each node, whether it is a decision that the next token alone always
      settles. -/
  plain : List Bool
deriving Inhabited

namespace Lookahead

/-- What can come next at a node. -/
def first (la : Lookahead) (n : Nat) : First := la.firsts[n]?.getD .none

/-- Whether the rule of a node can end there. -/
def canEnd (la : Lookahead) (n : Nat) : Bool := (la.first n).canEnd

/-- Where the walk from a node can come to rest. -/
def landingsAt (la : Lookahead) (n : Nat) : List Landing := la.landings[n]?.getD []

/-- The rule of a node. -/
def ruleOf (la : Lookahead) (n : Nat) : Rule := la.rules[n]?.getD .program

/-- Where to go on after a rule whose caller is unknown. -/
def resume (la : Lookahead) (r : Rule) : List Nat := la.resumptions[r.index]?.getD []

/-- Whether a node is a decision that the next token alone always settles. -/
def isPlain (la : Lookahead) (n : Nat) : Bool := la.plain[n]?.getD false

/-- Close a list of places under "the rule can end here, so what follows any
    call of it can come next". -/
def closeFollowers (net : Network) (canEnd : Nat → Bool) (ruleOf : Nat → Rule) :
    (depth : Nat) → (todo found : List Nat) → List Nat
  | 0, _, found => found
  | _, [], found => found
  | depth + 1, n :: todo, found =>
    if found.contains n then
      closeFollowers net canEnd ruleOf depth todo found
    else if canEnd n then
      match net.followers (ruleOf n) with
      | [] => closeFollowers net canEnd ruleOf depth todo (found ++ [n, (ruleOf n).index])
      | next => closeFollowers net canEnd ruleOf depth (next ++ todo) (found ++ [n])
    else
      closeFollowers net canEnd ruleOf depth todo (found ++ [n])

/-- Whether each of several sets has no member in common with any other. -/
def areDisjoint : List Kinds → Bool
  | [] => true
  | s :: rest => rest.all s.isDisjoint && areDisjoint rest

/-- Answer all questions about a network. -/
def ofNetwork (net : Network) : Lookahead :=
  let size := net.nodes.size
  let all := List.range size
  let firsts := all.map (net.firstFrom size)
  let canEnd n := (firsts[n]?.getD .none).canEnd
  let rules := all.map (net.ruleFrom size)
  let ruleOf n := rules[n]?.getD .program
  let resumptions := Rule.all.map fun r =>
    match net.followers r with
    | [] => [r.index]
    | next => closeFollowers net canEnd ruleOf (size * size) next []
  let kinds n := (firsts[n]?.getD .none).kinds
  -- What can come next at a node, the callers of its rule being unknown.
  let kindsBeyond n :=
    if canEnd n then
      ((resumptions[(ruleOf n).index]?.getD []).map kinds).foldl Kinds.union (kinds n)
    else kinds n
  let isPlain n := match net.node n with
    | .fork _ branches => areDisjoint (branches.map kindsBeyond)
    | _ => false
  { net with
    firsts
    landings := all.map (net.landingsFrom canEnd size)
    rules
    resumptions
    plain := all.map isPlain }

end Lookahead

/-- The network of the language with its lookahead. -/
def compiscript : Lookahead := .ofNetwork (.ofProductions production)

end Compiscript
