import Compiscript.Parse.Error
import Compiscript.Parse.Prediction
import Compiscript.Tree

/-!
# The Parser

From tokens to a tree, whatever the tokens are.

The parser walks the network, one walk per rule. A text of the language is read
without a step back. On any other text the parser does not stop at the first
error but mends what it can and goes on, so that one run reports all errors and
always ends with a tree.

There are three ways to mend. A token that stands in the way of the right one is
left out. A token that is missing in front of one that fits is made up. If
neither helps, the rule is abandoned: tokens are skipped up to one that some
rule under way can go on with, and the caller goes on as if the rule had been
read. After an error nothing is reported until a token has been read without
trouble.
-/

namespace Compiscript

/-- The state of a run. -/
structure Session where
  /-- The tokens not yet read. The last one is the end of the input and is
      never read away. -/
  ahead : List Token
  /-- The token before those. -/
  previous : Option Token
  /-- How many tokens have been read or skipped. -/
  index : Nat
  /-- Whether no token has been read since the last error. -/
  recovering : Bool
  /-- How far the parser was when it last gave up a rule. -/
  gaveUpAt : Option Nat
  /-- Where in the network it gave up since it last read a token. -/
  gaveUpIn : List Nat
  /-- What repeated groups let pass, by the node at the end of their rounds. -/
  passes : List (Nat × Kinds)
  /-- The errors so far, the last one first. -/
  errors : List SyntaxError
  /-- The children of the node under construction, the last one first. -/
  children : List Tree
  /-- The label of the node under construction. -/
  label : Option Label
deriving Inhabited

namespace Session

/-- The state before a token list is read. -/
def start (tokens : List Token) : Session :=
  { ahead := tokens, previous := none, index := 0, recovering := false, gaveUpAt := none,
    gaveUpIn := [], passes := [], errors := [], children := [], label := none }

/-- The next token. -/
def current (s : Session) : Token := s.ahead.headD default

/-- The kind of the token after the next one. -/
def second (s : Session) : Kind :=
  match s.ahead with
  | _ :: t :: _ => t.kind
  | _ => .endOfInput

/-- Read or skip the next token. It becomes a child, a bad one if an error is
    being mended. -/
def consume (s : Session) : Session :=
  let t := s.current
  let s := { s with children := (if s.recovering then .bad t else .leaf t) :: s.children }
  if t.kind = .endOfInput then s
  else { s with ahead := s.ahead.tail, previous := some t, index := s.index + 1 }

/-- Skip tokens up to one of a set or the end of the input. -/
def skipTo (ks : Kinds) (s : Session) : Session :=
  go s.ahead s
where
  go : List Token → Session → Session
    | [], s => s
    | t :: rest, s =>
      if t.kind = .endOfInput || ks.mem t.kind then s else go rest s.consume

/-- A token has been read without trouble, or can be. -/
def settle (s : Session) : Session :=
  { s with recovering := false, gaveUpAt := none, gaveUpIn := [] }

/-- What a repeated group lets pass at the end of a round. -/
def passed (s : Session) (n : Nat) : Kinds :=
  ((s.passes.find? (·.1 = n)).map (·.2)).getD .empty

/-- Report an error at a token, unless one is being mended. -/
def report (s : Session) (t : Token) (fault : SyntaxFault) : Session :=
  if s.recovering then s
  else { s with recovering := true, errors := ⟨t.pos, fault⟩ :: s.errors }

end Session

namespace Lookahead

/-- The kinds of token that can come next at a node, given the returns due
    after its rule, the innermost first. -/
def expected (la : Lookahead) (n : Nat) : (returns : List Nat) → Kinds
  | [] =>
    if la.canEnd n then (la.first n).kinds.insert .endOfInput else (la.first n).kinds
  | r :: returns =>
    if la.canEnd n then (la.first n).kinds.union (la.expected r returns) else (la.first n).kinds

/-- The kinds of token that some rule under way can go on with. -/
def recovery (la : Lookahead) (returns : List Nat) : Kinds :=
  (returns.map fun r => (la.first r).kinds).foldl Kinds.union .empty

end Lookahead

/-- Why a rule was abandoned. -/
inductive Failure where
  /-- The next token does not fit. -/
  | mismatch
  /-- No branch fits what begins at the next token; this many tokens were read
      before that was clear. -/
  | noBranch (read : Nat)

namespace Session

/-- Give up the current rule at a node: say why, and skip what no rule under
    way can use. -/
def giveUp (la : Lookahead) (n : Nat) (returns : List Nat) (why : Failure) (s : Session) :
    Session :=
  let s : Session := match why with
    | .mismatch =>
      s.report s.current (.mismatched s.current.text (la.expected n returns))
    | .noBranch read =>
      let offending := (s.ahead.drop read).headD s.current
      let text :=
        if s.current.kind = .endOfInput then "<EOF>"
        else String.join
          (((s.ahead.take (read + 1)).filter (·.kind != .endOfInput)).map Token.text)
      s.report offending (.noAlternative text)
  let s := if s.gaveUpAt = some s.index && s.gaveUpIn.contains n then s.consume else s
  let s := { s with gaveUpAt := some s.index, gaveUpIn := n :: s.gaveUpIn }
  s.skipTo (la.recovery returns)

/-- Leave out the next token, if the one behind it fits at a node. -/
def leaveOut? (la : Lookahead) (n : Nat) (returns : List Nat) (s : Session) : Option Session :=
  let expected := la.expected n returns
  if expected.mem s.second then
    some ((s.report s.current (.extraneous s.current.text expected)).consume.settle)
  else none

/-- Read a token that has to be one of a set. `single` tells that a token made
    up in its place becomes a child. -/
def read (la : Lookahead) (n next : Nat) (returns : List Nat) (ks : Kinds) (single : Bool)
    (s : Session) : Except Failure Session :=
  if ks.mem s.current.kind then .ok s.settle.consume
  else
    match s.leaveOut? la n returns with
    | some s => .ok s.consume
    | none =>
      if (la.expected next returns).mem s.current.kind then
        let expected := la.expected n returns
        let found := s.current
        let s := s.report found (.missing expected found.text)
        let kind := expected.toList.headD .endOfInput
        let name := if kind = .endOfInput then "EOF" else kind.display
        let place := if found.kind = .endOfInput then s.previous.getD found else found
        let madeUp : Token := ⟨kind, "<missing " ++ name ++ ">", place.pos⟩
        .ok (if single then { s with children := .bad madeUp :: s.children } else s)
      else .error .mismatch

/-- Before a decision: if the next token fits none of its branches, try to
    leave it out. -/
def sync (la : Lookahead) (n : Nat) (returns : List Nat) (s : Session) :
    Except Failure Session :=
  if s.recovering || la.canEnd n || (la.first n).kinds.mem s.current.kind then .ok s
  else
    match s.leaveOut? la n returns with
    | some s => .ok s
    | none => .error .mismatch

/-- Before a repeated group is entered once more: if the next token does not
    fit, skip to one that does. -/
def syncAgain (la : Lookahead) (n : Nat) (returns : List Nat) (s : Session) : Session :=
  let expected := (la.first n).kinds.union (s.passed n)
  if s.recovering || la.canEnd n || expected.mem s.current.kind then s
  else
    let wanted := expected.union (la.recovery returns)
    let s := s.report s.current (.extraneous s.current.text expected)
    { s with passes := (n, wanted) :: s.passes }.skipTo wanted

/-- Choose a branch of the decision at node `n`. -/
def decide (la : Lookahead) (n : Nat) (kind : Fork) (branches : List Nat)
    (returns : List Nat) (s : Session) : Except Failure Nat :=
  if la.isPlain n then
    let fits (b : Nat) := (la.first b).kinds.mem s.current.kind
    match kind, branches with
    | .choice, _ =>
      match branches.find? fits with
      | some b => .ok b
      | none => .error (.noBranch 0)
    | _, [b, past] => .ok (if fits b then b else past)
    | _, _ => .error (.noBranch 0)
  else
    match predict la branches returns s.ahead with
    | .alt i =>
      match branches[i - 1]? with
      | some b => .ok b
      | none => .error (.noBranch 0)
    | .dead read => .error (.noBranch read)

/-- Read along the network from a node to the end of its rule. `returns` are
    the returns due afterwards, the innermost first. -/
def walk (la : Lookahead) : (fuel : Nat) → (n : Nat) → (returns : List Nat) → Session → Session
  | 0, _, _, s => s
  | fuel + 1, n, returns, s =>
    match la.node n with
    | .stop _ => s
    | .name l next => walk la fuel next returns { s with label := some l }
    | .token k next =>
      match s.read la n next returns (.ofList [k]) true with
      | .ok s => walk la fuel next returns s
      | .error why => s.giveUp la n returns why
    | .oneOf ks next =>
      match s.read la n next returns ks false with
      | .ok s => walk la fuel next returns s
      | .error why => s.giveUp la n returns why
    | .call r next =>
      let inner := walk la fuel (la.start r) (next :: returns)
        { s with children := [], label := none }
      let made := Tree.node ⟨r, inner.label⟩ s.current.pos inner.children.reverse
      walk la fuel next returns { inner with children := made :: s.children, label := s.label }
    | .fork kind branches =>
      match s.sync la n returns with
      | .error why => s.giveUp la n returns why
      | .ok s =>
        match s.decide la n kind branches returns with
        | .ok b => walk la fuel b returns s
        | .error why => s.giveUp la n returns why
    | .again entry =>
      let s := s.syncAgain la n returns
      match la.node entry with
      | .fork kind branches =>
        match s.decide la entry kind branches returns with
        | .ok b => walk la fuel b returns s
        | .error why => s.giveUp la n returns why
      | _ => s

/-- At the end of its rule a walk is over. -/
theorem walk_stop {la : Lookahead} {fuel n : Nat} {returns : List Nat} {s : Session} {r : Rule}
    (hnode : la.node n = .stop r) : s.walk la (fuel + 1) n returns = s := by
  rw [walk, hnode]

end Session

/-- The result of parsing: a tree in any case, and the errors in the order in
    which they were found. -/
structure Parsed where
  tree : Tree
  errors : List SyntaxError
deriving Inhabited, Repr

/-- Read a token list as a rule. -/
def parseRule (r : Rule) (tokens : List Token) : Parsed :=
  let la := compiscript
  let fuel := (tokens.length + 1) * la.nodes.size
  let s := Session.start tokens
  let last := s.walk la fuel (la.start r) []
  ⟨.node ⟨r, last.label⟩ s.current.pos last.children.reverse, last.errors.reverse⟩

/-- Read a source text as a program. -/
def parse (source : String) : Parsed := parseRule .program (tokens source)

end Compiscript
