/-!
# Sets of Call Stacks

Prediction follows several ways through the grammar at once, and each way has
its own stack of places to return to. `Stacks` is a set of stacks in which
common frames are stored once: a list of innermost frames in increasing order,
each with the set of stacks below it.

The empty stack can mean two things. If the whole stack is known, it is the end
of the outermost rule. If only the frames since the start of a decision are
known, it stands for any stack at all, and then a set that has it has
everything. `merge` takes the meaning as a parameter.
-/

namespace Compiscript

/-- A set of stacks of return places. -/
inductive Stacks where
  /-- At most the empty stack. -/
  | nil (empty : Bool)
  /-- The stacks with innermost frame `frame`, and the others, whose innermost
      frames are larger. -/
  | cons (hash : UInt64) (frame : Nat) (below others : Stacks)
deriving Inhabited, Repr

namespace Stacks

/-- The members of a set, innermost frame first. -/
inductive Has : Stacks → List Nat → Prop where
  | empty : Has (.nil true) []
  | here {h : UInt64} {f : Nat} {below others : Stacks} {s : List Nat}
      (hs : Has below s) : Has (.cons h f below others) (f :: s)
  | there {h : UInt64} {f : Nat} {below others : Stacks} {s : List Nat}
      (hs : Has others s) : Has (.cons h f below others) s

/-- The hash of a set. -/
def hash : Stacks → UInt64
  | nil b => if b then 7 else 11
  | cons h _ _ _ => h

/-- One hash out of two. -/
def mix (a b : UInt64) : UInt64 := (a * 6364136223846793005 + b) * 1442695040888963407

/-- The set with its hash filled in. -/
def mk (frame : Nat) (below others : Stacks) : Stacks :=
  .cons (mix (mix (UInt64.ofNat frame) below.hash) others.hash) frame below others

/-- Equality of sets, by hash and address where these decide. -/
def decEq : (a b : Stacks) → Decidable (a = b)
  | nil x, nil y =>
    if h : x = y then isTrue (h ▸ rfl) else isFalse (by simpa using h)
  | nil _, cons _ _ _ _ => isFalse (by simp)
  | cons _ _ _ _, nil _ => isFalse (by simp)
  | cons h f p o, cons h' f' p' o' =>
    if hf : h = h' ∧ f = f' then
      match withPtrEqDecEq p p' fun _ => decEq p p' with
      | isTrue hp =>
        match withPtrEqDecEq o o' fun _ => decEq o o' with
        | isTrue ho => isTrue (by rw [hf.1, hf.2, hp, ho])
        | isFalse ho => isFalse (by simp [ho])
      | isFalse hp => isFalse (by simp [hp])
    else
      isFalse (by
        intro he
        injection he with h1 h2
        exact hf ⟨h1, h2⟩)

instance : DecidableEq Stacks := fun a b => withPtrEqDecEq a b fun _ => decEq a b

/-- The set of the empty stack. -/
def empty : Stacks := .nil true

/-- Whether the empty stack is a member. -/
def hasEmpty : Stacks → Bool
  | nil b => b
  | cons _ _ _ others => others.hasEmpty

/-- The stacks of a set with one more frame. -/
def push (frame : Nat) (s : Stacks) : Stacks := mk frame s (.nil false)

/-- The stacks of a set with more frames, the innermost given first. -/
def pushAll (frames : List Nat) (s : Stacks) : Stacks := frames.foldr push s

/-- The set of one stack, its innermost frame given first. -/
def ofList (frames : List Nat) : Stacks := pushAll frames empty

/-- The union of two sets. If `any` is set, the empty stack stands for all
    stacks, and a set that has it is reduced to it. -/
def merge (any : Bool) (a b : Stacks) : Stacks :=
  if a = b then a
  else if any && (a.hasEmpty || b.hasEmpty) then empty
  else
    match a, b with
    | nil x, nil y => nil (x || y)
    | nil x, cons _ f p o => mk f p (merge any (nil x) o)
    | cons _ f p o, nil y => mk f p (merge any o (nil y))
    | cons h f p o, cons h' f' p' o' =>
      if f < f' then mk f p (merge any o (cons h' f' p' o'))
      else if f' < f then mk f' p' (merge any (cons h f p o) o')
      else mk f (merge any p p') (merge any o o')
termination_by sizeOf a + sizeOf b

end Stacks

end Compiscript
