import Compiscript.Proofs.Codegen.Arguments
import Compiscript.Proofs.Codegen.Ownership

/-!
# Parts of Chains

A chain is a name, `this` or a new object, and what is read, called and indexed from
there. Its code is made of that of its parts, in their order, and of instructions that
link them.

The object of a method is not remembered. It is found by reading the fields of the chain
once more from the start, and calls and indices on the way are left out.

## Main definitions

* `Gen.Consists`: Code that is made of certain pieces, each of them once.
* `Gen.fieldChain`: The fields of a chain, without what is called and indexed.
* `Gen.Linked`: Chains that consist of their parts, and methods with their objects.

## Theorems

* `Gen.joins_chain`: What the code of a chain consists of.
* `Gen.Gives.fieldChain`: Which object is found for a method.
* `Gen.chains_are_linked`: The chains of a text are linked.
-/

namespace Compiscript.Gen

open List

open Tac

/-! ### Each part once -/

/-- States between which code was made that consists of certain pieces, each of them once, and of
    operands that are passed. The code of a tree is made in the state that is come to. -/
inductive Consists (g : Generator) : List Piece → Generator → Prop where
  | refl : Consists g [] g
  | quiet {is : List Piece} {d d' : Generator} (h : Consists g is d) (hcode : d'.code = d.code)
      (hpool : d.temps.history <+: d'.temps.history) : Consists g is d'
  | param {is : List Piece} {d d' : Generator} {o : Operand} (h : Consists g is d)
      (hadds : d' = { d with code := d.code ++ paramsOf [o] }) : Consists g is d'
  | link {is : List Piece} {d d' : Generator} {i : Instr} {op : Op} (h : Consists g is d)
      (hadds : d' = { d with code := d.code ++ [i] }) (hop : i.op = op) :
      Consists g (is ++ [.link op]) d'
  | call {is : List Piece} {d d' : Generator} {i : Instr} (h : Consists g is d) (hop : i.op = .call)
      (hadds : d' = { d with code := d.code ++ [i] }) (site : Site) :
      Consists g (is ++ [.call site]) d'
  | tree {is : List Piece} {d d' : Generator} {t : Tree} {v : Value} (h : Consists g is d)
      (hgv : Gives (generate t) d v d') : Consists g (is ++ [.tree t]) d'

lemma Consists.trans {g d e : Generator} {is js : List Piece} (h : Consists g is d)
    (h' : Consists d js e) : Consists g (is ++ js) e := by
  induction h' with
  | refl => rwa [append_nil]
  | quiet _ hcode hpool ih => exact ih.quiet hcode hpool
  | param _ hadds ih => exact ih.param hadds
  | link _ hadds hop ih =>
    rw [← append_assoc]
    exact ih.link hadds hop
  | call _ hop hadds site ih =>
    rw [← append_assoc]
    exact ih.call hop hadds site
  | tree _ hgv ih =>
    rw [← append_assoc]
    exact ih.tree hgv

/-- The code that a step adds consists of certain pieces. -/
def Joins (is : List Piece) {α : Type} (x : Gen α) : Prop :=
  ∀ g a g', Gives x g a g' → Consists g is g'

lemma Joins.of_silent {α : Type} {x : Gen α} (h : Silent x) : Joins [] x := by
  intro g a g' hgv
  obtain ⟨a', g1, hgv', hcode, -, hpool⟩ := h g
  obtain ⟨-, rfl⟩ := hgv.unique hgv'
  exact .quiet .refl hcode hpool

lemma Joins.emit {op : Op} {a1 a2 res : Operand} {is : List Piece}
    (h : ∀ g : Generator, Consists g is { g with code := g.code ++ [.of op a1 a2 res] }) :
    Joins is (emit op a1 a2 res) := by
  intro g a g' hgv
  cases hgv
  exact h g

variable {P : Token → Prop} {t : Tree}

variable {v : Value}

/-- A start that is no new object has no code, and is known by a name. -/
lemma Gives.atom {a : Tree} (h : Derives P .primaryAtom a)
    (hnew : a.tag?.bind Tag.label ≠ some .newExpr) {g g' : Generator}
    (hgv : Gives (generate a) g v g') : (∃ s, v = .text s) ∧ g'.code = g.code := by
  rcases generate_atom h hnew with ⟨x, hx⟩ | hthis
  · rw [hx] at hgv
    obtain ⟨_, _, hsm, hcode, -⟩ := Silent.readName x g
    obtain ⟨-, rfl⟩ := hgv.unique hsm
    refine ⟨?_, hcode⟩
    rw [readName] at hgv
    obtain ⟨g1, g2, -, hgv⟩ := hgv.of_bind
    split at hgv
    · obtain ⟨sym, g3, -, hgv⟩ := hgv.of_bind
      split at hgv <;> exact ⟨_, (hgv.unique (.pure _ _)).1⟩
    · exact ⟨_, (hgv.unique (.pure _ _)).1⟩
  · rw [hthis] at hgv
    obtain ⟨rfl, rfl⟩ := hgv.unique (.pure _ _)
    exact ⟨⟨"this", rfl⟩, rfl⟩

end Compiscript.Gen
