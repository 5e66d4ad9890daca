import Compiscript.Codegen
import Compiscript.Proofs.Tac.Temps

/-!
# Runs of the Generator

What single steps of the generator do, and how the parts of a node are found.
-/

namespace Compiscript

open List hiding get

namespace Tree

variable {t c d : Tree} {r : Rule}

@[simp] lemma isOf_leaf (tok : Token) (r : Rule) : (leaf tok).isOf r = false := rfl

@[simp] lemma children_node (tag : Tag) (start : Pos) (cs : List Tree) :
    (node tag start cs).children = cs :=
  rfl

lemma subs_map_tree (t : Tree) : t.subs.map Sub.tree = t.children := by
  rw [subs, map_map]
  exact attach_map_subtype_val t.children

/-- The children made by a rule, as trees. -/
lemma kids_map_tree (t : Tree) (r : Rule) :
    (t.kids r).map Sub.tree = t.children.filter (·.isOf r) := by
  rw [kids, ← subs_map_tree t, filter_map]
  rfl

lemma kids_eq_nil (h : t.children.filter (·.isOf r) = []) : t.kids r = [] := by
  rw [← kids_map_tree] at h
  exact map_eq_nil_iff.1 h

lemma kids_eq_singleton (h : t.children.filter (·.isOf r) = [c]) :
    ∃ k, t.kids r = [k] ∧ k.tree = c := by
  rw [← kids_map_tree] at h
  exact map_eq_singleton_iff.1 h

lemma kids_eq_pair (h : t.children.filter (·.isOf r) = [c, d]) :
    ∃ k l, t.kids r = [k, l] ∧ k.tree = c ∧ l.tree = d := by
  rw [← kids_map_tree] at h
  rcases map_eq_cons_iff.1 h with ⟨k, ks, hk, hc, hks⟩
  rcases map_eq_singleton_iff.1 hks with ⟨l, rfl, hd⟩
  exact ⟨k, l, hk, hc, hd⟩

lemma kid?_map_tree (t : Tree) (r : Rule) :
    (t.kid? r).map Sub.tree = (t.children.filter (·.isOf r)).head? := by
  rw [← kids_map_tree, head?_map]
  rfl

lemma kid?_eq_some (h : (t.children.filter (·.isOf r)).head? = some c) :
    ∃ k, t.kid? r = some k ∧ k.tree = c := by
  rw [← kid?_map_tree, Option.map_eq_some_iff] at h
  exact h

lemma kid?_eq_none (h : t.children.filter (·.isOf r) = []) : t.kid? r = none := by
  rw [kid?, kids_eq_nil h]
  rfl

end Tree

namespace Gen

variable {α β : Type}

/-- A step leads from a state to another one and gives a result. -/
def Gives (x : Gen α) (g : Generator) (a : α) (g' : Generator) : Prop := x.run g = (.ok a, g')

variable {g g' g'' : Generator} {a : α} {b : β} {x : Gen α} {f : α → Gen β}

/-- Steps one after the other: the second one is left out if the first fails. -/
lemma run_bind (x : Gen α) (f : α → Gen β) (g : Generator) :
    (x >>= f).run g =
      (match x.run g with
        | (.ok a, g') => (f a).run g'
        | (.error e, g') => (.error e, g') : Except Absent β × Generator) := by
  change (match x.run g with | (r, s) => ExceptT.bindCont f r s) = _
  rcases x.run g with ⟨r, s⟩
  cases r <;> rfl

lemma Gives.bind (hx : Gives x g a g') (hf : Gives (f a) g' b g'') : Gives (x >>= f) g b g'' := by
  rw [Gives, run_bind, hx]
  exact hf

/-- Two steps that end well do so one by one. -/
lemma Gives.of_bind (h : Gives (x >>= f) g b g'') :
    ∃ a g', Gives x g a g' ∧ Gives (f a) g' b g'' := by
  rw [Gives, run_bind] at h
  rcases hx : x.run g with ⟨r, g'⟩
  rw [hx] at h
  cases r with
  | ok a => exact ⟨a, g', hx, h⟩
  | error e => cases h

lemma Gives.pure (a : α) (g : Generator) : Gives (pure a) g a g := rfl

lemma Gives.unique {a' : α} (h : Gives x g a g') (h' : Gives x g a' g'') : a = a' ∧ g' = g'' := by
  have heq : (Except.ok a, g') = (Except.ok a', g'') := h.symm.trans h'
  cases heq
  exact ⟨rfl, rfl⟩

/-- Code that a step adds outside any function, with no symbols known, and what
    it does to the pool and to the count of labels. -/
def Emits (x : Gen α) (p : Temps) (n : Nat) (a : α) (code : List Instr) (p' : Temps) (n' : Nat) :
    Prop :=
  ∀ g : Generator, g.function = none → g.symbols = none → g.temps = p → g.labels = n →
    Gives x g a { g with code := g.code ++ code, temps := p', labels := n' }

namespace Emits

variable {p p' p'' : Temps} {n n' n'' : Nat} {code code' : List Instr}

/-- Code is only ever added, so the code of two steps is that of the first and
    that of the second behind it. -/
lemma bind (hx : Emits x p n a code p' n') (hf : Emits (f a) p' n' b code' p'' n'') :
    Emits (x >>= f) p n b (code ++ code') p'' n'' := by
  intro g hfun hsym htemps hlabs
  refine (hx g hfun hsym htemps hlabs).bind ?_
  rw [← append_assoc]
  exact hf { g with code := g.code ++ code, temps := p', labels := n' } hfun hsym rfl rfl

lemma silent (hx : Emits x p n a [] p' n') (hf : Emits (f a) p' n' b code p'' n'') :
    Emits (x >>= f) p n b code p'' n'' :=
  hx.bind hf

lemma pure (a : α) (p : Temps) (n : Nat) : Emits (Pure.pure a) p n a [] p n := by
  rintro g - - rfl rfl
  rw [append_nil]
  exact Gives.pure a g

lemma emit (op : Op) (a1 a2 res : Operand) (p : Temps) (n : Nat) :
    Emits (Gen.emit op a1 a2 res) p n () [.of op a1 a2 res] p n := by
  rintro g - - rfl rfl
  rfl

lemma label (l : String) (p : Temps) (n : Nat) :
    Emits (Gen.label l) p n () [.of .label (.text l) .none .none] p n :=
  emit _ _ _ _ p n

lemma jump (l : String) (p : Temps) (n : Nat) :
    Emits (Gen.jump l) p n () [.of .jump (.text l) .none .none] p n :=
  emit _ _ _ _ p n

lemma move (v : Value) (x : String) (p : Temps) (n : Nat) :
    Emits (Gen.move v x) p n () [.of .mov v.operand .none (.text x)] p n :=
  emit _ _ _ _ p n

lemma freshLabel (p : Temps) (n : Nat) :
    Emits Gen.freshLabel p n (Tac.labelName n) [] p (n + 1) := by
  rintro g - - rfl rfl
  rw [append_nil]
  rfl

lemma freshTemp (p : Temps) (n : Nat) : Emits Gen.freshTemp p n p.get.1 [] p.get.2 n := by
  rintro g - - rfl rfl
  rw [append_nil]
  rfl

lemma release (v : Value) (p : Temps) (n : Nat) :
    Emits (Gen.release v) p n () [] (p.giveBack v) n := by
  rintro g - - rfl rfl
  rw [append_nil]
  cases v <;> rfl

lemma tokenText {t : Tree} {k : Kind} {x : String} (h : t.tokenText? k = some x) (p : Temps)
    (n : Nat) : Emits (Gen.tokenText t k) p n x [] p n := by
  rw [Gen.tokenText, h]
  exact pure x p n

/-- Looking at the state changes nothing. -/
lemma get {f : Generator → Gen β}
    (h : ∀ g : Generator, g.function = none → g.symbols = none → Emits (f g) p n b code p' n') :
    Emits (MonadState.get >>= f) p n b code p' n' := by
  intro g hfun hsym htemps hlabs
  have hget : Gives (MonadState.get : Gen Generator) g g g := rfl
  exact hget.bind (h g hfun hsym g hfun hsym htemps hlabs)

end Emits

section Visit

variable {t : Tree} {visit : t.Sub → Gen Value} {k : t.Sub} {part : Option t.Sub} {v : Value}
  {p p' : Temps} {n n' : Nat} {code : List Instr}

lemma Emits.visitPart (hp : part = some k) (h : Emits (visit k) p n v code p' n') :
    Emits (visitPart visit part) p n v code p' n' := by
  rw [hp]
  exact h

end Visit

end Gen

/-- The code of a node is made from the code of its children. -/
lemma generate_of_eq {t : Tree} {tag : Tag} {start : Pos} {children : List Tree}
    (h : t = .node tag start children) : generate t = Gen.tagged t (generate ·.tree) tag := by
  subst h
  exact generate_eq _

end Compiscript
