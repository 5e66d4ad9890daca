import Compiscript.Proofs.Codegen.Visits
import Compiscript.Proofs.Mips.Waiting

/-!
# Arguments of Calls

What is passed to a call stands right in front of it, and it is what the arguments of
the call came to.

The operands of a call are passed one by one, and nothing in the code says which call
they are for: they are for the next one. An argument may be a call itself, and an
object that a method is read from is found by code of its own. So it matters that all
this code comes before the first operand is passed. A run of the generator is therefore
seen as a sequence of steps that have nothing to do with calls, and of calls with all
that is passed to them, each of them for one place of the program.

## Main definitions

* `Gen.Site.Ready`: What is passed at a place of the program, and to which label.
* `Gen.Arranged`: States between which code was made, call by call.
* `Gen.InTurn`: Code in which each call has its own operands.

## Theorems

* `Gen.arranges_generate`: The code of every tree is made call by call.
* `Gen.arguments_stay_together`: Arguments of nested calls do not mix.
* `Gen.text_has_assembly`: Code of a text without syntax errors can be lowered.
-/

namespace Compiscript

open List

namespace Tac

/-- Operands are passed, one by one. -/
def paramsOf (os : List Operand) : List Instr := os.map fun o => .of .param o .none .none

/-- The operands that are passed at the end of a piece of code, behind the last
    instruction that passes none. -/
def passed (code : List Instr) : List Operand :=
  ((code.reverse.takeWhile (·.op == .param)).map (·.a1)).reverse

variable {i : Instr}

lemma op_of_mem_paramsOf {os : List Operand} (h : i ∈ paramsOf os) : i.op = .param := by
  obtain ⟨o, -, rfl⟩ := mem_map.1 h
  rfl

lemma passed_concat (h : i.op ≠ .param) (code : List Instr) : passed (code ++ [i]) = [] := by
  rw [passed, reverse_concat, takeWhile_cons_of_neg (by simpa using h)]
  rfl

lemma passed_append_paramsOf {code : List Instr} (h : passed code = []) (os : List Operand) :
    passed (code ++ paramsOf os) = os := by
  have hall : ∀ i ∈ (paramsOf os).reverse, (i.op == .param) = true := by
    intro i hi
    rw [op_of_mem_paramsOf (mem_reverse.1 hi)]
    rfl
  have hcode : (code.reverse.takeWhile (·.op == .param)).map (·.a1) = [] :=
    reverse_eq_nil_iff.1 h
  rw [passed, reverse_append, takeWhile_append_of_pos hall, map_append, hcode,
    append_nil, map_reverse, reverse_reverse, paramsOf, map_map]
  exact map_id os

end Tac

/-- Operands that are passed wait, behind those that did. -/
lemma Mips.Waits.params {code : List Instr} {waiting : List (Option String)}
    (h : Waits code waiting) (os : List Operand) :
    Waits (code ++ Tac.paramsOf os) (waiting ++ os.map Lower.operandText) := by
  induction os generalizing code waiting with
  | nil => simpa [Tac.paramsOf] using h
  | cons o os ih =>
    have hfst : Waits (code ++ [.of .param o .none .none]) (waiting ++ [Lower.operandText o]) :=
      h.concat ⟨fun h => (nomatch h), fun h => (nomatch h), fun h => (nomatch h)⟩
        fun h => (nomatch h)
    simpa [Tac.paramsOf] using ih hfst

namespace Gen

open Tac

/-! ### Calls of a program -/

lemma arguments_eq (t : Tree) : arguments t (generate ·.tree) = (argumentsOf t).mapM generate := by
  rw [arguments, argumentsOf]
  cases t.kid? .arguments with
  | none => rfl
  | some args =>
    change ((args.tree.kids .expression).map args.lift).mapM _ = List.mapM _ (List.map _ _)
    rw [mapM_map, mapM_map]
    rfl

/-- How far a chain has come at its start. -/
def Link.ofBase (base : Value) : Link :=
  ⟨base, match base with
    | .text s => some s
    | _ => none⟩

/-- The value at the start of a chain, and how far the chain has come behind some of its suffixes,
    the last one first. -/
def linkOf (t : Tree) : List t.Sub → Gen (Value × Link)
  | [] => do
    let base ← visitPart (generate ·.tree) (t.kid? .primaryAtom)
    return (base, .ofBase base)
  | s :: before => do
    let (base, l) ← linkOf t before
    return (base, ← suffix t (generate ·.tree) base (t.kid? .primaryAtom) before l s)

/-- The value of a chain up to some of its suffixes, as it is found for a method. -/
def objectOf (t : Tree) (before : List t.Sub) : Gen Value := do
  fieldsOf t (← visitPart (generate ·.tree) (t.kid? .primaryAtom)) before

/-- A temporary has been taken. -/
def taken (k : Generator) : Generator := { k with temps := k.temps.get.2 }

namespace Site

/-- The place is in a tree. -/
def In (T : Tree) : Site → Prop
  | new t => t.Within T ∧ t.tag?.bind (·.label) = some .newExpr
  | call t before s => t.Within T ∧ t.isOf .leftHandSide = true ∧ suffixOf s.tree = .call ∧
      ∃ after, t.kids .suffixOp = before ++ s :: after

/-- The arguments that are written there. -/
def arguments : Site → List Tree
  | new t => argumentsOf t
  | call _ _ s => argumentsOf s.tree

/-- Whether an object is passed in front of the arguments: the new one, or the one
    that a method was read from. -/
def hasReceiver : Site → Bool
  | new _ => true
  | call _ before _ => before.getLast?.any fun m => suffixOf m.tree == .field

/-- If the code of the object or of the chain was begun in the state `k`, then all is computed in
    the state `d`, and what remains to be done is to pass the operands to a label. These are the
    values of the arguments, in their order, behind the object if there is one. The object of a
    method that was read from the start of a chain is known, any other one is found now. -/
def Ready (k d : Generator) (os : List Operand) (label : String) : Site → Prop
  | new t => ∃ x vs k', t.tokenText? .identifier = some x ∧
      label = "func_" ++ x ++ "_constructor" ∧ Gives ((argumentsOf t).mapM generate) k vs k' ∧
      d = { taken k' with
        code := k'.code ++ [.of .new (.text x) .none (Value.temp k'.temps.get.1).operand] } ∧
      os = (Value.temp k'.temps.get.1 :: vs).map Value.operand
  | call t before s => ∃ base l vs k' k'', Gives (linkOf t before.reverse) k (base, l) k' ∧
      Gives ((argumentsOf s.tree).mapM generate) k' vs k'' ∧ Since (taken k'') d ∧
      if (call t before s).hasReceiver then
        label = "func_" ++ l.name.getD "None" ∧ ∃ o, os = (o :: vs).map Value.operand ∧
          if before.dropLast = [] then o = base ∧ d = taken k''
          else Gives (objectOf t before.dropLast) (taken k'') o d
      else label = "func_" ++ calleeName l ∧ os = vs.map Value.operand ∧ d = taken k''

/-- How many operands a call takes: one for each argument, and one for the object. -/
def arity (site : Site) : Nat :=
  site.arguments.length + if site.hasReceiver then 1 else 0

end Site

lemma Gives.length_mapM {α β : Type} {f : α → Gen β} {xs : List α} {g g' : Generator}
    {ys : List β} (h : Gives (xs.mapM f) g ys g') : ys.length = xs.length := by
  induction xs generalizing g ys with
  | nil =>
    obtain ⟨rfl, -⟩ := h.unique (.pure [] g)
    rfl
  | cons x xs ih =>
    rw [mapM_cons] at h
    obtain ⟨y, g1, -, h⟩ := h.of_bind
    obtain ⟨ys', g2, hr, h⟩ := h.of_bind
    obtain ⟨rfl, rfl⟩ := h.unique (.pure (y :: ys') g2)
    exact congrArg (· + 1) (ih hr)

lemma Site.Ready.length {k d : Generator} {os : List Operand} {label : String} {site : Site}
    (h : site.Ready k d os label) : os.length = site.arity := by
  cases site with
  | new t =>
    obtain ⟨x, vs, k', -, -, hgv, -, rfl⟩ := h
    rw [length_map, length_cons, hgv.length_mapM]
    rfl
  | call t before s =>
    obtain ⟨base, l, vs, k', k'', -, hgv, -, h⟩ := h
    rw [arity]
    by_cases hrec : (Site.call t before s).hasReceiver
    · rw [if_pos hrec] at h ⊢
      obtain ⟨-, o, rfl, -⟩ := h
      rw [length_map, length_cons, hgv.length_mapM]
      rfl
    · rw [if_neg hrec] at h ⊢
      rw [h.2.1, length_map, hgv.length_mapM]
      rfl

/-! ### Code, call by call -/

/-- States that one comes to by steps that have nothing to do with calls, and by calls of
    operands that are passed to them. -/
inductive Arranged (T : Tree) (g : Generator) : List Site → Generator → Prop where
  | refl : Arranged T g [] g
  | quiet {ss : List Site} {d d' : Generator} (h : Arranged T g ss d) (hcode : d'.code = d.code)
      (hpool : d.temps.history <+: d'.temps.history) : Arranged T g ss d'
  | plain {ss : List Site} {d d' : Generator} {i : Instr} (h : Arranged T g ss d)
      (hpar : i.op ≠ .param) (hca : i.op ≠ .call) (hi : Mips.Accepted i)
      (hcode : d'.code = d.code ++ [i]) (hpool : d'.temps = d.temps) : Arranged T g ss d'
  | call {ss : List Site} {k d d' : Generator} {site : Site} {os : List Operand} {label : String}
      {r : Operand} (h : Arranged T g ss d) (hsite : site.In T) (hk : Since k d)
      (hrdy : site.Ready k d os label)
      (hcode : d'.code = d.code ++ (paramsOf os ++ [.of .call (.text label) .none r]))
      (hpool : d.temps.history <+: d'.temps.history) : Arranged T g (ss ++ [site]) d'

/-- How many calls there are in a piece of code. -/
def callCount (code : List Instr) : Nat := code.countP (·.op == .call)

lemma callCount_append (code code' : List Instr) :
    callCount (code ++ code') = callCount code + callCount code' := countP_append

lemma callCount_paramsOf (os : List Operand) : callCount (paramsOf os) = 0 := by
  refine countP_eq_zero.2 fun i hi => ?_
  rw [op_of_mem_paramsOf hi]
  exact Bool.false_ne_true

namespace Arranged

variable {T : Tree} {g d e : Generator} {ss ss' : List Site}

lemma trans (h : Arranged T g ss d) (h' : Arranged T d ss' e) : Arranged T g (ss ++ ss') e := by
  induction h' with
  | refl => rwa [append_nil]
  | quiet _ hcode hpool ih => exact ih.quiet hcode hpool
  | plain _ hpar hca hi hcode hpool ih => exact ih.plain hpar hca hi hcode hpool
  | call _ hsite hk hrdy hcode hpool ih =>
    rw [← append_assoc]
    exact ih.call hsite hk hrdy hcode hpool

lemma since (h : Arranged T g ss d) : Since g d := by
  induction h with
  | refl => exact .refl g
  | quiet _ hcode hpool ih => exact ih.trans ⟨by rw [hcode], hpool⟩
  | plain _ _ _ _ hcode hpool ih => exact ih.trans ⟨⟨_, hcode.symm⟩, by rw [hpool]⟩
  | call _ _ _ _ hcode hpool ih => exact ih.trans ⟨⟨_, hcode.symm⟩, hpool⟩

section Start

variable (hg : g.code = [])

include hg

lemma passed_eq (h : Arranged T g ss d) : passed d.code = [] := by
  induction h with
  | refl =>
    rw [hg]
    rfl
  | quiet _ hcode _ ih => rwa [hcode]
  | plain _ hpar _ _ hcode _ _ =>
    rw [hcode]
    exact passed_concat hpar _
  | call _ _ _ _ hcode _ _ =>
    rw [hcode, ← append_assoc]
    exact passed_concat (by decide : Op.call ≠ .param) _

lemma callCount_eq (h : Arranged T g ss d) : callCount d.code = ss.length := by
  induction h with
  | refl =>
    rw [hg]
    rfl
  | quiet _ hcode _ ih => rwa [hcode]
  | plain _ _ hca _ hcode _ ih =>
    rw [hcode, callCount_append, ih, callCount, countP_singleton, if_neg (by simpa using hca)]
    rfl
  | @call ss k d d' site os label res _ _ _ _ hcode _ ih =>
    have hone : callCount [.of .call (.text label) .none res] = 1 := rfl
    rw [hcode, callCount_append, callCount_append, ih, callCount_paramsOf, hone, length_append]
    rfl

/-- Nothing waits at the end of a step. -/
lemma waits (h : Arranged T g ss d) : Mips.Waits d.code [] := by
  induction h with
  | refl =>
    rw [hg]
    exact .nil
  | quiet _ hcode _ ih => rwa [hcode]
  | @plain ss d d' i _ hpar hca hi hcode _ ih =>
    have hsm : Mips.waitingAfter i [] = [] := by
      unfold Mips.waitingAfter
      split
      · contradiction
      · rfl
      · rfl
    rw [hcode]
    exact hsm ▸ ih.concat hi fun _ => rfl
  | @call ss k d d' site os label res _ _ _ _ hcode _ ih =>
    rw [hcode, ← append_assoc]
    exact (ih.params os).concat
      ⟨fun h => (nomatch h), fun _ => ⟨label, rfl⟩, fun h => (nomatch h)⟩ fun h => (nomatch h)

end Start

/-- An instruction calls the label of a place of the program, and all that is passed there stands
    right in front of it, behind whole steps. -/
inductive Called (T : Tree) (g : Generator) (pre : List Instr) (i : Instr) (ss : List Site)
    (d : Generator) : Prop where
  | intro {ss' : List Site} {k d' : Generator} {site : Site} {os : List Operand} {label : String}
      (h : Arranged T g ss' d') (hsite : site.In T) (hk : Since k d')
      (hrdy : site.Ready k d' os label) (hpre : pre = d'.code ++ paramsOf os)
      (ha1 : i.a1 = .text label) (hd : Since d' d) (hss : ss' ++ [site] <+: ss)

variable {pre : List Instr} {i : Instr}

lemma Called.mono (h : Called T g pre i ss d) (hd : Since d e) (hss : ss <+: ss') :
    Called T g pre i ss' e := by
  obtain ⟨h, hsite, hk, hrdy, hpre, ha1, hd', hss'⟩ := h
  exact ⟨h, hsite, hk, hrdy, hpre, ha1, hd'.trans hd, hss'.trans hss⟩

/-- What stands in front of an instruction that passes nothing: the code of whole steps, and
    the operands of the call if it is one. -/
lemma split {post : List Instr} (h : Arranged T g ss d) (hg : g.code = [])
    (hcode : d.code = pre ++ i :: post) (hpar : i.op ≠ .param) :
    (i.op ≠ .call ∧ ∃ ss' d', Arranged T g ss' d' ∧ d'.code = pre) ∨
    (i.op = .call ∧ Called T g pre i ss d) := by
  -- By induction on the steps: the instruction is the last one of the last step, or it stands
  -- before that step.
  induction h generalizing post with
  | refl => exact absurd (hg.symm.trans hcode) (by simp)
  | quiet _ hsame hpool ih =>
    exact (ih (hsame ▸ hcode)).imp_right fun h =>
      ⟨h.1, h.2.mono ⟨by rw [hsame], hpool⟩ prefix_rfl⟩
  | @plain ss d _ j h _ hca _ hadded hpool ih =>
    rw [hadded] at hcode
    rcases eq_nil_or_concat post with rfl | ⟨post, j', rfl⟩
    · obtain ⟨hpre, hij⟩ := append_inj' hcode rfl
      obtain rfl : j = i := by simpa using hij
      exact .inl ⟨hca, ss, d, h, hpre⟩
    · rw [concat_eq_append, ← cons_append, ← append_assoc] at hcode
      exact (ih (append_inj' hcode rfl).1).imp_right fun h =>
        ⟨h.1, h.2.mono ⟨⟨_, hadded.symm⟩, by rw [hpool]⟩ prefix_rfl⟩
  | @call ss _ d d' _ os _ _ h hsite hk hrdy hadded hpool ih =>
    have hd' : Since d d' := ⟨⟨_, hadded.symm⟩, hpool⟩
    rw [hadded, ← append_assoc] at hcode
    rcases eq_nil_or_concat post with rfl | ⟨post, j', rfl⟩
    · obtain ⟨rfl, hij⟩ := append_inj' hcode rfl
      obtain rfl : _ = i := by simpa using hij
      exact .inr ⟨rfl, h, hsite, hk, hrdy, rfl, rfl, hd', prefix_rfl⟩
    · rw [concat_eq_append, ← cons_append, ← append_assoc] at hcode
      have hcode := (append_inj' hcode rfl).1
      -- The instruction is none of those that pass something, so it stands before them.
      have hnot : i ∉ paramsOf os := fun hmem => hpar (op_of_mem_paramsOf hmem)
      have hbef : ∃ rest, d.code = pre ++ i :: rest := by
        rcases append_eq_append_iff.1 hcode with ⟨e, rfl, hr⟩ | ⟨e, hpre, hr⟩
        · exact absurd (by simp [hr]) hnot
        · cases e with
          | nil => exact absurd (by rw [← nil_append (paramsOf os), ← hr]; simp) hnot
          | cons j e =>
            obtain ⟨rfl, -⟩ := List.cons.inj hr
            exact ⟨e, hpre⟩
      obtain ⟨rest, hr⟩ := hbef
      exact (ih hr).imp_right fun h => ⟨h.1, h.2.mono hd' (prefix_append _ _)⟩

end Arranged

/-- A step comes to its end, and the calls in its code are those of certain pieces. -/
def Arranges (T : Tree) (is : List Piece) {α : Type} (x : Gen α) : Prop :=
  ∀ g, ∃ a g' ss, Gives x g a g' ∧ Sites is ss ∧ Arranged T g ss g'

namespace Arranges

variable {T : Tree} {α β : Type} {x : Gen α} {f : α → Gen β} {is js : List Piece}

lemma bind (hx : Arranges T is x) (hf : ∀ a, Arranges T js (f a)) :
    Arranges T (is ++ js) (x >>= f) := by
  intro g
  obtain ⟨a, g', ss, hgv, hss, hcode⟩ := hx g
  obtain ⟨b, g'', ss', hgv', hss', hcode'⟩ := hf a g'
  exact ⟨b, g'', ss ++ ss', hgv.bind hgv', hss.append hss', hcode.trans hcode'⟩

lemma of_silent (h : Silent x) : Arranges T [] x := by
  intro g
  obtain ⟨a, g', hgv, hcode, -, hpool⟩ := h g
  exact ⟨a, g', [], hgv, .nil, .quiet .refl hcode hpool⟩

lemma emit {op : Op} {a1 a2 res : Operand} (his : Sites is []) (hpar : op ≠ .param)
    (hca : op ≠ .call) (h : Mips.Accepted (.of op a1 a2 res)) :
    Arranges T is (Gen.emit op a1 a2 res) :=
  fun _ => ⟨(), _, [], rfl, his, .plain .refl hpar hca h rfl rfl⟩

/-- An instruction that asks for nothing. -/
lemma emit_of_ne {op : Op} (his : Sites is []) (h : op ∉ [Op.param, .call, .label, .enter])
    (a1 a2 res : Operand) : Arranges T is (Gen.emit op a1 a2 res) := by
  have hne : ∀ {op'}, op' ∈ [Op.param, .call, .label, .enter] → op ≠ op' :=
    fun hmem heq => h (heq ▸ hmem)
  exact emit his (hne (by simp)) (hne (by simp))
    ⟨fun hop => absurd hop (hne (by simp)), fun hop => absurd hop (hne (by simp)),
      fun hop => absurd hop (hne (by simp))⟩

lemma label (l : String) : Arranges T [] (Gen.label l) :=
  emit .nil (by decide) (by decide)
    ⟨fun _ => ⟨l, rfl⟩, fun h => (nomatch h), fun h => (nomatch h)⟩

lemma sequencing (T : Tree) :
    Sequencing fun (ds : List Tree) {α} (x : Gen α) => Arranges T (ds.map .tree) x where
  pure a := of_silent (.pure a)
  seq hx hf := by
    rw [map_append]
    exact hx.bind hf

lemma labelling (T : Tree) :
    Labelling fun (ds : List Tree) {α} (x : Gen α) => Arranges T (ds.map .tree) x where
  toSequencing := sequencing T
  countLabel _ := ⟨_, _, [], rfl, .nil, .quiet .refl rfl prefix_rfl⟩
  freshTemp := of_silent .freshTemp
  release v := of_silent (.release v)
  move _ _ := emit_of_ne .nil (by decide) _ _ _
  test h _ _ _ := by rcases h with rfl | rfl <;> exact emit_of_ne .nil (by decide) _ _ _
  jump _ := emit_of_ne .nil (by decide) _ _ _
  label _ := label _

/-- All small steps but those of calls have nothing to do with calls. -/
lemma outer (T : Tree) :
    Outer Set.univ fun ds {α : Type} (x : Gen α) => Arranges T (ds.map .tree) x := by
  have hqu := Silent.quietOuter (sequencing T) (fun h => bind (of_silent .get) h) of_silent
  refine { (labelling T).steps hqu.toQuiet fun h a1 a2 res => ?_, hqu with
    mark := fun _ => label _
    leave := fun _ => emit_of_ne .nil (by decide) _ _ _ }
  refine emit_of_ne .nil (fun hmem => ?_) a1 a2 res
  simp only [mem_cons, not_mem_nil, or_false] at hmem
  rcases hmem with rfl | rfl | rfl | rfl <;> cases h

lemma linking (T : Tree) : Linking (Arranges T) where
  pure a := of_silent (.pure a)
  seq := bind
  freshTemp := of_silent .freshTemp
  release v := of_silent (.release v)
  link h _ _ _ := by rcases h with rfl | rfl <;> exact emit_of_ne (.link .nil) (by decide) _ _ _

end Arranges

/-! ### Calls -/

lemma gives_release (v : Value) (g : Generator) :
    Gives (release v) g () { g with temps := g.temps.giveBack v } := by
  cases v <;> rfl

lemma exists_pass (vs : List Value) (g : Generator) :
    ∃ g', Gives (pass vs) g () g' ∧ g'.code = g.code ++ paramsOf (vs.map Value.operand) ∧
      g.temps.history <+: g'.temps.history := by
  induction vs generalizing g with
  | nil => exact ⟨g, .pure () g, (append_nil _).symm, prefix_rfl⟩
  | cons v vs ih =>
    let g1 : Generator := { g with code := g.code ++ paramsOf [v.operand] }
    obtain ⟨g', hgv, hcode, hpool⟩ := ih { g1 with temps := g.temps.giveBack v }
    refine ⟨g', Gives.bind (a := ()) rfl ((gives_release v g1).bind hgv), ?_,
      (g.temps.history_giveBack v).trans hpool⟩
    rw [hcode, append_assoc]
    rfl

/-- However much is passed in front of the arguments, they and the call follow. -/
lemma Arranged.finishCall {T : Tree} {k d g : Generator} {site : Site} (hsite : site.In T)
    (hk : Since k d) {os : List Operand} {vs : List Value} {name : String}
    (hrdy : site.Ready k d (os ++ vs.map Value.operand) ("func_" ++ name))
    (hcode : g.code = d.code ++ paramsOf os) (hpool : d.temps.history <+: g.temps.history)
    (result done : Value) :
    ∃ l g', Gives (finishCall vs name result done) g l g' ∧ Arranged T d [site] g' := by
  obtain ⟨g1, hpass, hcode1, hpool1⟩ := exists_pass vs g
  refine ⟨_, _, hpass.bind (Gives.bind (a := ()) rfl ((gives_release done _).bind (.pure _ _))), ?_⟩
  refine Arranged.refl.call (r := result.operand) hsite hk hrdy ?_
    ((hpool.trans hpool1).trans (g1.temps.history_giveBack done))
  have hpars : paramsOf (os ++ vs.map Value.operand) =
      paramsOf os ++ paramsOf (vs.map Value.operand) := map_append
  rw [hpars, append_assoc, ← append_assoc, ← hcode, ← append_assoc, ← hcode1]
  rfl

section Call

variable {T t : Tree} (hc : t.Everywhere Complete)
  (hv : ∀ c : t.Sub, c.tree.Within t → Arranges T [.tree c.tree] (generate c.tree))

include hv

lemma arranges_arguments {s : Tree} (hs : s.Within t)
    (hsz : ∀ c : s.Sub, sizeOf c.tree < sizeOf t) :
    Arranges T ((argumentsOf s).map .tree) ((argumentsOf s).mapM generate) := by
  rw [← arguments_eq]
  exact (Arranges.linking T).arguments fun c hin => hv ⟨c.tree, hsz c⟩ (hin.trans hs)

lemma arranges_newObject (hT : t.Within T) (hlab : t.tag?.bind (·.label) = some .newExpr)
    (hx : ∃ x, t.tokenText? .identifier = some x) :
    Arranges T ((argumentsOf t).map .tree ++ [.link .new, .call (.new t)])
      (newObject t (generate ·.tree)) := by
  obtain ⟨x, hx⟩ := hx
  intro g
  obtain ⟨vs, g1, ss, hargs, hss, harr⟩ := arranges_arguments hv (.refl t) (fun c => c.2) g
  simp only [newObject, tokenText, hx, need, pure_bind, arguments_eq]
  -- The object is made in front of all that is passed.
  let o : Value := .temp g1.temps.get.1
  let d : Generator := { taken g1 with code := g1.code ++ [.of .new (.text x) .none o.operand] }
  let g2 : Generator := { d with code := d.code ++ paramsOf [o.operand] }
  obtain ⟨g3, hpass, hcode, hpool⟩ := exists_pass vs g2
  let r : Value := .temp g3.temps.get.1
  have hd : Arranged T g ss d := by
    have htk : Arranged T g ss (taken g1) :=
      harr.quiet rfl ⟨_, g1.temps.history_get.symm⟩
    exact htk.plain (by rintro ⟨⟩) (by rintro ⟨⟩)
      ⟨by rintro ⟨⟩, by rintro ⟨⟩, by rintro ⟨⟩⟩ rfl rfl
  refine ⟨r, { taken g3 with
    code := g3.code ++ [.of .call (.text ("func_" ++ x ++ "_constructor")) .none r.operand],
    temps := g3.temps.get.2.release g1.temps.get.1 }, ss ++ [.new t], ?_,
      hss.append (.link (.call .nil)), ?_⟩
  · refine hargs.bind (Gives.bind (a := g1.temps.get.1) rfl ?_)
    exact Gives.bind (a := ()) rfl (Gives.bind (a := ()) rfl (hpass.bind rfl))
  · have hrdy : (Site.new t).Ready g d ((o :: vs).map Value.operand)
        ("func_" ++ x ++ "_constructor") := ⟨x, vs, g1, hx, rfl, hargs, rfl, rfl⟩
    refine hd.call (r := r.operand) ⟨hT, hlab⟩ hd.since hrdy ?_ ?_
    · change g3.code ++ _ = _
      rw [hcode, append_assoc, append_assoc]
      rfl
    · refine hpool.trans ((IsPrefix.trans ⟨_, g3.temps.history_get.symm⟩) (prefix_append _ _))

include hc

variable {start : t.Sub} {base : Value} {k g : Generator} {before : List t.Sub} {s : t.Sub}
  {rest : List t.Sub}

/-- The object of a method is known, or found by code of its own. -/
lemma exists_receiver {b : Value} (hst : t.kid? .primaryAtom = some start) {m : t.Sub}
    (hm : suffixOf m.tree = .field) {earlier : List t.Sub}
    (hear : ∀ c ∈ earlier, c.tree.Within t) :
    ∃ v d g' ss, Gives (receiver t (generate ·.tree) b (some start) earlier.reverse) g () g' ∧
      Sites (objectPieces t start.tree (m :: earlier)) ss ∧ Arranged T g ss d ∧
      (if earlier.reverse = [] then v = b ∧ d = g
        else Gives (objectOf t earlier.reverse) g v d) ∧
      g'.code = d.code ++ paramsOf [v.operand] ∧ d.temps.history <+: g'.temps.history := by
  cases earlier with
  | nil => exact ⟨b, g, { g with code := g.code ++ paramsOf [b.operand] }, [], rfl, .nil,
      .refl, by rw [if_pos reverse_nil]; exact ⟨rfl, rfl⟩, rfl, prefix_rfl⟩
  | cons s earlier =>
    have hne : (s :: earlier).reverse ≠ [] := by simp
    have hobj : objectOf t (s :: earlier).reverse =
        (do fieldsOf t (← generate start.tree) (s :: earlier).reverse) := by
      rw [objectOf, hst]
      rfl
    have hfie : Arranges T (objectPieces t start.tree (m :: s :: earlier))
        (objectOf t (s :: earlier).reverse) := by
      rw [hobj, objectPieces, if_pos hm]
      exact (hv start (.of_kid? hst)).bind fun v =>
        (Arranges.linking T).fieldsOf hc (fun c hc => hear c (mem_reverse.1 hc)) v
    obtain ⟨v, d, ss, hgv, hss, harr⟩ := hfie g
    let g1 : Generator := { d with code := d.code ++ paramsOf [v.operand] }
    refine ⟨v, d, { g1 with temps := d.temps.giveBack v }, ss, ?_, hss, harr, ?_, rfl,
      d.temps.history_giveBack v⟩
    · have hpar : Gives (do emit .param v.operand .none .none; release v : Gen Unit) d () _ :=
        Gives.bind (a := ()) rfl (gives_release v g1)
      rw [hobj] at hgv
      obtain ⟨w, g0, hat, hr⟩ := hgv.of_bind
      rw [receiver]
      · exact hat.bind (hr.bind hpar)
      · exact hne
    · rwa [if_neg hne]

lemma exists_callWith (hst : t.kid? .primaryAtom = some start)
    (hbef : ∀ k ∈ before, k.tree.Within t) (hsite : (Site.call t before.reverse s).In T)
    {l : Link} {k' : Generator} (hlink : Gives (linkOf t before) k (base, l) k') {vs : List Value}
    (hvs : Gives ((argumentsOf s.tree).mapM generate) k' vs g) (hk : Since k g) :
    ∃ l' g' ss, Gives (callWith t (generate ·.tree) base (some start) before l vs) g l' g' ∧
      Sites (objectPieces t start.tree before ++ [.call (.call t before.reverse s)]) ss ∧
      Arranged T g ss g' := by
  let r : Value := .temp g.temps.get.1
  have htk : Since g (taken g) := ⟨prefix_rfl, _, g.temps.history_get.symm⟩
  have hlink : Gives (linkOf t before.reverse.reverse) k (base, l) k' := by rwa [reverse_reverse]
  have hla : (Site.call t before.reverse s).hasReceiver =
      before.head?.any fun m => suffixOf m.tree == .field := by
    rw [Site.hasReceiver, getLast?_reverse]
  -- Without an object, only the arguments are passed.
  have hpl : (Site.call t before.reverse s).hasReceiver = false →
      ∃ l' g', Gives (finishCall vs (calleeName l) r l.value) (taken g) l' g' ∧
        Arranged T (taken g) [.call t before.reverse s] g' := by
    intro hno
    have hrdy : (Site.call t before.reverse s).Ready k (taken g) ([] ++ vs.map Value.operand)
        ("func_" ++ calleeName l) := by
      refine ⟨base, l, vs, k', g, hlink, hvs, .refl _, ?_⟩
      rw [if_neg (by simp [hno])]
      exact ⟨rfl, rfl, rfl⟩
    exact Arranged.finishCall hsite (hk.trans htk) hrdy (append_nil _).symm prefix_rfl r l.value
  have hbind : ∀ {f : Int → Gen Link} {is : List Piece}, (∃ l' g' ss,
      Gives (f g.temps.get.1) (taken g) l' g' ∧ Sites is ss ∧ Arranged T (taken g) ss g') →
      ∃ l' g' ss, Gives (freshTemp >>= f) g l' g' ∧ Sites is ss ∧ Arranged T g ss g' := by
    rintro f is ⟨l', g', ss, hgv, hss, harr⟩
    have hqu : Arranged T g [] (taken g) := .quiet .refl rfl htk.history
    exact ⟨l', g', ss, Gives.bind (a := g.temps.get.1) rfl hgv, hss, hqu.trans harr⟩
  unfold callWith
  refine hbind ?_
  cases before with
  | nil =>
    obtain ⟨l', g', hgv, harr⟩ := hpl rfl
    exact ⟨l', g', _, hgv, .call .nil, harr⟩
  | cons m earlier =>
    dsimp only
    by_cases hmeth : suffixOf m.tree = .field
    · rw [if_pos hmeth]
      have hrec : (Site.call t (m :: earlier).reverse s).hasReceiver = true := by
        rw [hla, head?_cons, Option.any_some, hmeth]
        rfl
      obtain ⟨v, d, g2, ss, hgv, hss, hd, hobj, hcode, hpool⟩ := exists_receiver hc hv
        (b := base) (g := taken g) hst hmeth fun k hk => hbef k (.tail _ hk)
      have hrdy : (Site.call t (m :: earlier).reverse s).Ready k d
          ([v.operand] ++ vs.map Value.operand) ("func_" ++ l.name.getD "None") := by
        refine ⟨base, l, vs, k', g, hlink, hvs, hd.since, ?_⟩
        rw [if_pos hrec, reverse_cons, dropLast_concat]
        exact ⟨rfl, v, rfl, hobj⟩
      obtain ⟨l', g', hfin, harr⟩ := Arranged.finishCall hsite
        ((hk.trans htk).trans hd.since) hrdy hcode hpool r l.value
      exact ⟨l', g', _, hgv.bind hfin, hss.append (.call .nil), hd.trans harr⟩
    · rw [if_neg hmeth]
      have hnn : objectPieces t start.tree (m :: earlier) = [] := by
        cases earlier with
        | nil => rfl
        | cons k earlier => rw [objectPieces, if_neg hmeth]
      obtain ⟨l', g', hgv, harr⟩ := hpl (by
        rw [hla, head?_cons, Option.any_some]
        exact beq_eq_false_iff_ne.2 hmeth)
      rw [hnn]
      exact ⟨l', g', _, hgv, .call .nil, harr⟩

lemma exists_suffix (hT : t.Within T) (hof : t.isOf .leftHandSide = true)
    (hst : t.kid? .primaryAtom = some start)
    (hks : t.kids .suffixOp = before.reverse ++ s :: rest) {l : Link}
    (hlink : Gives (linkOf t before) k (base, l) g) (hk : Since k g) :
    ∃ l' g' ss, Gives (suffix t (generate ·.tree) base (some start) before l s) g l' g' ∧
      Sites (suffixPieces t start.tree before s) ss ∧ Arranged T g ss g' := by
  have hin : ∀ k ∈ t.kids .suffixOp, k.tree.Within t := fun k hk => .of_kids hk
  have hs : s.tree.Within t := hin s (by simp [hks])
  have hbef : ∀ k ∈ before, k.tree.Within t := fun k hk => hin k (by simp [hks, hk])
  by_cases hsuf : suffixOf s.tree = .call
  · obtain ⟨vs, g1, ss, hargs, hss, harr⟩ :=
      arranges_arguments hv hs (fun c => Nat.lt_trans c.2 s.2) g
    have hargs' : Gives (Gen.arguments s.tree fun a => generate (s.lift a).tree) g vs g1 := by
      change Gives (Gen.arguments s.tree (generate ·.tree)) g vs g1
      rw [arguments_eq]
      exact hargs
    have hsite : (Site.call t before.reverse s).In T := ⟨hT, hof, hsuf, rest, hks⟩
    obtain ⟨l', g', ss', hgv, hss', harranged'⟩ := exists_callWith hc hv hst hbef hsite
      hlink hargs (hk.trans harr.since)
    rw [suffix_of_call hsuf, suffixPieces, hsuf]
    exact ⟨l', g', _, hargs'.bind hgv, hss.append hss', harr.trans harranged'⟩
  · exact (Arranges.linking T).suffix_of_ne_call hv hc base _ before l hs hsuf g

/-- The suffixes of a chain, one behind the other. -/
lemma exists_suffixes (hT : t.Within T) (hof : t.isOf .leftHandSide = true)
    (hst : t.kid? .primaryAtom = some start)
    (hks : t.kids .suffixOp = before.reverse ++ rest) {l : Link}
    (hlink : Gives (linkOf t before) k (base, l) g) (hk : Since k g) :
    ∃ v g' ss, Gives (suffixes t (generate ·.tree) base (some start) before l rest) g v g' ∧
      Sites (suffixesPieces t start.tree before rest) ss ∧ Arranged T g ss g' := by
  induction rest generalizing before l g with
  | nil => exact ⟨l.value, g, [], .pure _ g, .nil, .refl⟩
  | cons s rest ih =>
    obtain ⟨l', g1, ss, hsuf, hss, harr⟩ :=
      exists_suffix hc hv hT hof hst hks hlink hk
    have hkids' : t.kids .suffixOp = (s :: before).reverse ++ rest := by
      rw [hks, reverse_cons, append_assoc, singleton_append]
    have hlink' : Gives (linkOf t (s :: before)) k (base, l') g1 := by
      rw [linkOf, hst]
      exact hlink.bind (hsuf.bind (.pure _ _))
    obtain ⟨v, g', ss', hr, hss', harranged'⟩ :=
      ih hkids' hlink' (hk.trans harr.since)
    exact ⟨v, g', _, hsuf.bind hr, hss.append hss', harr.trans harranged'⟩

lemma arranges_chain (hT : t.Within T) (hof : t.isOf .leftHandSide = true)
    (ha : ∃ k, t.kid? .primaryAtom = some k) :
    Arranges T (chainPieces t) (chain t (generate ·.tree)) := by
  obtain ⟨start, hst⟩ := ha
  intro g
  obtain ⟨base, g1, ss, hgv, hss, harr⟩ := hv start (.of_kid? hst) g
  have hlink : Gives (linkOf t []) g (base, .ofBase base) g1 := by
    rw [linkOf, visitPart_of_kid? hst]
    exact hgv.bind (.pure _ _)
  obtain ⟨v, g', ss', hr, hss', harranged'⟩ :=
    exists_suffixes hc hv hT hof hst rfl hlink harr.since
  refine ⟨v, g', _, ?_, ?_, harr.trans harranged'⟩
  · rw [chain]
    dsimp only
    rw [hst]
    exact Gives.bind hgv hr
  · rw [chainPieces, Tree.first_eq_singleton hst, flatMap_singleton]
    exact hss.append hss'

end Call

lemma rule_of_newExpr {r : Rule} {e : Expansion} (he : e ∈ production r)
    (hlab : e.label = some .newExpr) : r = .primaryAtom := by
  have hall : ∀ r ∈ Rule.all, ∀ e ∈ production r, e.label = some .newExpr → r = .primaryAtom := by
    decide
  exact hall r (Rule.mem_all r) e he hlab

/-- The code of a tree is made call by call. -/
lemma arranges_generate {P : Token → Prop} {T t : Tree}
    (h : ∀ tag, t.tag? = some tag → Derives P tag.rule t) (hT : t.Within T) :
    Arranges T [.tree t] (generate t) := by
  have hps : ∀ tag, t.tag? = some tag → ∀ c : t.Sub, c.tree.Within t →
      Arranges T [.tree c.tree] (generate c.tree) := fun tag htag c hin =>
    arranges_generate (fun _ => (h tag htag).of_within hin) (hin.trans hT)
  have hpie : Arranges T (pieces t) (generate t) := by
    rw [generate_eq]
    cases t with
    | leaf tok | bad tok => exact .of_silent (.pure _)
    | node tag start cs =>
      have hder := h tag rfl
      have hc := complete_of_derives hder
      have hv := hps tag rfl
      obtain ⟨e, _, _, he, -, heq⟩ := hder
      obtain ⟨r, label⟩ := tag
      obtain rfl : label = e.label := by cases heq; rfl
      by_cases hcha : r = .leftHandSide
      · subst hcha
        cases mem_singleton.1 he
        exact arranges_chain hc hv hT rfl
          (hc.here.exists_kid rfl (mem_required_of_rule (.head _)))
      · by_cases hnew : e.label = some .newExpr
        · cases rule_of_newExpr he hnew
          rw [hnew] at hc hv hT ⊢
          exact arranges_newObject hv hT rfl
            (hc.here.exists_text rfl (mem_required_of_label (.head _)))
        · have hps : pieces (.node ⟨r, e.label⟩ start cs) =
              (partsOf (.node ⟨r, e.label⟩ start cs) ⟨r, e.label⟩).map .tree := by
            rw [pieces, Tree.tag?]
            split
            · rename_i heq
              exact absurd (congrArg Tag.rule (Option.some.inj heq)) hcha
            · rename_i heq
              exact absurd (congrArg Tag.label (Option.some.inj heq)) hnew
            · rename_i heq
              rw [Option.some.inj heq]
            · rename_i heq
              cases heq
          rw [hps]
          exact (Arranges.outer T).node hv rfl hc (fun _ _ _ _ _ => trivial)
            (fun _ => .emit .nil (by decide) (by decide)
              ⟨fun h => (nomatch h), fun h => (nomatch h), fun _ => rfl⟩)
            (fun h => absurd h hcha) fun h => absurd h hnew
  intro g
  obtain ⟨v, g', ss, hgv, hss, harr⟩ := hpie g
  refine ⟨v, g', ss, hgv, ?_, harr⟩
  rw [← append_nil ss]
  exact .tree hss .nil
termination_by sizeOf t
decreasing_by exact c.2

lemma arranged_run {source : String} (symbols : Option (Table String Symbol))
    (hparse : (parse source).errors = []) :
    ∃ v g ss, Generator.run (parse source).tree (.start symbols) = (.ok v, g) ∧
      Sites [.tree (parse source).tree] ss ∧ Arranged (parse source).tree (.start symbols) ss g :=
  arranges_generate (fun _ => (derives_of_parse hparse).of_within (.refl _)) (.refl _)
    (.start symbols)

/-! ### Calls and their operands -/

/-- Code in which operands are passed to calls and to nothing else, and in which the calls are
    those of certain places of a program, in their order, each with its own operands. -/
structure InTurn (T : Tree) (ss : List Site) (g : Generator) : Prop where
  /-- The code does not end with operands that are passed. -/
  ending : passed g.code = []
  /-- Nothing is passed to an instruction that is no call, and nothing waits there. -/
  other {pre post : List Instr} {i : Instr} (h : g.code = pre ++ i :: post)
    (hpar : i.op ≠ .param) (hca : i.op ≠ .call) : passed pre = [] ∧ Mips.Waits pre []
  /-- There are as many calls as there are places. -/
  count : callCount g.code = ss.length
  /-- To each call its label belongs, and what is passed to it are the operands of its place, as
      many as it takes. They are what waits there. -/
  call {pre post : List Instr} {i : Instr} (h : g.code = pre ++ i :: post) (hop : i.op = .call) :
    ∃ site k d os label, ss[callCount pre]? = some site ∧ site.In T ∧ Since k d ∧ Since d g ∧
      site.Ready k d os label ∧ i.a1 = .text label ∧ pre = d.code ++ paramsOf os ∧
      passed pre = os ∧ os.length = site.arity ∧ Mips.Waits pre (os.map Mips.Lower.operandText)

lemma Arranged.inTurn {T : Tree} {g d : Generator} {ss : List Site} (h : Arranged T g ss d)
    (hg : g.code = []) : InTurn T ss d where
  ending := h.passed_eq hg
  count := h.callCount_eq hg
  other hcode hpar hca := by
    rcases h.split hg hcode hpar with ⟨-, ss', d', hpre, rfl⟩ | ⟨hop, -⟩
    · exact ⟨hpre.passed_eq hg, hpre.waits hg⟩
    · exact absurd hop hca
  call {pre post i} hcode hop := by
    rcases h.split hg hcode (by rw [hop]; decide) with ⟨hca, -⟩ |
      ⟨-, @⟨ss', k, d', site, os, label, hd', hsite, hk, hrdy, rfl, ha1, hd, hss⟩⟩
    · exact absurd hop hca
    · have hcount : callCount (d'.code ++ paramsOf os) = ss'.length := by
        rw [callCount_append, hd'.callCount_eq hg, callCount_paramsOf, Nat.add_zero]
      -- So many calls stand in front of this one that its place is the next one.
      have hidx : ss[callCount (d'.code ++ paramsOf os)]? = some site := by
        obtain ⟨rest, rfl⟩ := hss
        rw [hcount, append_assoc, getElem?_append_right (Nat.le_refl _), Nat.sub_self]
        rfl
      exact ⟨site, k, d', os, label, hidx, hsite, hk, hd, hrdy, ha1, rfl,
        passed_append_paramsOf (hd'.passed_eq hg) os, hrdy.length, (hd'.waits hg).params os⟩

/-- A text without syntax errors has code, whatever is known about its symbols, and the arguments of
    its calls do not mix: the calls in the code are those of the text, one for each, and what is
    passed to one of them, without anything in between, is what its arguments came to. -/
theorem arguments_stay_together (source : String) (symbols : Option (Table String Symbol))
    (hparse : (parse source).errors = []) :
    ∃ v g ss, Generator.run (parse source).tree (.start symbols) = (.ok v, g) ∧
      Sites [.tree (parse source).tree] ss ∧ InTurn (parse source).tree ss g := by
  obtain ⟨v, g, ss, hrun, hss, harr⟩ := arranged_run symbols hparse
  exact ⟨v, g, ss, hrun, hss, harr.inTurn rfl⟩

/-- Calls within calls, of a function, of a method and of a constructor. -/
theorem arguments_stay_together_nested : (parse nested).errors = [] ∧
      ∃ v g ss, Generator.run (parse nested).tree (.start none) = (.ok v, g) ∧
        Sites [.tree (parse nested).tree] ss ∧ InTurn (parse nested).tree ss g :=
  ⟨nested_evaluated, arguments_stay_together nested none nested_evaluated⟩

/-- A text without syntax errors has code, whatever is known about its symbols, and this code has an
    assembly text. Neither can fail, also if the program has errors of another kind. -/
theorem text_has_assembly (source : String) (symbols : Option (Table String Symbol))
    (hparse : (parse source).errors = []) :
    ∃ v g, Generator.run (parse source).tree (.start symbols) = (.ok v, g) ∧
      ∃ text, Mips.program g.code = .ok text := by
  obtain ⟨v, g, _, hrun, -, harr⟩ := arranged_run symbols hparse
  exact ⟨v, g, hrun, (harr.waits rfl).exists_program⟩

theorem text_has_assembly_adding : (parse adding).errors = [] ∧
      ∃ v g, Generator.run (parse adding).tree (.start none) = (.ok v, g) ∧
        ∃ text, Mips.program g.code = .ok text :=
  ⟨adding_evaluated.1, text_has_assembly adding none adding_evaluated.1⟩

end Gen

end Compiscript
