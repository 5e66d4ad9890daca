import Compiscript.Proofs.Codegen.Uses

/-!
# Temporaries of Expressions

There are two exceptions to what is shown here. An assignment gives its value
back and returns it all the same, so expressions with an assignment in them are
left out here. And an object that was made at the start of a chain is not given
back when a field is read from it, because the object is compared with the value
of the start; it is held for ever.

## Theorems

* `Gen.expression_owns_temporaries`: An expression gives back what it has taken, each
  temporary once, and what it still holds in the end is its value.
-/

namespace Compiscript

open List

namespace Value

/-- The temporaries of several values. -/
def tempsOf : List Value → Multiset Int
  | [] => 0
  | v :: vs => v.temps + tempsOf vs

end Value

/-- The rules for expressions. -/
def Rule.isExpression : Rule → Bool
  | .expression | .assignmentExpr | .conditionalExpr | .logicalOrExpr | .logicalAndExpr
  | .equalityExpr | .relationalExpr | .additiveExpr | .multiplicativeExpr | .unaryExpr
  | .primaryExpr | .literalExpr | .leftHandSide | .primaryAtom => true
  | _ => false

namespace Gen

open Temps

/-- An expression has a value, and owns what it gives back. Besides its value it
    may hold more in the end, but not if `E`. -/
def Owner (E : Prop) (x : Gen Value) : Prop :=
  ∀ H M, Handles H M x fun v N => v ≠ .none ∧ ∃ leak, N = v.temps + (leak + M) ∧ (E → leak = 0)

section Owner

variable {β : Type} {E : Prop} {H : Set Int} {M : Multiset Int} {R : β → Multiset Int → Prop}

variable {x : Gen Value}

lemma Handles.visit {k : Value → Gen β} (hx : Owner E x)
    (hk : ∀ v leak, v ≠ .none → (E → leak = 0) → Handles H (v.temps + (leak + M)) (k v) R) :
    Handles H M (x >>= k) R := by
  refine (hx H M).bind ?_
  rintro v N ⟨hv, leak, rfl, hlk⟩
  exact hk v leak hv hlk

lemma Owner.mono {E' : Prop} (hx : Owner E x) (hE : E' → E) : Owner E' x := by
  refine fun H M => (hx H M).imp ?_
  rintro v N ⟨hv, leak, hN, hlk⟩
  exact ⟨hv, leak, hN, fun h => hlk (hE h)⟩

lemma Owner.of_text
    (hx : ∀ H M, Handles H M x fun v N => (∃ s, v = .text s) ∧ N = M) : Owner E x := by
  refine fun H M => (hx H M).imp ?_
  rintro v N ⟨⟨s, rfl⟩, rfl⟩
  refine ⟨by simp, 0, ?_, fun _ => rfl⟩
  rw [zero_add]
  exact (zero_add N).symm

lemma Owner.text (s : String) : Owner E (Pure.pure (.text s)) :=
  .of_text fun _ _ => .pure ⟨⟨s, rfl⟩, rfl⟩

/-! ### Expressions that jump -/

section Label

variable {cond first second : Gen Value}

lemma Owner.choose (hc : Owner E cond) (ha : Owner E first) (hb : Owner E second) :
    Owner E (choose cond first second) := by
  intro H M
  refine .visit hc fun c lc _ hlc => ?_
  refine .freshLabel fun onFalse => .freshLabel fun done => .emit (.release rfl ?_)
  refine .visit ha fun a la _ hla => .freshTemp fun r => .emit ?_
  refine .release (N := {r} + (la + (lc + M))) (by abel) (.emit (.emit ?_))
  refine .visit hb fun b lb _ hlb => .emit (.release rfl (.emit (.pure ?_)))
  refine ⟨by simp, lb + la + lc, ?_, fun hE => ?_⟩
  · change lb + ({r} + (la + (lc + M))) = {r} + (lb + la + lc + M)
    abel
  · rw [hla hE, hlb hE, hlc hE]
    rfl

lemma Owner.shortcut (skip : Op) (decided : String) (ha : Owner E first)
    (hb : Owner E second) : Owner E (shortcut skip decided first second) := by
  intro H M
  refine .freshTemp fun r => .freshLabel fun away => .freshLabel fun done => ?_
  refine .visit ha fun a la _ hla => .emit (.release rfl ?_)
  refine .visit hb fun b lb _ hlb => .emit (.release rfl ?_)
  refine .emit (.emit (.emit (.emit (.pure ?_))))
  refine ⟨by simp, lb + la, ?_, fun hE => ?_⟩
  · change lb + (la + ({r} + M)) = {r} + (lb + la + M)
    abel
  · rw [hla hE, hlb hE]
    rfl

end Label

/-! ### Chains of operators and arguments -/

/-- Several expressions, one after the other. -/
lemma Owner.mapM {α : Type} {f : α → Gen Value} {xs : List α} (h : ∀ x ∈ xs, Owner E (f x))
    (H : Set Int) (M : Multiset Int) :
    Handles H M (xs.mapM f) fun vs N => vs.length = xs.length ∧ (∀ v ∈ vs, v ≠ .none) ∧
      ∃ leak, N = Value.tempsOf vs + (leak + M) ∧ (E → leak = 0) := by
  induction xs generalizing M with
  | nil =>
    refine .pure ⟨rfl, by simp, 0, ?_, fun _ => rfl⟩
    rw [zero_add]
    exact (zero_add M).symm
  | cons x xs ih =>
    obtain ⟨hx, hxs⟩ := forall_mem_cons.1 h
    rw [mapM_cons]
    refine .visit hx fun v lv hv hlv => (ih hxs _).bind ?_
    rintro vs N ⟨hlen, hvs, leak, rfl, hlk⟩
    refine .pure ⟨by simp [hlen], forall_mem_cons.2 ⟨hv, hvs⟩, leak + lv, ?_, ?_⟩
    · rw [Value.tempsOf]
      abel
    · intro hE
      rw [hlk hE, hlv hE]
      rfl

lemma Handles.pass {vs : List Value} {k : Unit → Gen β} {N : Multiset Int}
    (hM : M = Value.tempsOf vs + N) (h : Handles H N (k ()) R) :
    Handles H M (Gen.pass vs >>= k) R := by
  induction vs generalizing M with
  | nil =>
    obtain rfl : M = N := by rw [hM, Value.tempsOf, zero_add]
    rw [Gen.pass, pure_bind]
    exact h
  | cons v vs ih =>
    rw [Gen.pass]
    simp only [bind_assoc]
    refine .emit (.release ?_ (ih rfl))
    rw [hM, Value.tempsOf, add_assoc]

lemma handles_applyOps {N : Multiset Int} {steps : List (Op × Value)} {acc : Value}
    (hacc : acc ≠ .none) (hM : M = acc.temps + (Value.tempsOf (steps.map Prod.snd) + N)) :
    Handles H M (applyOps acc steps) fun v N' => v ≠ .none ∧ N' = v.temps + N := by
  induction steps generalizing acc M with
  | nil =>
    refine .pure ⟨hacc, ?_⟩
    rw [hM, map_nil, Value.tempsOf, zero_add]
  | cons s steps ih =>
    rcases s with ⟨op, right⟩
    rw [map_cons, Value.tempsOf] at hM
    rw [applyOps]
    refine .freshTemp fun r => .emit ?_
    refine .release (N := right.temps + ({r} + (Value.tempsOf (steps.map Prod.snd) + N))) ?_
      (.release rfl (ih (by simp) rfl))
    rw [hM]
    abel

lemma Handles.readField {object : Value} {field : String} {k : Value → Gen β}
    (h : ∀ n, Handles H ({n} + M) (k (.temp n)) R) :
    Handles H M (readField object field >>= k) R := by
  rw [Gen.readField, bind_assoc]
  refine .freshTemp fun n => ?_
  rw [bind_assoc]
  refine .emit ?_
  rw [pure_bind]
  exact h n

end Owner

/-! ### Nodes -/

/-- Whether a tree is an expression. -/
def isExpression (t : Tree) : Bool := t.tag?.any fun tag => tag.rule.isExpression

lemma isExpression_of_isOf {t : Tree} {r : Rule} (h : t.isOf r = true)
    (hr : r.isExpression = true) : isExpression t = true := by
  obtain ⟨l, p, cs, rfl⟩ := Tree.exists_of_isOf h
  exact hr

section Node

variable {E : Prop} {t : Tree} {visit : t.Sub → Gen Value}
  (hv : ∀ c : t.Sub, c.tree.Within t → isExpression c.tree = true → Owner E (visit c))

include hv

variable {r : Rule}

lemma Owner.kid {k : t.Sub} (hk : k ∈ t.kids r) (hr : r.isExpression = true) : Owner E (visit k) :=
  hv k (.of_kids hk)
    (isExpression_of_isOf (Tree.of_mem_kids hk).2 hr)

lemma Owner.visitKid (h : ∃ k, t.kid? r = some k) (hr : r.isExpression = true) :
    Owner E (visitPart visit (t.kid? r)) := by
  obtain ⟨k, hk⟩ := h
  simp only [visitPart, hk, need, pure_bind]
  exact .kid hv (Tree.mem_kids_of_kid? hk) hr

/-- Visiting all children of a node that has one. -/
lemma Owner.visitAll (h : ∃ c, t.children = [c] ∧ isExpression c = true) :
    Owner E (visitAll visit) := by
  obtain ⟨c, hchs, hex⟩ := h
  rw [← Tree.subs_map_tree] at hchs
  obtain ⟨k, hsubs, rfl⟩ := map_eq_singleton_iff.1 hchs
  have hk : Owner E (visit k) :=
    hv k (.of_subs (hsubs ▸ mem_singleton_self _)) hex
  rw [Gen.visitAll, hsubs, foldlM_cons]
  simpa only [foldlM_nil, bind_pure] using hk

lemma Owner.ternary (hl : ∃ k, t.kid? .logicalOrExpr = some k) : Owner E (ternary t visit) := by
  obtain ⟨c, hc⟩ := hl
  have hcond : Owner E (visit c) := .kid hv (Tree.mem_kids_of_kid? hc) rfl
  match hks : t.kids .expression with
  | [] =>
    rw [Gen.ternary, hks, hc]
    exact hcond
  | [_] =>
    rw [Gen.ternary, hks, hc]
    exact hcond
  | a :: b :: rest =>
    have hbra : ∀ k ∈ a :: b :: rest, Owner E (visit k) := fun k hk =>
      .kid (r := .expression) hv (hks ▸ hk) rfl
    rw [ternary_eq hks hc]
    exact .choose hcond (hbra a (by simp)) (hbra b (by simp))

lemma Owner.logical {operand : Rule} {skip : Op} {decided : String}
    (hopd : operand.isExpression = true) (hl : ∃ k, t.kid? operand = some k) :
    Owner E (logical t visit operand skip decided) := by
  match hks : t.kids operand with
  | [] =>
    obtain ⟨k, hk⟩ := hl
    rw [Tree.kid?, hks] at hk
    cases hk
  | [a] =>
    rw [Gen.logical, hks]
    exact .kid (r := operand) hv (by simp [hks]) hopd
  | a :: b :: rest =>
    have hkid : ∀ k ∈ a :: b :: rest, Owner E (visit k) := fun k hk =>
      .kid (r := operand) hv (hks ▸ hk) hopd
    rw [logical_eq hks]
    exact .shortcut skip decided (hkid a (by simp)) (hkid b (by simp))

/-- A chain of operators gives back all operands, since there is an operator between any two. -/
lemma Owner.binary {operand : Rule} (opOf : String → Op) (hopd : operand.isExpression = true)
    (hlen : (t.kids operand).length = (operators t.children).length + 1) :
    Owner E (Gen.binary t visit operand opOf) := by
  intro H M
  refine (Owner.mapM (fun k hk => Owner.kid hv hk hopd) H M).bind ?_
  rintro vs N ⟨hvs, hnn, leak, rfl, hlk⟩
  match vs with
  | [] =>
    rw [hlen] at hvs
    cases hvs
  | [v] =>
    refine .pure ⟨hnn v (.head _), leak, ?_, hlk⟩
    rw [Value.tempsOf, Value.tempsOf, add_zero]
  | v :: w :: rest =>
    have hzip : (((operators t.children).map opOf).zip (w :: rest)).map Prod.snd = w :: rest := by
      refine map_snd_zip ?_
      rw [length_map]
      rw [hlen, length_cons] at hvs
      omega
    refine (handles_applyOps (N := leak + M) (hnn v (by simp)) ?_).imp ?_
    · rw [hzip, Value.tempsOf, add_assoc]
    · rintro u N ⟨hu, hN⟩
      exact ⟨hu, leak, hN, hlk⟩

lemma Owner.unary (h : t.kid? .unaryExpr = none → ∃ k, t.kid? .primaryExpr = some k) :
    Owner E (Gen.unary t visit) := by
  rw [Gen.unary]
  split
  · rename_i hnn
    exact .visitKid hv (h hnn) rfl
  · rename_i e he
    intro H M
    refine .visit (.kid hv (Tree.mem_kids_of_kid? he) rfl) fun v leak _ hlk => ?_
    refine .freshTemp fun n => ?_
    have hend : Handles H ({n} + (v.temps + (leak + M)))
        (do Gen.release v; return Value.temp n : Gen Value) fun v N =>
          v ≠ .none ∧ ∃ leak, N = v.temps + (leak + M) ∧ (E → leak = 0) :=
      .release (N := {n} + (leak + M)) (by abel) (.pure ⟨by simp, leak, rfl, hlk⟩)
    dsimp only
    split
    · exact .emit hend
    · exact .emit hend
    · exact hend

lemma Owner.primary
    (h : ∃ k, (t.kid? .literalExpr).or ((t.kid? .leftHandSide).or (t.kid? .expression)) = some k) :
    Owner E (primary t visit) := by
  obtain ⟨k, hk⟩ := h
  rw [Gen.primary, hk]
  rcases Option.or_eq_some_iff.1 hk with hk | ⟨-, hk⟩
  · exact .kid hv (Tree.mem_kids_of_kid? hk) rfl
  · rcases Option.or_eq_some_iff.1 hk with hk | ⟨-, hk⟩
    · exact .kid hv (Tree.mem_kids_of_kid? hk) rfl
    · exact .kid hv (Tree.mem_kids_of_kid? hk) rfl

lemma Handles.arguments {β : Type} {H : Set Int} {M : Multiset Int}
    {R : β → Multiset Int → Prop} {k : List Value → Gen β}
    (hk : ∀ vs leak, (E → leak = 0) → Handles H (Value.tempsOf vs + (leak + M)) (k vs) R) :
    Handles H M (Gen.arguments t visit >>= k) R := by
  rw [Gen.arguments]
  split
  · rw [pure_bind]
    have hnn := hk [] 0 fun _ => rfl
    rwa [Value.tempsOf, zero_add, zero_add] at hnn
  · rename_i args hargs
    refine (Owner.mapM (E := E) (fun e he => ?_) H M).bind ?_
    · obtain ⟨c, hc, rfl⟩ := mem_map.1 he
      exact hv _ ((Tree.Within.of_kids hc).trans (.of_kid? hargs))
        (isExpression_of_isOf (r := .expression) (Tree.of_mem_kids hc).2 rfl)
    · rintro vs N ⟨-, -, leak, rfl, hlk⟩
      exact hk vs leak hlk

lemma Owner.newObject (hx : ∃ x, t.tokenText? .identifier = some x) :
    Owner E (newObject t visit) := by
  obtain ⟨x, hx⟩ := hx
  intro H M
  simp only [Gen.newObject, tokenText, hx, need, pure_bind]
  refine .arguments hv fun vs leak hlk => .freshTemp fun o => .emit (.emit ?_)
  refine .pass (N := {o} + (leak + M)) (by abel) (.freshTemp fun r => .emit ?_)
  refine .release (N := {r} + (leak + M)) ?_ (.pure ⟨by simp, leak, rfl, hlk⟩)
  rw [show (Value.temp o).temps = {o} from rfl]
  abel

end Node

/-! ### Fields, calls and indices -/

section Chain

variable {E : Prop} {t : Tree} (hc : t.Everywhere Complete) {H : Set Int} {M : Multiset Int}

include hc

variable {N : Multiset Int} {before : List t.Sub} {base : Value} {l : Link}

lemma handles_fieldsOf {parts : List t.Sub} (h : ∀ c ∈ parts, c.tree.Within t) {v : Value}
    (hM : M = v.temps + N) : Handles H M (fieldsOf t v parts) fun w N' => N' = w.temps + N := by
  induction parts generalizing v M with
  | nil => exact .pure hM
  | cons s parts ih =>
    obtain ⟨hs, hrs⟩ := forall_mem_cons.1 h
    rw [fieldsOf]
    split
    · rename_i hfld
      obtain ⟨x, hx⟩ := (hc s.tree hs).exists_field hfld
      simp only [tokenText, hx, need, pure_bind]
      refine .readField fun n => .release (N := {n} + N) ?_ (ih hrs rfl)
      rw [hM]
      abel
    · exact ih hrs hM

variable {visit : t.Sub → Gen Value}
  (hv : ∀ c : t.Sub, c.tree.Within t → isExpression c.tree = true → Owner E (visit c))
  {start : t.Sub} (hst : Owner E (visit start))

include hst

lemma handles_receiver (h : ∀ c ∈ before, c.tree.Within t) (base : Value) :
    Handles H M (receiver t visit base (some start) before) fun _ N =>
      ∃ leak, N = leak + M ∧ (E → leak = 0) := by
  have hnn : ∃ leak, M = leak + M ∧ (E → leak = 0) := ⟨0, (zero_add M).symm, fun _ => rfl⟩
  cases before with
  | nil =>
    rw [receiver, ← bind_pure (emit _ _ _ _)]
    exact .emit (.pure hnn)
  | cons s before =>
    refine .visit hst fun v leak _ hlk => (handles_fieldsOf hc h rfl).bind ?_
    rintro w N rfl
    rw [← bind_pure (release w)]
    exact .emit (.release rfl (.pure ⟨leak, rfl, hlk⟩))

include hv

/-- One suffix. The value before it is given back, except that a value that was
    there at the start is kept when a field is read. -/
lemma handles_suffix (h : ∀ c ∈ before, c.tree.Within t)
    (hba : E → base.temps = 0) (hl : l.value ≠ .none) {s : t.Sub}
    (hs : s.tree.Within t) (hM : M = l.value.temps + N) :
    Handles H M (suffix t visit base (some start) before l s) fun l' N' =>
      l'.value ≠ .none ∧ ∃ leak, N' = l'.value.temps + (leak + N) ∧ (E → leak = 0) := by
  have hsub : ∀ c : s.tree.Sub, c.tree.Within s.tree → isExpression c.tree = true →
      Owner E (visit (s.lift c)) := fun c hc => hv (s.lift c) (hc.trans hs)
  subst hM
  rw [suffix]
  split
  · -- A field.
    rename_i hfld
    obtain ⟨x, hx⟩ := (hc s.tree hs).exists_field hfld
    simp only [tokenText, hx, need, pure_bind]
    refine .readField fun n => ?_
    by_cases heq : l.value = base
    · rw [if_pos heq]
      exact .pure ⟨by simp, l.value.temps, rfl, fun hE => heq ▸ hba hE⟩
    · rw [if_neg heq]
      refine .release (N := {n} + (0 + N)) ?_ (.pure ⟨by simp, 0, rfl, fun _ => rfl⟩)
      abel
  · -- A call.
    refine .arguments hsub fun vs leak hlk => .freshTemp fun n => ?_
    have hca : ∀ name leak', (E → leak' = 0) →
        Handles H (leak' + ({n} + (Value.tempsOf vs + (leak + (l.value.temps + N)))))
          (do
            Gen.pass vs
            Gen.emit .call (.text name) .none (.text (Value.temp n).display)
            Gen.release l.value
            return ⟨.temp n, none⟩ : Gen Link) fun l' N' =>
          l'.value ≠ .none ∧ ∃ leak, N' = l'.value.temps + (leak + N) ∧ (E → leak = 0) := by
      intro name leak' hleak'
      refine .pass (N := l.value.temps + ({n} + (leak' + leak + N))) (by abel) (.emit ?_)
      refine .release rfl (.pure ⟨by simp, leak' + leak, rfl, fun hE => ?_⟩)
      rw [hleak' hE, hlk hE]
      rfl
    have hpl := fun name => hca name 0 fun _ => rfl
    simp only [zero_add] at hpl
    cases before with
    | nil => exact hpl _
    | cons last earlier =>
      have hear : ∀ c ∈ earlier.reverse, c.tree.Within t :=
        fun c hc => h c (.tail _ (mem_reverse.1 hc))
      dsimp only
      by_cases hmeth : suffixOf last.tree = .field
      · rw [if_pos hmeth]
        refine (handles_receiver hc hst hear base).bind ?_
        rintro - N' ⟨leak', rfl, hleak'⟩
        exact hca _ leak' hleak'
      · rw [if_neg hmeth]
        exact hpl _
  · -- An index.
    rename_i hidx
    refine .visit (.visitKid hsub ((hc s.tree hs).exists_index hidx) rfl) fun i leak _ hlk => ?_
    refine .freshTemp fun n => .emit ?_
    refine .release (N := i.temps + ({n} + (leak + N))) (by abel) ?_
    exact .release rfl (.pure ⟨by simp, leak, rfl, hlk⟩)
  · exact .pure ⟨hl, 0, by rw [zero_add], fun _ => rfl⟩

lemma handles_suffixes {rest : List t.Sub} (hrs : ∀ c ∈ rest, c.tree.Within t)
    (hba : E → base.temps = 0) (h : ∀ c ∈ before, c.tree.Within t)
    (hl : l.value ≠ .none) (hM : M = l.value.temps + N) :
    Handles H M (suffixes t visit base (some start) before l rest) fun v N' =>
      v ≠ .none ∧ ∃ leak, N' = v.temps + (leak + N) ∧ (E → leak = 0) := by
  induction rest generalizing before l M N with
  | nil => exact .pure ⟨hl, 0, by rw [hM, zero_add], fun _ => rfl⟩
  | cons s rest ih =>
    obtain ⟨hs, hrs⟩ := forall_mem_cons.1 hrs
    rw [suffixes]
    refine (handles_suffix hc hv hst h hba hl hs hM).bind ?_
    rintro l' N' ⟨hl', leak, rfl, hlk⟩
    refine (ih hrs (forall_mem_cons.2 ⟨hs, h⟩) hl' rfl).imp ?_
    rintro v N' ⟨hval, leak', rfl, hleak'⟩
    refine ⟨hval, leak' + leak, by rw [add_assoc], fun hE => ?_⟩
    rw [hleak' hE, hlk hE]
    rfl

/-- A chain. What stands at its start is nothing that is held, unless the chain ends there. -/
lemma Owner.chain (ha : t.kid? .primaryAtom = some start) (htx : E → t.kids .suffixOp ≠ [] → ∀ H M,
      Handles H M (visit start) fun v N => (∃ s, v = .text s) ∧ N = M) :
    Owner E (chain t visit) := by
  intro H M
  rw [Gen.chain]
  dsimp only
  rw [ha]
  have hrs : ∀ c ∈ t.kids .suffixOp, c.tree.Within t := fun c hc => .of_kids hc
  have hgo : ∀ base leak name, base ≠ .none → (E → leak = 0) → (E → base.temps = 0) →
      Handles H (base.temps + (leak + M)) (suffixes t visit base (some start) []
        ⟨base, name⟩ (t.kids .suffixOp)) fun v N =>
          v ≠ .none ∧ ∃ leak, N = v.temps + (leak + M) ∧ (E → leak = 0) := by
    intro base leak name hba hlk htemps
    refine (handles_suffixes hc hv hst hrs htemps (forall_mem_nil _) (l := ⟨base, _⟩)
      hba rfl).imp ?_
    rintro v N ⟨hval, leak', rfl, hleak'⟩
    refine ⟨hval, leak' + leak, by rw [add_assoc], fun hE => ?_⟩
    rw [hleak' hE, hlk hE]
    rfl
  by_cases hsuf : t.kids .suffixOp = []
  · rw [hsuf]
    exact .visit hst fun base leak hba hlk => .pure ⟨hba, leak, rfl, hlk⟩
  by_cases hE : E
  · refine (htx hE hsuf H M).bind ?_
    rintro base N ⟨⟨s, rfl⟩, rfl⟩
    have htex := hgo (.text s) 0 (some s) (by simp) (fun _ => rfl) fun _ => rfl
    rwa [zero_add, show (Value.text s).temps + N = N from zero_add N] at htex
  · exact .visit hst fun base leak hba hlk =>
      hgo base leak _ hba hlk fun h => absurd h hE

end Chain

/-! ### The parts of expressions -/

section Shape

variable {P : Token → Prop} {t : Tree}

variable {operand : Rule} {op : Item}

lemma length_operators_of_parses
    (hop : (∃ k, op = .token k) ∨ ∃ ks, op = .oneOf ks) {cs : List Tree}
    (h : Parses P [.repeated [op, .rule operand]] cs) (first : Tree) :
    (operators (first :: cs)).length = (cs.filter (·.isOf operand)).length := by
  induction hn : cs.length using Nat.strong_induction_on generalizing cs first with
  | _ n ih =>
  cases h with
  | stop h =>
    cases h
    rfl
  | more h =>
    -- An operator and an operand, and then the same again.
    have hsp : ∃ tok c rest, cs = .leaf tok :: c :: rest ∧ c.isOf operand = true ∧
        Parses P [.repeated [op, .rule operand]] rest := by
      rcases hop with ⟨k, rfl⟩ | ⟨ks, rfl⟩
      · cases h with
        | token _ _ h =>
          cases h with
          | rule _ _ h => exact ⟨_, _, _, rfl, beq_self_eq_true _, h⟩
      · cases h with
        | oneOf _ _ h =>
          cases h with
          | rule _ _ h => exact ⟨_, _, _, rfl, beq_self_eq_true _, h⟩
    obtain ⟨tok, c, rest, rfl, hc, hrs⟩ := hsp
    have hleaf : (Tree.leaf tok).isOf operand = false := rfl
    have hlt : rest.length < n := by
      rw [← hn, length_cons, length_cons]
      omega
    rw [operators, filter_cons_of_neg (by simp [hleaf]), filter_cons_of_pos hc,
      length_cons, length_cons, ih _ hlt hrs c rfl]

lemma length_kids_eq {r : Rule} (hop : (∃ k, op = .token k) ∨ ∃ ks, op = .oneOf ks)
    (hprod : production r = Compiscript.chain operand op) (h : Derives P r t) :
    (t.kids operand).length = (operators t.children).length + 1 := by
  obtain ⟨e, start, cs, he, hcs, rfl⟩ := h
  rw [hprod, Compiscript.chain] at he
  cases mem_singleton.1 he
  rw [← length_map (f := Tree.Sub.tree), Tree.kids_map_tree]
  cases hcs with
  | @rule _ e' start' body cs' _ _ _ h =>
    have hf : (Tree.node ⟨operand, e'.label⟩ start' body).isOf operand = true :=
      beq_self_eq_true _
    rw [Tree.children, length_operators_of_parses hop h, filter_cons_of_pos hf,
      length_cons]

/-- An expression in parentheses, a literal or a chain is there. -/
lemma exists_primary (h : Derives P .primaryExpr t) :
    ∃ k, (t.kid? .literalExpr).or ((t.kid? .leftHandSide).or (t.kid? .expression)) = some k := by
  have hsho : ∀ e ∈ production .primaryExpr,
      ∃ r ∈ [Rule.literalExpr, .leftHandSide, .expression], ∃ item ∈ e.body,
        item.shows (.rule r) = true := by decide
  obtain ⟨e, start, cs, he, hcs, rfl⟩ := h
  obtain ⟨r, hr, item, hit, hshow⟩ := hsho e he
  have hkid : ((Tree.node ⟨.primaryExpr, e.label⟩ start cs).kid? r).isSome = true :=
    Tree.isSome_kid? (hcs.exists_part hit hshow)
  rw [← Option.isSome_iff_exists, Option.isSome_or, Option.isSome_or]
  simp only [mem_cons, not_mem_nil, or_false] at hr
  rcases hr with rfl | rfl | rfl <;> simp [hkid]

end Shape

/-! ### All expressions -/

/-- A tree is no assignment. -/
def NoAssignment (t : Tree) : Prop :=
  t.tag?.bind Tag.label ≠ some .assignExpr ∧ t.tag?.bind Tag.label ≠ some .propertyAssignExpr

instance : DecidablePred NoAssignment := fun _ => inferInstanceAs (Decidable (_ ∧ _))

/-- If a tree is a chain with a suffix, it does not start with a new object. -/
def PlainStart (t : Tree) : Prop :=
  t.isOf .leftHandSide = true → t.kids .suffixOp ≠ [] →
    (t.kid? .primaryAtom).bind (·.tree.tag?.bind Tag.label) ≠ some .newExpr

instance : DecidablePred PlainStart := fun _ => inferInstanceAs (Decidable (_ → _ → _))

lemma handles_readName (x : String) (H : Set Int) (M : Multiset Int) :
    Handles H M (readName x) fun v N => (∃ s, v = .text s) ∧ N = M := by
  have htx : ∀ s, Handles H M (Pure.pure (Value.text s)) fun v N =>
      (∃ s, v = .text s) ∧ N = M := fun s => .pure ⟨⟨s, rfl⟩, rfl⟩
  rw [readName]
  refine .get fun g => ?_
  split
  · rw [resolve?, bind_assoc]
    refine .get fun g => ?_
    rw [pure_bind]
    split <;> exact htx _
  · exact htx x

variable {P : Token → Prop} {t : Tree}

/-- A start of a chain that is no new object. -/
lemma generate_atom (h : Derives P .primaryAtom t) (hnew : t.tag?.bind Tag.label ≠ some .newExpr) :
    (∃ x, generate t = readName x) ∨ generate t = Pure.pure (.text "this") := by
  have hcom := complete_of_derives h
  obtain ⟨e, start, cs, he, -, rfl⟩ := h
  rw [generate_eq]
  rcases mem_three.1 he with rfl | rfl | rfl
  · obtain ⟨x, hx⟩ := hcom.here.exists_text rfl
      (mem_required_of_label (mem_singleton_self [Part.token .identifier]))
    exact .inl ⟨x, identifier_eq hx⟩
  · exact absurd rfl hnew
  · exact .inr rfl

lemma handles_atom (h : Derives P .primaryAtom t)
    (hnew : t.tag?.bind Tag.label ≠ some .newExpr) (H : Set Int) (M : Multiset Int) :
    Handles H M (generate t) fun v N => (∃ s, v = .text s) ∧ N = M := by
  rcases generate_atom h hnew with ⟨x, hx⟩ | hthis
  · rw [hx]
    exact handles_readName x H M
  · rw [hthis]
    exact .pure ⟨⟨"this", rfl⟩, rfl⟩

/-- What holds for the parts of an expression holds for the expression. -/
lemma Owner.of_parts {r : Rule} (h : Derives P r t) (hr : r.isExpression = true)
    (hno : NoAssignment t) (hv : ∀ c : t.Sub, c.tree.Within t → isExpression c.tree = true →
      Owner (t.Everywhere PlainStart) (generate c.tree)) :
    Owner (t.Everywhere PlainStart) (generate t) := by
  have hcom := complete_of_derives h
  have hru : ∀ {tag : Tag} {r'}, t.tag? = some tag → [Part.rule r'] ∈ requiredByRule tag.rule →
      ∃ k, t.kid? r' = some k :=
    fun htag hmem => hcom.here.exists_kid htag (mem_required_of_rule hmem)
  have hlab : ∀ {tag : Tag} {r'}, t.tag? = some tag →
      [Part.rule r'] ∈ requiredByLabel tag.label → ∃ k, t.kid? r' = some k :=
    fun htag hmem => hcom.here.exists_kid htag (mem_required_of_label hmem)
  have hder := h
  obtain ⟨e, start, cs, he, hcs, rfl⟩ := h
  rw [generate_eq]
  cases r with try cases mem_singleton.1 he
  | expression =>
    refine .visitAll hv ?_
    cases hcs with
    | rule _ _ hnil =>
      cases hnil
      exact ⟨_, rfl, rfl⟩
  | assignmentExpr =>
    rcases mem_three.1 he with rfl | rfl | rfl
    · exact absurd rfl hno.1
    · exact absurd rfl hno.2
    · exact .visitKid hv (hlab rfl (.head _)) rfl
  | conditionalExpr =>
    exact .ternary hv (hlab rfl (.head _))
  | logicalOrExpr | logicalAndExpr =>
    exact .logical hv rfl (hru rfl (.head _))
  | equalityExpr | relationalExpr | additiveExpr | multiplicativeExpr =>
    have hlen := length_kids_eq (.inr ⟨_, rfl⟩) rfl hder
    exact .binary hv _ rfl hlen
  | unaryExpr =>
    have hpri := hcom.here.exists_primary rfl rfl
    rcases mem_pair.1 he with rfl | rfl <;> exact .unary hv hpri
  | primaryExpr =>
    have hpri := exists_primary hder
    rcases mem_three.1 he with rfl | rfl | rfl <;> exact .primary hv hpri
  | literalExpr =>
    simp only [production, mem_cons, not_mem_nil, or_false] at he
    rcases he with rfl | rfl | rfl | rfl | rfl <;> exact .text _
  | leftHandSide =>
    obtain ⟨k, hk⟩ := hru rfl (mem_singleton_self [Part.rule .primaryAtom])
    obtain ⟨hmem, hof⟩ := Tree.of_kid? hk
    have hat := hder.of_isOf (.of_mem hmem) hof
    refine .chain hcom hv (hv k (.of_mem hmem) (isExpression_of_isOf hof rfl)) hk ?_
    refine fun hE hsuf => handles_atom hat fun hnew => ?_
    exact hE.here (beq_self_eq_true _) hsuf (by rw [hk]; exact hnew)
  | primaryAtom =>
    rcases mem_three.1 he with rfl | rfl | rfl
    · refine .of_text fun H M => ?_
      rw [← generate_eq]
      exact handles_atom hder (by simp [Tree.tag?, Expansion.named]) H M
    · exact .newObject hv (hcom.here.exists_text rfl (mem_required_of_label (.head _)))
    · exact .text _
  | _ => cases hr

lemma owner_generate {r : Rule} {t : Tree} (h : Derives P r t) (hr : r.isExpression = true)
    (hno : t.Everywhere NoAssignment) : Owner (t.Everywhere PlainStart) (generate t) := by
  refine .of_parts h hr hno.here fun c hin hex => ?_
  obtain ⟨tag, htag, hru⟩ := (Option.any_eq_true _ _).1 hex
  have hsub := owner_generate (h.of_within hin htag) hru (hno.sub hin)
  exact hsub.mono fun hE => hE.sub hin
termination_by sizeOf t
decreasing_by exact c.2

/-- An expression without an assignment in it, whatever temporaries others hold, comes to a value
    and gives back what it has taken itself, each temporary once. The value is a text or a temporary
    that is held in the end and that nobody else holds. If besides no suffix follows a new object,
    the value is all that is still held. -/
theorem expression_owns_temporaries {r : Rule} (h : Derives P r t) (hr : r.isExpression = true)
    (hno : t.Everywhere NoAssignment) (g : Generator) (H : Set Int) (hH : g.temps.Keeps H) :
    ∃ us v g' A, Generator.run t g = (.ok v, g') ∧
      g'.temps.history = g.temps.history ++ us ∧ Owns ∅ us A ∧ g'.temps.Keeps (H ∪ A) ∧
      (∀ n ∈ A, n ∉ H) ∧ ((∃ s, v = .text s) ∨ ∃ n ∈ A, v = .temp n) ∧
      (t.Everywhere PlainStart → A = {n | v = .temp n}) := by
  have hnn : held 0 = ∅ := Set.eq_empty_of_forall_notMem fun n hn => Multiset.notMem_zero n hn
  have hho : g.temps.Holds H 0 := by
    refine ⟨?_, Multiset.nodup_zero, fun n hn => absurd hn (Multiset.notMem_zero n)⟩
    rwa [hnn, Set.union_empty]
  obtain ⟨us, v, g', N, hgv, hus, howns, hholds', hv, leak, rfl, hlk⟩ :=
    owner_generate h hr hno H 0 g hho
  rw [add_zero] at howns hholds'
  rw [hnn] at howns
  refine ⟨us, v, g', held (v.temps + leak), hgv, hus, howns, hholds'.keeps, hholds'.apart,
    ?_, fun hE => ?_⟩
  · cases v with
    | none => exact absurd rfl hv
    | text s => exact .inl ⟨s, rfl⟩
    | temp n => exact .inr ⟨n, by simp [Value.temps], rfl⟩
  · rw [hlk hE, add_zero]
    ext n
    cases v with
    | none => simp [Value.temps]
    | text s => simp [Value.temps]
    | temp m => simp [Value.temps]

/-- `o.f.g` -/
def twoFields : Tree :=
  let token k s : Tree := .leaf { (default : Token) with kind := k, text := s }
  let field s : Tree :=
    .node ⟨.suffixOp, some .propertyAccessExpr⟩ default [token .dot ".", token .identifier s]
  .node ⟨.leftHandSide, none⟩ default
    [.node ⟨.primaryAtom, some .identifierExpr⟩ default [token .identifier "o"], field "f",
     field "g"]

lemma derives_twoFields : Derives (fun _ => True) .leftHandSide twoFields := by
  -- A field is the last way to go on in a chain.
  have hfld : Expansion.named .propertyAccessExpr [.token .dot, .token .identifier] ∈
      production .suffixOp := by simp [production]
  have hat : Expansion.named .identifierExpr [.token .identifier] ∈ production .primaryAtom := by
    simp [production]
  have hrd : ∀ {dot x : Token}, dot.kind = .dot → x.kind = .identifier →
      Parses (fun _ => True) [.token .dot, .token .identifier] [.leaf dot, .leaf x] :=
    fun hdot hx => .token trivial hdot (.token trivial hx .nil)
  refine ⟨_, _, _, .head _, .rule hat (.token trivial rfl .nil) ?_, rfl⟩
  exact .more (.rule hfld (hrd rfl rfl) (.more (.rule hfld (hrd rfl rfl) (.stop .nil))))

/-- Others hold two temporaries. Of the two that are taken, the first field is given back when the
    second one has been read. -/
theorem twoFields_owns_temporaries :
    Keeps ⟨[1], 3, []⟩ {0, 2} ∧ ∃ us v g' A,
      Generator.run twoFields { Generator.start none with temps := ⟨[1], 3, []⟩ } = (.ok v, g') ∧
      g'.temps.history = us ∧ Owns ∅ us A ∧ g'.temps.Keeps ({0, 2} ∪ A) ∧
      (∀ n ∈ A, n ∉ ({0, 2} : Set Int)) ∧ A = {n | v = .temp n} := by
  have hno : twoFields.Everywhere NoAssignment := Tree.everywhere_of_all (by decide)
  have hpl : twoFields.Everywhere PlainStart := Tree.everywhere_of_all (by decide)
  have hkeeps : Keeps ⟨[1], 3, []⟩ {0, 2} := ⟨by decide, by simp, by simp, by simp⟩
  obtain ⟨us, v, g', A, hrun, hus, howns, hpool, hapart, -, hA⟩ := expression_owns_temporaries
    derives_twoFields rfl hno { Generator.start none with temps := ⟨[1], 3, []⟩ } {0, 2} hkeeps
  exact ⟨hkeeps, us, v, g', A, hrun, hus, howns, hpool, hapart, hA hpl⟩

end Gen

end Compiscript
