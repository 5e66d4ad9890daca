import Compiscript.Proofs.Check.Finds

/-!
# The Checker Finds the Types

Each kind of node is a composition of steps that find the types of its parts, with the
comparisons the checker makes in between. The condition it comes to is the premise of
the rule for the node.

## Theorems

* `Checker.expression_types_agree`: The checker and the rules agree about the type of
  every expression that has rules.
-/

namespace Compiscript

open List Compiscript.Tree

namespace Check

variable {Γ : Scopes}

section Nodes

variable {t c : Tree} {e : Term}

lemma check_node (tag : Tag) (p : Pos) (cs : List Tree) : check (.node tag p cs) =
      tagged (.node tag p cs) (fun k : (Tree.node tag p cs).Sub => check k.tree) tag :=
  check_eq _

variable {ks : List t.Sub} {parts : List (Tree × Term)} {tag : Tag} {start p : Pos} {o o' : Token}
  {cs : List Tree} {r operand : Rule} {terms es : List Term} {T : Ty} {commas : List Token}
  {k : t.Sub} {state : Chained} {is : List Bracketed} {sym : Symbol} {q : Pos}
  {args : List (Tree × Term)}

lemma forall₂_types
    (hks : ks.map Sub.tree = parts.map Prod.fst) (h : ∀ q ∈ parts, Types Γ q.2 (check q.1)) :
    Forall₂ (fun k e => Types Γ e (check (Sub.tree k))) ks (parts.map Prod.snd) := by
  induction parts generalizing ks with
  | nil =>
    cases map_eq_nil_iff.1 hks
    exact .nil
  | cons q parts ih =>
    obtain ⟨k, ks, rfl, hk, hks⟩ := map_eq_cons_iff.1 hks
    rw [forall_mem_cons] at h
    exact .cons (hk ▸ h.1) (ih hks h.2)

lemma visitAll_check (t : Tree) :
    (visitAll fun k : t.Sub => check k.tree) =
      t.children.foldlM (fun found c => do
        let type ← check c
        return if type = .unknown then found else type) .unknown := by
  rw [visitAll, ← subs_map_tree, foldlM_map]

lemma finds_visitAll {good p : Ty → Prop}
    (h : Finds Γ good p (check c)) (hgood : ∀ T, good T → T ≠ .unknown) :
    Finds Γ good p (visitAll fun k : (Tree.node tag start [c]).Sub => check k.tree) := by
  rw [visitAll_check, children_node, foldlM_cons]
  simp only [foldlM_nil, bind_pure]
  refine (h.bind (q := fun T U => U = T) fun T hT => ?_).congr fun T => by simp
  rw [if_neg (hgood T hT)]
  exact Finds.pure hT

lemma ne_unknown_of_isProper (T : Ty) (h : T.IsProper) : T ≠ .unknown := by
  rintro rfl
  exact h

lemma types_parens (hΓ : Γ.Typed) (ho : o.Is .openParen)
    (ho' : o'.Is .closeParen) (h : Types Γ e (check c)) :
    Types Γ e (check (.node ⟨.primaryExpr, none⟩ p [.leaf o, c, .leaf o'])) := by
  have hleaf : ∀ tok : Token, check (.leaf tok) = ofText tok.text := fun tok => check_eq _
  rw [check_node]
  change Types Γ e (visitAll _)
  rw [visitAll_check, children_node]
  simp only [foldlM_cons, foldlM_nil, hleaf, bind_assoc, pure_bind]
  refine ((finds_paren hΓ (.inl ho)).bind fun T hT => h.bind fun U hU =>
    (finds_paren hΓ (.inr ho')).bind (q := fun _ V => V = U) fun V hV => ?_).congr fun T => by simp
  rw [hT, hV, if_pos rfl, if_pos rfl, if_neg (ne_unknown_of_isProper U hU)]
  exact Finds.pure hU

lemma types_visitKid (hc : (cs.filter (·.isOf r)).head? = some c) (h : Types Γ e (check c)) :
    Types Γ e (visitPart (fun k : (Tree.node tag p cs).Sub => check k.tree)
      ((Tree.node tag p cs).kid? r)) := by
  obtain ⟨k, hk, rfl⟩ := kid?_eq_some (t := .node tag p cs) hc
  exact Finds.visitPart hk h

lemma types_operand (hc : c.isOf operand = true) (h : Types Γ e (check c)) :
    Types Γ e (visitPart (fun k : (Tree.node tag p [c]).Sub => check k.tree)
      ((Tree.node tag p [c]).kidAt? operand 0)) := by
  obtain ⟨k, hk, hkc⟩ := kids_eq_singleton (t := .node tag p [c]) (r := operand) (c := c)
    (by simp [hc])
  exact Finds.visitPart (k := k) (by rw [kidAt?, hk]; rfl) (by rw [hkc]; exact h)

lemma types_step (hr : (tag, r) ∈ stepsDown)
    (hc : c.isOf r = true) (hque : c.text ≠ "?") (h : Types Γ e (check c)) :
    Types Γ e (check (.node tag p [c])) := by
  have hall : Types Γ e (visitAll fun k : (Tree.node tag p [c]).Sub => check k.tree) :=
    finds_visitAll h ne_unknown_of_isProper
  have hkid : ∀ r, c.isOf r = true → Types Γ e (visitPart
      (fun k : (Tree.node tag p [c]).Sub => check k.tree) ((Tree.node tag p [c]).kid? r)) :=
    fun r hr => types_visitKid (by simp [hr]) h
  rw [check_node]
  simp only [stepsDown, mem_cons, Prod.mk.injEq, not_mem_nil, or_false] at hr
  rcases hr with ⟨rfl, rfl⟩ | ⟨rfl, rfl⟩ | ⟨rfl, rfl⟩ | ⟨rfl, rfl⟩ | ⟨rfl, rfl⟩ | ⟨rfl, rfl⟩ |
    ⟨rfl, rfl⟩ | ⟨rfl, rfl⟩ | ⟨rfl, rfl⟩ | ⟨rfl, rfl⟩ | ⟨rfl, rfl⟩ | ⟨rfl, rfl⟩ | ⟨rfl, rfl⟩
  · exact hall
  · exact hkid _ hc
  · -- The node below has no question mark, so there is nothing else to visit.
    have hno : ([c].any (·.text = "?")) = false := by simp [hque]
    change Types Γ e (ternary _ _)
    rw [ternary, children_node, hno]
    simp only [Bool.false_eq_true, if_false, bind_pure]
    exact hkid _ hc
  iterate 5 exact types_operand hc h
  all_goals exact hall

lemma types_logical
    (hsev : ∀ several, operands t (check ·.tree) operand several = several (t.kids operand))
    (h : Forall₂ (fun k e => Types Γ e (check (Sub.tree k))) (t.kids operand) terms) :
    Types Γ (.logical terms) (logical t (check ·.tree) operand) := by
  rw [logical, hsev]
  refine (finds_logical h).congr fun T => ?_
  constructor
  · rintro ⟨rfl, hall⟩
    exact .logical hall
  · rintro (_ | _)
    rename_i hall
    exact ⟨rfl, hall⟩

lemma types_equality (hma : 1 < terms.length)
    (hsev : ∀ several, operands t (check ·.tree) .relationalExpr several =
      several (t.kids .relationalExpr))
    (h : Forall₂ (fun k e => Types Γ e (check (Sub.tree k))) (t.kids .relationalExpr)
      terms) : Types Γ (.equality terms) (equality t (check ·.tree)) := by
  rw [equality, hsev]
  generalize t.kids .relationalExpr = ks at h ⊢
  cases h with
  | nil => cases hma
  | @cons k e ks terms hk hks =>
    refine ((Finds.visitPart rfl hk).bind fun T hT => (finds_equality hks hT).bind fun _ _ =>
      Finds.type (T := .boolean) trivial).congr fun U => ?_
    constructor
    · rintro ⟨T, hT, last, ⟨-, hall⟩, rfl⟩
      exact .equality (forall_mem_cons.2 ⟨hT, hall⟩)
    · intro hty
      cases hty with
      | equality hall =>
        rw [forall_mem_cons] at hall
        exact ⟨_, hall.1, _, ⟨rfl, hall.2⟩, rfl⟩

lemma types_relational (hma : 1 < terms.length)
    (hsev : ∀ several, operands t (check ·.tree) .additiveExpr several =
      several (t.kids .additiveExpr))
    (h : Forall₂ (fun k e => Types Γ e (check (Sub.tree k))) (t.kids .additiveExpr)
      terms) : Types Γ (.relational terms) (relational t (check ·.tree)) := by
  rw [relational, hsev]
  generalize t.kids .additiveExpr = ks at h ⊢
  cases h with
  | nil => cases hma
  | @cons k e ks terms hk hks =>
    refine ((Finds.visitPart rfl hk).bind fun T _ => (finds_relational hks T).bind fun _ _ =>
      Finds.type (T := .boolean) trivial).congr fun U => ?_
    constructor
    · rintro ⟨T, hT, -, ⟨types, htys, hfst, hall, -⟩, rfl⟩
      have hne : types ≠ [] := by
        rintro rfl
        have := htys.length_eq
        simp only [length_cons, length_nil] at hma this
        omega
      exact .relational (.cons hT htys) (forall_mem_cons.2 ⟨hfst hne, hall⟩)
    · intro hty
      cases hty with
      | relational htys hall =>
        obtain ⟨T, types, hT, hrs, rfl⟩ := forall₂_cons_left_iff.1 htys
        rw [forall_mem_cons] at hall
        exact ⟨T, hT, _, ⟨types, hrs, fun _ => hall.1, hall.2, rfl⟩, rfl⟩

lemma types_additive {signs : List Kind}
    (hsev : ∀ several, operands t (check ·.tree) .multiplicativeExpr several =
      several (t.kids .multiplicativeExpr))
    (hsigns : (operators t.children).all (· = "+") = true ↔ ∀ k ∈ signs, k = .plus)
    (h : Forall₂ (fun k e => Types Γ e (check (Sub.tree k))) (t.kids .multiplicativeExpr) terms) :
    Types Γ (.additive signs terms) (additive t (check ·.tree)) := by
  rw [additive, hsev]
  refine ((finds_mapM h).bind (q := fun types T =>
    (.string ∈ types ∧ (∀ k ∈ signs, k = .plus) ∧ T = .string) ∨
      ((∀ U ∈ types, U.isNumeric = true) ∧ T = if .float ∈ types then .float else .integer))
    fun types _ => ?_).congr fun T => ?_
  · have hfloat : (if types.any (· = .float) then Ty.float else .integer) =
        if .float ∈ types then .float else .integer := by simp
    by_cases hstr : .string ∈ types
    · have hany : types.any (· = .string) = true := by simpa using hstr
      have hnot : ¬∀ U ∈ types, U.isNumeric = true := fun hall =>
        absurd (hall _ hstr) (by decide)
      simp only [hany, if_true]
      by_cases hplus : ∀ k ∈ signs, k = .plus
      · simp only [hsigns.2 hplus, if_true]
        exact (Finds.type (T := .string) trivial).congr fun T => by
          simp only [hstr, hnot, true_and, false_and, or_false]
          exact ⟨fun heq => ⟨hplus, heq⟩, And.right⟩
      · simp only [Bool.eq_false_iff.2 (mt hsigns.1 hplus), Bool.false_eq_true, if_false]
        exact (Finds.mistyped (T := .null) trivial _ _).congr fun T => by
          simp only [hplus, hnot, false_and, and_false, or_self]
    · have hany : types.any (· = .string) = false :=
        any_eq_false.2 fun U hU heq => hstr (of_decide_eq_true heq ▸ hU)
      simp only [hany, hfloat, Bool.false_eq_true, if_false]
      by_cases hall : ∀ U ∈ types, U.isNumeric = true
      · simp only [all_eq_true.2 hall, if_true]
        refine (Finds.type ?_).congr fun T => ?_
        · split <;> trivial
        · exact ⟨fun heq => .inr ⟨hall, heq⟩, fun hor => (hor.resolve_left fun h => hstr h.1).2⟩
      · simp only [Bool.eq_false_iff.2 (mt all_eq_true.1 hall), Bool.false_eq_true, if_false]
        exact (Finds.mistyped (T := .null) trivial _ _).congr fun T => by
          simp only [hstr, hall, false_and, or_self]
  · constructor
    · rintro ⟨types, htys, ⟨hstr, hplus, rfl⟩ | ⟨hall, rfl⟩⟩
      · exact .concatenation htys hstr hplus
      · exact .sum htys hall
    · intro hty
      cases hty with
      | concatenation htys hstr hplus => exact ⟨_, htys, .inl ⟨hstr, hplus, rfl⟩⟩
      | sum htys hall => exact ⟨_, htys, .inr ⟨hall, rfl⟩⟩

lemma types_chain {kinds : List Kind} {ops : List Token} (hr : (r, operand, kinds) ∈ chains)
    (hops : ∀ op ∈ ops, ∃ k ∈ kinds, op.Is k) (hma : ops ≠ [])
    (hlen : ops.length + 1 = parts.length) (hof : ∀ q ∈ parts, q.1.isOf operand = true)
    (h : ∀ q ∈ parts, Types Γ q.2 (check q.1)) :
    Types Γ (.ofChain r (ops.map Token.kind) (parts.map Prod.snd))
      (check (.node ⟨r, none⟩ p (weave (parts.map Prod.fst) ops))) := by
  rw [check_node]
  generalize ht : Tree.node ⟨r, none⟩ p (weave (parts.map Prod.fst) ops) = t
  have hcs : t.children = weave (parts.map Prod.fst) ops := by rw [← ht]; rfl
  have hkids : (t.kids operand).map Tree.Sub.tree = parts.map Prod.fst := by
    rw [kids_map_tree, hcs, filter_isOf_weave]
    simpa using hof
  have htys := forall₂_types hkids h
  have hsev : ∀ several, operands t (check ·.tree) operand several = several (t.kids operand) := by
    intro several
    rcases ops with _ | ⟨op, ops⟩
    · exact absurd rfl hma
    rcases parts with _ | ⟨q, _ | ⟨q', parts⟩⟩
    · cases hlen
    · cases hlen
    · rw [operands, hcs]
      rfl
  have hterms : 1 < (parts.map Prod.snd).length := by
    have := length_pos_of_ne_nil hma
    rw [length_map]
    omega
  simp only [chains, mem_cons, Prod.mk.injEq, not_mem_nil, or_false] at hr
  rcases hr with ⟨rfl, rfl, rfl⟩ | ⟨rfl, rfl, rfl⟩ | ⟨rfl, rfl, rfl⟩ | ⟨rfl, rfl, rfl⟩ |
    ⟨rfl, rfl, rfl⟩
  · exact types_logical hsev htys
  · exact types_logical hsev htys
  · exact types_equality hterms hsev htys
  · exact types_relational hterms hsev htys
  · refine types_additive hsev ?_ htys
    rw [hcs, operators_weave (by simpa using hlen), all_map, all_eq_true,
      forall_mem_map]
    refine forall₂_congr fun op hop => ?_
    obtain ⟨k, hk, his⟩ := hops op hop
    rw [Function.comp_apply, decide_eq_true_iff, his.kind]
    rcases mem_pair.1 hk with rfl | rfl
    · rw [his.lexed.text_eq (s := "+") (by rw [his.kind]; rfl)]
      simp
    · rw [his.lexed.text_eq (s := "-") (by rw [his.kind]; rfl)]
      simp

lemma types_conditional {a b : Tree} {ec ea eb : Term}
    (ho : o.Is .question) (hof : c.isOf .logicalOrExpr = true ∧ a.isOf .expression = true ∧
      b.isOf .expression = true) (hc : Types Γ ec (check c)) (ha : Types Γ ea (check a))
    (hb : Types Γ eb (check b)) : Types Γ (.conditional ec ea eb)
      (check (.node ⟨.conditionalExpr, some .ternaryExpr⟩ p [c, .leaf o, a, .leaf o', b])) := by
  have hnot : c.isOf .expression = false := isOf_eq_false hof.1 (by decide)
  rw [check_node]
  generalize ht : Tree.node ⟨.conditionalExpr, some .ternaryExpr⟩ p [c, .leaf o, a, .leaf o', b] = t
  have hcs : t.children = [c, .leaf o, a, .leaf o', b] := by rw [← ht]; rfl
  obtain ⟨kc, hkc, rfl⟩ := kid?_eq_some (t := t) (c := c) (r := .logicalOrExpr)
    (by simp [hcs, hof.1])
  obtain ⟨ka, kb, hkids, rfl, rfl⟩ := kids_eq_pair (t := t) (r := .expression) (c := a) (d := b)
    (by simp [hcs, hof, hnot])
  have hque : t.children.any (·.text = "?") = true := by
    rw [hcs]
    simp [Tree.text, ho.lexed.text_eq (s := "?") (by rw [ho.kind]; rfl)]
  change Types Γ _ (ternary t _)
  rw [ternary, hkc, kidAt?, kidAt?, hkids, hque]
  refine ((Finds.visitPart rfl hc).bind fun C _ => (Finds.visitPart rfl ha).bind fun A hA =>
    (Finds.visitPart rfl hb).bind fun B _ => (Finds.require _ t.pos .ternaryPredicate).bind
      fun _ _ => (Finds.accept hA).bind fun holds _ =>
        (Finds.require holds t.pos .ternaryBranches).bind fun _ _ =>
          Finds.type hA).congr fun T => ?_
  constructor
  · rintro ⟨C, hC, A, hA, B, hB, -, hbool, holds, rfl, -, hsm, rfl⟩
    rw [of_decide_eq_true hbool] at hC
    rw [← of_decide_eq_true hsm] at hB
    exact .conditional hC hA hB
  · intro hty
    cases hty with
    | conditional hC hA hB => exact ⟨_, hC, _, hA, _, hB, (), rfl, true, by simp, (), rfl, rfl⟩

lemma hasType_of_forall₂ {types : List Ty}
    (h : Forall₂ (Term.HasType Γ) es types) (hall : ∀ U ∈ types, T = U) :
    ∀ e ∈ es, e.HasType Γ T := by
  induction h with
  | nil => simp
  | cons he _ ih =>
    rw [forall_mem_cons] at hall ⊢
    exact ⟨hall.1 ▸ he, ih hall.2⟩

lemma forall₂_replicate (h : ∀ e ∈ es, e.HasType Γ T) :
    Forall₂ (Term.HasType Γ) es (replicate es.length T) := by
  induction es with
  | nil => exact .nil
  | cons e es ih =>
    rw [forall_mem_cons] at h
    exact .cons h.1 (ih h.2)

lemma types_array
    (hof : ∀ q ∈ parts, q.1.isOf .expression = true) (h : ∀ q ∈ parts, Types Γ q.2 (check q.1)) :
    Types Γ (.array (parts.map Prod.snd)) (check (.node ⟨.arrayLiteral, none⟩ p
        (.leaf o :: (weave (parts.map Prod.fst) commas ++ [.leaf o'])))) := by
  rw [check_node]
  generalize ht : Tree.node ⟨.arrayLiteral, none⟩ p
    (.leaf o :: (weave (parts.map Prod.fst) commas ++ [.leaf o'])) = t
  have hkids : (t.kids .expression).map Tree.Sub.tree = parts.map Prod.fst := by
    rw [kids_map_tree, ← ht, children_node, filter_cons_of_neg (by simp),
      filter_append, filter_isOf_weave _ (by simpa using hof)]
    simp
  have htys := finds_mapM ((forall₂_types hkids h).imp fun _ _ hk => types_orNull hk)
  change Types Γ _ (arrayLiteral t _)
  rw [arrayLiteral]
  refine (htys.bind (q := fun types T => (types = [] ∧ T = .array .null) ∨
    ∃ base rest, types = base :: rest ∧ (∀ U ∈ rest, base = U) ∧ T = .array base)
    fun types htys => ?_).congr fun T => ?_
  · cases types with
    | nil => exact (Finds.type (T := .array .null) trivial).congr fun T => by simp
    | cons base rest =>
      have hba : base.IsProper := htys base (.head _)
      refine ((finds_elements t hba rest 2).bind fun _ _ =>
        Finds.type (T := .array base) hba).congr fun T => ?_
      simp
  · generalize parts.map Prod.snd = terms
    constructor
    · rintro ⟨types, htys, ⟨rfl, rfl⟩ | ⟨base, rest, rfl, hall, rfl⟩⟩
      · cases htys
        exact .empty
      · obtain ⟨e, es, he, hes, rfl⟩ := forall₂_cons_right_iff.1 htys
        exact .array he (hasType_of_forall₂ hes hall)
    · intro hty
      cases hty with
      | empty => exact ⟨[], .nil, .inl ⟨rfl, rfl⟩⟩
      | @array e es U he hes =>
        refine ⟨U :: replicate es.length U, .cons he (forall₂_replicate hes),
          .inr ⟨U, _, rfl, fun V hV => (eq_of_mem_replicate hV).symm, rfl⟩⟩

lemma suffix_index (state : Chained)
    (hk : k.tree.children = .leaf o :: cs) (ho : o.Is .openBracket) :
    suffix t (check ·.tree) state k = index t (check ·.tree) k state := by
  have htx : (leaf o).text = "[" := ho.lexed.text_eq (by rw [ho.kind]; rfl)
  rw [suffix, hk]
  dsimp only
  rw [htx]
  rfl

lemma suffix_call (state : Chained) (hk : k.tree.children = .leaf o :: cs) (ho : o.Is .openParen) :
    suffix t (check ·.tree) state k = call t (check ·.tree) k state := by
  have htx : (leaf o).text = "(" := ho.lexed.text_eq (by rw [ho.kind]; rfl)
  rw [suffix, hk]
  dsimp only
  rw [htx]
  rfl

/-- The type that indices lead to from a type. -/
def Leads (Γ : Scopes) : List Term → Ty → Ty → Prop
  | [], T, U => U = T
  | i :: is, T, U => ∃ elem, T = .array elem ∧ i.HasType Γ .integer ∧ Leads Γ is elem U

lemma hasType_indexed {is : List Term} {U : Ty} :
    (e.indexed is).HasType Γ U ↔ ∃ T, e.HasType Γ T ∧ Leads Γ is T U := by
  induction is generalizing e with
  | nil => simp [Term.indexed, Leads]
  | cons i is ih =>
    rw [Term.indexed, foldl_cons]
    refine ih.trans ⟨?_, ?_⟩
    · rintro ⟨elem, hty, hld⟩
      cases hty with
      | index he hi => exact ⟨_, he, elem, rfl, hi, hld⟩
    · rintro ⟨_, he, elem, rfl, hi, hld⟩
      exact ⟨elem, .index he hi, hld⟩

lemma finds_index {i : Bracketed} (hk : k.tree = i.tree)
    (hof : i.inner.isOf .expression = true) (h : Types Γ i.term (check i.inner))
    (hsta : state.1.IsProper) : Finds Γ (fun r : Chained => r.1.IsProper)
      (fun r => ∃ elem, state.1 = .array elem ∧ i.term.HasType Γ .integer ∧ r = (elem, state.2))
      (index t (check ·.tree) k state) := by
  obtain ⟨d, hd, hdi⟩ := kid?_eq_some (t := k.tree) (c := i.inner) (r := .expression)
    (by rw [hk]; simp [Bracketed.tree, hof])
  obtain ⟨type, f⟩ := state
  by_cases harray : ∃ elem, type = .array elem
  · obtain ⟨elem, rfl⟩ := harray
    have hinn : Types Γ i.term (check (k.lift d).tree) := by
      change Types Γ i.term (check d.tree)
      rw [hdi]
      exact h
    rw [index, hd]
    refine (hinn.bind fun T _ => (Finds.require _ k.tree.pos .indexNotInteger).bind fun _ _ =>
      Finds.pure (a := ((elem, f) : Chained)) hsta).congr fun r => ?_
    constructor
    · rintro ⟨T, hT, -, hint, rfl⟩
      rw [of_decide_eq_true hint] at hT
      exact ⟨elem, rfl, hT, rfl⟩
    · rintro ⟨_, ⟨⟩, hT, rfl⟩
      exact ⟨_, hT, (), rfl, rfl⟩
  · have hcomp : index t (check ·.tree) k (type, f) = do
        complain k.tree.pos .indexedNoArray
        return (.null, f) := by
      cases type <;> first | rfl | exact (harray ⟨_, rfl⟩).elim
    rw [hcomp]
    refine (Finds.complain (a := ((.null, f) : Chained)) ?_ _ _).congr fun r => ?_
    · trivial
    · exact iff_of_false id fun ⟨elem, hty, _⟩ => harray ⟨elem, hty⟩

/-- What a chain with suffixes begins with if its first part is a name. -/
def startOf (sym : Symbol) : Chained :=
  match sym.detail with
  | .function .. => (sym.type, some sym)
  | _ => (sym.type, none)

lemma fst_startOf (sym : Symbol) : (startOf sym).1 = sym.type := by
  rw [startOf]
  split <;> rfl

lemma finds_leftHandSide (hΓ : Γ.Typed) {suffixes : List Tree}
    (ho : o.Is .identifier) (hsym : Γ.resolve? o.text = some sym) {q : Chained → Prop}
    (ht : t = .node tag start (.node ⟨.primaryAtom, some .identifierExpr⟩ p [.leaf o] :: suffixes))
    (h : Finds Γ (fun r : Chained => r.1.IsProper) q
      ((t.kids .suffixOp).foldlM (suffix t (check ·.tree)) (startOf sym))) :
    Finds Γ Ty.IsProper (fun T => ∃ r, q r ∧ T = r.1) (leftHandSide t (check ·.tree)) := by
  obtain ⟨atom, hat, hatomc⟩ := kid?_eq_some (t := t)
    (c := .node ⟨.primaryAtom, some .identifierExpr⟩ p [.leaf o]) (r := .primaryAtom)
    (by rw [ht, children_node, filter_cons_of_pos rfl]; rfl)
  have hne : ∀ T : Ty, T = sym.type → T ≠ .unknown := by
    rintro _ rfl
    exact ne_unknown_of_isProper _ (hΓ.type _ _ hsym)
  have hvis : Finds Γ (· = sym.type) (· = sym.type) (check atom.tree) := by
    rw [hatomc, check_node]
    exact finds_visitAll ((check_eq (.leaf o)).symm ▸ finds_name ho hsym) hne
  have hcal : Finds Γ (· = (startOf sym).2) (· = (startOf sym).2) (callee? atom.tree) := by
    have htx : atom.tree.tokenText? .identifier = some o.text := by
      rw [hatomc]
      simp [tokenText?, tokenTexts, isToken, Tree.token?, ho.kind, Tree.text]
    have hlab : atom.tree.tag?.bind Tag.label = some .identifierExpr := by rw [hatomc]; rfl
    rw [callee?]
    simp only [hlab, htx]
    refine ((Finds.resolve? o.text).bind (q := fun _ f => f = (startOf sym).2)
      fun found hfd => ?_).congr fun f => by simp
    rw [hfd, hsym]
    obtain ⟨name, type, place, detail⟩ := sym
    cases detail <;> exact Finds.pure rfl
  rw [leftHandSide, hat]
  refine (hvis.bind fun T hT => hcal.bind (q := fun _ U => ∃ r, q r ∧ U = r.1)
    fun f hf => ?_).congr fun T => by simp
  subst hT hf
  obtain ⟨name, type, place, detail⟩ := sym
  cases detail <;> exact h.bind fun r hr => Finds.type hr

lemma finds_call (hk : k.tree = .node tag p
      (.leaf o :: (argumentsOf q (args.map Prod.fst) commas ++ [.leaf o'])))
    (hof : ∀ a ∈ args, a.1.isOf .expression = true) (h : ∀ a ∈ args, Types Γ a.2 (check a.1))
    (hsym : sym.type.IsProper) (hpars : ∀ a ∈ paramsOf sym, a.2.IsProper) :
    Finds Γ (fun r : Chained => r.1.IsProper)
      (fun r => Forall₂ (Term.HasType Γ) (args.map Prod.snd) ((paramsOf sym).map Prod.snd) ∧
        r = (sym.type, none)) (call t (check ·.tree) k (sym.type, some sym)) := by
  have hags : (arguments k).map Sub.tree = args.map Prod.fst := by
    cases args with
    | nil =>
      have hno : k.tree.kid? .arguments = none :=
        kid?_eq_none (by rw [hk]; simp [argumentsOf])
      rw [arguments, hno]
      rfl
    | cons a args =>
      obtain ⟨d, hd, hdc⟩ := kid?_eq_some (t := k.tree) (r := .arguments)
        (c := .node ⟨.arguments, none⟩ q (weave ((a :: args).map Prod.fst) commas))
        (by rw [hk]; simp [argumentsOf, isOf])
      rw [arguments, hd, map_map]
      change (d.tree.kids .expression).map Sub.tree = _
      rw [kids_map_tree, hdc, children_node,
        filter_isOf_weave _ (by simpa using hof)]
  have htys := finds_mapM ((forall₂_types hags h).imp fun _ _ hk => types_orNull hk)
  rw [call]
  refine (htys.bind (q := fun types r => types = (paramsOf sym).map Prod.snd ∧
    r = ((sym.type, none) : Chained)) fun types _ => ?_).congr fun r => ?_
  · dsimp only
    -- With too few or too many arguments there is a complaint, and the rule does not apply.
    by_cases hlen : (paramsOf sym).length = types.length
    · rw [if_pos hlen]
      refine ((finds_matchArguments _ _ hpars hlen).bind fun _ _ =>
        Finds.pure (a := ((sym.type, none) : Chained)) hsym).congr fun r => ?_
      simp [eq_comm]
    · rw [if_neg hlen]
      refine (Finds.complain (a := ((sym.type, none) : Chained)) hsym _ _).congr fun r => ?_
      refine iff_of_false id ?_
      rintro ⟨rfl, -⟩
      exact hlen (length_map _).symm
  · constructor
    · rintro ⟨types, htys, rfl, rfl⟩
      exact ⟨htys, rfl⟩
    · rintro ⟨htys, rfl⟩
      exact ⟨_, htys, rfl, rfl⟩

section Indices

variable (his : ∀ i ∈ is, i.opening.Is .openBracket)
  (hof : ∀ i ∈ is, i.inner.isOf .expression = true)
  (h : ∀ i ∈ is, Types Γ i.term (check i.inner))

include his hof h

lemma finds_indices (hks : ks.map Sub.tree = is.map Bracketed.tree) (hsta : state.1.IsProper) :
    Finds Γ (fun r => r.1.IsProper)
      (fun r => Leads Γ (is.map Bracketed.term) state.1 r.1 ∧ r.2 = state.2)
      (ks.foldlM (suffix t (check ·.tree)) state) := by
  induction is generalizing ks state with
  | nil =>
    cases map_eq_nil_iff.1 hks
    exact (Finds.pure (a := state) hsta).congr fun r => Prod.ext_iff
  | cons i is ih =>
    obtain ⟨k, ks, rfl, hk, hks⟩ := map_eq_cons_iff.1 hks
    rw [forall_mem_cons] at his hof h
    have hcs : k.tree.children = [.leaf i.opening, i.inner, .leaf i.closing] := by
      rw [hk]
      rfl
    rw [foldlM_cons, suffix_index state hcs his.1]
    refine ((finds_index hk hof.1 h.1 hsta).bind fun r hr =>
      ih his.2 hof.2 h.2 hks hr).congr fun r => ?_
    constructor
    · rintro ⟨_, ⟨elem, hty, hi, rfl⟩, hld, hf⟩
      exact ⟨⟨elem, hty, hi, hld⟩, hf⟩
    · rintro ⟨⟨elem, hty, hi, hld⟩, hf⟩
      exact ⟨_, ⟨elem, hty, hi, rfl⟩, hld, hf⟩

lemma types_name (hΓ : Γ.Typed) (ho : o.Is .identifier) (hsym : Γ.resolve? o.text = some sym) :
    Types Γ (Term.indexed (.name o.text) (is.map Bracketed.term))
      (check (.node ⟨.leftHandSide, none⟩ p
        (.node ⟨.primaryAtom, some .identifierExpr⟩ q [.leaf o] :: is.map Bracketed.tree))) := by
  rw [check_node]
  generalize ht : Tree.node ⟨.leftHandSide, none⟩ p
    (.node ⟨.primaryAtom, some .identifierExpr⟩ q [.leaf o] :: is.map Bracketed.tree) = t
  have hkids : (t.kids .suffixOp).map Tree.Sub.tree = is.map Bracketed.tree := by
    rw [kids_map_tree, ← ht, children_node, filter_cons_of_neg (by simp [isOf])]
    refine filter_eq_self.2 fun c hc => ?_
    obtain ⟨i, -, rfl⟩ := mem_map.1 hc
    rfl
  have hst : (startOf sym).1.IsProper := by
    rw [fst_startOf]
    exact hΓ.type _ _ hsym
  refine (finds_leftHandSide hΓ ho hsym ht.symm (finds_indices his hof h hkids hst)).congr
    fun T => ?_
  rw [hasType_indexed, fst_startOf]
  constructor
  · rintro ⟨r, ⟨hld, -⟩, rfl⟩
    exact ⟨sym.type, .name hsym, hld⟩
  · rintro ⟨U, hU, hld⟩
    cases hU with
    | name hsym' =>
      cases Option.some.inj (hsym.symm.trans hsym')
      exact ⟨(T, (startOf sym).2), ⟨hld, rfl⟩, rfl⟩

lemma types_call (hΓ : Γ.Typed) {q' q'' : Pos} {o'' : Token}
    {params : List (String × Ty)} {entry exit : Option String} (ho : o.Is .identifier)
    (hsym : Γ.resolve? o.text = some sym) (hf : sym.detail = .function params entry exit)
    (ho' : o'.Is .openParen) (hofArgs : ∀ a ∈ args, a.1.isOf .expression = true)
    (hargs : ∀ a ∈ args, Types Γ a.2 (check a.1)) :
    Types Γ (Term.indexed (.call o.text (args.map Prod.snd)) (is.map Bracketed.term))
      (check (.node ⟨.leftHandSide, none⟩ p
        (.node ⟨.primaryAtom, some .identifierExpr⟩ q [.leaf o] ::
          .node ⟨.suffixOp, some .callExpr⟩ q'
            (.leaf o' :: (Tree.argumentsOf q'' (args.map Prod.fst) commas ++ [.leaf o''])) ::
          is.map Bracketed.tree))) := by
  have hparamsOf : paramsOf sym = params := by rw [paramsOf, hf]
  have hst : startOf sym = (sym.type, some sym) := by rw [startOf, hf]
  have hty : sym.type.IsProper := hΓ.type _ _ hsym
  rw [check_node]
  generalize ht : Tree.node ⟨.leftHandSide, none⟩ p _ = t
  have hkids : (t.kids .suffixOp).map Tree.Sub.tree = .node ⟨.suffixOp, some .callExpr⟩ q'
      (.leaf o' :: (Tree.argumentsOf q'' (args.map Prod.fst) commas ++ [.leaf o''])) ::
        is.map Bracketed.tree := by
    rw [kids_map_tree, ← ht, children_node, filter_cons_of_neg (by simp [Tree.isOf]),
      filter_cons_of_pos rfl]
    refine congrArg _ (filter_eq_self.2 fun c hc => ?_)
    obtain ⟨i, -, rfl⟩ := mem_map.1 hc
    rfl
  obtain ⟨k, ks, hks, hk, hks'⟩ := map_eq_cons_iff.1 hkids
  have hfo := (finds_call hk hofArgs hargs hty (hΓ.params _ _ hsym)).bind fun r hr =>
    finds_indices his hof h hks' hr
  refine (finds_leftHandSide hΓ ho hsym ht.symm (q := fun r => ∃ r', (Forall₂ (Term.HasType Γ)
    (args.map Prod.snd) ((paramsOf sym).map Prod.snd) ∧ r' = ((sym.type, none) : Chained)) ∧
      Leads Γ (is.map Bracketed.term) r'.1 r.1 ∧ r.2 = r'.2) ?_).congr fun T => ?_
  · rw [hks, foldlM_cons, suffix_call _ (by rw [hk]; rfl) ho', hst]
    exact hfo
  · rw [hasType_indexed, hparamsOf]
    constructor
    · rintro ⟨r, ⟨_, ⟨hfor, rfl⟩, hld, -⟩, rfl⟩
      exact ⟨sym.type, .call hsym hf hfor, hld⟩
    · rintro ⟨U, hU, hld⟩
      cases hU with
      | call hsym' hf' hfor =>
        cases Option.some.inj (hsym.symm.trans hsym')
        obtain ⟨rfl, -, -⟩ := Detail.function.inj (hf.symm.trans hf')
        exact ⟨(T, none), ⟨_, ⟨hfor, rfl⟩, hld, rfl⟩, rfl⟩

end Indices

end Nodes

end Check

variable {Γ : Scopes} {r : Rule} {t : Tree} {e : Term}

open Check in
lemma Check.types_of_denotes (hΓ : Γ.Typed) (h : Denotes Γ r t e) : Types Γ e (check t) := by
  induction h with
  | step hr h ih => exact types_step hr h.isOf h.opens.text_ne ih
  | @literal p o ho =>
    rw [check_node]
    exact finds_visitAll ((check_eq (.leaf o)).symm ▸ types_literal ho) ne_unknown_of_isProper
  | @keyword p o k e hk ho =>
    rw [check_node]
    exact finds_visitAll ((check_eq (.leaf o)).symm ▸ types_keyword hk ho) ne_unknown_of_isProper
  | parens ho ho' _ ih => exact types_parens hΓ ho ho' ih
  | chain hr hops hma hlen h ih =>
    exact types_chain hr hops hma hlen (fun q hq => (h q hq).isOf) ih
  | conditional ho _ hc ha hb ihc iha ihb =>
    exact types_conditional ho ⟨hc.isOf, ha.isOf, hb.isOf⟩ ihc iha ihb
  | array _ _ _ _ h ih => exact types_array (fun q hq => (h q hq).isOf) ih
  | name ho hsym his h ih =>
    exact types_name (fun i hi => (his i hi).1) (fun i hi => (h i hi).isOf) ih hΓ ho hsym
  | call ho hsym hf ho' _ _ _ hargs his h ihargs ih =>
    exact types_call (fun i hi => (his i hi).1) (fun i hi => (h i hi).isOf) ih hΓ ho hsym hf ho'
      (fun a ha => (hargs a ha).isOf) ihargs

/-- From any state whose scopes give a type to every symbol, the check of an expression
    ends well, changes nothing but the list of complaints, and finds a type without a
    complaint exactly if the expression has it by the rules. -/
theorem Checker.expression_types_agree (s : Checker) (hs : s.scopes.Typed) (t : Tree) (e : Term)
    (h : Denotes s.scopes .expression t e) :
    ∃ T s', Checker.run t s = (.ok T, s') ∧ (∃ es, s' = { s with errors := s.errors ++ es }) ∧
      ∀ U, s'.errors = s.errors ∧ T = U ↔ e.HasType s.scopes U := by
  obtain ⟨T, es, hrun, -, hsound, hcom⟩ := Check.types_of_denotes hs h s rfl
  refine ⟨T, s.adding es, hrun, ⟨es, rfl⟩, fun U => ⟨?_, fun hU => ?_⟩⟩
  · rintro ⟨her, rfl⟩
    exact hsound (List.append_right_eq_self.1 her)
  · obtain ⟨rfl, rfl⟩ := hcom U hU
    exact ⟨List.append_nil _, rfl⟩

lemma Scopes.mem_entries_of_resolve? {x : String} {sym : Symbol} (h : Γ.resolve? x = some sym) :
    ∃ table ∈ Γ.inner ++ [Γ.global], (x, sym) ∈ table.entries := by
  have hget : ∀ table : Table String Symbol, table.get? x = some sym →
      (x, sym) ∈ table.entries := by
    intro table htab
    obtain ⟨⟨y, _⟩, hent, rfl⟩ := Option.map_eq_some_iff.1 htab
    obtain rfl : y = x := by simpa using find?_some hent
    exact mem_of_find?_eq_some hent
  rcases Option.or_eq_some_iff.1 h with hinn | ⟨-, hglo⟩
  · obtain ⟨table, htab, hfd⟩ := exists_of_findSome?_eq_some hinn
    exact ⟨table, mem_append_left _ htab, hget table hfd⟩
  · exact ⟨Γ.global, by simp, hget _ hglo⟩

section Doubling

/-- A tree below nodes that are steps on the way down to it. -/
def Tree.wrapped (tags : List Tag) (t : Tree) : Tree :=
  tags.foldr (fun tag t => .node tag ⟨1, 0⟩ [t]) t

/-- Whether tags are steps from one rule down to another. -/
def leadDown (low : Rule) : List Tag → Rule → Bool
  | [], top => top = low
  | tag :: tags, top =>
    tag.rule = top && stepsDown.any fun step => step.1 = tag && leadDown low tags step.2

lemma Denotes.wrapped {low top : Rule} (h : Denotes Γ low t e) (tags : List Tag)
    (hdown : leadDown low tags top = true) : Denotes Γ top (t.wrapped tags) e := by
  induction tags generalizing top with
  | nil =>
    cases of_decide_eq_true hdown
    exact h
  | cons tag tags ih =>
    rw [leadDown, Bool.and_eq_true, any_eq_true] at hdown
    obtain ⟨htop, ⟨tag', r⟩, hsp, htag⟩ := hdown
    rw [Bool.and_eq_true] at htag
    cases of_decide_eq_true htop
    obtain rfl : tag' = tag := of_decide_eq_true htag.1
    exact .step hsp (ih htag.2)

/-- The steps from an expression to a chain of sums. -/
def aboveSums : List Tag :=
  [⟨.expression, none⟩, ⟨.assignmentExpr, some .exprNoAssign⟩,
   ⟨.conditionalExpr, some .ternaryExpr⟩,
    ⟨.logicalOrExpr, none⟩, ⟨.logicalAndExpr, none⟩, ⟨.equalityExpr, none⟩, ⟨.relationalExpr, none⟩]

/-- The steps from an operand of a sum to a literal or a name. -/
def belowSums : List Tag :=
  [⟨.multiplicativeExpr, none⟩, ⟨.unaryExpr, none⟩, ⟨.primaryExpr, none⟩]

/-- A number as an expression. -/
def numberTree (text : String) : Tree :=
  .wrapped (aboveSums ++ ⟨.additiveExpr, none⟩ :: belowSums)
    (.node ⟨.literalExpr, none⟩ ⟨1, 0⟩ [.leaf ⟨.literal, text, ⟨1, 0⟩⟩])

/-- A name with a suffix as an operand of a sum. -/
def suffixedTree (x : String) (suffix : Tree) : Tree :=
  .wrapped belowSums (.node ⟨.leftHandSide, none⟩ ⟨1, 0⟩
    [.node ⟨.primaryAtom, some .identifierExpr⟩ ⟨1, 0⟩ [.leaf ⟨.identifier, x, ⟨1, 0⟩⟩], suffix])

/-- `f(1) + a[0]` -/
def doublingTree : Tree :=
  .wrapped aboveSums (.node ⟨.additiveExpr, none⟩ ⟨1, 0⟩
    [suffixedTree "f" (.node ⟨.suffixOp, some .callExpr⟩ ⟨1, 0⟩ [.leaf ⟨.openParen, "(", ⟨1, 0⟩⟩,
      .node ⟨.arguments, none⟩ ⟨1, 0⟩ [numberTree "1"], .leaf ⟨.closeParen, ")", ⟨1, 0⟩⟩]),
    .leaf ⟨.plus, "+", ⟨1, 0⟩⟩,
    suffixedTree "a" (.node ⟨.suffixOp, some .indexExpr⟩ ⟨1, 0⟩ [.leaf ⟨.openBracket, "[", ⟨1, 0⟩⟩,
      numberTree "0", .leaf ⟨.closeBracket, "]", ⟨1, 0⟩⟩])])

def doublingTerm : Term :=
  .additive [.plus] [.call "f" [.integer "1"], .index (.name "a") (.integer "0")]

/-- A function and an array at the top of a program. -/
def doubling : Checker :=
  { Checker.start with scopes := ⟨[], ⟨[("f", .ofFunction "f" .integer [("x", .integer)]),
    ("a", .ofVariable "a" (.array .integer) false true)]⟩⟩ }

lemma typed_doubling : doubling.scopes.Typed := by
  have hentr : ∀ {x sym}, doubling.scopes.resolve? x = some sym →
      (x = "f" ∧ sym = .ofFunction "f" .integer [("x", .integer)]) ∨
        (x = "a" ∧ sym = .ofVariable "a" (.array .integer) false true) := by
    intro x sym h
    obtain ⟨table, htab, hmem⟩ := Scopes.mem_entries_of_resolve? h
    simpa [doubling, mem_singleton.1 htab] using hmem
  constructor
  · intro x sym h
    rcases hentr h with ⟨-, rfl⟩ | ⟨-, rfl⟩ <;> trivial
  · intro x sym h
    rcases hentr h with ⟨-, rfl⟩ | ⟨-, rfl⟩ <;>
      simp [Check.paramsOf, Symbol.ofFunction, Symbol.ofVariable, Ty.IsProper]
  · intro x sym h
    rcases hentr h with ⟨rfl, -⟩ | ⟨rfl, -⟩ <;> exact .inr (by decide)

lemma denotes_doubling : Denotes doubling.scopes .expression doublingTree doublingTerm := by
  have his : ∀ {k : Kind} {text : String}, Lexer.kindOf? text.toList = some k →
      (Token.mk k text ⟨1, 0⟩).Is k := fun h => ⟨.inr h, rfl⟩
  have hnum : ∀ text : String, Lexer.kindOf? text.toList = some .literal →
      text.toList.head? ≠ some '"' →
      Denotes doubling.scopes .expression (numberTree text) (.integer text) := by
    intro text hkd hhd
    have hlit := Denotes.literal (Γ := doubling.scopes) (p := ⟨1, 0⟩) (his hkd)
    rw [Term.ofLiteral, if_neg hhd] at hlit
    exact hlit.wrapped _ (by decide)
  have hca : Denotes doubling.scopes .leftHandSide _ (.call "f" [.integer "1"]) :=
    @Denotes.call _ ⟨1, 0⟩ ⟨1, 0⟩ ⟨1, 0⟩ ⟨1, 0⟩ ⟨.identifier, "f", ⟨1, 0⟩⟩
      ⟨.openParen, "(", ⟨1, 0⟩⟩ ⟨.closeParen, ")", ⟨1, 0⟩⟩ _ _ _ _
      [(numberTree "1", .integer "1")] [] [] (his (by decide)) rfl rfl (his (by decide))
      (his (by decide)) (by simp) rfl (by simpa using hnum "1" (by decide) (by decide))
      (by simp) (by simp)
  have hidx : Denotes doubling.scopes .leftHandSide _ (.index (.name "a") (.integer "0")) :=
    @Denotes.name _ ⟨1, 0⟩ ⟨1, 0⟩ ⟨.identifier, "a", ⟨1, 0⟩⟩ _
      [⟨⟨1, 0⟩, ⟨.openBracket, "[", ⟨1, 0⟩⟩, ⟨.closeBracket, "]", ⟨1, 0⟩⟩, numberTree "0",
        .integer "0"⟩] (his (by decide)) rfl
      (by simpa using ⟨his (by decide), his (by decide)⟩)
      (by simpa using hnum "0" (by decide) (by decide))
  have hsum : Denotes doubling.scopes .additiveExpr _ doublingTerm :=
    @Denotes.chain _ .additiveExpr .multiplicativeExpr [.plus, .minus] ⟨1, 0⟩ [(_, _), (_, _)]
      [⟨.plus, "+", ⟨1, 0⟩⟩] (by decide) (by simpa using .inl (his (by decide))) (by simp) rfl
      (by simpa using ⟨hca.wrapped belowSums (by decide), hidx.wrapped belowSums (by decide)⟩)
  exact hsum.wrapped aboveSums (by decide)

theorem expression_types_agree_doubling :
    doubling.scopes.Typed ∧ Denotes doubling.scopes .expression doublingTree doublingTerm ∧
      ∃ T s', Checker.run doublingTree doubling = (.ok T, s') ∧
        (∃ es, s' = { doubling with errors := doubling.errors ++ es }) ∧
        ∀ U, s'.errors = doubling.errors ∧ T = U ↔ doublingTerm.HasType doubling.scopes U :=
  ⟨typed_doubling, denotes_doubling,
    Checker.expression_types_agree doubling typed_doubling doublingTree doublingTerm
      denotes_doubling⟩

end Doubling

end Compiscript
