import Compiscript.Proofs.Check.Outline

/-!
# What Operators Ask of their Operands

The operands of an operator and their types, as they are when the check of the operator
is silent.

Sums, comparisons, `&&`, `||` and `?:` look at the types of their operands. Products,
signs and `!` do not: their check goes through as soon as the checks of their parts do,
and the type that comes out is the type of the last operand.
-/

namespace Compiscript

open List

/-- The rules of operators. -/
def Rule.isOperator : Rule → Bool
  | .conditionalExpr | .logicalOrExpr | .logicalAndExpr | .equalityExpr | .relationalExpr
  | .additiveExpr | .multiplicativeExpr | .unaryExpr => true
  | _ => false

lemma Rule.isInExpression_of_isOperator {r : Rule} (h : r.isOperator = true) :
    r.isInExpression = true := by
  have hall : ∀ r ∈ Rule.all, r.isOperator = true → r.isInExpression = true := by decide
  exact hall r (Rule.mem_all r) h

namespace Tree

/-- Whether a tree was made by one of several rules. -/
def isOneOf (p : Rule → Bool) (t : Tree) : Bool := t.tag?.any (p ·.rule)

/-- The children that were made by a rule. -/
def partsOf (t : Tree) (r : Rule) : List Tree := t.children.filter (·.isOf r)

/-- The operands of an operator. -/
def operands (t : Tree) : List Tree := t.children.filter (·.isOneOf Rule.isInExpression)

/-- Whether a tree is an operator with its operands, and not only a step on the way down. -/
def isOperator (t : Tree) : Bool :=
  t.isOneOf Rule.isOperator && decide (1 < t.children.length)

/-- What an operator asks of the types of its operands, and the type of the result. -/
def Demands (t : Tree) (types : List Ty) (result : Ty) : Prop :=
  match t.tag?.map Tag.rule with
  | some .conditionalExpr => ∃ a b, types = [.boolean, a, b] ∧ a.accepts? b = some true ∧ result = a
  | some .logicalOrExpr | some .logicalAndExpr =>
    (∀ T ∈ types, T = .boolean) ∧ result = .boolean
  | some .equalityExpr =>
    types.IsChain (fun a b => a.accepts? b = some true) ∧ result = .boolean
  | some .relationalExpr => (∀ T ∈ types, T.isNumeric = true) ∧ result = .boolean
  | some .additiveExpr =>
    .string ∈ types ∧ (∀ o ∈ Check.operators t.children, o = "+") ∧ result = .string ∨
      (∀ T ∈ types, T.isNumeric = true) ∧ result = if .float ∈ types then .float else .integer
  | _ => ∀ T, types.getLast? = some T → T ≠ .unknown → result = T

end Tree

/-! ### Operands in the tree -/

namespace Tree

variable {P : Token → Prop} {r q : Rule} {t c : Tree}

lemma isOneOf_of_isOf {p : Rule → Bool} (hc : c.isOf q = true) (hq : p q = true) :
    c.isOneOf p = true := by
  obtain ⟨l, p, cs, rfl⟩ := exists_of_isOf hc
  exact hq

lemma operands_eq (h : Derives P r t) (hq : q.isInExpression = true)
    (hol : r.MentionsOnly fun q' => q' = q) : t.operands = t.partsOf q := by
  refine filter_congr fun c hc => ?_
  cases hof : c.isOf q with
  | true => exact isOneOf_of_isOf hof hq
  | false =>
    obtain ⟨tok, rfl⟩ := h.leaf_of_mem hc hol hof
    rfl

lemma last_of_repeated {ks : List Kind} {cs : List Tree}
    (h : Parses P [.repeated [.oneOf ks, .rule q]] cs) :
    cs = [] ∨ ∃ init c, cs = init ++ [c] ∧ c.isOf q = true := by
  induction hn : cs.length using Nat.strong_induction_on generalizing cs with
  | _ n ih =>
  cases h with
  | stop h =>
    cases h
    exact .inl rfl
  | more h =>
    cases h with
    | @oneOf _ tok _ _ _ _ h => cases h with
    | @rule _ e p body rest _ _ _ h =>
      have hof : (node ⟨q, e.label⟩ p body).isOf q = true := beq_self_eq_true _
      right
      have hlt : rest.length < n := by
        rw [← hn, length_cons, length_cons]
        omega
      rcases ih rest.length hlt h rfl with rfl | ⟨init, c, rfl, hc⟩
      · exact ⟨[.leaf tok], _, rfl, hof⟩
      · exact ⟨.leaf tok :: .node ⟨q, e.label⟩ p body :: init, c, rfl, hc⟩

lemma exists_last_operand (h : Derives P r t) (hr : r = .multiplicativeExpr ∨ r = .unaryExpr) :
    ∃ init c, t.children = init ++ [c] ∧ c.isOneOf Rule.isInExpression = true := by
  obtain ⟨e, p, cs, he, hcs, rfl⟩ := h
  rcases hr with rfl | rfl
  · cases mem_singleton.1 he
    cases hcs with
    | rule _ _ hcs =>
      rcases last_of_repeated hcs with rfl | ⟨init, c, rfl, hc⟩
      · exact ⟨[], _, rfl, rfl⟩
      · exact ⟨_ :: init, c, rfl, isOneOf_of_isOf hc rfl⟩
  · rcases mem_pair.1 he with rfl | rfl
    · cases hcs with
      | oneOf _ _ hcs => cases hcs with
      | rule _ _ hcs => cases hcs with
      | nil => exact ⟨[_], _, rfl, rfl⟩
    · cases hcs with
      | rule _ _ hcs => cases hcs with
      | nil => exact ⟨[], _, rfl, rfl⟩

end Tree

namespace Check

variable {s : Checker} {t : Tree} {r : Rule} {type : Ty}

/-! ### Products and signs -/

/-- The last type that is known. -/
def lastKnown (types : List Ty) (found : Ty) : Ty :=
  types.foldl (fun found type => if type = .unknown then found else type) found

variable {cs : List Tree} {types : List Ty} {α : Type} {a : α} {β : Type} {R : α → β → Prop}
  {as : List α} {q : Rule} {c : Tree}

lemma silent_foldlM
    (h : Forall₂ (fun c T => Silent (check c) s T) cs types) (found : Ty) :
    Silent (cs.foldlM (fun found c => do
      let type ← check c
      return if type = .unknown then found else type) found) s (lastKnown types found) := by
  induction h generalizing found with
  | nil => rfl
  | @cons c T cs types hc _ ih =>
    rw [foldlM_cons, bind_assoc, Silent, Gives, run_bind, hc]
    exact ih _

lemma forall₂_of_foldlM (hcs : ∀ c ∈ cs, OnlyComplains (check c)) {found : Ty}
    (h : Silent (cs.foldlM (fun found c => do
      let type ← check c
      return if type = .unknown then found else type) found) s type) :
    ∃ types, Forall₂ (fun c T => Silent (check c) s T) cs types ∧
      type = lastKnown types found := by
  induction cs generalizing found with
  | nil =>
    cases h
    exact ⟨[], .nil, rfl⟩
  | cons c cs ih =>
    obtain ⟨hc, hcs⟩ := forall_mem_cons.1 hcs
    have hrs : ∀ found, OnlyComplains (cs.foldlM (fun found c => do
        let type ← check c
        return if type = .unknown then found else type) found) := fun found =>
      onlyComplains.foldlM (fun c hc _ => .map (hcs c hc)) found
    rw [foldlM_cons, bind_assoc] at h
    obtain ⟨T, hT, h⟩ := h.of_bind hc fun T => by simpa only [pure_bind] using hrs _
    obtain ⟨types, htys, hty⟩ := ih hcs (by simpa only [pure_bind] using h)
    exact ⟨T :: types, .cons hT htys, hty⟩

lemma lastKnown_append (types : List Ty) {T : Ty} (hT : T ≠ .unknown) (found : Ty) :
    lastKnown (types ++ [T]) found = T := by
  rw [lastKnown, foldl_append, foldl_cons, foldl_nil, if_neg hT]

lemma Silent.unique {x : Check α} {b : α} (h : Silent x s a) (h' : Silent x s b) :
    a = b := Except.ok.inj (congrArg Prod.fst (h.symm.trans h'))

lemma rel_getLast {bs : List β}
    (h : Forall₂ R (as ++ [a]) bs) : ∃ bs' b, bs = bs' ++ [b] ∧ R a b := by
  induction as generalizing bs with
  | nil =>
    cases h with
    | cons hab hnil =>
      cases hnil
      exact ⟨[], _, rfl, hab⟩
  | cons x as ih =>
    cases h with
    | @cons _ y _ ys _ h =>
      obtain ⟨bs', b, rfl, hab⟩ := ih h
      exact ⟨y :: bs', b, rfl, hab⟩

lemma exists_forall₂ (h : ∀ a ∈ as, ∃ b, R a b) : ∃ bs, Forall₂ R as bs := by
  induction as with
  | nil => exact ⟨[], .nil⟩
  | cons a as ih =>
    obtain ⟨⟨b, hb⟩, h⟩ := forall_mem_cons.1 h
    obtain ⟨bs, hbs⟩ := ih h
    exact ⟨b :: bs, .cons hb hbs⟩

lemma check_eq_visitAll (h : Derived r t) (hr : r = .multiplicativeExpr ∨ r = .unaryExpr) :
    check t = visitAll fun k : t.Sub => check k.tree := by
  obtain ⟨e, p, cs, he, -, rfl⟩ := h
  rw [check_node]
  rcases hr with rfl | rfl
  · cases mem_singleton.1 he
    rfl
  · rcases mem_pair.1 he with rfl | rfl <;> rfl

lemma last_of_visitAll (h : Derived r t)
    (hr : r = .multiplicativeExpr ∨ r = .unaryExpr) (hs : Silent (check t) s type) :
    ∃ types, Forall₂ (fun c T => Silent (check c) s T) t.operands types ∧
      ∀ T, types.getLast? = some T → T ≠ .unknown → type = T := by
  have hex : r.isInExpression = true := by rcases hr with rfl | rfl <;> rfl
  rw [check_eq_visitAll h hr, visitAll_check] at hs
  obtain ⟨all, hall, rfl⟩ := forall₂_of_foldlM
    (fun c hc => onlyComplains.check h hex (.of_mem hc)) hs
  obtain ⟨types, htys⟩ : ∃ types, Forall₂ (fun c T => Silent (check c) s T) t.operands types := by
    refine exists_forall₂ fun c hc => ?_
    obtain ⟨T, -, hT⟩ := exists_of_forall₂ hall (mem_of_mem_filter hc)
    exact ⟨T, hT⟩
  refine ⟨types, htys, fun T hla hkn => ?_⟩
  -- The last operand is the last child as well, so no other type comes behind its own.
  obtain ⟨init, c, hchs, hc⟩ := Tree.exists_last_operand h hr
  have hops : t.operands = init.filter (·.isOneOf Rule.isInExpression) ++ [c] := by
    rw [Tree.operands, hchs, filter_append, filter_cons_of_pos hc, filter_nil]
  rw [hchs] at hall
  rw [hops] at htys
  obtain ⟨all, U, rfl, hU⟩ := rel_getLast hall
  obtain ⟨types, U', rfl, hU'⟩ := rel_getLast htys
  obtain rfl : U' = T := by simpa using hla
  cases hU.unique hU'
  exact lastKnown_append all hkn _

lemma silent_ofText (x : String) (s : Checker) : ∃ T, Silent (ofText x) s T := by
  have hres : ∀ f : Option Symbol → Check Ty,
      (resolve? x >>= f).run s = (f (s.scopes.resolve? x)).run s := fun _ => rfl
  unfold ofText Silent Gives
  dsimp only
  repeat' split
  iterate 5 exact ⟨_, rfl⟩
  rw [hres]
  cases s.scopes.resolve? x <;> exact ⟨_, rfl⟩

/-- Products and signs ask for nothing: they are checked silently if their operands are. -/
lemma silent_of_operands (h : Derived r t) (hr : r = .multiplicativeExpr ∨ r = .unaryExpr)
    (hops : ∀ c ∈ t.operands, ∃ T, Silent (check c) s T) : ∃ T, Silent (check t) s T := by
  have hex : r.isInExpression = true := by rcases hr with rfl | rfl <;> rfl
  have hall : ∀ c ∈ t.children, ∃ T, Silent (check c) s T := by
    intro c hc
    rcases h.leaf_or_mentioned hc with ⟨tok, rfl⟩ | ⟨q, hof, e, he, hmd⟩
    · rw [check_eq]
      exact silent_ofText tok.text s
    · refine hops c (mem_filter.2 ⟨hc, Tree.isOneOf_of_isOf hof ?_⟩)
      exact Rule.closed_isInExpression r (Rule.mem_all r) hex e he q (Rule.mem_all q) hmd
  obtain ⟨types, htys⟩ := exists_forall₂ hall
  rw [check_eq_visitAll h hr, visitAll_check]
  exact ⟨_, silent_foldlM htys .unknown⟩

/-! ### Operators that look at their operands -/

lemma forall₂_partsOf
    (h : Forall₂ (fun k T => Silent (check (Tree.Sub.tree k)) s T) (t.kids q) types) :
    Forall₂ (fun c T => Silent (check c) s T) (t.partsOf q) types := by
  rw [Tree.partsOf, ← Tree.kids_map_tree]
  exact forall₂_map_left_iff.2 h

lemma demands_of_ternary (h : Derived .conditionalExpr t)
    (hma : t.children.length ≠ 1) (hs : Silent (check t) s type) :
    ∃ a b, Forall₂ (fun c T => Silent (check c) s T) t.operands [.boolean, a, b] ∧
      a.accepts? b = some true ∧ type = a := by
  have hq : ∀ k : t.Sub, k.tree.Within t → OnlyComplains (check k.tree) := fun k hk =>
    onlyComplains.check h rfl hk
  obtain ⟨e, p, cs, he, hcs, rfl⟩ := h
  cases mem_singleton.1 he
  cases hcs with
  | rule _ _ hcs => cases hcs with
  | skip hcs => cases hcs with
    | nil => exact absurd rfl hma
  | take hcs => cases hcs with
  | @token _ o _ _ ho hk hcs => cases hcs with
  | rule _ _ hcs => cases hcs with
  | token _ _ hcs => cases hcs with
  | rule _ _ hcs => cases hcs with
  | nil =>
    have htx : o.text = "?" := ho.text_eq (by rw [hk]; rfl)
    rw [check_node] at hs
    obtain ⟨kc, ka, kb, second, hkc, hka, hkb, hc, ha, hb, hacc⟩ :=
      types_of_ternary hq hs (by simp [Tree.text, htx])
    rw [tree_of_kid? hkc rfl] at hc
    rw [tree_of_kidAt? hka rfl] at ha
    rw [tree_of_kidAt? hkb rfl] at hb
    exact ⟨type, second, .cons hc (.cons ha (.cons hb .nil)), hacc, rfl⟩

/-- An operator that is checked silently has what it asks for. -/
lemma demands_of_silent (h : Derived r t) (hop : t.isOperator = true)
    (hs : Silent (check t) s type) :
    ∃ types, Forall₂ (fun c T => Silent (check c) s T) t.operands types ∧ t.Demands types type := by
  obtain ⟨hru, hma⟩ := Bool.and_eq_true_iff.1 hop
  have hma : t.children.length ≠ 1 := (of_decide_eq_true hma).ne'
  obtain ⟨e, p, cs, he, hcs, rfl⟩ := id h
  have hex : r.isInExpression = true := Rule.isInExpression_of_isOperator hru
  have hq : ∀ k : (Tree.node ⟨r, e.label⟩ p cs).Sub, k.tree.Within _ →
      OnlyComplains (check k.tree) := fun k hk => onlyComplains.check h hex hk
  have hs' := hs
  rw [check_node] at hs'
  have hlog : ∀ operand : Rule, operand.isInExpression = true →
      (r.MentionsOnly fun q => q = operand) →
      Silent (logical (.node ⟨r, e.label⟩ p cs) (check ·.tree) operand) s type →
      ∃ types, Forall₂ (fun c T => Silent (check c) s T)
        (Tree.node ⟨r, e.label⟩ p cs).operands types ∧
          (∀ T ∈ types, T = .boolean) ∧ type = .boolean := by
    intro operand hopd hol hs
    obtain ⟨rfl, hall⟩ := boolean_of_logical hq hs hma
    rw [Tree.operands_eq h hopd hol]
    refine ⟨_, forall₂_partsOf (forall₂_map_right_iff.2 (forall₂_same.2 hall)), ?_, rfl⟩
    rintro T hT
    obtain ⟨_, -, rfl⟩ := mem_map.1 hT
    rfl
  cases r with try cases mem_singleton.1 he
  | conditionalExpr =>
    obtain ⟨a, b, htys, hacc, hty⟩ := demands_of_ternary h hma hs
    exact ⟨_, htys, a, b, rfl, hacc, hty⟩
  | logicalOrExpr =>
    exact hlog .logicalAndExpr rfl (by decide) hs'
  | logicalAndExpr =>
    exact hlog .equalityExpr rfl (by decide) hs'
  | equalityExpr =>
    obtain ⟨hty, types, htys, hcha⟩ := types_of_equality hq hs' hma
    rw [Tree.operands_eq (q := .relationalExpr) h rfl (by decide)]
    exact ⟨types, forall₂_partsOf htys, hcha, hty⟩
  | relationalExpr =>
    have htwo := two_le_kids (.inr ⟨_, rfl⟩) rfl h hma
    obtain ⟨hty, types, htys, hcha⟩ := types_of_relational hq hs' hma
    rw [htys.length_eq] at htwo
    rw [Tree.operands_eq (q := .additiveExpr) h rfl (by decide)]
    exact ⟨types, forall₂_partsOf htys, forall_of_isChain (fun _ _ hab => hab) hcha htwo, hty⟩
  | additiveExpr =>
    obtain ⟨types, htys, hdem⟩ := types_of_additive hq hs' hma
    rw [Tree.operands_eq (q := .multiplicativeExpr) h rfl (by decide)]
    exact ⟨types, forall₂_partsOf htys, hdem⟩
  | multiplicativeExpr => exact last_of_visitAll h (.inl rfl) hs
  | unaryExpr => exact last_of_visitAll h (.inr rfl) hs
  | _ => cases hru

/-! ### Parts of expressions -/

/-- The parts of an expression of a rule that are evaluated, with the nodes between. The target of
    an assignment is not. -/
def valueParts (t : Tree) : Rule → List (List Tree × Tree)
  | .assignmentExpr => (t.partsOf .assignmentExpr ++ t.partsOf .conditionalExpr).map ([], ·)
  | .leftHandSide => (t.partsOf .primaryAtom).map ([], ·) ++ (t.partsOf .suffixOp).flatMap fun op =>
    (op.partsOf .expression).map ([op], ·) ++ (op.partsOf .arguments).flatMap fun a =>
      (a.partsOf .expression).map ([a, op], ·)
  | .primaryAtom => (t.partsOf .arguments).flatMap fun a => (a.partsOf .expression).map ([a], ·)
  | .suffixOp | .arguments => []
  | _ => t.operands.map ([], ·)

lemma exists_of_mem_partsOf (h : Derived r t)
    (hone : ∀ e ∈ production r, Item.mostIn q e.body ≤ 1) (hc : c ∈ t.partsOf q) :
    ∃ k, t.kid? q = some k ∧ k.tree = c ∧ t.partsOf q = [c] := by
  rw [Tree.partsOf, ← Tree.kids_map_tree] at hc ⊢
  obtain ⟨k, hk, rfl⟩ := mem_map.1 hc
  have hkid := h.kid?_of_mem hone hk
  exact ⟨k, hkid, rfl, by rw [h.kids_of_kid? hone hkid]; rfl⟩

lemma exists_kid_of_mem (hc : c ∈ t.partsOf q) : ∃ k ∈ t.kids q, k.tree = c := by
  obtain ⟨hmem, hof⟩ := mem_filter.1 hc
  exact exists_kid hmem hof

lemma silent_of_kid (h : Derived r t) (hone : ∀ e ∈ production r, Item.mostIn q e.body ≤ 1)
    (hs : Silent (visitPart (fun k : t.Sub => check k.tree) (t.kid? q)) s type) :
    ∀ c ∈ t.partsOf q, ∃ T, Silent (check c) s T := by
  intro c hc
  obtain ⟨k, hk, rfl, -⟩ := exists_of_mem_partsOf h hone hc
  rw [hk] at hs
  exact ⟨type, hs⟩

lemma silent_of_child (h : Derived r t) (hr : r.isInExpression = true)
    (hs : Silent (visitAll fun k : t.Sub => check k.tree) s type) :
    ∀ c ∈ t.children, ∃ T, Silent (check c) s T := by
  rw [visitAll_check] at hs
  obtain ⟨types, htys, -⟩ := forall₂_of_foldlM
    (fun c hc => onlyComplains.check h hr (.of_mem hc)) hs
  intro c hc
  obtain ⟨T, -, hT⟩ := exists_of_forall₂ htys hc
  exact ⟨T, hT⟩

section Suffix

variable (hq : ∀ k : t.Sub, k.tree.Within t → OnlyComplains (check k.tree))

include hq

lemma silent_of_suffix {op : t.Sub} (hop : op.tree.Within t)
    (h : Derived .suffixOp op.tree) {state result : Chained}
    (hs : Silent (suffix t (check ·.tree) state op) s result) :
    (∀ c ∈ op.tree.partsOf .expression, ∃ T, Silent (check c) s T) ∧
      ∀ a ∈ op.tree.partsOf .arguments, ∀ c ∈ a.partsOf .expression, ∃ T, Silent (check c) s T := by
  have hex : ∀ {c first}, c ∈ op.tree.partsOf .expression →
      op.tree.children.head? = some first → first.text = "[" → ∃ T, Silent (check c) s T := by
    intro c first hc hf htx
    obtain ⟨k, hk, rfl, -⟩ := exists_of_mem_partsOf h (by decide) hc
    obtain ⟨T, hT, -⟩ := (visited_of_suffix hq hop hf hs).2 htx k hk
    exact ⟨T, hT⟩
  have hargs : ∀ {a first}, a ∈ op.tree.partsOf .arguments →
      op.tree.children.head? = some first → first.text = "(" →
      ∀ c ∈ a.partsOf .expression, ∃ T, Silent (check c) s T := by
    intro a first ha hf htx c hc
    obtain ⟨ka, hka, rfl, -⟩ := exists_of_mem_partsOf h (by decide) ha
    obtain ⟨k, hk, rfl⟩ := exists_kid_of_mem hc
    have hmem : op.lift (ka.lift k) ∈ arguments op := by
      rw [arguments, hka]
      exact mem_map_of_mem hk
    obtain ⟨T, hT, -⟩ := (visited_of_suffix hq hop hf hs).1 htx _ hmem
    exact ⟨T, hT⟩
  obtain ⟨e, p, cs, he, hcs, heq⟩ := id h
  have hnot : ∀ {q c}, Item.mentionsIn q e.body = false → c ∉ op.tree.partsOf q := by
    intro q c hno hc
    obtain ⟨hmem, hof⟩ := mem_filter.1 hc
    rw [heq] at hmem
    exact Bool.false_ne_true (hno.symm.trans (hcs.mentions_of_mem hmem hof))
  rcases mem_three.1 he with rfl | rfl | rfl
  · refine ⟨fun c hc => absurd hc (hnot rfl), fun a ha => ?_⟩
    cases hcs with
    | @token _ o _ _ ho hk hcs =>
      have hf : op.tree.children.head? = some (.leaf o) := by rw [heq]; rfl
      have htx : o.text = "(" := ho.text_eq (by rw [hk]; rfl)
      exact hargs ha hf htx
  · refine ⟨fun c hc => ?_, fun a ha => absurd ha (hnot rfl)⟩
    cases hcs with
    | @token _ o _ _ ho hk hcs =>
      have hf : op.tree.children.head? = some (.leaf o) := by rw [heq]; rfl
      have htx : o.text = "[" := ho.text_eq (by rw [hk]; rfl)
      exact hex hc hf htx
  · exact ⟨fun c hc => absurd hc (hnot rfl), fun a ha => absurd ha (hnot rfl)⟩

lemma silent_of_mem_chain (h : Derived .leftHandSide t)
    (hs : Silent (leftHandSide t (check ·.tree)) s type) :
    ∀ q ∈ valueParts t .leftHandSide, ∃ T, Silent (check q.2) s T := by
  obtain ⟨atom, found, f, result, hat, hfd, -, hfo, -⟩ := silent_of_leftHandSide hq hs
  have hqu : ∀ k ∈ t.kids .suffixOp, ∀ state,
      OnlyComplains (suffix t (check ·.tree) state k) := fun k hk state =>
    onlyComplains.suffix hq (.of_kids hk) state
  intro q hmem
  rcases mem_append.1 hmem with hmem | hmem
  · obtain ⟨c, hc, rfl⟩ := mem_map.1 hmem
    obtain ⟨k, hk, rfl, -⟩ := exists_of_mem_partsOf h (by decide) hc
    cases Option.some.inj (hat.symm.trans hk)
    exact ⟨found, hfd⟩
  · obtain ⟨op, hop, hmem⟩ := mem_flatMap.1 hmem
    obtain ⟨k, hk, rfl⟩ := exists_kid_of_mem hop
    obtain ⟨state, state', hsp⟩ := hfo.of_foldlM hqu k hk
    have hin := Tree.Within.of_kids hk
    obtain ⟨hidx, hargs⟩ := silent_of_suffix hq hin
      (h.of_isOf hin (Tree.of_mem_kids hk).2) hsp
    rcases mem_append.1 hmem with hmem | hmem
    · obtain ⟨c, hc, rfl⟩ := mem_map.1 hmem
      exact hidx c hc
    · obtain ⟨a, ha, hmem⟩ := mem_flatMap.1 hmem
      obtain ⟨c, hc, rfl⟩ := mem_map.1 hmem
      exact hargs a ha c hc

end Suffix

lemma silent_of_mem_atom (h : Derived .primaryAtom t) (hs : Silent (check t) s type) :
    ∀ q ∈ valueParts t .primaryAtom, ∃ T, Silent (check q.2) s T := by
  have hq : ∀ k : t.Sub, k.tree.Within t → OnlyComplains (check k.tree) := fun k hk =>
    onlyComplains.check h rfl hk
  intro q hmem
  obtain ⟨a, ha, hmem⟩ := mem_flatMap.1 hmem
  obtain ⟨c, hc, rfl⟩ := mem_map.1 hmem
  obtain ⟨hamem, haof⟩ := mem_filter.1 ha
  obtain ⟨ka, hka, rfl, -⟩ := exists_of_mem_partsOf h (by decide) ha
  obtain ⟨k, hk, rfl⟩ := exists_kid_of_mem hc
  -- Only a creation has arguments.
  have hnew : Silent (newObject t (check ·.tree)) s type := by
    obtain ⟨e, p, cs, he, hcs, rfl⟩ := h
    have hmd := hcs.mentions_of_mem hamem haof
    rw [check_node] at hs
    rcases mem_three.1 he with rfl | rfl | rfl
    · cases hmd
    · exact hs
    · cases hmd
  obtain ⟨T, hT, -⟩ := visited_of_newObject hq hnew hka k hk
  exact ⟨T, hT⟩

lemma silent_of_operand (h : Derived r t) (hr : r.isOperator = true)
    (hs : Silent (check t) s type) : ∀ c ∈ t.operands, ∃ T, Silent (check c) s T := by
  by_cases hma : 1 < t.children.length
  · have hop : t.isOperator = true := by
      obtain ⟨e, p, cs, -, -, rfl⟩ := h
      exact Bool.and_eq_true_iff.2 ⟨hr, decide_eq_true hma⟩
    obtain ⟨types, htys, -⟩ := demands_of_silent h hop hs
    intro c hc
    obtain ⟨T, -, hT⟩ := exists_of_forall₂ htys hc
    exact ⟨T, hT⟩
  · intro c hc
    have hmem : c ∈ t.children := mem_of_mem_filter hc
    have hq := onlyComplains.check h (Rule.isInExpression_of_isOperator hr) (.of_mem hmem)
    have hpas : ∀ r ∈ Rule.all, r.isOperator = true → ∀ e ∈ production r,
        (⟨r, e.label⟩ : Tag) ∈ Tree.passing := by decide
    obtain ⟨e, p, cs, he, -, rfl⟩ := h
    obtain ⟨d, rfl⟩ : ∃ d, cs = [d] := by
      rw [← length_eq_one_iff]
      have := length_pos_of_mem hmem
      change ¬ 1 < cs.length at hma
      change 0 < cs.length at this
      omega
    cases mem_singleton.1 hmem
    refine ⟨type, silent_of_only hq (hpas r (Rule.mem_all r) hr e he) ?_ hs⟩
    rintro rfl
    cases hr

/-- The target of an assignment does not matter: the whole is checked as its value is. -/
lemma check_assignExpr (h : Derived .assignmentExpr t)
    (htag : t.tag? = some ⟨.assignmentExpr, some .assignExpr⟩) :
    ∃ target o value, t.children = [target, .leaf o, value] ∧ check t = check value := by
  obtain ⟨e, p, cs, he, hcs, heq⟩ := h
  rcases mem_three.1 he with rfl | rfl | rfl
  · have hcheck : check t = visitPart (check ·.tree) (t.kid? .assignmentExpr) := by
      rw [check_eq]
      subst heq
      rfl
    cases hcs with
    | rule _ _ hcs => cases hcs with
    | token _ _ hcs => cases hcs with
    | @rule _ e' p' body _ _ _ _ hcs => cases hcs with
    | nil =>
      have hhd : (t.children.filter (·.isOf .assignmentExpr)).head? =
          some (.node ⟨.assignmentExpr, e'.label⟩ p' body) := by
        rw [heq]
        rfl
      obtain ⟨k, hk, hval⟩ := Tree.kid?_eq_some hhd
      refine ⟨_, _, _, by rw [heq]; rfl, ?_⟩
      rw [hcheck, hk, ← hval]
      rfl
  · rw [heq] at htag
    cases htag
  · rw [heq] at htag
    cases htag

/-- What is evaluated in an expression is checked in the same state. -/
lemma silent_of_mem_valueParts (h : Derived r t) (hr : r.isInExpression = true)
    (hs : Silent (check t) s type) : ∀ q ∈ valueParts t r, ∃ T, Silent (check q.2) s T := by
  have hq : ∀ k : t.Sub, k.tree.Within t → OnlyComplains (check k.tree) := fun k hk =>
    onlyComplains.check h hr hk
  have hops : (∀ c ∈ t.operands, ∃ T, Silent (check c) s T) →
      ∀ q ∈ t.operands.map (([] : List Tree), ·), ∃ T, Silent (check q.2) s T := by
    intro hall q hmem
    obtain ⟨c, hc, rfl⟩ := mem_map.1 hmem
    exact hall c hc
  have hopr : r.isOperator = true →
      ∀ q ∈ t.operands.map (([] : List Tree), ·), ∃ T, Silent (check q.2) s T := fun hop =>
    hops (silent_of_operand h hop hs)
  have hchs : Silent (visitAll fun k : t.Sub => check k.tree) s type →
      ∀ q ∈ t.operands.map (([] : List Tree), ·), ∃ T, Silent (check q.2) s T := fun hs =>
    hops fun c hc => silent_of_child h hr hs c (mem_of_mem_filter hc)
  obtain ⟨e, p, cs, he, hcs, rfl⟩ := id h
  have hs' := hs
  rw [check_node] at hs'
  cases r with try cases mem_singleton.1 he
  | expression =>
    exact hchs hs'
  | assignmentExpr =>
    intro q hmem
    obtain ⟨c, hc, rfl⟩ := mem_map.1 hmem
    have hnot : ∀ {q}, Item.mentionsIn q e.body = false →
        c ∉ (Tree.node ⟨.assignmentExpr, e.label⟩ p cs).partsOf q := by
      intro q hno hc
      obtain ⟨hmem, hof⟩ := mem_filter.1 hc
      exact Bool.false_ne_true (hno.symm.trans (hcs.mentions_of_mem hmem hof))
    rcases mem_three.1 he with rfl | rfl | rfl <;> rcases mem_append.1 hc with hc | hc
    · exact silent_of_kid h (by decide) hs' c hc
    · exact absurd hc (hnot rfl)
    · exact silent_of_kid h (by decide) hs' c hc
    · exact absurd hc (hnot rfl)
    · exact absurd hc (hnot rfl)
    · exact silent_of_kid h (by decide) hs' c hc
  | conditionalExpr => exact hopr rfl
  | logicalOrExpr => exact hopr rfl
  | logicalAndExpr => exact hopr rfl
  | equalityExpr => exact hopr rfl
  | relationalExpr => exact hopr rfl
  | additiveExpr => exact hopr rfl
  | multiplicativeExpr => exact hopr rfl
  | unaryExpr => exact hopr rfl
  | primaryExpr =>
    rcases mem_three.1 he with rfl | rfl | rfl <;> exact hchs hs'
  | literalExpr =>
    simp only [production, mem_cons, not_mem_nil, or_false] at he
    rcases he with rfl | rfl | rfl | rfl | rfl <;> exact hchs hs'
  | leftHandSide =>
    exact silent_of_mem_chain hq h hs'
  | primaryAtom => exact silent_of_mem_atom h hs
  | arrayLiteral =>
    refine hops fun c hc => ?_
    rw [Tree.operands_eq (q := .expression) h rfl (by decide)] at hc
    obtain ⟨k, hk, rfl⟩ := exists_kid_of_mem hc
    obtain ⟨T, hT, -⟩ := visited_of_arrayLiteral hq hs' k hk
    exact ⟨T, hT⟩
  | suffixOp | arguments => exact fun q hmem => by cases hmem
  | _ => cases hr

end Check

end Compiscript
