import Compiscript.Proofs.Grammar.Derivation
import Compiscript.Proofs.Tree.Within
import Compiscript.Tree.Parts

/-!
# The Parts of a Derivation

What is known about the children of a node that was made by the grammar.

An item that stands in an alternative by itself, and not in a group that may be
passed by, has left its tree among the children. And every child is a token or
has a derivation of its own, so that what is said about derivations can be said
about all trees that occur in one.
-/

namespace Compiscript

open List

namespace Item

/-- Whether an item surely leaves a part among the children. -/
def shows : Item → Part → Bool
  | .token k, .token k' => k == k'
  | .rule r, .rule r' => r == r'
  | _, _ => false

mutual

/-- Whether an item may leave a tree of a rule among the children. -/
def mentions (r : Rule) : Item → Bool
  | .rule r' => r' == r
  | .optional body | .repeated body => mentionsIn r body
  | .choice alts => mentionsInAny r alts
  | _ => false

/-- Whether one of several items may leave a tree of a rule. -/
def mentionsIn (r : Rule) : List Item → Bool
  | [] => false
  | item :: rest => mentions r item || mentionsIn r rest

/-- Whether one of several lists of items may leave a tree of a rule. -/
def mentionsInAny (r : Rule) : List (List Item) → Bool
  | [] => false
  | body :: rest => mentionsIn r body || mentionsInAny r rest

end

mutual

/-- How many trees of a rule an item leaves among the children at most. Three stands
    for any number. -/
def most (r : Rule) : Item → Nat
  | .rule r' => if r' = r then 1 else 0
  | .optional body => mostIn r body
  | .repeated body => if mentionsIn r body then 3 else 0
  | .choice alts => if mentionsInAny r alts then 3 else 0
  | .token _ | .oneOf _ => 0

/-- How many trees of a rule several items leave at most. -/
def mostIn (r : Rule) : List Item → Nat
  | [] => 0
  | item :: rest => most r item + mostIn r rest

end

variable {r : Rule}

lemma mentionsIn_append (as bs : List Item) :
    mentionsIn r (as ++ bs) = (mentionsIn r as || mentionsIn r bs) := by
  induction as with
  | nil => rfl
  | cons a as ih => rw [cons_append, mentionsIn, mentionsIn, ih, Bool.or_assoc]

lemma mentionsInAny_of_mem {alts : List (List Item)} {body : List Item} (hmem : body ∈ alts)
    (h : mentionsIn r body = true) : mentionsInAny r alts = true := by
  induction alts with
  | nil => cases hmem
  | cons b alts ih =>
    rw [mentionsInAny, Bool.or_eq_true]
    rcases mem_cons.1 hmem with rfl | hmem
    · exact .inl h
    · exact .inr (ih hmem)

lemma mostIn_append (as bs : List Item) : mostIn r (as ++ bs) = mostIn r as + mostIn r bs := by
  induction as with
  | nil => simp [mostIn]
  | cons a as ih => rw [cons_append, mostIn, mostIn, ih, Nat.add_assoc]

mutual

lemma most_eq_zero (item : Item) (h : mentions r item = false) : most r item = 0 := by
  cases item with
  | token | oneOf => rfl
  | rule r' =>
    rw [mentions, beq_eq_false_iff_ne] at h
    rw [most, if_neg h]
  | optional body =>
    rw [mentions] at h
    rw [most, mostIn_eq_zero body h]
  | repeated body | choice body =>
    rw [mentions] at h
    rw [most, h]
    rfl

lemma mostIn_eq_zero (items : List Item) (h : mentionsIn r items = false) : mostIn r items = 0 := by
  cases items with
  | nil => rfl
  | cons item rest =>
    rw [mentionsIn, Bool.or_eq_false_iff] at h
    rw [mostIn, most_eq_zero item h.1, mostIn_eq_zero rest h.2]

end

end Item

variable {P : Token → Prop} {items : List Item} {cs : List Tree}

namespace Parses

/-- What an item surely leaves is there. -/
lemma exists_part (h : Parses P items cs) {part : Part} {item : Item} (hmem : item ∈ items)
    (hsho : item.shows part = true) : ∃ c ∈ cs, part.fits c = true := by
  -- The tree of an item that has been read stands first.
  have hlat : ∀ {c : Tree} {cs : List Tree}, (∃ c ∈ cs, part.fits c = true) →
      ∃ d ∈ c :: cs, part.fits d = true :=
    fun ⟨d, hd, hft⟩ => ⟨d, .tail _ hd, hft⟩
  induction h with
  | nil => cases hmem
  | @token k t rest cs ht hk _ ih =>
    rcases mem_cons.1 hmem with rfl | hmem
    · refine ⟨.leaf t, .head _, ?_⟩
      cases part with
      | rule r => cases hsho
      | token k' =>
        have hkk : k = k' := eq_of_beq hsho
        exact beq_iff_eq.2 (hk.trans hkk)
    · exact hlat (ih hmem)
  | oneOf _ _ _ ih =>
    rcases mem_cons.1 hmem with rfl | hmem
    · cases part <;> cases hsho
    · exact hlat (ih hmem)
  | @rule r e start body cs rest he _ _ _ ih =>
    rcases mem_cons.1 hmem with rfl | hmem
    · refine ⟨_, .head _, ?_⟩
      cases part with
      | rule r' => exact hsho
      | token k => cases hsho
    · exact hlat (ih hmem)
  | skip _ ih | stop _ ih =>
    rcases mem_cons.1 hmem with rfl | hmem
    · cases part <;> cases hsho
    · exact ih hmem
  | take _ ih | choice _ _ ih =>
    rcases mem_cons.1 hmem with rfl | hmem
    · cases part <;> cases hsho
    · exact ih (mem_append_right _ hmem)
  | more _ ih => exact ih (mem_append_right _ hmem)

variable {c : Tree} {r : Rule}

/-- Every child is a token or has a derivation. -/
lemma derives_of_mem (h : Parses P items cs) (hc : c ∈ cs) :
    (∃ t, P t ∧ c = .leaf t) ∨ ∃ r, Derives P r c := by
  induction h with
  | nil => cases hc
  | token ht _ _ ih | oneOf ht _ _ ih =>
    rcases mem_cons.1 hc with rfl | hc
    · exact .inl ⟨_, ht, rfl⟩
    · exact ih hc
  | rule he hb _ _ ih =>
    rcases mem_cons.1 hc with rfl | hc
    · exact .inr ⟨_, _, _, _, he, hb, rfl⟩
    · exact ih hc
  | skip _ ih => exact ih hc
  | take _ ih => exact ih hc
  | stop _ ih => exact ih hc
  | more _ ih => exact ih hc
  | choice _ _ ih => exact ih hc

/-- A child that was made by a rule was made by one that is mentioned. -/
lemma mentions_of_mem (h : Parses P items cs) (hc : c ∈ cs)
    (hr : c.isOf r = true) : Item.mentionsIn r items = true := by
  induction h with
  | nil => cases hc
  | token _ _ _ ih | oneOf _ _ _ ih =>
    rw [Item.mentionsIn, Bool.or_eq_true]
    rcases mem_cons.1 hc with rfl | hc
    · cases hr
    · exact .inr (ih hc)
  | rule _ _ _ _ ih =>
    rw [Item.mentionsIn, Bool.or_eq_true]
    rcases mem_cons.1 hc with rfl | hc
    · exact .inl hr
    · exact .inr (ih hc)
  | skip _ ih | stop _ ih =>
    rw [Item.mentionsIn, Bool.or_eq_true]
    exact .inr (ih hc)
  | take _ ih =>
    have hment := ih hc
    rwa [Item.mentionsIn_append] at hment
  | more _ ih =>
    have hment := ih hc
    rw [Item.mentionsIn_append, Item.mentionsIn, ← Bool.or_assoc] at hment
    rwa [Item.mentions, Bool.or_self] at hment
  | choice hb _ ih =>
    have hment := ih hc
    rw [Item.mentionsIn_append, Bool.or_eq_true] at hment
    rw [Item.mentionsIn, Bool.or_eq_true]
    exact hment.imp_left (Item.mentionsInAny_of_mem hb)

/-- What is left once or twice at most is not there more often. -/
lemma length_filter_le (h : Parses P items cs) (hfew : Item.mostIn r items ≤ 2) :
    (cs.filter (·.isOf r)).length ≤ Item.mostIn r items := by
  induction h with
  | nil => exact Nat.le_refl 0
  | token _ _ _ ih | oneOf _ _ _ ih =>
    rw [Item.mostIn, Item.most, Nat.zero_add] at hfew ⊢
    exact ih hfew
  | @rule r' _ _ _ _ _ _ _ _ _ ih =>
    rw [Item.mostIn, Item.most] at hfew ⊢
    by_cases hr : r' = r
    · rw [if_pos hr] at hfew ⊢
      rw [filter_cons_of_pos (by simpa [Tree.isOf] using hr), length_cons]
      have := ih (by omega)
      omega
    · rw [if_neg hr] at hfew ⊢
      rw [filter_cons_of_neg (by simpa [Tree.isOf] using hr)]
      have := ih (by omega)
      omega
  | skip _ ih | stop _ ih =>
    rw [Item.mostIn] at hfew ⊢
    have := ih (by omega)
    omega
  | take _ ih =>
    rw [Item.mostIn, Item.most] at hfew ⊢
    rw [Item.mostIn_append] at ih
    exact ih hfew
  | @more body rest _ _ ih =>
    have hb : Item.mentionsIn r body = false := by
      by_contra hb
      rw [Bool.not_eq_false] at hb
      rw [Item.mostIn, Item.most, hb, if_pos rfl] at hfew
      omega
    rw [Item.mostIn_append, Item.mostIn_eq_zero body hb, Nat.zero_add] at ih
    exact ih hfew
  | @choice alts body rest _ hmem _ ih =>
    have halts : Item.mentionsInAny r alts = false := by
      by_contra halts
      rw [Bool.not_eq_false] at halts
      rw [Item.mostIn, Item.most, halts, if_pos rfl] at hfew
      omega
    have hb : Item.mentionsIn r body = false :=
      Bool.eq_false_iff.2 fun hb => by rw [Item.mentionsInAny_of_mem hmem hb] at halts; cases halts
    rw [Item.mostIn, Item.most, halts]
    rw [Item.mostIn, Item.most, halts] at hfew
    rw [Item.mostIn_append, Item.mostIn_eq_zero body hb] at ih
    exact ih hfew

end Parses

/-- A condition that holds for tokens and for what the grammar makes holds for
    all trees that occur in a derivation. -/
lemma Derives.everywhere {p : Tree → Prop} (hleaf : ∀ t, P t → p (.leaf t))
    (hnd : ∀ r t, Derives P r t → p t) {r : Rule} {t : Tree} (h : Derives P r t) :
    t.Everywhere p := by
  -- Going down, every tree is a token or has a derivation.
  have hdown : ∀ c, c.Within t → (∃ tok, P tok ∧ c = .leaf tok) ∨ ∃ r, Derives P r c := by
    intro c hc
    induction hc using Relation.ReflTransGen.head_induction_on with
    | refl => exact .inr ⟨r, h⟩
    | head hmem _ ih =>
      rcases ih with ⟨tok, -, rfl⟩ | ⟨r', e, start, cs, -, hcs, rfl⟩
      · cases hmem
      · exact hcs.derives_of_mem hmem
  intro c hc
  rcases hdown c hc with ⟨tok, htok, rfl⟩ | ⟨r', hr'⟩
  · exact hleaf tok htok
  · exact hnd r' c hr'

section Within

variable {r : Rule} {t c : Tree}

/-- What occurs in a derivation has a derivation. -/
lemma Derives.of_within (h : Derives P r t) (hc : c.Within t) {tag : Tag}
    (htag : c.tag? = some tag) : Derives P tag.rule c := by
  have hall : t.Everywhere fun c => ∀ tag, c.tag? = some tag → Derives P tag.rule c := by
    refine h.everywhere (fun tok _ tag htag => ?_) fun r c hc tag htag => ?_
    · cases htag
    · obtain ⟨e, start, cs, he, hcs, rfl⟩ := hc
      cases htag
      exact ⟨e, start, cs, he, hcs, rfl⟩
  exact hall c hc tag htag

variable {r' q : Rule} {k : t.Sub}

lemma Derives.of_isOf (h : Derives P r t) (hc : c.Within t)
    (hof : c.isOf r' = true) : Derives P r' c := by
  obtain ⟨l, p, cs, rfl⟩ := Tree.exists_of_isOf hof
  exact h.of_within hc rfl

/-- A set of rules that only lead to rules of the set. -/
def Rule.Closed (p : Rule → Bool) : Prop :=
  ∀ r ∈ Rule.all, p r = true → ∀ e ∈ production r, ∀ r' ∈ Rule.all,
    Item.mentionsIn r' e.body = true → p r' = true

instance (p : Rule → Bool) : Decidable (Rule.Closed p) :=
  inferInstanceAs (Decidable (∀ r ∈ Rule.all, p r = true → ∀ e ∈ production r, ∀ r' ∈ Rule.all,
    Item.mentionsIn r' e.body = true → p r' = true))

/-- The rules of a derivation are in any closed set that the first one is in. -/
lemma Derives.everywhere_rule {p : Rule → Bool} (hp : Rule.Closed p) (h : Derives P r t)
    (hr : p r = true) : t.Everywhere fun c => ∀ tag, c.tag? = some tag → p tag.rule = true := by
  intro c hc
  induction hc using Relation.ReflTransGen.head_induction_on with
  | refl =>
    intro tag htag
    obtain ⟨e, start, cs, -, -, rfl⟩ := h
    cases htag
    exact hr
  | @head d c' hmem hin ih =>
    intro tag htag
    cases c' with
    | node tag' start cs =>
      have hpar : Derives P tag'.rule (.node tag' start cs) := h.of_within hin rfl
      obtain ⟨e, start', cs', he, hcs, heq⟩ := hpar
      obtain ⟨-, -, rfl⟩ := Tree.node.inj heq
      have hof : d.isOf tag.rule = true := by
        cases d with
        | node tag'' _ _ =>
          cases htag
          exact beq_self_eq_true _
        | leaf _ => cases htag
        | bad _ => cases htag
      exact hp _ (Rule.mem_all _) (ih tag' rfl) e he _ (Rule.mem_all _)
        (hcs.mentions_of_mem hmem hof)
    | leaf _ => cases hmem
    | bad _ => cases hmem

/-- What is true of every rule of which a node may have a tree among its children. -/
def Rule.MentionsOnly (r : Rule) (p : Rule → Prop) : Prop :=
  ∀ e ∈ production r, ∀ q ∈ Rule.all, Item.mentionsIn q e.body = true → p q

instance (r : Rule) (p : Rule → Prop) [DecidablePred p] : Decidable (r.MentionsOnly p) :=
  inferInstanceAs (Decidable (∀ e ∈ production r, ∀ q ∈ Rule.all,
    Item.mentionsIn q e.body = true → p q))

/-- If the alternatives of a rule mention only one rule, other children are tokens. -/
lemma Derives.leaf_of_mem (h : Derives P r t) (hc : c ∈ t.children)
    (ho : r.MentionsOnly fun q => q = r') (hno : c.isOf r' = false) : ∃ tok, c = .leaf tok := by
  obtain ⟨e, start, cs, he, hcs, rfl⟩ := h
  rcases hcs.derives_of_mem hc with ⟨tok, -, rfl⟩ | ⟨q, e', start', cs', -, -, rfl⟩
  · exact ⟨tok, rfl⟩
  · have hof : (Tree.node ⟨q, e'.label⟩ start' cs').isOf q = true := beq_self_eq_true _
    cases ho e he q (Rule.mem_all q) (hcs.mentions_of_mem hc hof)
    rw [hno] at hof
    cases hof

/-- A child is a token, or was made by a rule that the alternatives mention. -/
lemma Derives.leaf_or_mentioned (h : Derives P r t) (hc : c ∈ t.children) : (∃ tok, c = .leaf tok) ∨
      ∃ q, c.isOf q = true ∧ ∃ e ∈ production r, Item.mentionsIn q e.body = true := by
  obtain ⟨e, start, cs, he, hcs, rfl⟩ := h
  rcases hcs.derives_of_mem hc with ⟨tok, -, rfl⟩ | ⟨q, e', start', cs', -, -, rfl⟩
  · exact .inl ⟨tok, rfl⟩
  · have hof : (Tree.node ⟨q, e'.label⟩ start' cs').isOf q = true := beq_self_eq_true _
    exact .inr ⟨q, hof, e, he, hcs.mentions_of_mem hc hof⟩

lemma Derives.length_kids_le (h : Derives P r t) {n : Nat} (hn : n ≤ 2)
    (hfew : ∀ e ∈ production r, Item.mostIn q e.body ≤ n) : (t.kids q).length ≤ n := by
  rw [← length_map (f := Tree.Sub.tree), Tree.kids_map_tree]
  obtain ⟨e, p, cs, he, hcs, rfl⟩ := h
  exact (hcs.length_filter_le ((hfew e he).trans hn)).trans (hfew e he)

lemma Derives.kids_of_kid? (h : Derives P r t)
    (hone : ∀ e ∈ production r, Item.mostIn q e.body ≤ 1) (hk : t.kid? q = some k) :
    t.kids q = [k] := by
  match hks : t.kids q, h.length_kids_le (by decide) hone with
  | [], _ => simp [Tree.kid?, hks] at hk
  | [k'], _ =>
    rw [Tree.kid?, hks] at hk
    rw [Option.some.inj hk]

lemma Derives.kid?_of_mem (h : Derives P r t)
    (hone : ∀ e ∈ production r, Item.mostIn q e.body ≤ 1) (hk : k ∈ t.kids q) :
    t.kid? q = some k := by
  cases hkid : t.kid? q with
  | none =>
    rw [head?_eq_none_iff.1 hkid] at hk
    cases hk
  | some k' =>
    rw [h.kids_of_kid? hone hkid, mem_singleton] at hk
    rw [hk]

end Within

end Compiscript
