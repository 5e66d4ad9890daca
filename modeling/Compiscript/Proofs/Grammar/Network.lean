import Compiscript.Grammar.Network
import Mathlib.Data.List.Forall2

/-!
# The Network and the Grammar

The network of a grammar says what the grammar says.

`Leads` goes along the nodes with a list of items in hand, and `Holds` asks that
every expansion of a rule leads from the start of the rule to its end. Nodes are
only ever added to a network, with one exception: the decision of a repeated
group stands in front of its body and is filled in once the body is there.
-/

namespace Compiscript.Network

section Leads

variable (net : Network)

mutual

/-- An item leads from a node to a node. A repeated group may be come to from
    outside or from its own body. -/
def ItemLeads : Item → Nat → Nat → Prop
  | .token k, m, n => net.node m = .token k n
  | .oneOf ks, m, n => net.node m = .oneOf (.ofList ks) n
  | .rule r, m, n => net.node m = .call r n
  | .optional body, m, n => ∃ first, net.node m = .fork .optional [first, n] ∧ Leads body first n
  | .repeated body, m, n =>
    ∃ entry first, (m = entry ∨ m = entry + 1) ∧ net.node entry = .fork .repeated [first, n] ∧
      net.node (entry + 1) = .again entry ∧ Leads body first (entry + 1)
  | .choice alts, m, n => ∃ firsts, net.node m = .fork .choice firsts ∧ BodiesLead alts firsts n

/-- A list of items leads from a node to a node. -/
def Leads : List Item → Nat → Nat → Prop
  | [], m, n => m = n
  | item :: rest, m, n => ∃ k, ItemLeads item m k ∧ Leads rest k n

/-- Several lists of items lead from nodes of their own to the same node. -/
def BodiesLead : List (List Item) → List Nat → Nat → Prop
  | [], [], _ => True
  | body :: rest, first :: firsts, n => Leads body first n ∧ BodiesLead rest firsts n
  | _, _, _ => False

end

/-- An expansion leads from a node to a node. -/
def Begins (e : Expansion) (m n : Nat) : Prop :=
  match e.label with
  | none => net.Leads e.body m n
  | some l => ∃ first, net.node m = .name l first ∧ net.Leads e.body first n

/-- One of several expansions leads from a node to a node. A single one is no decision. -/
def Splits (es : List Expansion) (m n : Nat) : Prop :=
  (∃ e, es = [e] ∧ net.Begins e m n) ∨
    es.length ≠ 1 ∧ ∃ firsts, net.node m = .fork .choice firsts ∧
      List.Forall₂ (fun e first => net.Begins e first n) es firsts

/-- The network of a rule is that of its expansions. -/
structure Holds (r : Rule) (es : List Expansion) : Prop where
  stop : net.node r.index = .stop r
  splits : net.Splits es (net.start r) r.index

variable {net}

variable {n : Nat} {firsts : List Nat} {first : Nat}

lemma Leads.append {a b : List Item} {m k : Nat} (ha : net.Leads a m k)
    (hb : net.Leads b k n) : net.Leads (a ++ b) m n := by
  induction a generalizing m with
  | nil => exact ha ▸ hb
  | cons item a ih =>
    obtain ⟨j, hit, ha⟩ := ha
    exact ⟨j, hit, ih ha⟩

lemma BodiesLead.exists_of_mem {alts : List (List Item)}
    (h : net.BodiesLead alts firsts n) (hf : first ∈ firsts) :
    ∃ body ∈ alts, net.Leads body first n := by
  induction alts generalizing firsts with
  | nil =>
    cases firsts with
    | nil => cases hf
    | cons => exact h.elim
  | cons body alts ih =>
    cases firsts with
    | nil => exact h.elim
    | cons f firsts =>
      rcases List.mem_cons.1 hf with rfl | hf
      · exact ⟨body, .head _, h.1⟩
      · obtain ⟨b, hb, hld⟩ := ih h.2 hf
        exact ⟨b, .tail _ hb, hld⟩

lemma Begins.exists_of_mem {es : List Expansion}
    (h : List.Forall₂ (fun e first => net.Begins e first n) es firsts) (hf : first ∈ firsts) :
    ∃ e ∈ es, net.Begins e first n := by
  induction h with
  | nil => cases hf
  | @cons e f es firsts hef _ ih =>
    rcases List.mem_cons.1 hf with rfl | hf
    · exact ⟨e, .head _, hef⟩
    · obtain ⟨e', he', hbeg⟩ := ih hf
      exact ⟨e', .tail _ he', hbeg⟩

end Leads

section Adds

/-- Some nodes are added to others, which stay as they are, and then a claim is
    true of every network that has the new ones in the same places. -/
structure Adds (nodes nodes' : Array Node) (claim : Network → Prop) : Prop where
  le : nodes.size ≤ nodes'.size
  keeps (i : Nat) : i < nodes.size → nodes'[i]? = nodes[i]?
  holds (net : Network) :
    (∀ i, nodes.size ≤ i → i < nodes'.size → net.nodes[i]? = nodes'[i]?) → claim net

variable {a b c : Array Node} {p q : Network → Prop}

lemma Adds.refl (a : Array Node) : Adds a a fun _ => True :=
  ⟨Nat.le_refl _, fun _ _ => rfl, fun _ _ => trivial⟩

lemma Adds.imp (h : Adds a b p) (himp : ∀ net, p net → q net) : Adds a b q :=
  ⟨h.le, h.keeps, fun net hnet => himp net (h.holds net hnet)⟩

lemma Adds.trans (h : Adds a b p) (h' : Adds b c q) : Adds a c fun net => p net ∧ q net where
  le := Nat.le_trans h.le h'.le
  keeps i hi := (h'.keeps i (Nat.lt_of_lt_of_le hi h.le)).trans (h.keeps i hi)
  holds net hnet := by
    refine ⟨h.holds net fun i hi hi' => ?_, h'.holds net fun i hi hi' => ?_⟩
    · rw [← h'.keeps i hi']
      exact hnet i hi (Nat.lt_of_lt_of_le hi' h'.le)
    · exact hnet i (Nat.le_trans h.le hi) hi'

variable {x : Node}

lemma node_of_getElem? {net : Network} {n : Nat} (h : net.nodes[n]? = some x) : net.node n = x := by
  rw [node, net.places_eq, Array.getElem?_toList, h]
  rfl

lemma Adds.push (a : Array Node) (x : Node) : Adds a (a.push x) fun net => net.node a.size = x where
  le := by simp
  keeps i hi := by
    rw [Array.getElem?_push_lt hi, Array.getElem?_eq_getElem hi]
  holds net hnet := by
    refine node_of_getElem? ?_
    rw [hnet a.size (Nat.le_refl _) (by simp)]
    exact Array.getElem?_push_size

/-- The decision of a repeated group, which is filled in last. -/
lemma Adds.loop {y z : Node} (h : Adds ((a.push x).push y) b p) :
    Adds a (b.setIfInBounds a.size z) fun net =>
      net.node a.size = z ∧ net.node (a.size + 1) = y ∧ p net := by
  have hsz : a.size + 2 ≤ b.size := by
    have := h.le
    simp only [Array.size_push] at this
    omega
  -- From the second node on it is as if nothing had been filled in.
  have hr : Adds (a.push x) b fun net => net.node (a.push x).size = y ∧ p net :=
    (Adds.push _ y).trans h
  refine ⟨by simp; omega, fun i hi => ?_, fun net hnet => ⟨?_, ?_⟩⟩
  · rw [Array.getElem?_setIfInBounds_ne (by omega), hr.keeps i (by simp; omega),
      Array.getElem?_push_lt hi, Array.getElem?_eq_getElem hi]
  · refine node_of_getElem? ?_
    rw [hnet a.size (Nat.le_refl _) (by simp; omega)]
    exact Array.getElem?_setIfInBounds_self_of_lt (by omega)
  · have hho := hr.holds net fun i hi hi' => ?_
    · rwa [Array.size_push] at hho
    · rw [Array.size_push] at hi
      rw [hnet i (by omega) (by simpa using hi'), Array.getElem?_setIfInBounds_ne (by omega)]

mutual

lemma adds_item (a : Array Node) (next : Nat) : (item : Item) →
    Adds a (addItem a next item).1 fun net => net.ItemLeads item (addItem a next item).2 next
  | .token _ => Adds.push a _
  | .oneOf _ => Adds.push a _
  | .rule _ => Adds.push a _
  | .optional body =>
    ((adds_items a next body).trans (Adds.push _ _)).imp fun _ h => ⟨_, h.2, h.1⟩
  | .repeated body =>
    (Adds.loop (adds_items _ (a.size + 1) body)).imp fun _ h =>
      ⟨a.size, _, .inl rfl, h.1, h.2.1, h.2.2⟩
  | .choice alts =>
    ((adds_bodies a next alts).trans (Adds.push _ _)).imp fun _ h => ⟨_, h.2, h.1⟩

lemma adds_items (a : Array Node) (next : Nat) : (items : List Item) →
    Adds a (addItems a next items).1 fun net => net.Leads items (addItems a next items).2 next
  | [] => (Adds.refl a).imp fun _ _ => rfl
  | item :: rest =>
    ((adds_items a next rest).trans (adds_item _ _ item)).imp fun _ h => ⟨_, h.2, h.1⟩

lemma adds_bodies (a : Array Node) (next : Nat) : (alts : List (List Item)) →
    Adds a (addBodies a next alts).1 fun net => net.BodiesLead alts (addBodies a next alts).2 next
  | [] => Adds.refl a
  | body :: rest =>
    ((adds_items a next body).trans (adds_bodies _ next rest)).imp fun _ h => h

end

lemma adds_alternative (a : Array Node) (next : Nat) (e : Expansion) :
    Adds a (addAlternative a next e).1 fun net =>
      net.Begins e (addAlternative a next e).2 next := by
  have hbd := adds_items a next e.body
  unfold addAlternative
  cases hl : e.label with
  | none => exact hbd.imp fun net h => by rw [Begins, hl]; exact h
  | some l =>
    refine (hbd.trans (Adds.push _ (.name l _))).imp fun net h => ?_
    rw [Begins, hl]
    exact ⟨_, h.2, h.1⟩

lemma adds_alternatives (a : Array Node) (next : Nat) (es : List Expansion) :
    Adds a (addAlternatives a next es).1 fun net =>
      List.Forall₂ (fun e first => net.Begins e first next) es (addAlternatives a next es).2 := by
  induction es generalizing a with
  | nil => exact (Adds.refl a).imp fun _ _ => .nil
  | cons e es ih => exact ((adds_alternative a next e).trans (ih _)).imp fun _ h => .cons h.1 h.2

lemma adds_rule (a : Array Node) (r : Rule) (es : List Expansion) :
    Adds a (addRule a r es).1 fun net => net.Splits es (addRule a r es).2 r.index := by
  have hes := adds_alternatives a r.index es
  unfold addRule
  split
  · rename_i nodes first heq
    rw [heq] at hes
    refine hes.imp fun net h => .inl ?_
    rcases h with _ | ⟨hf, _ | _⟩
    exact ⟨_, rfl, hf⟩
  · rename_i nodes firsts hne heq
    rw [heq] at hes
    refine (hes.trans (Adds.push nodes _)).imp fun net h => .inr ⟨fun hlen => ?_, firsts, h.2, h.1⟩
    obtain ⟨first, rfl⟩ := List.length_eq_one_iff.1 (h.1.length_eq ▸ hlen)
    exact hne first rfl

end Adds

section Productions

variable (productions : Rule → List Expansion)

/-- Add a rule to a network. -/
def extend (net : Network) (r : Rule) : Network :=
  { nodes := (addRule net.nodes r (productions r)).1
    starts := net.starts.push (addRule net.nodes r (productions r)).2 }

lemma ofProductions_eq : ofProductions productions = Rule.all.foldl (extend productions)
      { nodes := (Rule.all.map Node.stop).toArray, starts := #[] } :=
  rfl

lemma starts_extend (rs : List Rule) (net : Network) {i : Nat} (hi : i < net.starts.size) :
    (rs.foldl (extend productions) net).starts[i]? = net.starts[i]? := by
  induction rs generalizing net with
  | nil => rfl
  | cons r rs ih =>
    rw [List.foldl_cons, ih _ (by simp only [extend, Array.size_push]; omega), extend,
      Array.getElem?_push_lt hi, Array.getElem?_eq_getElem hi]

lemma adds_extend (rs : List Rule) (net : Network) :
    Adds net.nodes (rs.foldl (extend productions) net).nodes fun net' =>
      ∀ i r, rs[i]? = some r → ∃ start,
        (rs.foldl (extend productions) net).starts[net.starts.size + i]? = some start ∧
          net'.Splits (productions r) start r.index := by
  induction rs generalizing net with
  | nil => exact (Adds.refl _).imp fun _ _ i r h => by simp at h
  | cons r rs ih =>
    refine ((adds_rule net.nodes r (productions r)).trans (ih (extend productions net r))).imp ?_
    intro net' h i r' hi
    have hsz : (extend productions net r).starts.size = net.starts.size + 1 :=
      Array.size_push _
    rw [List.foldl_cons]
    cases i with
    | zero =>
      cases hi
      refine ⟨_, ?_, h.1⟩
      rw [Nat.add_zero, starts_extend productions rs _ (by omega)]
      exact Array.getElem?_push_size
    | succ i =>
      have hr := h.2 i r' hi
      rwa [hsz, show net.starts.size + 1 + i = net.starts.size + (i + 1) by omega] at hr

lemma all_index (r : Rule) : Rule.all[r.index]? = some r := by
  cases r <;> rfl

/-- The network of a grammar says what the grammar says. -/
lemma holds_ofProductions (r : Rule) : (ofProductions productions).Holds r (productions r) := by
  have hadds := adds_extend productions Rule.all
    { nodes := (Rule.all.map Node.stop).toArray, starts := #[] }
  have hall := hadds.holds (ofProductions productions) fun _ _ _ => rfl
  obtain ⟨start, hst, hspl⟩ := hall r.index r (all_index r)
  rw [← ofProductions_eq, Array.size_empty, Nat.zero_add] at hst
  refine ⟨node_of_getElem? ?_, ?_⟩
  · have hlt : r.index < (Rule.all.map Node.stop).toArray.size := by
      cases r <;> decide
    rw [ofProductions_eq, hadds.keeps r.index hlt]
    simp [all_index]
  · rw [Network.start, Array.getElem?_toList, hst]
    exact hspl

lemma size_ofProductions : 46 ≤ (ofProductions productions).nodes.size := by
  have hsz : (Rule.all.map Node.stop).toArray.size = 46 := rfl
  rw [ofProductions_eq, ← hsz]
  exact (adds_extend productions Rule.all
    { nodes := (Rule.all.map Node.stop).toArray, starts := #[] }).le

end Productions

end Compiscript.Network
