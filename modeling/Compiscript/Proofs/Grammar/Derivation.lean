import Compiscript.Tree

/-!
# Derivations

Which trees the grammar allows.

`Parses` reads a list of items off a list of trees, from left to right. What is
left of a group that has been entered stands in front of what follows the group,
so a list of items always says all that is still to come; a text with optional
parts is then taken apart by going down one list, with nothing to be split.
-/

namespace Compiscript

open List

section Derivation

variable (P : Token → Prop)

/-- The trees that a list of items stands for, with tokens from `P`. -/
inductive Parses : List Item → List Tree → Prop where
  | nil : Parses [] []
  | token {k : Kind} {t : Token} {rest : List Item} {cs : List Tree} (ht : P t) (hk : t.kind = k)
      (h : Parses rest cs) : Parses (.token k :: rest) (.leaf t :: cs)
  | oneOf {ks : List Kind} {t : Token} {rest : List Item} {cs : List Tree} (ht : P t)
      (hk : t.kind ∈ ks) (h : Parses rest cs) : Parses (.oneOf ks :: rest) (.leaf t :: cs)
  | rule {r : Rule} {e : Expansion} {start : Pos} {body cs : List Tree} {rest : List Item}
      (he : e ∈ production r) (hb : Parses e.body body) (h : Parses rest cs) :
      Parses (.rule r :: rest) (.node ⟨r, e.label⟩ start body :: cs)
  | skip {body rest : List Item} {cs : List Tree} (h : Parses rest cs) :
      Parses (.optional body :: rest) cs
  | take {body rest : List Item} {cs : List Tree} (h : Parses (body ++ rest) cs) :
      Parses (.optional body :: rest) cs
  | stop {body rest : List Item} {cs : List Tree} (h : Parses rest cs) :
      Parses (.repeated body :: rest) cs
  | more {body rest : List Item} {cs : List Tree}
      (h : Parses (body ++ .repeated body :: rest) cs) : Parses (.repeated body :: rest) cs
  | choice {alts : List (List Item)} {body rest : List Item} {cs : List Tree} (hb : body ∈ alts)
      (h : Parses (body ++ rest) cs) : Parses (.choice alts :: rest) cs

/-- The trees that a rule stands for. -/
def Derives (r : Rule) (t : Tree) : Prop :=
  ∃ e start cs, e ∈ production r ∧ Parses P e.body cs ∧ t = .node ⟨r, e.label⟩ start cs

end Derivation

/-- Most rules with several expansions have three. -/
theorem mem_three {e a b c : Expansion} : e ∈ [a, b, c] ↔ e = a ∨ e = b ∨ e = c := by
  simp only [mem_cons, not_mem_nil, or_false]

namespace Tree

mutual

/-- The tokens of a tree, from left to right. -/
def leaves : Tree → List Token
  | .node _ _ children => leavesOf children
  | .leaf t => [t]
  | .bad t => [t]

/-- The tokens of several trees. -/
def leavesOf : List Tree → List Token
  | [] => []
  | t :: rest => leaves t ++ leavesOf rest

end

theorem leavesOf_append (cs ds : List Tree) : leavesOf (cs ++ ds) = leavesOf cs ++ leavesOf ds := by
  induction cs with
  | nil => rfl
  | cons c cs ih => rw [cons_append, leavesOf, leavesOf, ih, append_assoc]

end Tree

/-- The tokens of several trees, without the end of the input. -/
def taken (cs : List Tree) : List Token :=
  (Tree.leavesOf cs).filter fun t => t.kind != .endOfInput

theorem taken_append (cs ds : List Tree) : taken (cs ++ ds) = taken cs ++ taken ds := by
  rw [taken, Tree.leavesOf_append, filter_append]
  rfl

theorem taken_cons (c : Tree) (cs : List Tree) : taken (c :: cs) = taken [c] ++ taken cs :=
  taken_append [c] cs

theorem taken_leaf (t : Token) (cs : List Tree) :
    taken (.leaf t :: cs) = if t.kind = .endOfInput then taken cs else t :: taken cs := by
  rw [taken, Tree.leavesOf, Tree.leaves, singleton_append, filter_cons, taken]
  by_cases h : t.kind = .endOfInput <;> simp [h]

theorem taken_node (tag : Tag) (start : Pos) (cs : List Tree) :
    taken [.node tag start cs] = taken cs := by
  rw [taken, Tree.leavesOf, Tree.leaves, Tree.leavesOf, append_nil, taken]

theorem Rule.mem_all (r : Rule) : r ∈ Rule.all := by
  cases r <;> decide

variable {k : Kind}

theorem Kind.index_inj {j : Kind} : j.index = k.index ↔ j = k := by
  have hall : ∀ k : Kind, Kind.all[k.index]? = some k := by
    intro k
    cases k <;> rfl
  refine ⟨fun h => ?_, fun h => h ▸ rfl⟩
  have hj := hall j
  rw [h, hall k] at hj
  injection hj with hj
  exact hj.symm

/-- The members of a set are those it was made from. -/
theorem Kinds.mem_ofList {ks : List Kind} : (Kinds.ofList ks).mem k = true ↔ k ∈ ks := by
  have hfo : ∀ (ks : List Kind) (s : Kinds),
      (ks.foldl Kinds.insert s).mem k = true ↔ s.mem k = true ∨ k ∈ ks := by
    intro ks
    induction ks with
    | nil => simp
    | cons j ks ih =>
      intro s
      rw [foldl_cons, ih, Kinds.mem_insert, Bool.or_eq_true, decide_eq_true_iff,
        Kind.index_inj, mem_cons, or_assoc, @eq_comm _ j k]
  rw [Kinds.ofList, hfo]
  simp [Kinds.mem, Kinds.empty]

namespace Item

/-- Whether an item cannot be passed without reading a token. -/
def reads : Item → Bool
  | .token k => k != .endOfInput
  | .oneOf ks => !ks.contains .endOfInput
  | .rule r => r != .program
  | _ => false

end Item

/-- Every rule but the first reads a token, whatever its expansion. -/
theorem reads_production : ∀ r, r ≠ .program → ∀ e ∈ production r, e.body.any Item.reads := by
  intro r hr
  cases r <;> first | exact absurd rfl hr | decide

namespace Parses

variable {P : Token → Prop} {items : List Item} {cs : List Tree}

/-- Every rule but the first reads a token. -/
theorem taken_ne_nil (h : Parses P items cs) (hrs : items.any Item.reads) : taken cs ≠ [] := by
  induction h with
  | nil => cases hrs
  | @token k t rest cs ht hk _ ih =>
    rw [taken_leaf]
    split
    · rename_i hend
      refine ih ?_
      simpa [Item.reads, ← hk, hend] using hrs
    · exact cons_ne_nil _ _
  | @oneOf ks t rest cs ht hk _ ih =>
    rw [taken_leaf]
    split
    · rename_i hend
      refine ih ?_
      rw [hend] at hk
      simpa [Item.reads, hk] using hrs
    · exact cons_ne_nil _ _
  | @rule r e start body cs rest he hb _ ihbody ih =>
    rw [taken_cons, taken_node]
    intro hnil
    obtain ⟨hb, hrest⟩ := append_eq_nil_iff.1 hnil
    -- Whole programs may be empty, so there the rest has to read.
    by_cases hr : r = .program
    · refine ih ?_ hrest
      simpa [Item.reads, hr] using hrs
    · exact ihbody (reads_production r hr e he) hb
  | skip _ ih | stop _ ih => exact ih (by simpa [Item.reads] using hrs)
  | take _ ih | choice _ _ ih =>
    refine ih ?_
    rw [any_append, Bool.or_eq_true]
    exact .inr (by simpa [Item.reads] using hrs)
  | more _ ih =>
    refine ih ?_
    rw [any_append, Bool.or_eq_true]
    exact .inr hrs

end Parses

end Compiscript
