import Compiscript.Proofs.Grammar.Derivation

/-!
# Going On Without Reading

How far a walk along the grammar can get before it has to read a token, and what it can
have before it.

A rule that could call itself before it has read anything would send a walk round in
circles. The rank of a list of items bounds the number of steps that a walk can take
without reading, calls included, and goes down with every such step.
-/

namespace Compiscript

open List

mutual

/-- How many steps without reading can come first at an item, if `after` can come behind it. -/
def Item.rank (level : Rule → Nat) (after : Nat) : Item → Nat
  | .token k => if k = .endOfInput then after + 1 else 0
  | .oneOf _ => 0
  | .rule r => level r + 1
  | .optional body => max (rankOf level after body) after + 1
  | .repeated body => max (rankOf level 0 body) after + 1
  | .choice alts => ranksOf level after alts + 1

/-- How many steps without reading can come first in a list of items. -/
def rankOf (level : Rule → Nat) (after : Nat) : List Item → Nat
  | [] => after
  | item :: rest => item.rank level (rankOf level after rest)

/-- How many steps without reading can come first in any of several lists. -/
def ranksOf (level : Rule → Nat) (after : Nat) : List (List Item) → Nat
  | [] => 0
  | body :: rest => max (rankOf level after body) (ranksOf level after rest)

end

/-- The rank of a rule: that of its expansions, with a step for the decision
    between them and one for a label. -/
def ruleRank (level : Rule → Nat) (r : Rule) : Nat :=
  ((production r).map fun e => rankOf level 0 e.body + e.label.toList.length).foldl max 0 +
    if (production r).length = 1 then 0 else 1

/-- The rank of a rule, with no more than `depth` rules below it. -/
def levelTo : (depth : Nat) → Rule → Nat
  | 0, _ => 0
  | depth + 1, r => ruleRank (levelTo depth) r

/-- The rank of a rule. No chain of calls without reading has more than all rules in it. -/
def level (r : Rule) : Nat := levelTo Rule.all.length r

theorem level_facts : ∀ r ∈ Rule.all, ruleRank level r = level r ∧ level r < 40 := by
  decide +kernel

/-! ### Places -/

/-- What can be to come after the first item is dealt with, or a group is entered. -/
def steps : List Item → List (List Item)
  | [] => []
  | item :: rest => rest :: match item with
    | .optional body => [body ++ rest]
    | .repeated body => [body ++ item :: rest]
    | .choice alts => alts.map (· ++ rest)
    | _ => []

mutual

/-- What can be to come inside of an item, with `rest` behind it. -/
def Item.places (rest : List Item) : Item → List (List Item)
  | .optional body => placesOf rest body
  | .repeated body => placesOf (.repeated body :: rest) body
  | .choice alts => placesOfAll rest alts
  | _ => []

/-- What can be to come while items are read, with `rest` behind them. -/
def placesOf (rest : List Item) : List Item → List (List Item)
  | [] => []
  | item :: items => (item :: items ++ rest) :: (item.places (items ++ rest) ++ placesOf rest items)

def placesOfAll (rest : List Item) : List (List Item) → List (List Item)
  | [] => []
  | body :: bodies => placesOf rest body ++ placesOfAll rest bodies

end

section Places

variable {rest body x y : List Item} {bodies : List (List Item)}

theorem eq_or_mem_placesOf (rest items : List Item) :
    items ++ rest = rest ∨ items ++ rest ∈ placesOf rest items := by
  cases items with
  | nil => exact .inl rfl
  | cons item items => exact .inr (.head _)

theorem eq_or_mem_placesOfAll (h : body ∈ bodies) :
    body ++ rest = rest ∨ body ++ rest ∈ placesOfAll rest bodies := by
  induction bodies with
  | nil => cases h
  | cons b bodies ih =>
    rw [placesOfAll, mem_append]
    rcases mem_cons.1 h with rfl | h
    · exact (eq_or_mem_placesOf rest body).imp id .inl
    · exact (ih h).imp id .inr

theorem mem_places_of_steps {item : Item} (h : y ∈ steps (item :: rest)) :
    y = item :: rest ∨ y = rest ∨ y ∈ item.places rest := by
  rcases mem_cons.1 h with rfl | h
  · exact .inr (.inl rfl)
  · cases item with
    | optional body =>
      rw [mem_singleton.1 h]
      exact .inr (eq_or_mem_placesOf rest body)
    | repeated body =>
      rw [mem_singleton.1 h]
      exact (eq_or_mem_placesOf (.repeated body :: rest) body).imp id .inr
    | choice alts =>
      obtain ⟨body, hb, rfl⟩ := mem_map.1 h
      exact .inr (eq_or_mem_placesOfAll hb)
    | token | oneOf | rule => cases h

mutual

theorem Item.step_places (rest : List Item) : (item : Item) → ∀ x ∈ item.places rest,
    ∀ y ∈ steps x, y = item :: rest ∨ y = rest ∨ y ∈ item.places rest
  | .optional body, x, hx, y, hy => .inr (step_placesOf rest body x hx y hy)
  | .repeated body, x, hx, y, hy =>
    (step_placesOf (.repeated body :: rest) body x hx y hy).imp id .inr
  | .choice alts, x, hx, y, hy => .inr (step_placesOfAll rest alts x hx y hy)
  | .token _, _, hx, _, _ | .oneOf _, _, hx, _, _ | .rule _, _, hx, _, _ => nomatch hx

theorem step_placesOf (rest : List Item) : (items : List Item) → ∀ x ∈ placesOf rest items,
    ∀ y ∈ steps x, y = rest ∨ y ∈ placesOf rest items
  | [], _, hx, _, _ => nomatch hx
  | item :: items, x, hx, y, hy => by
      have hin : y = item :: (items ++ rest) ∨ y = items ++ rest ∨ y ∈ item.places (items ++ rest) →
          y = rest ∨ y ∈ placesOf rest (item :: items) := by
        rw [placesOf, mem_cons, mem_append]
        rintro (rfl | rfl | h)
        · exact .inr (.inl rfl)
        · exact (eq_or_mem_placesOf rest items).imp id fun h => .inr (.inr h)
        · exact .inr (.inr (.inl h))
      rw [placesOf, mem_cons, mem_append] at hx
      rcases hx with rfl | hx | hx
      · exact hin (mem_places_of_steps hy)
      · exact hin (Item.step_places (items ++ rest) item x hx y hy)
      · refine (step_placesOf rest items x hx y hy).imp id fun h => ?_
        rw [placesOf]
        exact .tail _ (mem_append_right _ h)

theorem step_placesOfAll (rest : List Item) : (bodies : List (List Item)) →
    ∀ x ∈ placesOfAll rest bodies, ∀ y ∈ steps x, y = rest ∨ y ∈ placesOfAll rest bodies
  | [], _, hx, _, _ => nomatch hx
  | body :: bodies, x, hx, y, hy => by
      rw [placesOfAll, mem_append] at hx ⊢
      rcases hx with hx | hx
      · exact (step_placesOf rest body x hx y hy).imp id .inl
      · exact (step_placesOfAll rest bodies x hx y hy).imp id .inr

end

end Places

/-- Items that read a token before they are over. -/
def Item.consumes : Item → Bool
  | .token _ | .oneOf _ | .rule _ => true
  | _ => false

/-- Whether an item is the end of the input. -/
def Item.isEnd : Item → Bool
  | .token k => k == .endOfInput
  | _ => false

/-- Whether a group cannot be passed through without reading, the first rule is not called
    and the end of the input not one of several tokens. -/
def Item.isFirm : Item → Bool
  | .token _ => true
  | .oneOf ks => !ks.contains .endOfInput
  | .rule q => q != .program
  | .optional body => body.any Item.consumes
  | .repeated body => body.head?.any Item.reads
  | .choice alts => alts.all (·.any Item.consumes)

/-- What is to be known about items to come. The end of the input is read by the first rule
    only, as the last thing it does. -/
def fits (r : Rule) : List Item → Bool
  | [] => true
  | item :: rest =>
    decide (rankOf level 0 (item :: rest) < 46) &&
      (item.isEnd == (r == .program && rest.isEmpty)) && item.isFirm

/-- Items that can be to come in a rule. -/
def Place (r : Rule) (items : List Item) : Prop :=
  ∃ e ∈ production r, items = [] ∨ items ∈ placesOf [] e.body

theorem fits_places : ∀ r ∈ Rule.all, ∀ e ∈ production r, ∀ x ∈ placesOf [] e.body,
    fits r x = true := by
  decide +kernel

theorem consumes_expansion {r : Rule} {e : Expansion} (he : e ∈ production r) :
    e.body.any Item.consumes = true := by
  have hall : ∀ r ∈ Rule.all, ∀ e ∈ production r, e.body.any Item.consumes = true := by decide
  exact hall r r.mem_all e he

theorem rankOf_append {after : Nat} {a b : List Item} :
    rankOf level after (a ++ b) = rankOf level (rankOf level after b) a := by
  induction a with
  | nil => rfl
  | cons item a ih => rw [cons_append, rankOf, rankOf, ih]

theorem level_lt (r : Rule) : level r < 40 := (level_facts r r.mem_all).2

namespace Place

variable {r : Rule} {item : Item} {x y rest body : List Item} {alts : List (List Item)}

theorem of_mem {e : Expansion} (he : e ∈ production r) : Place r e.body := by
  refine ⟨e, he, ?_⟩
  have hb := eq_or_mem_placesOf [] e.body
  rwa [append_nil] at hb

/-- A step leads from a place to a place. -/
theorem step (h : Place r x) (hy : y ∈ steps x) : Place r y := by
  obtain ⟨e, he, rfl | hx⟩ := h
  · cases hy
  · exact ⟨e, he, step_placesOf [] e.body x hx y hy⟩

theorem fits (h : Place r x) : fits r x = true := by
  obtain ⟨e, he, rfl | hx⟩ := h
  · rfl
  · exact fits_places r r.mem_all e he x hx

theorem tail (h : Place r (item :: rest)) : Place r rest := h.step (.head _)

theorem optional (h : Place r (.optional body :: rest)) : Place r (body ++ rest) :=
  h.step (by simp [steps])

theorem loop (h : Place r (.repeated body :: rest)) : Place r (body ++ .repeated body :: rest) :=
  h.step (by simp [steps])

theorem choice (h : Place r (.choice alts :: rest)) (hb : body ∈ alts) : Place r (body ++ rest) :=
  h.step (mem_cons_of_mem _ (mem_map_of_mem hb))

theorem rank_lt (h : Place r x) : rankOf level 0 x < 46 := by
  have hft := h.fits
  cases x with
  | nil => exact Nat.succ_pos _
  | cons item rest =>
    rw [Compiscript.fits, Bool.and_eq_true, Bool.and_eq_true, decide_eq_true_iff] at hft
    exact hft.1.1

/-- The end of the input is the last item of the first rule. -/
theorem isEnd_iff (h : Place r (item :: rest)) : item.isEnd = true ↔ r = .program ∧ rest = [] := by
  have hft := h.fits
  rw [Compiscript.fits, Bool.and_eq_true, Bool.and_eq_true, beq_iff_eq] at hft
  rw [hft.1.2, Bool.and_eq_true, beq_iff_eq, List.isEmpty_iff]

theorem isFirm (h : Place r (item :: rest)) : item.isFirm = true := by
  have hft := h.fits
  rw [Compiscript.fits, Bool.and_eq_true] at hft
  exact hft.2

theorem not_mem {ks : List Kind} (h : Place r (.oneOf ks :: rest)) : .endOfInput ∉ ks := by
  simpa [Item.isFirm] using h.isFirm

theorem ne_program {q : Rule} (h : Place r (.rule q :: rest)) : q ≠ .program :=
  bne_iff_ne.1 h.isFirm

theorem consumes_choice (h : Place r (.choice alts :: rest)) (hb : body ∈ alts) :
    body.any Item.consumes = true :=
  all_eq_true.1 h.isFirm body hb

theorem reads_body (h : Place r (.repeated body :: rest)) :
    ∃ i is, body = i :: is ∧ i.reads = true := by
  have hfirm := h.isFirm
  cases body with
  | nil => cases hfirm
  | cons i is => exact ⟨i, is, rfl, hfirm⟩

theorem consumes_repeated (h : Place r (.repeated body :: rest)) :
    body.any Item.consumes = true := by
  obtain ⟨i, is, rfl, hrs⟩ := h.reads_body
  cases i <;> first | rfl | cases hrs

theorem optional_lt : rankOf level 0 (body ++ rest) < rankOf level 0 (.optional body :: rest) ∧
    rankOf level 0 rest < rankOf level 0 (.optional body :: rest) := by
  rw [rankOf_append, rankOf, Item.rank]
  omega

theorem choice_lt (h : body ∈ alts) :
    rankOf level 0 (body ++ rest) < rankOf level 0 (.choice alts :: rest) := by
  rw [rankOf_append, rankOf, Item.rank]
  generalize rankOf level 0 rest = m
  induction alts with
  | nil => cases h
  | cons b alts ih =>
    rw [ranksOf]
    rcases mem_cons.1 h with rfl | h
    · omega
    · have := ih h
      omega

/-- The body of a repeated group begins with something to read, so it makes no
    difference that the group comes once more behind it. -/
theorem loop_lt (h : Place r (.repeated body :: rest)) :
    rankOf level 0 (body ++ .repeated body :: rest) < rankOf level 0 (.repeated body :: rest) ∧
      rankOf level 0 rest < rankOf level 0 (.repeated body :: rest) := by
  obtain ⟨i, is, rfl, hrs⟩ := h.reads_body
  have hsm : ∀ m n, i.rank level m = i.rank level n := by
    intro m n
    cases i with
    | token k =>
      have hk : k ≠ .endOfInput := by simpa [Item.reads] using hrs
      rw [Item.rank, Item.rank, if_neg hk, if_neg hk]
    | oneOf | rule => rfl
    | optional | repeated | choice => cases hrs
  have hf : ∀ n, rankOf level n (i :: is) = rankOf level 0 (i :: is) := fun n => hsm _ _
  rw [rankOf_append, hf]
  conv => enter [1, 2]; rw [rankOf, Item.rank]
  conv => enter [2, 2]; rw [rankOf, Item.rank]
  omega

end Place

theorem rankOf_expansion_le {r : Rule} {e : Expansion} (he : e ∈ production r) :
    rankOf level 0 e.body + e.label.toList.length +
      (if (production r).length = 1 then 0 else 1) ≤ level r := by
  have hle : ∀ (l : List Nat) (m x : Nat), x = m ∨ x ∈ l → x ≤ l.foldl max m := by
    intro l
    induction l with
    | nil => simp
    | cons y l ih =>
      intro m x hx
      rw [foldl_cons]
      rcases hx with rfl | hx
      · exact Nat.le_trans (Nat.le_max_left _ _) (ih _ _ (.inl rfl))
      · rcases mem_cons.1 hx with rfl | hx
        · exact Nat.le_trans (Nat.le_max_right _ _) (ih _ _ (.inl rfl))
        · exact ih _ _ (.inr hx)
  have hmax := hle _ 0 _ (.inr (mem_map_of_mem
    (f := fun e : Expansion => rankOf level 0 e.body + e.label.toList.length) he))
  rw [← (level_facts r r.mem_all).1, ruleRank]
  omega

end Compiscript
