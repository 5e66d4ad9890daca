import Compiscript.Proofs.Grammar.Network
import Compiscript.Proofs.Grammar.Rank
import Compiscript.Proofs.Parse.Session
import Compiscript.Proofs.Token.Lexed

/-!
# The Parser Keeps to the Grammar

A text that is parsed without an error has a tree that the grammar allows, and
the tokens of the tree are those of the text.

The walk along the network is followed with the items that are still to come.
The walk stops silently once it has taken as many steps as it may, so it has to
be shown that this never happens: each token pays for as many steps as there are
nodes, and ranks bound the steps between two tokens.
-/

namespace Compiscript

open List

namespace Session

variable {P : Token → Prop} {la : Lookahead} {fuel m next : Nat} {returns : List Nat}
  {s s' s'' : Session} {items body rest : List Item} {cs ds : List Tree}

/-- From one state to another some trees were added, and their tokens were read. -/
structure Reads (s s' : Session) (cs : List Tree) : Prop where
  children : s'.children = cs.reverse ++ s.children
  ahead : s.ahead = taken cs ++ s'.ahead
  label : s'.label = s.label
  recovering : s'.recovering = false
  /-- The end of the input is only read where it is next. -/
  ended : (∃ t ∈ Tree.leavesOf cs, t.kind = .endOfInput) → s'.current.kind = .endOfInput

lemma Reads.refl (h : s.recovering = false) : Reads s s [] := ⟨rfl, rfl, rfl, h, nofun⟩

lemma current_kind_of_taken (hahead : s.ahead = taken cs ++ s'.ahead)
    (h : s.current.kind = .endOfInput) : s'.current.kind = .endOfInput := by
  cases hcs : taken cs with
  | nil =>
    rw [hcs, nil_append] at hahead
    rwa [current, ← hahead]
  | cons t ts =>
    have ht : t ∈ taken cs := hcs ▸ mem_cons_self
    have hne := (mem_filter.1 ht).2
    rw [bne_iff_ne] at hne
    rw [current, hahead, hcs] at h
    exact absurd h hne

lemma Reads.trans (h : Reads s s' cs) (h' : Reads s' s'' ds) : Reads s s'' (cs ++ ds) where
  children := by rw [h'.children, h.children, reverse_append, append_assoc]
  ahead := by rw [h.ahead, h'.ahead, taken_append, append_assoc]
  label := h'.label.trans h.label
  recovering := h'.recovering
  ended := by
    rintro ⟨t, ht, hk⟩
    rw [Tree.leavesOf_append, mem_append] at ht
    rcases ht with ht | ht
    · exact current_kind_of_taken h'.ahead (h.ended ⟨t, ht, hk⟩)
    · exact h'.ended ⟨t, ht, hk⟩

lemma Reads.forall_ahead (h : Reads s s' cs) (hs : ∀ t ∈ s.ahead, P t) : ∀ t ∈ s'.ahead, P t := by
  intro t ht
  rw [h.ahead] at hs
  exact hs t (mem_append_right _ ht)

lemma ahead_eq (h : s.current.kind ≠ .endOfInput) : s.ahead = s.current :: s.ahead.tail := by
  cases hs : s.ahead with
  | nil =>
    rw [current, hs] at h
    exact absurd rfl h
  | cons t ts =>
    rw [current, hs]
    rfl

lemma reads_consume (s : Session) : Reads s s.settle.consume [.leaf s.current] := by
  have hcur : s.settle.current = s.current := rfl
  by_cases h : s.current.kind = .endOfInput
  · have hcon : s.settle.consume = { s.settle with children := .leaf s.current :: s.children } := by
      unfold consume
      rw [hcur, if_pos h]
      rfl
    rw [hcon]
    refine ⟨rfl, ?_, rfl, rfl, fun _ => h⟩
    rw [taken_leaf, if_pos h]
    rfl
  · have hcon : s.settle.consume = { s.settle with
        children := .leaf s.current :: s.children, ahead := s.ahead.tail,
        previous := some s.current, index := s.index + 1 } := by
      unfold consume
      rw [hcur, if_neg h]
      rfl
    rw [hcon]
    refine ⟨rfl, ?_, rfl, rfl, fun ⟨t, ht, hk⟩ => ?_⟩
    · rw [taken_leaf, if_neg h]
      exact ahead_eq h
    · rw [Tree.leavesOf, Tree.leaves, Tree.leavesOf, append_nil, mem_singleton] at ht
      exact absurd (ht ▸ hk) h

/-- A walk with some items of a rule to come: nothing is being mended, and there
    is fuel for all steps that can come. -/
structure Ready (P : Token → Prop) (la : Lookahead) (fuel : Nat) (r : Rule) (items : List Item)
    (s : Session) : Prop where
  place : Place r items
  tokens : ∀ t ∈ s.ahead, P t
  recovering : s.recovering = false
  fuel_lt : s.ahead.length * la.nodes.size + rankOf level 0 items < fuel

namespace Ready

variable {r : Rule}

lemma silent (h : Ready P la (fuel + 1) r items s) (hpla : Place r rest)
    (hrank : rankOf level 0 rest < rankOf level 0 items) : Ready P la fuel r rest s :=
  ⟨hpla, h.tokens, h.recovering, by have := h.fuel_lt; omega⟩

/-- Going on after at least one token has been read. -/
lemma onward (hsz : 46 ≤ la.nodes.size) (h : Ready P la (fuel + 1) r items s)
    (hpla : Place r rest) (hrs : Reads s s' cs) (hcs : taken cs ≠ []) :
    Ready P la fuel r rest s' := by
  refine ⟨hpla, hrs.forall_ahead h.tokens, hrs.recovering, ?_⟩
  have hfu := h.fuel_lt
  have hrank := hpla.rank_lt
  have hlen : s'.ahead.length + 1 ≤ s.ahead.length := by
    have := length_pos_iff.2 hcs
    rw [hrs.ahead, length_append]
    omega
  -- The token pays for one step per node.
  have hmul := Nat.mul_le_mul_right la.nodes.size hlen
  rw [Nat.add_mul, Nat.one_mul] at hmul
  omega

end Ready

/-- What is to be shown of a walk, for a number of steps. -/
def Walks (P : Token → Prop) (la : Lookahead) (fuel : Nat) : Prop :=
  ∀ {items : List Item} {m : Nat} {r : Rule} {returns : List Nat} {s : Session},
    la.Leads items m r.index → Ready P la fuel r items s →
      (s.walk la fuel m returns).errors = [] →
        ∃ cs, Parses P items cs ∧ Reads s (s.walk la fuel m returns) cs

section Step

variable {r : Rule}

lemma parses_of_read (hP : P default) (hsz : 46 ≤ la.nodes.size) (ih : Walks P la fuel)
    {item : Item} {ks : List Kind} (hrdy : Ready P la (fuel + 1) r (item :: rest) s)
    (hld : la.Leads rest next r.index) (hmem : s.current.kind ∈ ks)
    (hparse : ∀ t cs, P t → t.kind ∈ ks → Parses P rest cs →
      Parses P (item :: rest) (.leaf t :: cs))
    (hend : .endOfInput ∈ ks → rankOf level 0 rest < rankOf level 0 (item :: rest))
    (h : (s.settle.consume.walk la fuel next returns).errors = []) :
    ∃ cs, Parses P (item :: rest) cs ∧ Reads s (s.settle.consume.walk la fuel next returns) cs := by
  have hrs := reads_consume s
  have hcur : P s.current := by
    rw [current]
    cases hs : s.ahead with
    | nil => exact hP
    | cons t ts => exact hrdy.tokens t (hs ▸ mem_cons_self)
  have hnx : Ready P la fuel r rest s.settle.consume := by
    by_cases hk : s.current.kind = .endOfInput
    · -- The end of the input is never read away, but nothing much comes behind it.
      have hr := hrdy.silent hrdy.place.tail (hend (hk ▸ hmem))
      have hahead : s.ahead = s.settle.consume.ahead := by
        have := hrs.ahead
        rwa [taken_leaf, if_pos hk] at this
      exact ⟨hr.place, hahead ▸ hr.tokens, hrs.recovering, hahead ▸ hr.fuel_lt⟩
    · refine hrdy.onward hsz hrdy.place.tail hrs ?_
      rw [taken_leaf, if_neg hk]
      exact cons_ne_nil _ _
  obtain ⟨cs, hcs, hwk⟩ := ih hld hnx h
  exact ⟨_, hparse s.current cs hcur hmem hcs, hrs.trans hwk⟩

/-- An expansion of a rule, its label in front. The label stays with the node
    that is under construction. -/
lemma parses_of_begins (ih : ∀ f ≤ fuel, Walks P la f) {e : Expansion}
    (he : e ∈ production r) (hbeg : la.Begins e m r.index) (htoks : ∀ t ∈ s.ahead, P t)
    (hrec : s.recovering = false) (hlab : s.label = none) (hfu : s.ahead.length * la.nodes.size +
      (rankOf level 0 e.body + e.label.toList.length) < fuel)
    (h : (s.walk la fuel m returns).errors = []) :
    ∃ cs, Parses P e.body cs ∧ Reads { s with label := e.label } (s.walk la fuel m returns) cs := by
  have hpla := Place.of_mem he
  unfold Network.Begins at hbeg
  cases hl : e.label with
  | none =>
    rw [hl] at hbeg hfu
    have hrdy : Ready P la fuel r e.body s := ⟨hpla, htoks, hrec, hfu⟩
    obtain ⟨cs, hcs, hrs⟩ := ih fuel (Nat.le_refl _) hbeg hrdy h
    rw [← hlab]
    exact ⟨cs, hcs, hrs⟩
  | some l =>
    rw [hl] at hbeg hfu
    obtain ⟨first, hn, hld⟩ := hbeg
    have hone : (some l).toList.length = 1 := rfl
    obtain ⟨fuel, rfl⟩ : ∃ f, fuel = f + 1 := ⟨fuel - 1, by omega⟩
    rw [walk_name hn] at h ⊢
    have hrdy : Ready P la fuel r e.body { s with label := some l } :=
      ⟨hpla, htoks, hrec, by dsimp only; omega⟩
    exact ih fuel (Nat.le_succ _) hld hrdy h

lemma parses_of_rule (hho : la.Holds r (production r)) (ih : ∀ f ≤ fuel, Walks P la f)
    (htoks : ∀ t ∈ s.ahead, P t) (hrec : s.recovering = false) (hlab : s.label = none)
    (hfu : s.ahead.length * la.nodes.size + level r < fuel)
    (h : (s.walk la fuel (la.start r) returns).errors = []) :
    ∃ e ∈ production r, ∃ cs, Parses P e.body cs ∧
      Reads { s with label := e.label } (s.walk la fuel (la.start r) returns) cs := by
  rcases hho.splits with ⟨e, hes, hbeg⟩ | ⟨hlen, firsts, hn, hfs⟩
  · have he : e ∈ production r := hes ▸ mem_singleton.2 rfl
    have hrank := rankOf_expansion_le he
    exact ⟨e, he, parses_of_begins ih he hbeg htoks hrec hlab (by omega) h⟩
  · obtain ⟨fuel, rfl⟩ : ∃ f, fuel = f + 1 := ⟨fuel - 1, by omega⟩
    obtain ⟨b, hb, hwk⟩ := walk_fork hrec h hn
    rw [hwk] at h ⊢
    obtain ⟨e, he, hbeg⟩ := Network.Begins.exists_of_mem hfs hb
    have hrank := rankOf_expansion_le he
    rw [if_neg hlen] at hrank
    exact ⟨e, he, parses_of_begins (fun f hf => ih f (Nat.le_succ_of_le hf)) he hbeg htoks
      hrec hlab (by omega) h⟩

lemma parses_of_call (hsz : 46 ≤ la.nodes.size) (hho : la.Holds r (production r))
    (ih : ∀ f ≤ fuel, Walks P la f) {r' : Rule}
    (hrdy : Ready P la (fuel + 1) r' (.rule r :: rest) s) (hn : la.node m = .call r next)
    (hld : la.Leads rest next r'.index) (h : (s.walk la (fuel + 1) m returns).errors = []) :
    ∃ cs, Parses P (.rule r :: rest) cs ∧ Reads s (s.walk la (fuel + 1) m returns) cs := by
  obtain ⟨inner, hinn, her, hwk⟩ := walk_call hn h
  rw [hwk] at h ⊢
  -- the rule
  have hfu := hrdy.fuel_lt
  rw [rankOf, Item.rank] at hfu
  have hru := @parses_of_rule P la fuel (next :: returns) { s with children := [], label := none }
    r hho ih hrdy.tokens hrdy.recovering rfl (by dsimp only; omega) (hinn ▸ her)
  rw [← hinn] at hru
  obtain ⟨e, he, body, hbd, hrs⟩ := hru
  -- the node that is made of it
  have hmade : Reads s { inner with
      children := .node ⟨r, inner.label⟩ s.current.pos inner.children.reverse :: s.children
      label := s.label } [.node ⟨r, e.label⟩ s.current.pos body] := by
    refine ⟨?_, ?_, rfl, hrs.recovering, ?_⟩
    · rw [hrs.label, hrs.children, append_nil, reverse_reverse]
      rfl
    · rw [taken_node]
      exact hrs.ahead
    · rintro ⟨t, ht, hk⟩
      rw [Tree.leavesOf, Tree.leaves, Tree.leavesOf, append_nil] at ht
      exact hrs.ended ⟨t, ht, hk⟩
  have htk : taken [.node ⟨r, e.label⟩ s.current.pos body] ≠ [] := by
    rw [taken_node]
    exact hbd.taken_ne_nil (reads_production r hrdy.place.ne_program e he)
  -- the rest
  obtain ⟨cs, hcs, hrs⟩ := ih fuel (Nat.le_refl _) hld
    (hrdy.onward hsz hrdy.place.tail hmade htk) h
  exact ⟨_, .rule he hbd hcs, hmade.trans hrs⟩

lemma parses_of_walk (hP : P default) (hsz : 46 ≤ la.nodes.size)
    (hho : ∀ r, la.Holds r (production r)) (fuel : Nat) : Walks P la fuel := by
  induction fuel using Nat.strong_induction_on with
  | _ fuel ih =>
    intro items m r returns s hld hrdy h
    obtain ⟨fuel, rfl⟩ : ∃ f, fuel = f + 1 := ⟨fuel - 1, by have := hrdy.fuel_lt; omega⟩
    have ih : ∀ f ≤ fuel, Walks P la f := fun f hf => ih f (Nat.lt_succ_of_le hf)
    have ihfuel : Walks P la fuel := ih fuel (Nat.le_refl _)
    cases items with
    | nil =>
      obtain rfl : m = r.index := hld
      rw [walk_stop (hho r).stop]
      exact ⟨[], .nil, .refl hrdy.recovering⟩
    | cons item rest =>
      obtain ⟨next, hit, hr⟩ := hld
      cases item with
      | token k =>
        obtain ⟨hmem, hwk⟩ := walk_token hrdy.recovering h hit
        rw [hwk] at h ⊢
        refine parses_of_read hP hsz ihfuel hrdy hr (Kinds.mem_ofList.1 hmem) ?_ ?_ h
        · exact fun t cs ht hk hcs => .token ht (mem_singleton.1 hk) hcs
        · intro hk
          rw [rankOf, Item.rank, if_pos (mem_singleton.1 hk).symm]
          exact Nat.lt_succ_self _
      | oneOf ks =>
        obtain ⟨hmem, hwk⟩ := walk_oneOf hrdy.recovering h hit
        rw [hwk] at h ⊢
        refine parses_of_read hP hsz ihfuel hrdy hr (Kinds.mem_ofList.1 hmem) ?_ ?_ h
        · exact fun t cs ht hk hcs => .oneOf ht hk hcs
        · exact fun hk => absurd hk hrdy.place.not_mem
      | rule r' => exact parses_of_call hsz (hho r') ih hrdy hit hr h
      | optional body =>
        obtain ⟨first, hn, hbd⟩ := hit
        obtain ⟨b, hb, hwk⟩ := walk_fork hrdy.recovering h hn
        rw [hwk] at h ⊢
        rcases mem_cons.1 hb with rfl | hb
        · obtain ⟨cs, hcs, hrs⟩ := ihfuel (hbd.append hr)
            (hrdy.silent hrdy.place.optional Place.optional_lt.1) h
          exact ⟨cs, .take hcs, hrs⟩
        · cases mem_singleton.1 hb
          obtain ⟨cs, hcs, hrs⟩ := ihfuel hr
            (hrdy.silent hrdy.place.tail Place.optional_lt.2) h
          exact ⟨cs, .skip hcs, hrs⟩
      | repeated body =>
        obtain ⟨entry, first, hm, hent, hag, hbd⟩ := hit
        obtain ⟨b, hb, hwk⟩ : ∃ b ∈ [first, next],
            s.walk la (fuel + 1) m returns = s.walk la fuel b returns := by
          rcases hm with rfl | rfl
          · exact walk_fork hrdy.recovering h hent
          · exact walk_again hrdy.recovering h hag hent
        rw [hwk] at h ⊢
        have hrank := hrdy.place.loop_lt
        rcases mem_cons.1 hb with rfl | hb
        · -- The body leads back to the group, from its other side.
          have hloop : la.Leads (body ++ .repeated body :: rest) b r.index :=
            hbd.append ⟨next, ⟨entry, b, .inr rfl, hent, hag, hbd⟩, hr⟩
          obtain ⟨cs, hcs, hrs⟩ := ihfuel hloop
            (hrdy.silent hrdy.place.loop hrank.1) h
          exact ⟨cs, .more hcs, hrs⟩
        · cases mem_singleton.1 hb
          obtain ⟨cs, hcs, hrs⟩ := ihfuel hr
            (hrdy.silent hrdy.place.tail hrank.2) h
          exact ⟨cs, .stop hcs, hrs⟩
      | choice alts =>
        obtain ⟨firsts, hn, hbod⟩ := hit
        obtain ⟨b, hb, hwk⟩ := walk_fork hrdy.recovering h hn
        rw [hwk] at h ⊢
        obtain ⟨body, hmem, hbd⟩ := hbod.exists_of_mem hb
        obtain ⟨cs, hcs, hrs⟩ := ihfuel (hbd.append hr)
          (hrdy.silent (hrdy.place.choice hmem) (Place.choice_lt hmem)) h
        exact ⟨cs, .choice hmem hcs, hrs⟩

lemma parses_of_start (hP : P default) (hsz : 46 ≤ la.nodes.size)
    (hho : ∀ r, la.Holds r (production r)) {tokens : List Token} (htoks : ∀ t ∈ tokens, P t)
    {last : Session}
    (hla : last = (start tokens).walk la ((tokens.length + 1) * la.nodes.size) (la.start r) [])
    (h : last.errors = []) :
    ∃ e ∈ production r, Parses P e.body last.children.reverse ∧ last.label = e.label ∧
      taken last.children.reverse ++ last.ahead = tokens ∧
      ((∃ t ∈ Tree.leavesOf last.children.reverse, t.kind = .endOfInput) →
        last.current.kind = .endOfInput) := by
  have hlevel := level_lt r
  have hfu : tokens.length * la.nodes.size + level r < (tokens.length + 1) * la.nodes.size := by
    rw [Nat.add_mul, Nat.one_mul]
    omega
  have hru := parses_of_rule (hho r) (fun f _ => parses_of_walk hP hsz hho f)
    (s := start tokens) htoks rfl rfl hfu (hla ▸ h)
  rw [← hla] at hru
  obtain ⟨e, he, cs, hcs, hrs⟩ := hru
  have hchs : last.children.reverse = cs := by
    rw [hrs.children, reverse_append, reverse_reverse]
    rfl
  rw [hchs]
  exact ⟨e, he, hcs, hrs.label, hrs.ahead.symm, hrs.ended⟩

end Step

end Session

/-- Without errors there is a derivation, and its tokens are the first ones of the text. -/
lemma derives_of_parseRule {P : Token → Prop} (hP : P default) {r : Rule} {tokens : List Token}
    (htoks : ∀ t ∈ tokens, P t) (h : (parseRule r tokens).errors = []) :
    Derives P r (parseRule r tokens).tree ∧
      ∃ rest, taken [(parseRule r tokens).tree] ++ rest = tokens ∧
        ((∃ t ∈ (parseRule r tokens).tree.leaves, t.kind = .endOfInput) →
          (rest.headD default).kind = .endOfInput) := by
  have hsz : 46 ≤ compiscript.nodes.size := Network.size_ofProductions production
  have hho : ∀ r, compiscript.Holds r (production r) := Network.holds_ofProductions production
  unfold parseRule at h ⊢
  -- Only these two facts about the network are needed.
  generalize compiscript = la at hsz hho h ⊢
  obtain ⟨e, he, hcs, hlab, htk, hended⟩ :=
    Session.parses_of_start hP hsz hho htoks rfl (reverse_eq_nil_iff.1 h)
  refine ⟨⟨e, (Session.start tokens).current.pos, _, he, hcs, ?_⟩, _, ?_, hended⟩
  · rw [← hlab]
  · rw [taken_node]
    exact htk

/-- The trees of a rule whose tokens may come from a text. -/
abbrev Derived (r : Rule) (t : Tree) : Prop := Derives Token.Lexed r t

/-- A source text that is parsed without an error is a program of the grammar. -/
lemma derives_of_parse {source : String} (h : (parse source).errors = []) :
    Derived .program (parse source).tree :=
  (derives_of_parseRule (.inl rfl) (fun _ => lexed_of_mem_tokens) h).1

end Compiscript
