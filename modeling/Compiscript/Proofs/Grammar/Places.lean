import Compiscript.Grammar.Lookahead
import Compiscript.Proofs.Grammar.Rank
import Compiscript.Proofs.Grammar.Runs

/-!
# Places in the Network

Where a run along the network can be, and where it can go from there.

A node stands in a rule if some items lead from it to the end of the rule. From the first of
these items follows which node it is and which items lead on from the nodes behind it, and from
what is known about the items follows how far it is to the next token, where the end of the
input can be read, and which branches of a decision read something before the rule ends.
-/

namespace Compiscript.Network

open List hiding set

variable {net : Network}

/-! ### What reads a token does not end before -/

lemma canEnd_foldl_union (fs : List First) (f : First) :
    (fs.foldl First.union f).canEnd = (f.canEnd || fs.any (·.canEnd)) := by
  induction fs generalizing f with
  | nil => simp
  | cons g fs ih => rw [foldl_cons, ih, First.union, any_cons, Bool.or_assoc]

lemma canEnd_append (a b : First) : (a.append b).canEnd = (a.canEnd && b.canEnd) := by
  unfold First.append
  cases h : a.canEnd <;> simp [h]

/-- A node from which the rule does not end before a token is read. -/
def MustRead (net : Network) (n : Nat) : Prop := ∀ d, (net.firstFrom d n).canEnd = false

namespace MustRead

variable {n next : Nat} (h : net.MustRead n)

include h

lemma branch {kind : Fork} {branches : List Nat} (hn : net.node n = .fork kind branches)
    (hnx : next ∈ branches) : net.MustRead next := by
  intro d
  have hunion := h (d + 1)
  rw [firstFrom, hn] at hunion
  dsimp only at hunion
  rw [canEnd_foldl_union, Bool.or_eq_false_iff, any_map, any_eq_false] at hunion
  exact Bool.eq_false_iff.2 (hunion.2 next hnx)

lemma again (hn : net.node n = .again next) : net.MustRead next := by
  intro d
  have hd := h (d + 1)
  rwa [firstFrom, hn] at hd

lemma name {l : Label} (hn : net.node n = .name l next) : net.MustRead next := by
  intro d
  have hd := h (d + 1)
  rwa [firstFrom, hn] at hd

lemma not_stop (r : Rule) : net.node n ≠ .stop r := by
  intro hn
  have hd := h 1
  rw [firstFrom_stop hn] at hd
  cases hd

end MustRead

/-- Items that read a token do not end before, as far as a number of steps tells. -/
def Reading (net : Network) (d : Nat) : Prop :=
  ∀ (items : List Item) (n m : Nat), net.Leads items n m → items.any Item.consumes = true →
    (net.firstFrom d n).canEnd = false

lemma Reading.begins {d : Nat} (h : ∀ d' ≤ d, net.Reading d') {r : Rule} {e : Expansion}
    (he : e ∈ production r) {n : Nat} (hb : net.Begins e n r.index) :
    (net.firstFrom d n).canEnd = false := by
  unfold Begins at hb
  cases hl : e.label with
  | none =>
    rw [hl] at hb
    exact h d (Nat.le_refl d) _ _ _ hb (consumes_expansion he)
  | some l =>
    rw [hl] at hb
    obtain ⟨first, hnd, hld⟩ := hb
    cases d with
    | zero => rfl
    | succ d =>
      rw [firstFrom, hnd]
      exact h d (Nat.le_succ d) _ _ _ hld (consumes_expansion he)

lemma Reading.branches {d : Nat} {branches : List Nat}
    (h : ∀ b ∈ branches, (net.firstFrom d b).canEnd = false) :
    ((branches.map (net.firstFrom d)).foldl First.union .none).canEnd = false := by
  rw [canEnd_foldl_union, First.none, Bool.false_or, any_map, any_eq_false]
  intro b hb
  rw [Function.comp, h b hb]
  exact Bool.false_ne_true

section CanEnd

variable (hho : ∀ r, net.Holds r (production r))

include hho

lemma Reading.start {d : Nat} (h : ∀ d' ≤ d, net.Reading d') (r : Rule) :
    (net.firstFrom d (net.start r)).canEnd = false := by
  rcases (hho r).splits with ⟨e, hes, hb⟩ | ⟨-, firsts, hnd, hfs⟩
  · exact Reading.begins h (hes ▸ mem_singleton_self e) hb
  · cases d with
    | zero => rfl
    | succ d =>
      rw [firstFrom, hnd]
      refine Reading.branches fun b hb => ?_
      obtain ⟨e, he, hbeg⟩ := Begins.exists_of_mem hfs hb
      exact Reading.begins (fun d' hd => h d' (Nat.le_succ_of_le hd)) he hbeg

lemma reading (d : Nat) : net.Reading d := by
  induction d using Nat.strongRecOn with
  | _ d ih =>
    intro items n m hld hcons
    cases d with
    | zero => rfl
    | succ d =>
      have ih : ∀ d' ≤ d, net.Reading d' := fun d' hd => ih d' (Nat.lt_succ_of_le hd)
      have ihd := ih d (Nat.le_refl d)
      cases items with
      | nil => cases hcons
      | cons item rest =>
        obtain ⟨next, hit, hrs⟩ := hld
        rw [any_cons] at hcons
        have hin : ∀ body : List Item, rest.any Item.consumes = true →
            (body ++ rest).any Item.consumes = true := fun body h => by
          rw [any_append, h, Bool.or_true]
        cases item with
        | token k =>
          rw [firstFrom, show net.node n = .token k next from hit]
        | oneOf ks =>
          rw [firstFrom, show net.node n = .oneOf (.ofList ks) next from hit]
        | rule r =>
          rw [firstFrom, show net.node n = .call r next from hit]
          dsimp only
          rw [canEnd_append, Reading.start hho ih r]
          rfl
        | optional body =>
          obtain ⟨first, hnd, hbody⟩ := hit
          rw [firstFrom, hnd]
          refine Reading.branches fun b hb => ?_
          rcases mem_cons.1 hb with rfl | hb
          · exact ihd _ _ _ (hbody.append hrs) (hin body hcons)
          · rw [mem_singleton.1 hb]
            exact ihd _ _ _ hrs hcons
        | repeated body =>
          have hld : net.Leads (.repeated body :: rest) n m := ⟨next, hit, hrs⟩
          obtain ⟨entry, first, hn, hent, hag, hbody⟩ := hit
          rcases hn with rfl | rfl
          · rw [firstFrom, hent]
            refine Reading.branches fun b hb => ?_
            rcases mem_cons.1 hb with rfl | hb
            · refine ihd (body ++ .repeated body :: rest) _ _ (hbody.append
                ⟨next, ⟨n, b, .inr rfl, hent, hag, hbody⟩, hrs⟩) ?_
              rw [any_append, any_cons, hcons, Bool.or_true]
            · rw [mem_singleton.1 hb]
              exact ihd _ _ _ hrs hcons
          · rw [firstFrom, hag]
            exact ihd (.repeated body :: rest) _ _
              ⟨next, ⟨entry, first, .inl rfl, hent, hag, hbody⟩, hrs⟩ hcons
        | choice alts =>
          obtain ⟨firsts, hnd, hbod⟩ := hit
          rw [firstFrom, hnd]
          refine Reading.branches fun b hb => ?_
          obtain ⟨body, -, hbody⟩ := hbod.exists_of_mem hb
          exact ihd _ _ _ (hbody.append hrs) (hin body hcons)

variable {n : Nat}

lemma mustRead_of_leads {items : List Item} {m : Nat} (hld : net.Leads items n m)
    (hcons : items.any Item.consumes = true) : net.MustRead n := fun d =>
  reading hho d items n m hld hcons

lemma mustRead_of_begins {r : Rule} {e : Expansion} (he : e ∈ production r)
    (hb : net.Begins e n r.index) : net.MustRead n := fun _ =>
  Reading.begins (fun d' _ => reading hho d') he hb

lemma mustRead_start (r : Rule) : net.MustRead (net.start r) := fun _ =>
  Reading.start hho (fun d' _ => reading hho d') r

end CanEnd

/-! ### Places -/

/-- The way back into a repeated group takes one step more. -/
def lag (net : Network) (n : Nat) : Nat :=
  match net.node n with
  | .again _ => 2
  | _ => 1

lemma lag_le (n : Nat) : net.lag n ≤ 2 := by
  unfold lag
  split <;> decide

lemma one_le_lag (n : Nat) : 1 ≤ net.lag n := by
  unfold lag
  split <;> decide

/-- A node in a rule, with a bound for the nodes on the way to the next token. -/
inductive Stands (net : Network) (r : Rule) : Nat → Nat → Prop where
  | items {items : List Item} {n h : Nat} (hld : net.Leads items n r.index)
      (hpla : Place r items) (hbd : 2 * rankOf level 0 items + net.lag n ≤ h) :
      Stands net r n h
  | named {e : Expansion} {l : Label} {first n h : Nat} (he : e ∈ production r)
      (hnd : net.node n = .name l first) (hld : net.Leads e.body first r.index)
      (hbd : 2 * rankOf level 0 e.body + 3 ≤ h) : Stands net r n h
  | split {firsts : List Nat} {n h : Nat} (hnd : net.node n = .fork .choice firsts)
      (hfs : List.Forall₂ (fun e first => net.Begins e first r.index) (production r) firsts)
      (hma : (production r).length ≠ 1) (hbd : 2 * level r + 2 ≤ h) : Stands net r n h

/-- A bound for all ways to the next token. -/
def wayBound : Nat := 92

namespace Stands

variable {r : Rule} {n h : Nat}

lemma pos (hs : net.Stands r n h) : 1 ≤ h := by
  cases hs with
  | items _ _ hbd => have := net.one_le_lag n; omega
  | named _ _ _ hbd => omega
  | split _ _ _ hbd => omega

/-- The bound is never larger than necessary. -/
lemma bounded (hs : net.Stands r n h) : net.Stands r n wayBound := by
  cases hs with
  | @items items _ _ hld hpla hbd =>
    have hrank := hpla.rank_lt
    have hlag := net.lag_le n
    exact .items hld hpla (by unfold wayBound; omega)
  | @named e _ _ _ _ he hnd hld hbd =>
    have hrank := rankOf_expansion_le he
    have hlevel := level_lt r
    exact .named he hnd hld (by unfold wayBound; omega)
  | split hnd hfs hma hbd =>
    have hlevel := level_lt r
    exact .split hnd hfs hma (by unfold wayBound; omega)

lemma of_leads {items : List Item} (hld : net.Leads items n r.index)
    (hpla : Place r items) (hbd : 2 * rankOf level 0 items + 2 ≤ h) : net.Stands r n h :=
  .items hld hpla (by have := net.lag_le n; omega)

lemma of_begins {e : Expansion} (he : e ∈ production r) (hb : net.Begins e n r.index)
    (hbd : 2 * (rankOf level 0 e.body + e.label.toList.length) + 2 ≤ h) : net.Stands r n h := by
  unfold Begins at hb
  cases hl : e.label with
  | none =>
    rw [hl] at hb hbd
    exact .of_leads hb (.of_mem he) (by simpa using hbd)
  | some l =>
    rw [hl] at hb hbd
    obtain ⟨first, hnd, hld⟩ := hb
    have hone : (some l).toList.length = 1 := rfl
    exact .named he hnd hld (by omega)

lemma start (hho : net.Holds r (production r)) : net.Stands r (net.start r) (2 * level r + 2) := by
  rcases hho.splits with ⟨e, hes, hb⟩ | ⟨hma, firsts, hnd, hfs⟩
  · have he : e ∈ production r := hes ▸ mem_singleton_self e
    have hrank := rankOf_expansion_le he
    exact .of_begins he hb (by omega)
  · exact .split hnd hfs hma (Nat.le_refl _)

end Stands

/-- What is known about the nodes behind a node of a rule. -/
def Onward (net : Network) (r : Rule) (n h : Nat) : Node → Prop
  | .token k next => net.Stands r next wayBound ∧
      (if k = .endOfInput then r = .program ∧ next = r.index else next ≠ Rule.program.index)
  | .oneOf set next => set.mem .endOfInput = false ∧ net.Stands r next wayBound ∧
      next ≠ Rule.program.index
  | .call q next => q ≠ .program ∧ 2 * level q + 3 ≤ h ∧ net.Stands r next wayBound ∧
      next ≠ Rule.program.index
  | .fork kind branches =>
    (∀ b ∈ branches, net.Stands r b (h - 1) ∧ b ≠ Rule.program.index) ∧
      if kind = .choice then ∀ b ∈ branches, net.MustRead b
      else ∃ first next, branches = [first, next] ∧ net.MustRead first
  | .again entry => net.Stands r entry (h - 1) ∧ entry ≠ Rule.program.index ∧
      ∃ first next, net.node entry = .fork .repeated [first, next]
  | .name _ next => net.Stands r next (h - 1) ∧ next ≠ Rule.program.index
  | .stop q => q = r ∧ n = r.index

lemma index_inj {q r : Rule} (h : q.index = r.index) : q = r := by
  have hq := all_index q
  rw [h, all_index r] at hq
  exact (Option.some.inj hq).symm

section Onward

variable (hho : ∀ r, net.Holds r (production r)) {r : Rule} {n h : Nat}

include hho

lemma Leads.ne_index {items : List Item} (hld : net.Leads items n r.index)
    (hitems : r = .program → items ≠ []) : n ≠ Rule.program.index := by
  rintro rfl
  have hsp := (hho .program).stop
  cases items with
  | nil => exact hitems (index_inj hld).symm rfl
  | cons item rest =>
    obtain ⟨next, hit, -⟩ := hld
    cases item with
    | token | oneOf | rule =>
      rw [show net.node Rule.program.index = _ from hit] at hsp
      cases hsp
    | optional =>
      obtain ⟨first, hnd, -⟩ := hit
      rw [hnd] at hsp
      cases hsp
    | repeated =>
      obtain ⟨entry, first, hn, hent, hag, -⟩ := hit
      rcases hn with hn | hn
      · rw [hn, hent] at hsp
        cases hsp
      · rw [hn, hag] at hsp
        cases hsp
    | choice =>
      obtain ⟨firsts, hnd, -⟩ := hit
      rw [hnd] at hsp
      cases hsp

lemma Leads.tail_ne_index {item : Item} {rest : List Item} (body : List Item)
    (hld : net.Leads (body ++ rest) n r.index) (hpla : Place r (item :: rest))
    (hit : item.isEnd = false) : n ≠ Rule.program.index := by
  refine hld.ne_index hho fun hr hnil => ?_
  have hend := hpla.isEnd_iff.2 ⟨hr, (append_eq_nil_iff.1 hnil).2⟩
  rw [hit] at hend
  cases hend

lemma Stands.onward (hs : net.Stands r n h) : net.Onward r n h (net.node n) := by
  cases hs with
  | named he hnd hld hbd =>
    rw [hnd]
    refine ⟨.of_leads hld (.of_mem he) (by omega), hld.ne_index hho fun _ hnil => ?_⟩
    have hcons := consumes_expansion he
    rw [hnil] at hcons
    cases hcons
  | split hnd hfs hma hbd =>
    rw [hnd]
    refine ⟨fun b hb => ?_, fun b hb => ?_⟩
    · obtain ⟨e, he, hbeg⟩ := Begins.exists_of_mem hfs hb
      have hrank := rankOf_expansion_le he
      rw [if_neg hma] at hrank
      refine ⟨.of_begins he hbeg (by omega), ?_⟩
      rintro rfl
      exact (mustRead_of_begins hho he hbeg).not_stop _ (hho .program).stop
    · obtain ⟨e, he, hbeg⟩ := Begins.exists_of_mem hfs hb
      exact mustRead_of_begins hho he hbeg
  | @items items _ _ hld hpla hbd =>
    have hlag := net.one_le_lag n
    cases items with
    | nil =>
      obtain rfl : n = r.index := hld
      rw [(hho r).stop]
      exact ⟨rfl, rfl⟩
    | cons item rest =>
      obtain ⟨next, hit, hrs⟩ := hld
      have hnx : net.Stands r next wayBound :=
        (Stands.of_leads hrs hpla.tail (Nat.le_refl _)).bounded
      have hne : item.isEnd = false → next ≠ Rule.program.index :=
        Leads.tail_ne_index hho [] hrs hpla
      cases item with
      | token k =>
        rw [show net.node n = .token k next from hit]
        refine ⟨hnx, ?_⟩
        split
        · rename_i hk
          obtain ⟨hr, rfl⟩ := hpla.isEnd_iff.1 (beq_iff_eq.2 hk)
          exact ⟨hr, hrs⟩
        · rename_i hk
          exact hne (beq_eq_false_iff_ne.2 hk)
      | oneOf ks =>
        rw [show net.node n = .oneOf (.ofList ks) next from hit]
        refine ⟨?_, hnx, hne rfl⟩
        rw [Bool.eq_false_iff]
        exact fun hmem => hpla.not_mem (Kinds.mem_ofList.1 hmem)
      | rule q =>
        rw [show net.node n = .call q next from hit]
        rw [rankOf, Item.rank] at hbd
        exact ⟨hpla.ne_program, by omega, hnx, hne rfl⟩
      | optional body =>
        obtain ⟨first, hnd, hbody⟩ := hit
        have hf := hbody.append hrs
        have hrank := @Place.optional_lt rest body
        rw [hnd]
        refine ⟨forall_mem_cons.2 ⟨⟨.of_leads hf hpla.optional (by omega),
          hf.tail_ne_index hho body hpla rfl⟩, forall_mem_singleton.2
          ⟨.of_leads hrs hpla.tail (by omega), hne rfl⟩⟩, first, next, rfl,
          mustRead_of_leads hho hf ?_⟩
        rw [any_append, show body.any Item.consumes = true from hpla.isFirm,
          Bool.true_or]
      | repeated body =>
        obtain ⟨entry, first, hn, hent, hag, hbody⟩ := hit
        rcases hn with rfl | rfl
        · have hf : net.Leads (body ++ .repeated body :: rest) first r.index :=
            hbody.append ⟨next, ⟨n, first, .inr rfl, hent, hag, hbody⟩, hrs⟩
          have hrank := hpla.loop_lt
          rw [hent]
          refine ⟨forall_mem_cons.2 ⟨⟨.of_leads hf hpla.loop (by omega),
            hf.ne_index hho fun _ hnil =>
              cons_ne_nil _ _ (append_eq_nil_iff.1 hnil).2⟩,
            forall_mem_singleton.2 ⟨.of_leads hrs hpla.tail (by omega), hne rfl⟩⟩,
            first, next, rfl, mustRead_of_leads hho hf ?_⟩
          rw [any_append, hpla.consumes_repeated, Bool.true_or]
        · have hld : net.Leads (.repeated body :: rest) entry r.index :=
            ⟨next, ⟨entry, first, .inl rfl, hent, hag, hbody⟩, hrs⟩
          have hlag : net.lag (entry + 1) = 2 := by rw [lag, hag]
          have hlag' : net.lag entry = 1 := by rw [lag, hent]
          rw [hag]
          exact ⟨.items hld hpla (by omega),
            hld.ne_index hho fun _ => cons_ne_nil _ _, first, next, hent⟩
      | choice alts =>
        obtain ⟨firsts, hnd, hbod⟩ := hit
        rw [hnd]
        refine ⟨fun b hb => ?_, fun b hb => ?_⟩
        · obtain ⟨body, hmem, hbody⟩ := hbod.exists_of_mem hb
          have hrank := @Place.choice_lt rest body alts hmem
          exact ⟨.of_leads (hbody.append hrs) (hpla.choice hmem) (by omega),
            (hbody.append hrs).tail_ne_index hho body hpla rfl⟩
        · obtain ⟨body, hmem, hbody⟩ := hbod.exists_of_mem hb
          refine mustRead_of_leads hho (hbody.append hrs) ?_
          rw [any_append, hpla.consumes_choice hmem, Bool.true_or]

end Onward

end Compiscript.Network
