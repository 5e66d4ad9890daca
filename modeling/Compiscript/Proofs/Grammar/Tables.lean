import Compiscript.Proofs.Grammar.Places

/-!
# What the Tables Say

The tables of the lookahead agree with the runs of the network.

The tables are made by walks of bounded depth. For nodes that stand in a rule the bound
is large enough, so every run begins with a way to a token that is in the table, or with
a way to the end of the rule.
-/

namespace Compiscript

open List hiding set

namespace Network

variable {net : Network}

/-- A node that reads a token of a kind. -/
def ReadsAt (net : Network) (n : Nat) (k : Kind) : Bool :=
  match net.node n with
  | .token k' _ => k == k'
  | .oneOf ks _ => ks.mem k
  | _ => false

/-- A node that reads some token. -/
def IsReader (net : Network) (n : Nat) : Prop :=
  match net.node n with
  | .token _ _ | .oneOf _ _ => True
  | _ => False

section Landings

variable {canEnd : Nat → Bool} (hcanEnd : ∀ r, canEnd (net.start r) = false)
  {n h d : Nat} {l : Landing} {r : Rule} {rs : List Nat} {ks : List Kind}

lemma kinds_foldl_union (fs : List First) (f : First) (k : Kind) :
    (fs.foldl First.union f).kinds.mem k = (f.kinds.mem k || fs.any (·.kinds.mem k)) := by
  induction fs generalizing f with
  | nil => simp
  | cons g fs ih => rw [foldl_cons, ih, First.union, Kinds.mem_union, any_cons, Bool.or_assoc]

lemma landing_of_accepts (hho : ∀ r, net.Holds r (production r)) (hs : net.Stands r n h)
    (hd : h ≤ d) (hacc : net.Accepts n rs ks) :
    (∃ l ∈ net.landingsFrom canEnd d n, net.Accepts l.node (l.returns ++ rs) ks) ∨
      (net.firstFrom d n).canEnd = true ∧ net.Ends rs ks := by
  induction d generalizing n r h rs with
  | zero => exact absurd hs.pos (by omega)
  | succ d ih =>
    have hon := hs.onward hho
    rw [landingsFrom, firstFrom]
    cases hnd : net.node n with
    | token k next => exact .inl ⟨⟨[], n⟩, .head _, hacc⟩
    | oneOf set next => exact .inl ⟨⟨[], n⟩, .head _, hacc⟩
    | call q next =>
      rw [hnd] at hon
      obtain ⟨-, hlevel, -⟩ := hon
      rcases ih (.start (hho q)) (by omega) ((accepts_call hnd).1 hacc) with
        ⟨l, hl, haccl⟩ | ⟨hend, -⟩
      · refine .inl ⟨⟨l.returns ++ [next], l.node⟩, ?_, ?_⟩
        · have hmem := mem_map_of_mem
            (f := fun l : Landing => { l with returns := l.returns ++ [next] }) hl
          dsimp only
          split
          · exact mem_append_left _ hmem
          · exact hmem
        · rwa [append_assoc, singleton_append]
      · rw [mustRead_start hho q] at hend
        cases hend
    | fork kind branches =>
      rw [hnd] at hon
      obtain ⟨b, hb, haccb⟩ := (accepts_fork hnd).1 hacc
      rcases ih (hon.1 b hb).1 (by omega) haccb with ⟨l, hl, haccl⟩ | ⟨hend, hends⟩
      · exact .inl ⟨l, mem_flatMap.2 ⟨b, hb, hl⟩, haccl⟩
      · refine .inr ⟨?_, hends⟩
        dsimp only
        rw [canEnd_foldl_union, Bool.or_eq_true, any_map, any_eq_true]
        exact .inr ⟨b, hb, hend⟩
    | again entry =>
      rw [hnd] at hon
      exact ih hon.1 (by omega) ((accepts_again hnd).1 hacc)
    | name l next =>
      rw [hnd] at hon
      exact ih hon.1 (by omega) ((accepts_name hnd).1 hacc)
    | stop q => exact .inr ⟨rfl, (accepts_stop hnd).1 hacc⟩

lemma reaches_of_canEnd (hho : ∀ r, net.Holds r (production r)) (hs : net.Stands r n h)
    (hend : (net.firstFrom d n).canEnd = true) (rs : List Nat) :
    net.Reaches n rs [] r.index rs := by
  induction d generalizing n h with
  | zero => cases hend
  | succ d ih =>
    have hon := hs.onward hho
    rw [firstFrom] at hend
    cases hnd : net.node n with
    | token | oneOf => rw [hnd] at hend; cases hend
    | call q next =>
      rw [hnd] at hend
      dsimp only at hend
      rw [canEnd_append, mustRead_start hho q] at hend
      cases hend
    | fork kind branches =>
      rw [hnd] at hend hon
      dsimp only at hend
      rw [canEnd_foldl_union, First.none, Bool.false_or, any_map, any_eq_true] at hend
      obtain ⟨b, hb, hend⟩ := hend
      exact .fork hnd hb (ih (hon.1 b hb).1 hend)
    | again entry =>
      rw [hnd] at hend hon
      exact .again hnd (ih hon.1 hend)
    | name l next =>
      rw [hnd] at hend hon
      exact .name hnd (ih hon.1 hend)
    | stop q =>
      rw [hnd] at hon
      rw [hon.2]
      exact .refl _ _

include hcanEnd

lemma reaches_of_landing (hl : l ∈ net.landingsFrom canEnd d n) :
    (∀ rs, net.Reaches n rs [] l.node (l.returns ++ rs)) ∧
      (∀ k, net.ReadsAt l.node k = true → (net.firstFrom d n).kinds.mem k = true) ∧
      net.IsReader l.node := by
  induction d generalizing n l with
  | zero => cases hl
  | succ d ih =>
    rw [landingsFrom] at hl
    rw [firstFrom]
    cases hnd : net.node n with
    | token k next =>
      rw [hnd] at hl
      cases mem_singleton.1 hl
      refine ⟨fun rs => .refl n rs, fun k' hk => ?_, by rw [IsReader, hnd]; trivial⟩
      rw [ReadsAt, hnd] at hk
      exact Kinds.mem_ofList.2 (mem_singleton.2 (eq_of_beq hk))
    | oneOf set next =>
      rw [hnd] at hl
      cases mem_singleton.1 hl
      refine ⟨fun rs => .refl n rs, fun k' hk => ?_, by rw [IsReader, hnd]; trivial⟩
      rwa [ReadsAt, hnd] at hk
    | call q next =>
      rw [hnd] at hl
      dsimp only at hl
      rw [hcanEnd q, if_neg Bool.false_ne_true] at hl
      obtain ⟨inner, hinn, rfl⟩ := mem_map.1 hl
      obtain ⟨hrun, hkds, hrdr⟩ := ih hinn
      refine ⟨fun rs => ?_, fun k hk => ?_, hrdr⟩
      · have := hrun (next :: rs)
        rw [← singleton_append, ← append_assoc] at this
        exact .call hnd this
      · have := hkds k hk
        dsimp only
        unfold First.append
        split
        · rw [Kinds.mem_union, this, Bool.true_or]
        · exact this
    | fork kind branches =>
      rw [hnd] at hl
      obtain ⟨b, hb, hl⟩ := mem_flatMap.1 hl
      obtain ⟨hrun, hkds, hrdr⟩ := ih hl
      refine ⟨fun rs => .fork hnd hb (hrun rs), fun k hk => ?_, hrdr⟩
      dsimp only
      rw [kinds_foldl_union, Bool.or_eq_true, any_map, any_eq_true]
      exact .inr ⟨b, hb, hkds k hk⟩
    | again entry =>
      rw [hnd] at hl
      obtain ⟨hrun, hr⟩ := ih hl
      exact ⟨fun rs => .again hnd (hrun rs), hr⟩
    | name l' next =>
      rw [hnd] at hl
      obtain ⟨hrun, hr⟩ := ih hl
      exact ⟨fun rs => .name hnd (hrun rs), hr⟩
    | stop q =>
      rw [hnd] at hl
      cases hl

end Landings

/-! ### Rules -/

section Rules

variable {n m d : Nat} {r : Rule}

/-- The node behind a node on the way to the end of its rule has a smaller number. -/
def descends (n : Nat) : Node → Bool
  | .token _ next | .oneOf _ next | .call _ next | .name _ next | .again next => next < n
  | .fork _ branches => branches.getLast?.any (· < n)
  | .stop _ => true

/-- What is to be known about a network to know its tables. -/
structure Regular (net : Network) : Prop where
  holds (r : Rule) : net.Holds r (production r)
  size_le : wayBound ≤ net.nodes.size
  down (n : Nat) : descends n (net.node n) = true
  uncalled : net.followers .program = []

lemma regular_ofProductions : (ofProductions production).Regular := by
  have hnet : wayBound ≤ (ofProductions production).nodes.size ∧
      ((ofProductions production).nodes.toList.zipIdx.all fun (x, n) => descends n x) = true ∧
      (ofProductions production).followers .program = [] := by
    decide +kernel
  refine ⟨holds_ofProductions production, hnet.1, fun n => ?_, hnet.2.2⟩
  generalize ofProductions production = net at hnet
  unfold node
  rw [net.places_eq]
  cases hget : net.nodes.toList[n]? with
  | none => rfl
  | some x =>
    exact all_eq_true.1 hnet.2.1 (x, n) (mem_zipIdx_iff_getElem?.2 hget)

variable (hnet : net.Regular)

include hnet

lemma Regular.size_eq_succ : ∃ size, net.nodes.size = size + 1 := by
  have hsz := hnet.size_le
  unfold wayBound at hsz
  exact ⟨net.nodes.size - 1, by omega⟩

lemma Regular.index_lt_size (r : Rule) : r.index < net.nodes.size := by
  have hidx : r.index < 46 := by cases r <;> decide
  have hsz := hnet.size_le
  unfold wayBound at hsz
  omega

lemma Stands.ruleFrom {h : Nat} (hs : net.Stands r n h) (hd : n < d) : net.ruleFrom d n = r := by
  induction d generalizing n h with
  | zero => cases hd
  | succ d ih =>
    have hon := hs.onward hnet.holds
    have hless := hnet.down n
    rw [Network.ruleFrom]
    cases hnd : net.node n with
    | token | name | again =>
      rw [hnd] at hon hless
      have hless := of_decide_eq_true hless
      exact ih hon.1 (by omega)
    | oneOf =>
      rw [hnd] at hon hless
      have hless := of_decide_eq_true hless
      exact ih hon.2.1 (by omega)
    | call =>
      rw [hnd] at hon hless
      have hless := of_decide_eq_true hless
      exact ih hon.2.2.1 (by omega)
    | fork kind branches =>
      rw [hnd] at hon hless
      obtain ⟨b, hb, hless⟩ := (Option.any_eq_true _ _).1 hless
      have hless := of_decide_eq_true hless
      dsimp only
      rw [hb]
      exact ih (hon.1 b (mem_of_getLast? hb)).1 (by dsimp only [Option.getD]; omega)
    | stop q =>
      rw [hnd] at hon
      exact hon.1

lemma Stands.lt_size {h : Nat} (hs : net.Stands r n h) : n < net.nodes.size := by
  by_contra hn
  have hnd : net.node n = .stop .program := by
    rw [node, net.places_eq, Array.getElem?_toList, Array.getElem?_eq_none (by omega)]
    rfl
  have hon := hs.onward hnet.holds
  rw [hnd] at hon
  exact hn (hon.2 ▸ hnet.index_lt_size r)

end Rules

/-! ### Followers -/

section Followers

/-- Where a parser goes on after some call. -/
def allFollowers (net : Network) : List Nat :=
  net.nodes.toList.filterMap fun
    | .call _ next => some next
    | _ => none

variable {n next : Nat} {r : Rule}

lemma mem_followers (h : net.node n = .call r next) : next ∈ net.followers r := by
  unfold node at h
  rw [net.places_eq] at h
  cases hget : net.nodes.toList[n]? with
  | none => rw [hget] at h; cases h
  | some x =>
    rw [hget] at h
    obtain rfl : x = .call r next := h
    refine mem_filterMap.2 ⟨_, mem_of_getElem? hget, ?_⟩
    exact if_pos rfl

lemma followers_sublist (r : Rule) : (net.followers r).Sublist net.allFollowers := by
  unfold followers allFollowers
  induction net.nodes.toList with
  | nil => exact .slnil
  | cons x l ih =>
    cases x with
    | call q next =>
      rw [filterMap_cons, filterMap_cons]
      dsimp only
      split
      · exact ih.cons _
      · rename_i hq
        split at hq
        · cases hq
          exact ih.cons_cons _
        · cases hq
    | token | oneOf | fork | again | name | stop => exact ih

lemma length_allFollowers (hnet : net.Regular) : net.allFollowers.length < net.nodes.size := by
  have hsp : net.node 0 = .stop .program := (hnet.holds .program).stop
  have hsz := hnet.index_lt_size .program
  unfold node at hsp
  rw [net.places_eq] at hsp
  unfold allFollowers
  rw [← Array.length_toList] at hsz ⊢
  generalize net.nodes.toList = l at hsz hsp ⊢
  cases l with
  | nil => cases hsz
  | cons x l =>
    obtain rfl : x = .stop .program := hsp
    rw [filterMap_cons]
    exact Nat.lt_succ_of_le (length_filterMap_le _ _)

end Followers

end Network

namespace Lookahead

open Network

/-! ### Where a rule goes on -/

section Close

variable {net : Network} {canEnd : Nat → Bool} {ruleOf : Nat → Rule}

/-- Whatever can come next is in a list of places, or still to be looked at. -/
def Closed (net : Network) (canEnd : Nat → Bool) (ruleOf : Nat → Rule) (todo found : List Nat) :
    Prop :=
  ∀ n ∈ found, canEnd n = true → ∀ f ∈ net.followers (ruleOf n), f ∈ found ∨ f ∈ todo

/-- How many followers are not in a list. -/
def unlisted (net : Network) (found : List Nat) : Nat :=
  (net.allFollowers.filter fun n => !found.contains n).length

lemma unlisted_lt {found more : List Nat} {n : Nat} (hn : n ∈ net.allFollowers)
    (hnew : n ∉ found) (hmore : n ∈ more) : unlisted net (found ++ more) < unlisted net found := by
  have hfil : net.allFollowers.filter (fun m => !(found ++ more).contains m) =
      (net.allFollowers.filter fun m => !found.contains m).filter fun m => !more.contains m := by
    rw [filter_filter]
    refine filter_congr fun m _ => ?_
    simp [Bool.and_comm]
  rw [unlisted, hfil]
  refine length_filter_lt_length_iff_exists.2 ⟨n, mem_filter.2 ⟨hn, ?_⟩, ?_⟩
  · simp [hnew]
  · simp [hmore]

lemma closed_closeFollowers (hidx : ∀ r, net.followers r = [] → net.followers (ruleOf r.index) = [])
    (depth : Nat) {todo found : List Nat} (htodo : todo ⊆ net.allFollowers)
    (hclo : Closed net canEnd ruleOf todo found)
    (hdepth : todo.length + net.allFollowers.length * unlisted net found ≤ depth) :
    todo ⊆ closeFollowers net canEnd ruleOf depth todo found ∧
      found ⊆ closeFollowers net canEnd ruleOf depth todo found ∧
      Closed net canEnd ruleOf [] (closeFollowers net canEnd ruleOf depth todo found) := by
  induction depth generalizing todo found with
  | zero =>
    obtain rfl : todo = [] := eq_nil_of_length_eq_zero (by omega)
    exact ⟨nil_subset _, List.Subset.refl _, hclo⟩
  | succ depth ih =>
    cases todo with
    | nil => exact ⟨nil_subset _, List.Subset.refl _, hclo⟩
    | cons n todo =>
      obtain ⟨hn, htodo⟩ := cons_subset.1 htodo
      rw [length_cons] at hdepth
      rw [closeFollowers]
      split
      · rename_i hfd
        rw [contains_eq_mem, decide_eq_true_iff] at hfd
        have hclosed' : Closed net canEnd ruleOf todo found := fun m hm hend f hf => by
          rcases hclo m hm hend f hf with h | h
          · exact .inl h
          · rcases mem_cons.1 h with rfl | h
            · exact .inl hfd
            · exact .inr h
        obtain ⟨h, h', h''⟩ := ih htodo hclosed' (by omega)
        exact ⟨cons_subset.2 ⟨h' hfd, h⟩, h', h''⟩
      · rename_i hnew
        rw [contains_eq_mem, decide_eq_true_iff] at hnew
        -- The place is listed, and what follows it is looked at as well.
        have hgo : ∀ extra next, next.Sublist net.allFollowers →
            (canEnd n = true → net.followers (ruleOf n) ⊆ next) →
            (∀ m ∈ extra, net.followers (ruleOf m) = []) →
            n :: todo ⊆ closeFollowers net canEnd ruleOf depth (next ++ todo)
                (found ++ n :: extra) ∧
              found ⊆ closeFollowers net canEnd ruleOf depth (next ++ todo)
                (found ++ n :: extra) ∧
              Closed net canEnd ruleOf [] (closeFollowers net canEnd ruleOf depth (next ++ todo)
                (found ++ n :: extra)) := by
          intro extra next hnx hfol hextra
          have hclosed' : Closed net canEnd ruleOf (next ++ todo) (found ++ n :: extra) := by
            intro m hm hend f hf
            rw [mem_append, mem_cons] at hm
            rcases hm with hm | rfl | hm
            · have h := hclo m hm hend f hf
              rw [mem_cons] at h
              rw [mem_append, mem_cons, mem_append]
              tauto
            · exact .inr (mem_append_left _ (hfol hend hf))
            · rw [hextra m hm] at hf
              cases hf
          have hlen := hnx.length_le
          have hmul := Nat.mul_le_mul_left net.allFollowers.length
            (@unlisted_lt net found (n :: extra) n hn hnew (.head _))
          rw [Nat.mul_succ] at hmul
          obtain ⟨h, h', h''⟩ := ih (append_subset.2 ⟨hnx.subset, htodo⟩) hclosed'
            (by rw [length_append]; omega)
          exact ⟨cons_subset.2 ⟨h' (by simp), fun m hm => h (mem_append_right _ hm)⟩,
            fun m hm => h' (mem_append_left _ hm), h''⟩
        split
        · split
          · rename_i hno
            refine hgo [(ruleOf n).index] [] (nil_sublist _) (fun _ => ?_) fun m hm => ?_
            · rw [hno]
              exact nil_subset _
            · rw [mem_singleton.1 hm, hidx _ hno]
          · exact hgo [] _ (net.followers_sublist _) (fun _ => List.Subset.refl _) nofun
        · rename_i hend
          exact hgo [] [] (nil_sublist _) (fun h => absurd h hend) nofun

end Close

/-! ### What the tables say -/

/-- What can come next at a node if its rule may have been called by anyone. -/
def Beyond (la : Lookahead) (n : Nat) (k : Kind) : Prop :=
  (la.first n).kinds.mem k = true ∨
    la.canEnd n = true ∧ ∃ f ∈ la.resume (la.ruleOf n), (la.first f).kinds.mem k = true

/-- What is to be known about the tables. -/
structure Tells (la : Lookahead) : Prop where
  holds (r : Rule) : la.Holds r (production r)
  size_le : wayBound ≤ la.nodes.size
  /-- Every run begins with a way to a token that is in the table. -/
  landing {r : Rule} {n h : Nat} {rs : List Nat} {ks : List Kind} : la.Stands r n h →
    la.Accepts n rs ks →
      (∃ l ∈ la.landingsAt n, la.Accepts l.node (l.returns ++ rs) ks) ∨
        la.canEnd n = true ∧ la.Ends rs ks
  /-- A way in the table is a run. -/
  reaches {n : Nat} {l : Landing} : l ∈ la.landingsAt n →
    (∀ rs, la.Reaches n rs [] l.node (l.returns ++ rs)) ∧
      (∀ k, la.ReadsAt l.node k = true → (la.first n).kinds.mem k = true) ∧
      la.IsReader l.node
  landings_stop {n : Nat} {q : Rule} : la.node n = .stop q → la.landingsAt n = []
  canEnd {r : Rule} {n h : Nat} : la.Stands r n h → la.canEnd n = true →
    ∀ rs, la.Reaches n rs [] r.index rs
  canEnd_stop (r : Rule) : la.canEnd r.index = true
  canEnd_eq_false {n : Nat} : la.MustRead n → la.canEnd n = false
  ruleOf {r : Rule} {n h : Nat} : la.Stands r n h → la.ruleOf n = r
  resume_call {r : Rule} {n next : Nat} : la.node n = .call r next → next ∈ la.resume r
  resume_closed {r : Rule} {n f next : Nat} : f ∈ la.resume r → la.canEnd f = true →
    la.node n = .call (la.ruleOf f) next → next ∈ la.resume r
  resume_program : la.resume .program = [Rule.program.index]
  /-- The branches of a plain decision exclude each other. -/
  plain {n : Nat} {kind : Fork} {branches : List Nat} : la.isPlain n = true →
    la.node n = .fork kind branches →
      branches.Pairwise fun a b => ∀ k, la.Beyond a k → ¬ la.Beyond b k

section OfNetwork

variable {net : Network} {n : Nat} {r : Rule}

lemma getElem?_map_range {α : Type} (f : Nat → α) (size : Nat) (d : α) :
    ((range size).map f)[n]?.getD d = if n < size then f n else d := by
  split
  · rename_i h
    simp [h]
  · rename_i h
    simp [h]

lemma first_ofNetwork : (ofNetwork net).first n =
    if n < net.nodes.size then net.firstFrom net.nodes.size n else .none :=
  getElem?_map_range _ _ _

lemma landingsAt_ofNetwork : (ofNetwork net).landingsAt n =
    if n < net.nodes.size then net.landingsFrom (ofNetwork net).canEnd net.nodes.size n else [] :=
  getElem?_map_range _ _ _

lemma ruleOf_ofNetwork : (ofNetwork net).ruleOf n =
    if n < net.nodes.size then net.ruleFrom net.nodes.size n else .program :=
  getElem?_map_range _ _ _

lemma resume_ofNetwork (r : Rule) : (ofNetwork net).resume r =
    match net.followers r with
    | [] => [r.index]
    | next => closeFollowers net (ofNetwork net).canEnd (ofNetwork net).ruleOf
        (net.nodes.size * net.nodes.size) next [] := by
  have hget : ∀ f : Rule → List Nat, (Rule.all.map f)[r.index]?.getD [] = f r := by
    intro f
    rw [getElem?_map, all_index]
    rfl
  exact hget fun r =>
    match net.followers r with
    | [] => [r.index]
    | next => closeFollowers net (ofNetwork net).canEnd (ofNetwork net).ruleOf
        (net.nodes.size * net.nodes.size) next []

lemma mem_foldl_union (ss : List Kinds) (s : Kinds) (k : Kind) :
    (ss.foldl Kinds.union s).mem k = (s.mem k || ss.any (·.mem k)) := by
  induction ss generalizing s with
  | nil => simp
  | cons t ss ih => rw [foldl_cons, ih, Kinds.mem_union, any_cons, Bool.or_assoc]

variable {k : Kind}

lemma not_mem_of_isDisjoint {s t : Kinds} (h : s.isDisjoint t = true)
    (hs : s.mem k = true) : t.mem k = false := by
  have hz : s.bits &&& t.bits = 0 := eq_of_beq h
  have hbit := congrArg (Nat.testBit · k.index) hz
  simp only [Nat.testBit_and, Nat.zero_testBit] at hbit
  unfold Kinds.mem at hs ⊢
  rwa [hs, Bool.true_and] at hbit

lemma pairwise_of_areDisjoint {ss : List Kinds} (h : areDisjoint ss = true) :
    ss.Pairwise fun s t => ∀ k, s.mem k = true → t.mem k = false := by
  induction ss with
  | nil => exact .nil
  | cons s ss ih =>
    rw [areDisjoint, Bool.and_eq_true, all_eq_true] at h
    exact .cons (fun t ht k => not_mem_of_isDisjoint (h.1 t ht)) (ih h.2)

/-- What can come next at a node, as a set. -/
def kindsBeyond (la : Lookahead) (n : Nat) : Kinds :=
  if la.canEnd n then
    ((la.resume (la.ruleOf n)).map fun f => (la.first f).kinds).foldl Kinds.union (la.first n).kinds
  else (la.first n).kinds

lemma mem_kindsBeyond {la : Lookahead} : (la.kindsBeyond n).mem k = true ↔ la.Beyond n k := by
  unfold kindsBeyond Beyond
  split
  · rename_i hend
    rw [mem_foldl_union, Bool.or_eq_true, any_map, any_eq_true]
    simp [hend]
  · rename_i hend
    simp [hend]

lemma isPlain_ofNetwork : (ofNetwork net).isPlain n = if n < net.nodes.size then
    (match net.node n with
      | .fork _ branches => areDisjoint (branches.map (ofNetwork net).kindsBeyond)
      | _ => false) else false :=
  getElem?_map_range _ _ _

lemma plain_ofNetwork {kind : Fork} {branches : List Nat}
    (hpl : (ofNetwork net).isPlain n = true) (hnd : net.node n = .fork kind branches) :
    areDisjoint (branches.map (ofNetwork net).kindsBeyond) = true := by
  rw [isPlain_ofNetwork, hnd] at hpl
  split at hpl
  · exact hpl
  · cases hpl

variable (hnet : net.Regular)

include hnet

lemma ruleOf_of_stands {h : Nat} (hs : net.Stands r n h) : (ofNetwork net).ruleOf n = r := by
  rw [ruleOf_ofNetwork, if_pos (hs.lt_size hnet), hs.ruleFrom hnet (hs.lt_size hnet)]

lemma ruleOf_of_stop (hsp : net.node n = .stop r) : (ofNetwork net).ruleOf n = r := by
  obtain ⟨size, hsz⟩ := hnet.size_eq_succ
  rw [ruleOf_ofNetwork]
  split
  · rw [hsz, ruleFrom, hsp]
  · rename_i hn
    rw [node, net.places_eq, Array.getElem?_toList, Array.getElem?_eq_none (by omega)] at hsp
    exact Node.stop.inj hsp

lemma closed_resume (hso : net.followers r ≠ []) : net.followers r ⊆ (ofNetwork net).resume r ∧
      Closed net (ofNetwork net).canEnd (ofNetwork net).ruleOf [] ((ofNetwork net).resume r) := by
  have hres : (ofNetwork net).resume r = closeFollowers net (ofNetwork net).canEnd
      (ofNetwork net).ruleOf (net.nodes.size * net.nodes.size) (net.followers r) [] := by
    rw [resume_ofNetwork]
    split
    · contradiction
    · rfl
  have hall := length_allFollowers hnet
  have hlen := (net.followers_sublist r).length_le
  have hunl : unlisted net [] ≤ net.allFollowers.length := List.length_filter_le _ _
  have hdepth := calc (net.followers r).length + net.allFollowers.length * unlisted net []
      ≤ net.allFollowers.length + net.allFollowers.length * net.allFollowers.length :=
        Nat.add_le_add hlen (Nat.mul_le_mul_left _ hunl)
    _ = net.allFollowers.length * (net.allFollowers.length + 1) := by
        rw [Nat.mul_succ, Nat.add_comm]
    _ ≤ net.nodes.size * net.nodes.size := Nat.mul_le_mul (Nat.le_of_lt hall) hall
  have hidx : ∀ q, net.followers q = [] → net.followers ((ofNetwork net).ruleOf q.index) = [] := by
    intro q hq
    rwa [ruleOf_of_stop hnet (hnet.holds q).stop]
  obtain ⟨hsub, -, hclo⟩ := @closed_closeFollowers net (ofNetwork net).canEnd _ hidx _ _ []
    (net.followers_sublist r).subset (fun _ h => nomatch h) hdepth
  rw [hres]
  exact ⟨hsub, hclo⟩

lemma tells_ofNetwork : (ofNetwork net).Tells where
  holds := hnet.holds
  size_le := hnet.size_le
  landing hs hacc := by
    rw [landingsAt_ofNetwork, canEnd, first_ofNetwork, if_pos (hs.lt_size hnet),
      if_pos (hs.lt_size hnet)]
    exact landing_of_accepts hnet.holds hs.bounded hnet.size_le hacc
  reaches {n l} hl := by
    rw [landingsAt_ofNetwork] at hl
    rw [first_ofNetwork]
    split at hl
    · rename_i hn
      rw [if_pos hn]
      refine reaches_of_landing (fun r => ?_) hl
      rw [canEnd, first_ofNetwork]
      split
      · exact mustRead_start hnet.holds r _
      · rfl
    · cases hl
  landings_stop {n q} hnd := by
    rw [landingsAt_ofNetwork]
    split
    · obtain ⟨size, hsz⟩ := hnet.size_eq_succ
      rw [hsz, landingsFrom, show net.node n = .stop q from hnd]
    · rfl
  canEnd hs hend := by
    rw [canEnd, first_ofNetwork, if_pos (hs.lt_size hnet)] at hend
    exact reaches_of_canEnd hnet.holds hs hend
  canEnd_stop r := by
    obtain ⟨size, hsz⟩ := hnet.size_eq_succ
    rw [canEnd, first_ofNetwork, if_pos (hnet.index_lt_size r), hsz, firstFrom,
      (hnet.holds r).stop]
  canEnd_eq_false {n} hend := by
    rw [canEnd, first_ofNetwork]
    split
    · exact hend _
    · rfl
  ruleOf hs := ruleOf_of_stands hnet hs
  resume_call {r n next} hnd := by
    have hmem := mem_followers hnd
    exact (closed_resume hnet (ne_nil_of_mem hmem)).1 hmem
  resume_closed {r n f next} hf hend hnd := by
    have hmem : next ∈ net.followers ((ofNetwork net).ruleOf f) := mem_followers hnd
    by_cases hso : net.followers r = []
    · -- A rule that nobody calls goes on at its own end, where no other rule ends.
      rw [resume_ofNetwork, hso, mem_singleton] at hf
      rw [hf, ruleOf_of_stop hnet (hnet.holds r).stop, hso] at hmem
      cases hmem
    · rcases (closed_resume hnet hso).2 f hf hend next hmem with h | h
      · exact h
      · cases h
  resume_program := by rw [resume_ofNetwork, hnet.uncalled]
  plain hpl hnd := by
    have hdis := pairwise_of_areDisjoint (plain_ofNetwork hpl hnd)
    rw [pairwise_map] at hdis
    refine hdis.imp fun h k hb hb' => ?_
    rw [← mem_kindsBeyond] at hb hb'
    rw [h k hb] at hb'
    cases hb'

end OfNetwork

lemma tells_compiscript : compiscript.Tells := tells_ofNetwork regular_ofProductions

end Lookahead

end Compiscript
