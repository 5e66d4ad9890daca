import Compiscript.Proofs.Grammar.Derivation
import Compiscript.Proofs.Grammar.Network

/-!
# Runs along the Network

What the network allows, with no parser in sight.

A state is a node and the nodes to return to, the innermost first. A run goes from state
to state: it reads the token of a node, it goes into a rule, takes any branch of a
decision or goes back to where a rule was called. A state accepts what can be read from
it up to the end of the outermost rule.
-/

namespace Compiscript.Network

section Runs

variable (net : Network)

/-- A run from a state to a state, with the kinds of the tokens that it reads. -/
inductive Reaches : Nat → List Nat → List Kind → Nat → List Nat → Prop where
  | refl (n : Nat) (rs : List Nat) : Reaches n rs [] n rs
  | token {n next m : Nat} {rs ms : List Nat} {k : Kind} {ks : List Kind}
      (hn : net.node n = .token k next) (h : Reaches next rs ks m ms) :
      Reaches n rs (k :: ks) m ms
  | oneOf {n next m : Nat} {rs ms : List Nat} {set : Kinds} {k : Kind} {ks : List Kind}
      (hn : net.node n = .oneOf set next) (hk : set.mem k = true) (h : Reaches next rs ks m ms) :
      Reaches n rs (k :: ks) m ms
  | call {n next m : Nat} {rs ms : List Nat} {r : Rule} {ks : List Kind}
      (hn : net.node n = .call r next) (h : Reaches (net.start r) (next :: rs) ks m ms) :
      Reaches n rs ks m ms
  | fork {n b m : Nat} {rs ms : List Nat} {kind : Fork} {branches : List Nat} {ks : List Kind}
      (hn : net.node n = .fork kind branches) (hb : b ∈ branches) (h : Reaches b rs ks m ms) :
      Reaches n rs ks m ms
  | again {n entry m : Nat} {rs ms : List Nat} {ks : List Kind}
      (hn : net.node n = .again entry) (h : Reaches entry rs ks m ms) : Reaches n rs ks m ms
  | name {n next m : Nat} {rs ms : List Nat} {l : Label} {ks : List Kind}
      (hn : net.node n = .name l next) (h : Reaches next rs ks m ms) : Reaches n rs ks m ms
  | back {n f m : Nat} {rs ms : List Nat} {r : Rule} {ks : List Kind}
      (hn : net.node n = .stop r) (h : Reaches f rs ks m ms) : Reaches n (f :: rs) ks m ms

/-- A state from which tokens can be read up to the end of the outermost rule. -/
def Accepts (n : Nat) (rs : List Nat) (ks : List Kind) : Prop :=
  ∃ m r, net.node m = .stop r ∧ net.Reaches n rs ks m []

/-- The same behind the end of a rule. -/
def Ends : List Nat → List Kind → Prop
  | [], ks => ks = []
  | f :: rs, ks => net.Accepts f rs ks

variable {net} {n m l next : Nat} {rs ms ls : List Nat} {ks ks' : List Kind}

lemma Reaches.trans (h : net.Reaches n rs ks m ms) (h' : net.Reaches m ms ks' l ls) :
    net.Reaches n rs (ks ++ ks') l ls := by
  induction h with
  | refl => exact h'
  | token hn _ ih => exact .token hn (ih h')
  | oneOf hn hk _ ih => exact .oneOf hn hk (ih h')
  | call hn _ ih => exact .call hn (ih h')
  | fork hn hb _ ih => exact .fork hn hb (ih h')
  | again hn _ ih => exact .again hn (ih h')
  | name hn _ ih => exact .name hn (ih h')
  | back hn _ ih => exact .back hn (ih h')

lemma Reaches.accepts (h : net.Reaches n rs ks m ms) (h' : net.Accepts m ms ks') :
    net.Accepts n rs (ks ++ ks') := by
  obtain ⟨l, r, hl, hrun⟩ := h'
  exact ⟨l, r, hl, h.trans hrun⟩

lemma Reaches.accepts_silent (h : net.Reaches n rs [] m ms) (h' : net.Accepts m ms ks) :
    net.Accepts n rs ks := h.accepts h'

/-! ### What a state accepts, by its node -/

lemma accepts_iff : net.Accepts n rs ks ↔
    match net.node n with
    | .token k next => ∃ ks', ks = k :: ks' ∧ net.Accepts next rs ks'
    | .oneOf set next => ∃ k ks', ks = k :: ks' ∧ set.mem k = true ∧ net.Accepts next rs ks'
    | .call r next => net.Accepts (net.start r) (next :: rs) ks
    | .fork _ branches => ∃ b ∈ branches, net.Accepts b rs ks
    | .again next => net.Accepts next rs ks
    | .name _ next => net.Accepts next rs ks
    | .stop _ => net.Ends rs ks := by
  constructor
  · rintro ⟨m, r, hm, h⟩
    cases h with
    | refl => rw [hm]; rfl
    | token hn h => rw [hn]; exact ⟨_, rfl, m, r, hm, h⟩
    | oneOf hn hk h => rw [hn]; exact ⟨_, _, rfl, hk, m, r, hm, h⟩
    | fork hn hb h => rw [hn]; exact ⟨_, hb, m, r, hm, h⟩
    | call hn h | again hn h | name hn h | back hn h => rw [hn]; exact ⟨m, r, hm, h⟩
  · intro h
    cases hn : net.node n with rw [hn] at h
    | token k next =>
      obtain ⟨_, rfl, m, r, hm, h⟩ := h
      exact ⟨m, r, hm, .token hn h⟩
    | oneOf set next =>
      obtain ⟨_, _, rfl, hk, m, r, hm, h⟩ := h
      exact ⟨m, r, hm, .oneOf hn hk h⟩
    | call q next =>
      obtain ⟨m, r, hm, h⟩ := h
      exact ⟨m, r, hm, .call hn h⟩
    | fork kind branches =>
      obtain ⟨b, hb, m, r, hm, h⟩ := h
      exact ⟨m, r, hm, .fork hn hb h⟩
    | again next =>
      obtain ⟨m, r, hm, h⟩ := h
      exact ⟨m, r, hm, .again hn h⟩
    | name l next =>
      obtain ⟨m, r, hm, h⟩ := h
      exact ⟨m, r, hm, .name hn h⟩
    | stop q =>
      cases rs with
      | nil =>
        obtain rfl : ks = [] := h
        exact ⟨n, q, hn, .refl n []⟩
      | cons f rs =>
        obtain ⟨m, r, hm, h⟩ := h
        exact ⟨m, r, hm, .back hn h⟩

lemma accepts_token {k : Kind} (hn : net.node n = .token k next) :
    net.Accepts n rs ks ↔ ∃ ks', ks = k :: ks' ∧ net.Accepts next rs ks' := by
  rw [accepts_iff, hn]

lemma accepts_oneOf {set : Kinds} (hn : net.node n = .oneOf set next) :
    net.Accepts n rs ks ↔ ∃ k ks', ks = k :: ks' ∧ set.mem k = true ∧ net.Accepts next rs ks' := by
  rw [accepts_iff, hn]

variable {r : Rule}

lemma accepts_call (hn : net.node n = .call r next) :
    net.Accepts n rs ks ↔ net.Accepts (net.start r) (next :: rs) ks := by
  rw [accepts_iff, hn]

lemma accepts_fork {kind : Fork} {branches : List Nat} (hn : net.node n = .fork kind branches) :
    net.Accepts n rs ks ↔ ∃ b ∈ branches, net.Accepts b rs ks := by
  rw [accepts_iff, hn]

lemma accepts_again (hn : net.node n = .again next) :
    net.Accepts n rs ks ↔ net.Accepts next rs ks := by
  rw [accepts_iff, hn]

lemma accepts_name {l : Label} (hn : net.node n = .name l next) :
    net.Accepts n rs ks ↔ net.Accepts next rs ks := by
  rw [accepts_iff, hn]

lemma accepts_stop (hn : net.node n = .stop r) : net.Accepts n rs ks ↔ net.Ends rs ks := by
  rw [accepts_iff, hn]

end Runs

/-! ### Derivations are runs -/

section Derivations

variable {net : Network} {P : Token → Prop} {n m : Nat} {rs : List Nat} {ks : List Kind}

variable {firsts : List Nat} {e : Expansion} {r : Rule}

lemma BodiesLead.exists_first {alts : List (List Item)} {body : List Item}
    (h : net.BodiesLead alts firsts m) (hbd : body ∈ alts) :
    ∃ first ∈ firsts, net.Leads body first m := by
  induction alts generalizing firsts with
  | nil => cases hbd
  | cons b alts ih =>
    cases firsts with
    | nil => exact h.elim
    | cons f firsts =>
      rcases List.mem_cons.1 hbd with rfl | hbd
      · exact ⟨f, .head _, h.1⟩
      · obtain ⟨first, hf, hld⟩ := ih h.2 hbd
        exact ⟨first, .tail _ hf, hld⟩

lemma Begins.exists_first {es : List Expansion}
    (h : List.Forall₂ (fun e first => net.Begins e first m) es firsts) (he : e ∈ es) :
    ∃ first ∈ firsts, net.Begins e first m := by
  induction h with
  | nil => cases he
  | @cons e' f es firsts hef _ ih =>
    rcases List.mem_cons.1 he with rfl | he
    · exact ⟨f, .head _, hef⟩
    · obtain ⟨first, hf, hbeg⟩ := ih he
      exact ⟨first, .tail _ hf, hbeg⟩

/-- A rule can be entered at any of its expansions. -/
lemma Holds.enter (hho : net.Holds r (production r)) (he : e ∈ production r) :
    ∃ first, net.Leads e.body first r.index ∧ ∀ rs, net.Reaches (net.start r) rs [] first rs := by
  have hbeg : ∀ b, net.Begins e b r.index →
      ∃ first, net.Leads e.body first r.index ∧ ∀ rs, net.Reaches b rs [] first rs := by
    intro b hb
    unfold Begins at hb
    cases hl : e.label with
    | none =>
      rw [hl] at hb
      exact ⟨b, hb, fun rs => .refl b rs⟩
    | some l =>
      rw [hl] at hb
      obtain ⟨first, hnd, hld⟩ := hb
      exact ⟨first, hld, fun rs => .name hnd (.refl first rs)⟩
  rcases hho.splits with ⟨e', hes, hb⟩ | ⟨-, firsts, hnd, hfs⟩
  · rw [hes, List.mem_singleton] at he
    exact hbeg _ (he ▸ hb)
  · obtain ⟨b, hmem, hb⟩ := Begins.exists_first hfs he
    obtain ⟨first, hld, hrun⟩ := hbeg b hb
    exact ⟨first, hld, fun rs => .fork hnd hmem (hrun rs)⟩

/-- The kinds of the tokens of several trees. -/
def kindsOf (cs : List Tree) : List Kind := (Tree.leavesOf cs).map Token.kind

lemma accepts_of_parses (hho : ∀ r, net.Holds r (production r)) {items : List Item}
    {cs : List Tree} (h : Parses P items cs) (hld : net.Leads items n m)
    (hr : net.Accepts m rs ks) : net.Accepts n rs (kindsOf cs ++ ks) := by
  induction h generalizing n m rs ks with
  | nil =>
    obtain rfl : n = m := hld
    exact hr
  | token _ hk _ ih =>
    obtain ⟨next, hnd, hld⟩ := hld
    exact (accepts_token hnd).2 ⟨_, by rw [← hk]; rfl, ih hld hr⟩
  | oneOf _ hk _ ih =>
    obtain ⟨next, hnd, hld⟩ := hld
    exact (accepts_oneOf hnd).2 ⟨_, _, rfl, Kinds.mem_ofList.2 hk, ih hld hr⟩
  | @rule r e start body cs rest he _ _ ihbody ih =>
    obtain ⟨next, hnd, hld⟩ := hld
    obtain ⟨first, hf, hrun⟩ := (hho r).enter he
    have hback : net.Accepts r.index (next :: rs) (kindsOf cs ++ ks) :=
      (accepts_stop (hho r).stop).2 (ih hld hr)
    have hkds : kindsOf (.node ⟨r, e.label⟩ start body :: cs) ++ ks =
        kindsOf body ++ (kindsOf cs ++ ks) := by
      rw [kindsOf, Tree.leavesOf, List.map_append, List.append_assoc]
      rfl
    rw [hkds]
    exact (accepts_call hnd).2 ((hrun _).accepts_silent (ihbody hf hback))
  | skip _ ih =>
    obtain ⟨next, ⟨first, hnd, -⟩, hld⟩ := hld
    exact (accepts_fork hnd).2 ⟨next, by simp, ih hld hr⟩
  | take _ ih =>
    obtain ⟨next, ⟨first, hnd, hbd⟩, hld⟩ := hld
    exact (accepts_fork hnd).2 ⟨first, by simp, ih (hbd.append hld) hr⟩
  | stop _ ih =>
    obtain ⟨next, ⟨entry, first, hn, hent, hag, -⟩, hld⟩ := hld
    have hsp := (accepts_fork hent).2 ⟨next, by simp, ih hld hr⟩
    rcases hn with rfl | rfl
    · exact hsp
    · exact (accepts_again hag).2 hsp
  | more _ ih =>
    obtain ⟨next, ⟨entry, first, hn, hent, hag, hbd⟩, hld⟩ := hld
    have hmore := (accepts_fork hent).2 ⟨first, by simp, ih (hbd.append
      ⟨next, ⟨entry, first, .inr rfl, hent, hag, hbd⟩, hld⟩) hr⟩
    rcases hn with rfl | rfl
    · exact hmore
    · exact (accepts_again hag).2 hmore
  | choice hmem _ ih =>
    obtain ⟨next, ⟨firsts, hnd, hbod⟩, hld⟩ := hld
    obtain ⟨first, hf, hbd⟩ := hbod.exists_first hmem
    exact (accepts_fork hnd).2 ⟨first, hf, ih (hbd.append hld) hr⟩

/-- The tokens of what a rule derives are accepted where the rule begins. -/
lemma accepts_of_derives (hho : ∀ r, net.Holds r (production r)) {t : Tree}
    (h : Derives P r t) : net.Accepts (net.start r) [] (t.leaves.map Token.kind) := by
  obtain ⟨e, start, cs, he, hcs, rfl⟩ := h
  obtain ⟨first, hld, hrun⟩ := (hho r).enter he
  have hend : net.Accepts r.index [] [] := (accepts_stop (hho r).stop).2 rfl
  have hbd := accepts_of_parses hho hcs hld hend
  rw [List.append_nil] at hbd
  exact (hrun []).accepts_silent hbd

end Derivations

end Compiscript.Network
