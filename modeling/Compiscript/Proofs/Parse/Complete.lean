import Compiscript.Proofs.Parse.Predict
import Compiscript.Proofs.Parse.Sound
import Mathlib.Data.List.Pairwise

/-!
# The Parser Accepts the Grammar

The walk is followed with the tokens that are still to be read, and with the promise
that they can be read to the very end from where the walk stands. Decisions keep the
promise.

## Theorems

* `parses_exactly_derivable`: Exactly what the grammar derives is parsed without an error.
-/

namespace Compiscript

open List hiding set

open Network

namespace Session

variable {la : Lookahead} (tells : la.Tells) {n next : Nat} {rs : List Nat} {s s' : Session}
  {t : Token} {ts ts' : List Token} {r : Rule} {k : Kind}

/-- A run without an error, with some tokens to come. The end of the input stays ahead when it
    has been read. -/
structure Fits (s : Session) (ts : List Token) : Prop where
  recovering : s.recovering = false
  errors : s.errors = []
  ahead : ts ≠ [] → s.ahead = ts

lemma Fits.current (h : s.Fits (t :: ts)) : s.current = t := by
  rw [Session.current, h.ahead (cons_ne_nil _ _)]
  rfl

lemma Fits.consume (h : s.Fits (t :: ts)) (hend : t.kind = .endOfInput → ts = []) :
    s.settle.consume.Fits ts ∧ s.settle.consume.children = .leaf t :: s.children := by
  have hrs := reads_consume s
  rw [h.current] at hrs
  refine ⟨⟨hrs.recovering, (errors_consume _).trans h.errors, fun hne => ?_⟩, hrs.children⟩
  have hahead := hrs.ahead
  rw [taken_leaf, if_neg fun hk => hne (hend hk), h.ahead (cons_ne_nil _ _)] at hahead
  exact (List.cons.inj hahead).2.symm

section Decide

include tells

lemma exists_head (hn : la.Located n rs) (hne : n ≠ Rule.program.index)
    (h : la.Accepts n rs (ts.map Token.kind)) : ∃ t ts', ts = t :: ts' := by
  refine exists_cons_of_ne_nil ?_
  rintro rfl
  exact hne (hn.accepts_nil tells.holds h).1

lemma beyond_of_accepts {ks : List Kind} (hn : la.Located n rs) (h : la.Accepts n rs (k :: ks)) :
    la.Beyond n k := by
  refine (Config.first_or_ends tells hn h).imp id fun ⟨hend, hends⟩ => ⟨hend, ?_⟩
  obtain ⟨r, _, hs, hcha⟩ := hn
  rw [← tells.ruleOf hs] at hcha
  obtain ⟨f, hf, rs', hlands⟩ := Config.resume_lands tells hcha hends
  obtain ⟨-, l, hl, hacc⟩ := hlands
  obtain ⟨-, hkds, hrdr⟩ := tells.reaches hl
  exact ⟨f, hf, hkds k (Config.readsAt_of_accepts hrdr hacc)⟩

variable {kind : Fork} {branches : List Nat}

lemma eq_of_beyond (hpl : la.isPlain n = true)
    (hnd : la.node n = .fork kind branches) {a b : Nat} (ha : a ∈ branches) (hb : b ∈ branches)
    (hbey : la.Beyond a k) (hbeyond' : la.Beyond b k) : a = b := by
  have hpairs := tells.plain hpl hnd
  by_contra hne
  have hsymm : Std.Symm fun a b : Nat => ∀ k, la.Beyond a k → ¬ la.Beyond b k :=
    ⟨fun _ _ h k hb ha => h k ha hb⟩
  exact hpairs.forall ha hb hne k hbey hbeyond'

lemma exists_decide (hnd : la.node n = .fork kind branches)
    (hn : la.Located n rs) (h : la.Accepts n rs (ts.map Token.kind)) (hs : s.Fits ts) :
    ∃ b ∈ branches, s.decide la n kind branches rs = .ok b ∧
      la.Accepts b rs (ts.map Token.kind) := by
  obtain ⟨r, h', hsta, hcha⟩ := hn
  have hon := hsta.onward tells.holds
  rw [hnd] at hon
  obtain ⟨hbrs, hkd⟩ := hon
  have hloc : ∀ b ∈ branches, la.Located b rs ∧ b ≠ Rule.program.index := fun b hb =>
    ⟨⟨r, _, (hbrs b hb).1, hcha⟩, (hbrs b hb).2⟩
  obtain ⟨b, hb, hacc⟩ := (accepts_fork hnd).1 h
  obtain ⟨t, ts, rfl⟩ := exists_head tells (hloc b hb).1 (hloc b hb).2 hacc
  unfold Session.decide
  split
  · rename_i hpl
    rw [hs.current]
    have hbey := beyond_of_accepts tells (hloc b hb).1 hacc
    have hft : ∀ a ∈ branches, (la.first a).kinds.mem t.kind = true → a = b := fun a ha hfst =>
      eq_of_beyond tells hpl hnd ha hb (.inl hfst) hbey
    -- A branch that reads a token before the rule ends fits right away.
    have hfst : la.MustRead b → (la.first b).kinds.mem t.kind = true := by
      intro hend
      rcases Config.first_or_ends tells (hloc b hb).1 hacc with hfst | ⟨hcan, -⟩
      · exact hfst
      · rw [tells.canEnd_eq_false hend] at hcan
        cases hcan
    dsimp only
    split
    · rw [if_pos rfl] at hkd
      have hso : (branches.find? fun a => (la.first a).kinds.mem t.kind).isSome = true :=
        find?_isSome.2 ⟨b, hb, hfst (hkd b hb)⟩
      obtain ⟨a, ha⟩ := Option.isSome_iff_exists.1 hso
      have hab := hft a (mem_of_find?_eq_some ha) (by simpa using find?_some ha)
      rw [ha]
      exact ⟨b, hb, by rw [hab], hacc⟩
    · rename_i past _ _
      rename_i first _ hchoice
      rw [if_neg hchoice] at hkd
      obtain ⟨_, _, heq, hend⟩ := hkd
      obtain ⟨rfl, -⟩ := List.cons.inj heq
      refine ⟨b, hb, ?_, hacc⟩
      split
      · rename_i hmem
        rw [hft _ mem_cons_self hmem]
      · rename_i hmem
        rcases mem_cons.1 hb with rfl | hb
        · exact absurd (hfst hend) hmem
        · rw [mem_singleton.1 hb]
    · rename_i hchoice hpair
      rw [if_neg hchoice] at hkd
      obtain ⟨first, past, heq, -⟩ := hkd
      exact absurd heq (hpair first past)
  · obtain ⟨i, a, hpred, hget, hacc⟩ := @right_predict la tells branches rs hloc (t :: ts)
      ⟨b, hb, hacc⟩
    rw [hs.ahead (cons_ne_nil _ _), hpred]
    dsimp only
    rw [hget]
    exact ⟨a, mem_of_getElem? hget, rfl, hacc⟩

lemma sync_eq (hn : la.Located n rs) (hnd : ∀ q, la.node n ≠ .stop q)
    (h : la.Accepts n rs (ts.map Token.kind)) (hs : s.Fits ts) :
    s.sync la n rs = .ok s ∧ s.syncAgain la n rs = s := by
  obtain ⟨t, ts, rfl⟩ := exists_head tells hn (fun hn => hnd .program
    (hn ▸ (tells.holds .program).stop)) h
  have hft : la.canEnd n = true ∨ (la.first n).kinds.mem s.current.kind = true := by
    rw [hs.current]
    exact (Config.first_or_ends tells hn h).symm.imp And.left id
  constructor
  · unfold sync
    exact if_pos (by simpa [hs.recovering] using hft)
  · unfold syncAgain
    refine if_pos ?_
    rw [Kinds.mem_union]
    rcases hft with hft | hft <;> simp [hft]

end Decide

/-- A walk is over: some tokens were read into trees, and the others can be read by whoever
    called the rule. -/
structure Completes (la : Lookahead) (rs : List Nat) (s s' : Session) (ts ts' : List Token)
    (cs : List Tree) : Prop where
  fits : s'.Fits ts'
  ends : la.Ends rs (ts'.map Token.kind)
  tokens : ts = Tree.leavesOf cs ++ ts'
  children : s'.children = cs.reverse ++ s.children

lemma Completes.leaf {cs : List Tree} (h : Completes la rs s.settle.consume s' ts ts' cs)
    (hcs : s.settle.consume.children = .leaf t :: s.children) :
    Completes la rs s s' (t :: ts) ts' (.leaf t :: cs) where
  fits := h.fits
  ends := h.ends
  tokens := by
    rw [h.tokens]
    rfl
  children := by
    rw [h.children, hcs, reverse_cons, append_assoc]
    rfl

include tells in
lemma completes_walk (fuel : Nat) {h : Nat} (hsta : la.Stands r n h) (hcha : la.Chain r rs)
    (hacc : la.Accepts n rs (ts.map Token.kind)) (hs : s.Fits ts)
    (hfu : h + wayBound * ts.length ≤ fuel) :
    ∃ ts' cs, Completes la rs s (s.walk la fuel n rs) ts ts' cs ∧
      (la.MustRead n → ts'.length < ts.length) := by
  induction fuel generalizing r n rs s ts h with
  | zero => exact absurd hsta.pos (by omega)
  | succ fuel ih =>
    have hpos := hsta.pos
    have hloc : la.Located n rs := ⟨r, h, hsta, hcha⟩
    have hon := hsta.onward tells.holds
    -- One token more: it is there, and the rest goes on behind it.
    have hrd : ∀ (set : Kinds) (single : Bool) (next : Nat) (k : Kind) (ks : List Kind),
        set.mem k = true → ts.map Token.kind = k :: ks → la.ReadsAt n k = true →
        la.Stands r next wayBound → la.Accepts next rs ks →
        s.read la n next rs set single = .ok s.settle.consume ∧
          ∃ ts' cs, Completes la rs s (s.settle.consume.walk la fuel next rs) ts ts' cs ∧
            (la.MustRead n → ts'.length < ts.length) := by
      intro set single next k ks hset hts hrs hnx haccn
      obtain ⟨t, ts, rfl⟩ : ∃ t ts', ts = t :: ts' :=
        exists_cons_of_ne_nil (by rintro rfl; cases hts)
      obtain ⟨rfl, rfl⟩ := List.cons.inj hts
      obtain ⟨-, -, -, -, hend⟩ := Config.exists_next tells hloc hrs hacc
      obtain ⟨hft, hcs⟩ := hs.consume fun hk => map_eq_nil_iff.1 (hend.1 hk)
      rw [length_cons, Nat.mul_succ] at hfu
      obtain ⟨ts', cs, hcomp, -⟩ := ih hnx hcha haccn hft (by omega)
      refine ⟨if_pos (hs.current ▸ hset), ts', _, hcomp.leaf hcs, fun _ => ?_⟩
      rw [length_cons, hcomp.tokens, length_append]
      omega
    -- A decision: the branch that is taken keeps the promise.
    have hdec : ∀ (m : Nat) (kind : Fork) (branches : List Nat) (h' : Nat),
        la.node m = .fork kind branches → la.Stands r m h' → h' ≤ h →
        la.Accepts m rs (ts.map Token.kind) → (la.MustRead n → la.MustRead m) →
        ∃ b, s.decide la m kind branches rs = .ok b ∧
          ∃ ts' cs, Completes la rs s (s.walk la fuel b rs) ts ts' cs ∧
            (la.MustRead n → ts'.length < ts.length) := by
      intro m kind branches h' hm hstands' hle hacc' hmust
      obtain ⟨b, hb, hok, haccb⟩ := exists_decide tells hm ⟨r, h', hstands', hcha⟩ hacc' hs
      have honward' := hstands'.onward tells.holds
      rw [hm] at honward'
      have hpos' := hstands'.pos
      obtain ⟨ts', cs, hcomp, hless⟩ := ih (honward'.1 b hb).1 hcha haccb hs (by omega)
      exact ⟨b, hok, ts', cs, hcomp, fun hn => hless ((hmust hn).branch hm hb)⟩
    rw [walk]
    cases hnd : la.node n with rw [hnd] at hon
    | token k next =>
      obtain ⟨ks, hts, haccn⟩ := (accepts_token hnd).1 hacc
      have hrs : la.ReadsAt n k = true := by
        rw [ReadsAt, hnd]
        exact beq_self_eq_true k
      obtain ⟨hok, hr⟩ := hrd (.ofList [k]) true next k ks
        (Kinds.mem_ofList.2 (.head _)) hts hrs hon.1 haccn
      dsimp only
      rw [hok]
      exact hr
    | oneOf set next =>
      obtain ⟨k, ks, hts, hset, haccn⟩ := (accepts_oneOf hnd).1 hacc
      have hrs : la.ReadsAt n k = true := by
        rw [ReadsAt, hnd]
        exact hset
      obtain ⟨hok, hr⟩ := hrd set false next k ks hset hts hrs hon.2.1 haccn
      dsimp only
      rw [hok]
      exact hr
    | call q next =>
      obtain ⟨-, hlevel, hnx, -⟩ := hon
      have hinn : ({ s with children := [], label := none } : Session).Fits ts :=
        ⟨hs.recovering, hs.errors, hs.ahead⟩
      obtain ⟨ts1, body, hbd, hless⟩ := ih (.start (tells.holds q))
        (.cons hnd hsta hcha) ((accepts_call hnd).1 hacc) hinn (by omega)
      have hless := hless (mustRead_start tells.holds q)
      have hmul := Nat.mul_le_mul_left wayBound hless
      rw [Nat.mul_succ] at hmul
      dsimp only
      generalize ({ s with children := [], label := none } : Session).walk la fuel (la.start q)
        (next :: rs) = inner at hbd ⊢
      obtain ⟨ts', cs, hcomp, -⟩ := ih hnx hcha hbd.ends (s := { inner with
        children := .node ⟨q, inner.label⟩ s.current.pos inner.children.reverse :: s.children
        label := s.label }) ⟨hbd.fits.recovering, hbd.fits.errors, hbd.fits.ahead⟩
        (by omega)
      refine ⟨ts', .node ⟨q, inner.label⟩ s.current.pos inner.children.reverse :: cs,
        ⟨hcomp.fits, hcomp.ends, ?_, ?_⟩, fun _ => ?_⟩
      · have hcs : inner.children.reverse = body := by
          rw [hbd.children, append_nil, reverse_reverse]
        rw [Tree.leavesOf, Tree.leaves, hcs, append_assoc, ← hcomp.tokens]
        exact hbd.tokens
      · rw [hcomp.children, reverse_cons, append_assoc]
        rfl
      · rw [hcomp.tokens, length_append] at hless
        omega
    | fork kind branches =>
      obtain ⟨b, hok, hr⟩ := hdec n kind branches h hnd hsta (Nat.le_refl _) hacc id
      dsimp only
      rw [(sync_eq tells hloc (by simp [hnd]) hacc hs).1]
      dsimp only
      rw [hok]
      exact hr
    | again entry =>
      obtain ⟨hent, -, first, past, hfork⟩ := hon
      obtain ⟨b, hok, hr⟩ := hdec entry .repeated [first, past] (h - 1) hfork hent
        (Nat.sub_le _ _) ((accepts_again hnd).1 hacc) fun hn => hn.again hnd
      dsimp only
      rw [(sync_eq tells hloc (by simp [hnd]) hacc hs).2, hfork]
      dsimp only
      rw [hok]
      exact hr
    | name l next =>
      have hlab : ({ s with label := some l } : Session).Fits ts :=
        ⟨hs.recovering, hs.errors, hs.ahead⟩
      obtain ⟨ts', cs, hcomp, hless⟩ := ih hon.1 hcha ((accepts_name hnd).1 hacc)
        hlab (by omega)
      exact ⟨ts', cs, ⟨hcomp.fits, hcomp.ends, hcomp.tokens,
        hcomp.children⟩, fun hn => hless (hn.name hnd)⟩
    | stop q =>
      exact ⟨ts, [], ⟨hs, (accepts_stop hnd).1 hacc, rfl, rfl⟩,
        fun hn => absurd hnd (hn.not_stop q)⟩

end Session

variable {ts : List Token} {e : Token}

lemma parseRule_of_accepts
    (h : compiscript.Accepts (compiscript.start .program) [] (ts.map Token.kind)) :
    (parseRule .program ts).errors = [] ∧ (parseRule .program ts).tree.leaves = ts := by
  have tells := Lookahead.tells_compiscript
  unfold parseRule
  generalize compiscript = la at tells h ⊢
  have hlevel := level_lt .program
  have hbound : wayBound = 92 := rfl
  have hsz := Nat.mul_le_mul_left (ts.length + 1) tells.size_le
  rw [Nat.mul_comm, Nat.mul_succ] at hsz
  obtain ⟨ts', cs, hcomp, -⟩ := Session.completes_walk tells
    ((ts.length + 1) * la.nodes.size) (.start (tells.holds .program)) .nil h
    (s := Session.start ts) ⟨rfl, rfl, fun _ => rfl⟩ (by omega)
  obtain rfl : ts' = [] := map_eq_nil_iff.1 hcomp.ends
  dsimp only
  rw [hcomp.fits.errors, hcomp.children, Tree.leaves,
    show (Session.start ts).children = [] from rfl, append_nil, reverse_reverse]
  have htoks := hcomp.tokens
  rw [append_nil] at htoks
  exact ⟨rfl, htoks.symm⟩

lemma eq_of_append_end {pre rest : List Token}
    (hts : ∀ t ∈ ts, t.kind ≠ .endOfInput) (he : e.kind = .endOfInput)
    (hpre : ∀ t ∈ pre, t.kind ≠ .endOfInput) (hr : (rest.headD default).kind = .endOfInput)
    (h : pre ++ rest = ts ++ [e]) : pre = ts := by
  rcases append_eq_append_iff.1 h with ⟨more, hmore, hrest'⟩ | ⟨more, hmore, hrest'⟩
  · cases more with
    | nil => rw [hmore, append_nil]
    | cons t more =>
      rw [hrest'] at hr
      exact absurd hr (hts t (hmore ▸ mem_append_right _ (.head _)))
  · cases more with
    | nil => rw [hmore, append_nil]
    | cons t more =>
      obtain ⟨rfl, -⟩ := List.cons.inj hrest'
      exact absurd he (hpre e (hmore ▸ mem_append_right _ (.head _)))

lemma accepts_of_parseRule (hts : ∀ t ∈ ts, t.kind ≠ .endOfInput)
    (he : e.kind = .endOfInput) (h : (parseRule .program (ts ++ [e])).errors = []) :
    compiscript.Accepts (compiscript.start .program) [] ((ts ++ [e]).map Token.kind) := by
  have hho : ∀ r, compiscript.Holds r (production r) := Network.holds_ofProductions production
  obtain ⟨hder, rest, htk, hended⟩ := @derives_of_parseRule (fun _ => True) trivial .program
    (ts ++ [e]) (fun _ _ => trivial) h
  have hacc := accepts_of_derives hho hder
  generalize (parseRule .program (ts ++ [e])).tree = tree at hacc htk hended
  -- The tree ends with the end of the input and has it nowhere else.
  obtain ⟨pre, hkds, hpre⟩ := accepts_start hho hacc
  obtain ⟨body, last, hlea, rfl, hla⟩ := map_eq_append_iff.1 hkds
  have hlast' : ∀ t ∈ last, t.kind = .endOfInput := fun t ht =>
    mem_singleton.1 (hla ▸ mem_map_of_mem ht)
  have hbd : ∀ t ∈ body, t.kind ≠ .endOfInput := fun t ht hk =>
    hpre (hk ▸ mem_map_of_mem ht)
  have hfil : taken [tree] = body := by
    rw [taken, Tree.leavesOf, Tree.leavesOf, append_nil, hlea, filter_append,
      filter_eq_self.2 fun t ht => bne_iff_ne.2 (hbd t ht),
      filter_eq_nil_iff.2 fun t ht => by simp [hlast' t ht], append_nil]
  have hend : ∃ t ∈ tree.leaves, t.kind = .endOfInput := by
    obtain ⟨t, ht⟩ := exists_mem_of_ne_nil last (by rintro rfl; cases hla)
    exact ⟨t, hlea ▸ mem_append_right _ ht, hlast' t ht⟩
  have hbod := eq_of_append_end hts he hbd (hended hend) (hfil ▸ htk)
  rw [hkds, hbod] at hacc
  rwa [map_append, map_singleton, he]

/-- The parser accepts exactly the grammar: a token list with the end of the input behind it is
    read without an error if and only if the grammar derives it, and then the tree is a derivation
    of these tokens. -/
theorem parses_exactly_derivable (ts : List Token) (e : Token)
    (hts : ∀ t ∈ ts, t.kind ≠ .endOfInput) (he : e.kind = .endOfInput) :
    ((parseRule .program (ts ++ [e])).errors = [] ↔
        ∃ t, Derives (fun _ => True) .program t ∧ t.leaves = ts ++ [e]) ∧
      ((parseRule .program (ts ++ [e])).errors = [] →
        Derives (fun _ => True) .program (parseRule .program (ts ++ [e])).tree ∧
          (parseRule .program (ts ++ [e])).tree.leaves = ts ++ [e]) := by
  have htree : (parseRule .program (ts ++ [e])).errors = [] →
      Derives (fun _ => True) .program (parseRule .program (ts ++ [e])).tree ∧
        (parseRule .program (ts ++ [e])).tree.leaves = ts ++ [e] := fun h =>
    ⟨(derives_of_parseRule trivial (fun _ _ => trivial) h).1,
      (parseRule_of_accepts (accepts_of_parseRule hts he h)).2⟩
  refine ⟨⟨fun h => ⟨_, htree h⟩, ?_⟩, htree⟩
  rintro ⟨t, hder, hlea⟩
  have hacc := accepts_of_derives (Network.holds_ofProductions production) hder
  rw [hlea] at hacc
  exact (parseRule_of_accepts hacc).1

/-- A jump out of a loop, as tokens. -/
def breakTokens : List Token :=
  [⟨.kwBreak, "break", ⟨1, 0⟩⟩, ⟨.semicolon, ";", ⟨1, 5⟩⟩]

def endToken : Token := ⟨.endOfInput, "<EOF>", ⟨1, 6⟩⟩

lemma derives_break : ∃ t, Derives (fun _ => True) .program t ∧
    t.leaves = breakTokens ++ [endToken] := by
  have hbreak : Parses (fun _ => True) [.token .kwBreak, .token .semicolon]
      (breakTokens.map Tree.leaf) :=
    .token trivial rfl (.token trivial rfl .nil)
  have hstmt : Parses (fun _ => True) [.rule .breakStatement]
      [.node ⟨.breakStatement, none⟩ ⟨1, 0⟩ (breakTokens.map Tree.leaf)] :=
    .rule (e := ⟨none, [.token .kwBreak, .token .semicolon]⟩) (.head _) hbreak .nil
  have hpro : Parses (fun _ => True) [.repeated [.rule .statement], .token .endOfInput]
      [.node ⟨.statement, none⟩ ⟨1, 0⟩
        [.node ⟨.breakStatement, none⟩ ⟨1, 0⟩ (breakTokens.map Tree.leaf)], .leaf endToken] :=
    .more (.rule (e := ⟨none, [.rule .breakStatement]⟩)
      (mem_map.2 ⟨.breakStatement, by decide, rfl⟩) hstmt
      (.stop (.token trivial rfl .nil)))
  exact ⟨_, ⟨⟨none, [.repeated [.rule .statement], .token .endOfInput]⟩, ⟨1, 0⟩, _,
    mem_singleton_self _, hpro, rfl⟩, rfl⟩

/-- A text of one statement. -/
theorem parses_exactly_derivable_break :
    (parseRule .program (breakTokens ++ [endToken])).errors = [] :=
  (parses_exactly_derivable breakTokens endToken (by decide) rfl).1.2 derives_break

end Compiscript
