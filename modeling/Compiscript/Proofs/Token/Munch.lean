import Compiscript.Proofs.Token.Lexed
import Mathlib.Data.List.Induction

/-!
# The Longest Match

What the lexer takes from the front of a text.

A race between the lexical rules ends with the longest match there is, by the
first rule that has it. If no rule matches, what is set aside is the shortest
piece that no rule can begin with, or all that is left.
-/

namespace Compiscript

open List

namespace Pattern

variable {p q : Pattern} {c : Char}

/-- A pattern without `never` in it, whose classes have members. -/
def Live : Pattern → Prop
  | never => False
  | done => True
  | one class? => ∃ c, class? c = true
  | seq p q => p.Live ∧ q.Live
  | alt p q => p.Live ∧ q.Live
  | many p => p.Live

lemma Live.exists_matches (h : p.Live) : ∃ w, p.Matches w := by
  induction p with
  | never => exact h.elim
  | done => exact ⟨[], .done⟩
  | one class? =>
    obtain ⟨c, hc⟩ := h
    exact ⟨[c], .one hc⟩
  | seq p q ihp ihq =>
    obtain ⟨u, hu⟩ := ihp h.1
    obtain ⟨v, hv⟩ := ihq h.2
    exact ⟨u ++ v, .seq hu hv⟩
  | alt p q ihp _ =>
    obtain ⟨u, hu⟩ := ihp h.1
    exact ⟨u, .left hu⟩
  | many p _ => exact ⟨[], .stop⟩

lemma isDead_eq_false : p.isDead = false ↔ p ≠ never := by
  cases p <;> simp [isDead]

lemma live_join (hp : p = never ∨ p.Live) (hq : q.Live) : p.join q = never ∨ (p.join q).Live := by
  rcases hp with rfl | hp
  · exact .inl rfl
  · unfold join
    split
    · exact hp.elim
    · exact hq.elim
    · exact .inr hq
    · exact .inr ⟨hp, hq⟩

lemma live_either (hp : p = never ∨ p.Live) (hq : q = never ∨ q.Live) :
    p.either q = never ∨ (p.either q).Live := by
  unfold either
  split
  · exact hq
  · exact hp
  · rename_i hp' hq'
    exact .inr ⟨hp.resolve_left hp', hq.resolve_left fun h => hq' h⟩

/-- What remains of it after a character can be completed too, unless it is
    `never`. -/
lemma Live.after (h : p.Live) (c : Char) : p.after c = never ∨ (p.after c).Live := by
  induction p with
  | never => exact .inl rfl
  | done => exact .inl rfl
  | one class? =>
    rw [Pattern.after]
    split
    · exact .inr trivial
    · exact .inl rfl
  | seq p q ihp ihq =>
    rw [Pattern.after]
    split
    · exact live_either (live_join (ihp h.1) h.2) (ihq h.2)
    · exact live_join (ihp h.1) h.2
  | alt p q ihp ihq =>
    rw [Pattern.after]
    exact live_either (ihp h.1) (ihq h.2)
  | many p ih =>
    rw [Pattern.after]
    exact live_join (ih h) h

lemma live_text (s : String) : (text s).Live := by
  rw [text]
  generalize s.toList = cs
  induction cs with
  | nil => exact trivial
  | cons c cs ih =>
    have hchar : (char c).Live := ⟨c, beq_self_eq_true c⟩
    refine (live_join (.inr hchar) ih).resolve_left fun hnever => ?_
    obtain ⟨w, hw⟩ := ih.exists_matches
    have hone : (char c).Matches [c] := .one (beq_self_eq_true c)
    have hmat := matches_join.2 (.seq hone hw)
    rw [hnever] at hmat
    exact matches_never hmat

end Pattern

namespace Lexer

/-- The texts of a kind. -/
def Spells (k : Kind) (w : List Char) : Prop := (patternOf k).Matches w

variable {u v w cs rest : List Char} {j k : Kind}

lemma live_patternOf (h : k ≠ .endOfInput) : (patternOf k).Live := by
  have hdigit : ∃ c, Char.isDigit c = true := ⟨'0', rfl⟩
  have hint : integerPattern.Live := ⟨hdigit, hdigit⟩
  have hchar : ∀ c, (Pattern.char c).Live := fun c => ⟨c, beq_self_eq_true c⟩
  have hstr : stringPattern.Live := ⟨hchar _, ⟨'a', rfl⟩, hchar _⟩
  unfold patternOf
  split
  · exact absurd rfl h
  · exact ⟨hint, hstr⟩
  · exact hint
  · exact hstr
  · exact ⟨⟨'a', rfl⟩, ⟨'a', rfl⟩⟩
  · exact ⟨⟨' ', rfl⟩, ⟨' ', rfl⟩⟩
  · exact ⟨Pattern.live_text _, ⟨'a', rfl⟩⟩
  · exact ⟨Pattern.live_text _, ⟨⟨'a', rfl⟩, ⟨hchar _, hchar _⟩, ⟨'a', rfl⟩⟩,
      ⟨hchar _, hchar _⟩, hchar _⟩
  · exact Pattern.live_text _

lemma ne_endOfInput_of_spells (h : Spells k w) : k ≠ .endOfInput := by
  rintro rfl
  exact Pattern.matches_never h

lemma Kind.mem_all (k : Kind) : k ∈ Kind.all := by
  cases k <;> decide

lemma mem_lexicalRules {p : Pattern} :
    (k, p) ∈ lexicalRules ↔ k ≠ .endOfInput ∧ p = patternOf k := by
  simp only [lexicalRules, mem_map, mem_filter, bne_iff_ne, Prod.mk.injEq]
  constructor
  · rintro ⟨j, ⟨-, hj⟩, rfl, rfl⟩
    exact ⟨hj, rfl⟩
  · rintro ⟨hk, rfl⟩
    exact ⟨k, ⟨Kind.mem_all k, hk⟩, rfl, rfl⟩

/-! ### The kind of a text -/

lemma spells_of_kindOf? (h : kindOf? w = some k) : Spells k w := by
  obtain ⟨r, hr, hkr⟩ := Option.map_eq_some_iff.1 h
  have hdn := find?_some hr
  obtain ⟨⟨j, p⟩, hmem, rfl⟩ := mem_map.1 (mem_of_find?_eq_some hr)
  obtain ⟨-, rfl⟩ := mem_lexicalRules.1 hmem
  obtain rfl : j = k := hkr
  exact Pattern.isDone_afterAll.1 hdn

lemma not_spells_of_kindOf? (h : kindOf? w = none) (k : Kind) : ¬Spells k w := by
  intro hk
  have hno := Option.map_eq_none_iff.1 h
  have hmem := mem_lexicalRules.2 ⟨ne_endOfInput_of_spells hk, rfl⟩
  have hdn := find?_eq_none.1 hno _ (mem_map_of_mem hmem)
  exact hdn (Pattern.isDone_afterAll.2 hk)

lemma pairwise_lexicalRules : lexicalRules.Pairwise fun a b => a.1.index < b.1.index := by
  rw [lexicalRules, pairwise_map]
  exact List.Pairwise.filter _ (by decide)

lemma index_le_of_kindOf? (h : kindOf? w = some k) (hj : Spells j w) : k.index ≤ j.index := by
  obtain ⟨r, hr, hkr⟩ := Option.map_eq_some_iff.1 h
  obtain ⟨-, before, after, hspl, hbef⟩ := find?_eq_some_iff_append.1 hr
  have hpairs : (lexicalRules.map fun r => (r.1, r.2.afterAll w)).Pairwise
      fun a b => a.1.index < b.1.index :=
    pairwise_map.2 pairwise_lexicalRules
  have hmem : (j, (patternOf j).afterAll w) ∈ lexicalRules.map fun r => (r.1, r.2.afterAll w) :=
    mem_map_of_mem (mem_lexicalRules.2 ⟨ne_endOfInput_of_spells hj, rfl⟩)
  rw [hspl] at hpairs hmem
  rcases mem_append.1 hmem with hmem | hmem
  · have hdn := Pattern.isDone_afterAll.2 hj
    have hnot := hbef _ hmem
    simp [hdn] at hnot
  · rcases mem_cons.1 hmem with hmem | hmem
    · exact Nat.le_of_eq (by rw [← hkr, ← hmem])
    · rw [← hkr]
      exact Nat.le_of_lt ((pairwise_cons.1 (pairwise_append.1 hpairs).2.1).1 _ hmem)

/-! ### Rules that are left -/

lemma afterAll_append (p : Pattern) (u v : List Char) :
    p.afterAll (u ++ v) = (p.afterAll u).afterAll v :=
  foldl_append

lemma readAll_concat (u : List Char) (c : Char) (rules : List (Kind × Pattern)) :
    readAll (u ++ [c]) rules = readOn c (readAll u rules) := by
  rw [readAll, readAll, foldl_append]
  rfl

variable {c : Char} {q : Pattern} {seen : Nat}

lemma mem_readOn {rules : List (Kind × Pattern)} :
    (k, q) ∈ readOn c rules ↔ ∃ p, (k, p) ∈ rules ∧ q = p.after c ∧ q.isDead = false := by
  rw [readOn, mem_filterMap]
  constructor
  · rintro ⟨⟨j, p⟩, hmem, hso⟩
    dsimp only at hso
    split at hso
    · cases hso
    · rename_i hdead
      obtain ⟨rfl, rfl⟩ := Prod.mk.inj (Option.some.inj hso)
      exact ⟨p, hmem, rfl, by simpa using hdead⟩
  · rintro ⟨p, hmem, rfl, hdead⟩
    exact ⟨(k, p), hmem, by simp [hdead]⟩

lemma live_of_mem_readAll (h : (k, q) ∈ readAll u lexicalRules) :
    q = (patternOf k).afterAll u ∧ q.Live := by
  induction u using reverseRecOn generalizing q with
  | nil =>
    obtain ⟨hk, rfl⟩ := mem_lexicalRules.1 h
    exact ⟨rfl, live_patternOf hk⟩
  | append_singleton u c ih =>
    rw [readAll_concat] at h
    obtain ⟨p, hmem, rfl, hdead⟩ := mem_readOn.1 h
    obtain ⟨rfl, hlive⟩ := ih hmem
    refine ⟨(afterAll_append _ u [c]).symm, (hlive.after c).resolve_left fun hnever => ?_⟩
    rw [hnever] at hdead
    cases hdead

/-- A rule that can be completed is left. -/
lemma mem_readAll_of_spells (h : Spells k (u ++ v)) :
    (k, (patternOf k).afterAll u) ∈ readAll u lexicalRules := by
  induction u using reverseRecOn generalizing v with
  | nil => exact mem_lexicalRules.2 ⟨ne_endOfInput_of_spells h, rfl⟩
  | append_singleton u c ih =>
    rw [readAll_concat, afterAll_append]
    refine mem_readOn.2 ⟨_, ih (v := c :: v) (by rwa [append_assoc] at h), rfl, ?_⟩
    refine Pattern.isDead_eq_false.2 fun hnever => ?_
    have hdn := Pattern.isDone_afterAll.2 h
    rw [afterAll_append, afterAll_append, hnever, afterAll_never] at hdn
    cases hdn

lemma readAll_eq_nil_iff : readAll u lexicalRules = [] ↔ ∀ k v, ¬Spells k (u ++ v) := by
  constructor
  · intro h k v hspe
    have hmem := mem_readAll_of_spells hspe
    rw [h] at hmem
    cases hmem
  · intro h
    refine eq_nil_iff_forall_not_mem.2 ?_
    rintro ⟨k, q⟩ hmem
    obtain ⟨rfl, hlive⟩ := live_of_mem_readAll hmem
    obtain ⟨v, hv⟩ := hlive.exists_matches
    refine h k v (Pattern.isDone_afterAll.1 ?_)
    rw [afterAll_append]
    exact Pattern.isDone_afterAll.2 hv

/-! ### The race -/

/-- The best match of a race that began behind `u` with `best`, for a text `cs`. -/
def IsBest (u cs : List Char) (best result : Option (Kind × Nat)) : Prop :=
  (result = best ∧ ∀ v, v <+: cs → v ≠ [] → kindOf? (u ++ v) = none) ∨
    ∃ k v, v <+: cs ∧ v ≠ [] ∧ result = some (k, u.length + v.length) ∧
      kindOf? (u ++ v) = some k ∧
      ∀ v', v' <+: cs → v.length < v'.length → kindOf? (u ++ v') = none

lemma prefix_cons_cases (h : v <+: c :: cs) (hne : v ≠ []) : ∃ v', v = c :: v' ∧ v' <+: cs := by
  cases v with
  | nil => exact absurd rfl hne
  | cons d v =>
    obtain ⟨rfl, hv⟩ := cons_prefix_cons.1 h
    exact ⟨v, rfl, hv⟩

/-- The best match behind one more character. -/
lemma IsBest.cons {best result : Option (Kind × Nat)}
    (h : IsBest (u ++ [c]) cs (match kindOf? (u ++ [c]) with
      | some k => some (k, u.length + 1)
      | none => best) result) : IsBest u (c :: cs) best result := by
  have hassoc : ∀ v, u ++ [c] ++ v = u ++ c :: v := fun v => by rw [append_assoc]; rfl
  rcases h with ⟨rfl, hno⟩ | ⟨k, v, hv, hne, rfl, hkd, hlat⟩
  · cases hc : kindOf? (u ++ [c]) with
    | none =>
      refine .inl ⟨rfl, fun v hv hne => ?_⟩
      obtain ⟨v, rfl, hrs⟩ := prefix_cons_cases hv hne
      by_cases hnil : v = []
      · rw [hnil]
        exact hc
      · rw [← hassoc]
        exact hno v hrs hnil
    | some k =>
      refine .inr ⟨k, [c], by simp, by simp, rfl, hc, fun v hv hlt => ?_⟩
      obtain ⟨v, rfl, hrs⟩ := prefix_cons_cases hv (by rintro rfl; cases hlt)
      rw [← hassoc]
      refine hno v hrs ?_
      rintro rfl
      exact absurd hlt (Nat.lt_irrefl _)
  · refine .inr ⟨k, c :: v, cons_prefix_cons.2 ⟨rfl, hv⟩, by simp, ?_, ?_, fun v' hv' hlt => ?_⟩
    · rw [length_append, length_singleton, length_cons, Nat.add_assoc, Nat.add_comm 1]
    · rw [← hassoc]
      exact hkd
    · obtain ⟨v', rfl, hrs⟩ := prefix_cons_cases hv' (by rintro rfl; cases hlt)
      rw [← hassoc]
      exact hlat v' hrs (by simpa using hlt)

/-- What comes of a race: the best match, and how far it was clear that a rule could still match. -/
lemma race_spec (u cs : List Char) (best : Option (Kind × Nat)) :
    IsBest u cs best (race (readAll u lexicalRules) best u.length cs).1 ∧
      ∃ v, v <+: cs ∧ (race (readAll u lexicalRules) best u.length cs).2 = u.length + v.length ∧
        (v = cs ∨ v ≠ [] ∧ readAll (u ++ v) lexicalRules = []) ∧
        ∀ v', v' <+: v → v' ≠ [] → v'.length < v.length → readAll (u ++ v') lexicalRules ≠ [] := by
  induction cs generalizing u best with
  | nil =>
    refine ⟨.inl ⟨rfl, fun v hv hne => absurd (prefix_nil.1 hv) hne⟩, [], prefix_refl _,
      rfl, .inl rfl, ?_⟩
    intro v' hv' hne
    exact absurd (prefix_nil.1 hv') hne
  | cons c cs ih =>
    rw [race, ← readAll_concat]
    split
    · rename_i hnil
      refine ⟨.inl ⟨rfl, fun v hv hne => ?_⟩, [c], by simp, rfl, .inr ⟨by simp, hnil⟩, ?_⟩
      · obtain ⟨v, rfl, -⟩ := prefix_cons_cases hv hne
        cases hkd : kindOf? (u ++ c :: v) with
        | none => rfl
        | some k =>
          have hspe := spells_of_kindOf? hkd
          rw [← singleton_append, ← append_assoc] at hspe
          exact absurd hspe (readAll_eq_nil_iff.1 hnil k v)
      · intro v' hv' hne hlt
        obtain ⟨v', rfl, -⟩ := prefix_cons_cases hv' hne
        simp at hlt
    · rename_i hleft
      have hlen : u.length + 1 = (u ++ [c]).length := by simp
      obtain ⟨hbest, v, hv, hseen, hend, hgo⟩ := ih (u ++ [c])
        (match winner? (readAll (u ++ [c]) lexicalRules) with
          | some k => some (k, u.length + 1)
          | none => best)
      dsimp only
      rw [← hlen] at hbest hseen
      refine ⟨?_, c :: v, cons_prefix_cons.2 ⟨rfl, hv⟩, ?_, ?_, ?_⟩
      · refine IsBest.cons ?_
        rw [winner?_readAll] at hbest ⊢
        exact hbest
      · refine hseen.trans ?_
        rw [length_cons]
        omega
      · rw [← singleton_append, ← append_assoc]
        rcases hend with rfl | ⟨-, hend⟩
        · exact .inl rfl
        · exact .inr ⟨by simp, hend⟩
      · intro v' hv' hne hlt
        obtain ⟨v', rfl, hrs⟩ := prefix_cons_cases hv' hne
        rw [← singleton_append, ← append_assoc]
        by_cases hnil : v' = []
        · rw [hnil, append_nil]
          exact hleft
        · exact hgo v' hrs hnil (by simpa using hlt)

/-- The longest match at the front of a text, by the first rule that has it. -/
structure Wins (cs : List Char) (k : Kind) (w : List Char) : Prop where
  begins : w <+: cs
  ne_nil : w ≠ []
  spells : Spells k w
  earliest (j : Kind) : Spells j w → k.index ≤ j.index
  longest (j : Kind) (v : List Char) : v <+: cs → Spells j v → v.length ≤ w.length

/-- What is set aside from a text that begins with no match: all of it, or up to
    the first character with which no rule can go on. -/
structure Stuck (cs w : List Char) : Prop where
  begins : w <+: cs
  ne_nil : w ≠ []
  nothing (j : Kind) (v : List Char) : v <+: cs → ¬Spells j v
  ends : w = cs ∨ ∀ j v, ¬Spells j (w ++ v)
  hopeful (v : List Char) : v <+: w → v.length < w.length → ∃ j v', Spells j (v ++ v')

lemma not_spells_nil (k : Kind) : ¬Spells k [] := by
  intro h
  have hdn := (Pattern.matches_nil_iff _).2 h
  cases k <;> exact absurd hdn (by decide)

lemma wins_of_race {len : Nat} (h : race lexicalRules none 0 cs = (some (k, len), seen)) :
    Wins cs k (cs.take len) := by
  have hspec := (race_spec [] cs none).1
  rw [show race (readAll [] lexicalRules) none ([] : List Char).length cs = _ from h] at hspec
  rcases hspec with ⟨hno, -⟩ | ⟨j, w, hw, hne, hso, hkd, hlat⟩
  · cases hno
  · obtain ⟨rfl, rfl⟩ := Prod.mk.inj (Option.some.inj hso)
    rw [length_nil, Nat.zero_add, ← prefix_iff_eq_take.1 hw]
    rw [nil_append] at hkd
    refine ⟨hw, hne, spells_of_kindOf? hkd, fun j hj => index_le_of_kindOf? hkd hj, ?_⟩
    intro j v hv hj
    by_contra hlt
    have hno := hlat v hv (by omega)
    rw [nil_append] at hno
    exact not_spells_of_kindOf? hno j hj

lemma stuck_of_race (hne : cs ≠ [])
    (h : race lexicalRules none 0 cs = (none, seen)) : Stuck cs (cs.take seen) := by
  obtain ⟨hbest, w, hw, hseen, hend, hgo⟩ := race_spec [] cs none
  rw [show race (readAll [] lexicalRules) none ([] : List Char).length cs = _ from h]
    at hbest hseen
  rw [length_nil, Nat.zero_add] at hseen
  dsimp only at hseen
  rw [hseen, ← prefix_iff_eq_take.1 hw]
  have hnil : w ≠ [] := by
    rcases hend with rfl | ⟨hnil, -⟩
    · exact hne
    · exact hnil
  refine ⟨hw, hnil, fun j v hv hj => ?_, ?_, fun v hv hlt => ?_⟩
  · rcases hbest with ⟨-, hno⟩ | ⟨_, _, _, _, hso, _⟩
    · have hv' : v ≠ [] := by
        rintro rfl
        exact not_spells_nil j hj
      exact not_spells_of_kindOf? (hno v hv hv') j hj
    · cases hso
  · rcases hend with rfl | ⟨-, hdead⟩
    · exact .inl rfl
    · exact .inr (readAll_eq_nil_iff.1 hdead)
  · by_cases hv' : v = []
    · exact ⟨.semicolon, [';'], by rw [hv']; exact Pattern.matches_text.2 rfl⟩
    · have hleft := hgo v hv hv' hlt
      rw [nil_append, Ne, readAll_eq_nil_iff] at hleft
      simpa using hleft

end Lexer

end Compiscript
