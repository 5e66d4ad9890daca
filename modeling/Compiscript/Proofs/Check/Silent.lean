import Compiscript.Proofs.Check.Context
import Compiscript.Proofs.Check.Typing

/-!
# Checks without a Complaint

A check of an expression that makes no complaint changes nothing at all, so it ends in
the state it began in, and so do the checks of its parts. That is how the parts are
found again in a check that ended well: for each kind of expression, the parts that were
visited, and those whose types had to be known.
-/

namespace Compiscript

open List

/-- What is related pairwise has a partner for each. -/
lemma exists_of_forall₂ {α β : Type} {R : α → β → Prop} {as : List α} {bs : List β}
    (h : Forall₂ R as bs) {a : α} (ha : a ∈ as) : ∃ b ∈ bs, R a b := by
  induction h with
  | nil => cases ha
  | cons hab _ ih =>
    rcases mem_cons.1 ha with rfl | ha
    · exact ⟨_, .head _, hab⟩
    · obtain ⟨b, hb, hab⟩ := ih ha
      exact ⟨b, .tail _ hb, hab⟩

namespace Check

variable {α β : Type} {s : Checker}

/-- A step ends well and changes nothing. -/
def Silent (x : Check α) (s : Checker) (a : α) : Prop := Gives x s a s

/-- A step that only complains and did not is silent. -/
lemma Silent.of_gives {x : Check α} (hx : OnlyComplains x) {a : α} {s' : Checker}
    (h : Gives x s a s') (her : s'.errors = s.errors) : s' = s := by
  obtain ⟨es, hs, -⟩ := hx s
  have hsta : s' = { s with errors := s.errors ++ es } := (congrArg Prod.snd h).symm.trans hs
  rw [hsta] at her ⊢
  rw [show s.errors ++ es = s.errors from her]

lemma Silent.of_bind {x : Check α} {f : α → Check β} (hx : OnlyComplains x)
    (hf : ∀ a, OnlyComplains (f a)) {b : β} (h : Silent (x >>= f) s b) :
    ∃ a, Silent x s a ∧ Silent (f a) s b := by
  obtain ⟨a, s', hxa, hfb⟩ := Gives.of_bind h
  obtain ⟨es, hs, -⟩ := hx s
  obtain ⟨es', hs', -⟩ := hf a s'
  have hmid : s' = { s with errors := s.errors ++ es } := (congrArg Prod.snd hxa).symm.trans hs
  have hend : s = { s' with errors := s'.errors ++ es' } := (congrArg Prod.snd hfb).symm.trans hs'
  -- What the second step has added to the list, the first one has not.
  have hlen := congrArg (fun c : Checker => c.errors.length) hend
  have hnil : s'.errors = s.errors := by
    rw [hmid] at hlen ⊢
    simp only [length_append] at hlen
    rw [length_eq_zero_iff.1 (by omega : es.length = 0), append_nil]
  cases Silent.of_gives hx hxa hnil
  exact ⟨a, hxa, hfb⟩

section Lists

variable {f : α → Check β} {xs : List α} {bs : List β}

lemma Silent.forall₂_of_mapM (hq : ∀ x ∈ xs, OnlyComplains (f x)) (h : Silent (xs.mapM f) s bs) :
    Forall₂ (fun x b => Silent (f x) s b) xs bs := by
  induction xs generalizing bs with
  | nil =>
    cases h
    exact .nil
  | cons x xs ih =>
    obtain ⟨hx, hxs⟩ := forall_mem_cons.1 hq
    rw [mapM_cons] at h
    obtain ⟨b, hb, h⟩ := h.of_bind hx fun _ =>
      .map (onlyComplains.mapM hxs)
    obtain ⟨bs', hbs, hpure⟩ := h.of_bind (onlyComplains.mapM hxs) fun _ =>
      .pure _
    obtain rfl : b :: bs' = bs := Except.ok.inj (congrArg Prod.fst hpure)
    exact .cons hb (ih hxs hbs)

lemma Silent.of_mapM (hq : ∀ x ∈ xs, OnlyComplains (f x))
    (h : Silent (xs.mapM f) s bs) : ∀ x ∈ xs, ∃ b, Silent (f x) s b := by
  intro x hx
  obtain ⟨b, -, hb⟩ := exists_of_forall₂ (h.forall₂_of_mapM hq) hx
  exact ⟨b, hb⟩

lemma Silent.of_foldlM {f : β → α → Check β}
    (hq : ∀ x ∈ xs, ∀ b, OnlyComplains (f b x)) {b r : β} (h : Silent (xs.foldlM f b) s r) :
    ∀ x ∈ xs, ∃ b b', Silent (f b x) s b' := by
  induction xs generalizing b with
  | nil => simp
  | cons y ys ih =>
    obtain ⟨hy, hys⟩ := forall_mem_cons.1 hq
    rw [foldlM_cons] at h
    obtain ⟨b', hb', h⟩ := h.of_bind (hy b) fun _ => onlyComplains.foldlM hys _
    exact forall_mem_cons.2 ⟨⟨b, b', hb'⟩, ih hys h⟩

lemma Silent.of_forIn {f : α → PUnit → Check (ForInStep PUnit)}
    (hq : ∀ x ∈ xs, ∀ u, OnlyComplains (f x u))
    (hyield : ∀ x ∈ xs, ∀ u r, Silent (f x u) s r → r = .yield .unit) {r : PUnit}
    (h : Silent (forIn xs PUnit.unit f) s r) : ∀ x ∈ xs, ∃ r, Silent (f x .unit) s r := by
  induction xs with
  | nil => simp
  | cons y ys ih =>
    obtain ⟨hy, hys⟩ := forall_mem_cons.1 hq
    obtain ⟨hyie, hyiel⟩ := forall_mem_cons.1 hyield
    rw [forIn_cons] at h
    obtain ⟨step, hsp, h⟩ := h.of_bind (hy _) fun a => by
      cases a with
      | done u => exact .pure _
      | yield u => exact onlyComplains.forIn hys
    cases hyie _ _ hsp
    exact forall_mem_cons.2 ⟨⟨_, hsp⟩, ih hys hyiel h⟩

end Lists

/-! ### What a silent step has found -/

lemma Gives.of_need {what : Absent} {o : Option α} {k : α → Check β} {b : β} {s' : Checker}
    (h : Gives (need what o >>= k) s b s') : ∃ a, o = some a ∧ Gives (k a) s b s' := by
  cases o with
  | none => cases h
  | some a => exact ⟨a, rfl, h⟩

lemma Silent.of_need {what : Absent} {o : Option α} {k : α → Check β} {b : β}
    (h : Silent (need what o >>= k) s b) : ∃ a, o = some a ∧ Silent (k a) s b :=
  Gives.of_need h

/-- A condition that was not complained about holds. -/
lemma Silent.of_require {holds : Bool} {p : Pos} {c : Complaint} (hc : c.isOrdinary = true)
    {k : Unit → Check β} (hk : ∀ u, OnlyComplains (k u)) {b : β}
    (h : Silent (require holds p c >>= k) s b) : holds = true ∧ Silent (k ()) s b := by
  obtain ⟨_, hreq, h⟩ := h.of_bind (.require _ _ hc) hk
  refine ⟨?_, h⟩
  by_contra hfalse
  rw [Bool.not_eq_true] at hfalse
  subst hfalse
  have hsta := Gives.of_modify (f := fun s => { s with errors := s.errors ++ [⟨p, c⟩] }) hreq
  have hlen := congrArg (fun c : Checker => c.errors.length) hsta
  simp at hlen

variable {c : Complaint} {a b : Ty} {p : Pos} {k : Unit → Check β} {r : β}

/-- Comparing two types only complains. -/
lemma onlyComplains_compare (a b : Ty) (p : Pos) (hc : c.isOrdinary = true) :
    OnlyComplains (do require (← accept a b) p c) :=
  .bind (onlyComplains.accept a b) fun _ =>
    .require _ p hc

lemma onlyComplains_compared (a b : Ty) (p : Pos) (hc : c.isOrdinary = true)
    (r : β) : OnlyComplains (do require (← accept a b) p c; return r) :=
  .bind (onlyComplains.accept a b) fun _ =>
    .bind (.require _ p hc) fun _ =>
      .pure r

lemma known_of_accepts? (h : a.accepts? b = some true) : a ≠ .unknown ∧ b ≠ .unknown := by
  constructor
  · rintro rfl
    simp [Ty.accepts?] at h
  · rintro rfl
    cases a <;> simp [Ty.accepts?] at h

/-- The same for two types that were compared. -/
lemma Silent.of_accept (hc : c.isOrdinary = true) (hk : ∀ u, OnlyComplains (k u))
    (h : Silent (accept a b >>= fun holds => require holds p c >>= k) s r) :
    (a ≠ .unknown ∧ b ≠ .unknown) ∧ Silent (k ()) s r := by
  obtain ⟨holds, hho, h⟩ := Silent.of_need h
  obtain ⟨rfl, h⟩ := h.of_require hc hk
  exact ⟨known_of_accepts? hho, h⟩

lemma Silent.known (hc : c.isOrdinary = true) {u : Unit}
    (h : Silent (do require (← accept a b) p c) s u) : a ≠ .unknown ∧ b ≠ .unknown := by
  obtain ⟨holds, hho, h⟩ := Silent.of_need h
  rw [← bind_pure (require _ _ _)] at h
  obtain ⟨rfl, -⟩ := h.of_require hc fun _ => .pure _
  exact known_of_accepts? hho

lemma Silent.of_complain (hc : c.isOrdinary = true) (hk : ∀ u, OnlyComplains (k u))
    (h : Silent (complain p c >>= k) s r) : False := by
  obtain ⟨hfalse, -⟩ := @Silent.of_require _ s false p c hc k hk r h
  cases hfalse

section Node

variable {t : Tree} {visit : t.Sub → Check Ty}

/-- A part was visited, and if its type was asked for, it has one. -/
def Visited (visit : t.Sub → Check Ty) (s : Checker) (asked : Bool) (c : t.Sub) : Prop :=
  ∃ type, Silent (visit c) s type ∧ (asked = true → type ≠ .unknown)

variable (hq : ∀ c : t.Sub, c.tree.Within t → OnlyComplains (visit c))

variable {type : Ty} {types : List Ty} {operand : Rule} {parts : List t.Sub}
  {f : Ty → Ty → Check Unit} {R : Ty → Ty → Prop} {op : t.Sub} {state r : Chained} {first : Tree}

omit hq in
lemma Silent.of_visitPart {part : Option t.Sub}
    (h : Silent (visitPart visit part) s type) : ∃ k, part = some k ∧ Silent (visit k) s type :=
  Silent.of_need h

include hq

lemma visited_of_visitAll (h : Silent (visitAll visit) s type) :
    ∀ c ∈ t.subs, Visited visit s false c := by
  have hqu : ∀ c ∈ t.subs, ∀ found, OnlyComplains (do
      let type ← visit c
      return if type = .unknown then found else type : Check Ty) := fun c hc _ =>
    .map (hq c (.of_subs hc))
  intro c hc
  obtain ⟨found, _, hsp⟩ := h.of_foldlM hqu c hc
  obtain ⟨type, hvis, -⟩ := hsp.of_bind (hq c (.of_subs hc)) fun _ =>
    .pure _
  exact ⟨type, hvis, fun h => nomatch h⟩

lemma visited_of_visitTypes {es : List t.Sub} (hes : ∀ e ∈ es, e.tree.Within t)
    (h : Silent (es.mapM fun e => do return (← visit e).orNull) s types) :
    ∀ e ∈ es, Visited visit s false e := by
  intro e he
  obtain ⟨_, hsp⟩ := h.of_mapM (fun e he =>
    .map (hq e (hes e he))) e he
  obtain ⟨type, hvis, -⟩ := hsp.of_bind (hq e (hes e he)) fun _ => .pure _
  exact ⟨type, hvis, fun h => nomatch h⟩

/-- Both sides of `&&` and `||` are boolean. -/
lemma boolean_of_logical
    (h : Silent (logical t visit operand) s type) (hma : t.children.length ≠ 1) :
    type = .boolean ∧ ∀ c ∈ t.kids operand, Silent (visit c) s .boolean := by
  unfold logical operands at h
  split at h
  · cases h
  · rename_i hone
    simp [hone] at hma
  · have hqu : ∀ c ∈ t.kids operand, ∀ k : Bool → Check (ForInStep PUnit),
        (∀ b, OnlyComplains (k b)) → OnlyComplains (do
          let type ← visit c
          k (decide (type = .boolean))) := fun c hc k hk =>
      .bind (hq c (.of_kids hc)) fun _ => hk _
    have hreq : ∀ b, OnlyComplains (do
        require b t.pos .logicalOperand
        return ForInStep.yield PUnit.unit : Check (ForInStep PUnit)) := fun b =>
      .map (.require _ _ rfl)
    obtain ⟨_, hloop, hpure⟩ := h.of_bind
      (onlyComplains.forIn fun c hc _ => hqu c hc _ hreq) fun _ =>
        .pure _
    have hsp : ∀ c ∈ t.kids operand, ∀ r, Silent (do
        let type ← visit c
        require (decide (type = .boolean)) t.pos .logicalOperand
        return ForInStep.yield PUnit.unit : Check (ForInStep PUnit)) s r →
        Silent (visit c) s .boolean ∧ r = .yield .unit := by
      intro c hc r hr
      obtain ⟨type, hvis, hr⟩ := hr.of_bind (hq c (.of_kids hc)) fun _ => hreq _
      obtain ⟨hbool, hr⟩ := hr.of_require rfl fun _ => .pure _
      cases of_decide_eq_true hbool
      exact ⟨hvis, (Except.ok.inj (congrArg Prod.fst hr)).symm⟩
    refine ⟨(Except.ok.inj (congrArg Prod.fst hpure)).symm, fun c hc => ?_⟩
    obtain ⟨r, hr⟩ := hloop.of_forIn (fun c hc _ => hqu c hc _ hreq)
      (fun c hc _ r hr => (hsp c hc r hr).2) c hc
    exact (hsp c hc r hr).1

lemma visited_of_logical
    (h : Silent (logical t visit operand) s type) (hma : t.children.length ≠ 1) :
    ∀ c ∈ t.kids operand, Visited visit s true c := fun c hc =>
  ⟨.boolean, (boolean_of_logical hq h hma).2 c hc, fun _ => nofun⟩

lemma forall₂_of_compared (hps : ∀ c ∈ parts, c.tree.Within t)
    (hqu : ∀ a b, OnlyComplains (f a b))
    (hR : ∀ a b, Silent (f a b) s () → R a b) {first last : Ty}
    (h : Silent (parts.foldlM (fun before part => do
      let type ← visit part
      f before type
      return type) first) s last) :
    ∃ types, Forall₂ (fun k T => Silent (visit k) s T) parts types ∧
      (first :: types).IsChain R := by
  induction parts generalizing first with
  | nil => exact ⟨[], .nil, .singleton first⟩
  | cons k parts ih =>
    obtain ⟨hk, hps⟩ := forall_mem_cons.1 hps
    have hend : ∀ a b, OnlyComplains (do f a b; return b : Check Ty) := fun a b =>
      .map (hqu a b)
    have hsp : ∀ c : t.Sub, c.tree.Within t → ∀ before, OnlyComplains (do
        let type ← visit c
        f before type
        return type : Check Ty) := fun c hc before =>
      .bind (hq c hc) fun type => hend before type
    rw [foldlM_cons] at h
    obtain ⟨T, hT, h⟩ := h.of_bind (hsp k hk first) fun before =>
      onlyComplains.foldlM (fun c hc => hsp c (hps c hc)) before
    obtain ⟨type, hvis, hT⟩ := hT.of_bind (hq k hk) fun type => hend first type
    obtain ⟨⟨⟩, hcmp, hpure⟩ := hT.of_bind (hqu _ _) fun _ => .pure _
    obtain rfl : type = T := Except.ok.inj (congrArg Prod.fst hpure)
    obtain ⟨types, htys, hcha⟩ := ih hps h
    exact ⟨type :: types, .cons hvis htys, .cons_cons (hR _ _ hcmp) hcha⟩

lemma types_of_compared (hps : ∀ c ∈ parts, c.tree.Within t)
    (hqu : ∀ a b, OnlyComplains (f a b))
    (hR : ∀ a b, Silent (f a b) s () → R a b) (h : Silent (do
      let first ← visitPart visit parts.head?
      let _ ← parts.tail.foldlM (fun before part => do
        let type ← visit part
        f before type
        return type) first
      return Ty.boolean) s type) :
    type = .boolean ∧ ∃ types, Forall₂ (fun k T => Silent (visit k) s T) parts types ∧
      types.IsChain R := by
  cases parts with
  | nil => cases h
  | cons first rest =>
    obtain ⟨hfst, hrs⟩ := forall_mem_cons.1 hps
    have hfo : ∀ found, OnlyComplains (rest.foldlM (fun before part => do
        let type ← visit part
        f before type
        return type) found) := fun found =>
      onlyComplains.foldlM (fun c hc _ => .bind (hq c (hrs c hc))
        fun _ => .map (hqu _ _)) found
    obtain ⟨found, hvis, h⟩ := h.of_bind (x := visit first) (hq first hfst) fun found =>
      .map (hfo found)
    obtain ⟨_, hloop, hpure⟩ := h.of_bind (hfo found) fun _ => .pure _
    obtain ⟨types, htys, hcha⟩ := forall₂_of_compared hq hrs hqu hR hloop
    exact ⟨(Except.ok.inj (congrArg Prod.fst hpure)).symm, found :: types, .cons hvis htys,
      hcha⟩

/-- Neighbours in a chain of `==` and `!=` can be compared. -/
lemma types_of_equality (h : Silent (equality t visit) s type)
    (hone : t.children.length ≠ 1) : type = .boolean ∧
      ∃ types, Forall₂ (fun k T => Silent (visit k) s T) (t.kids .relationalExpr) types ∧
        types.IsChain fun a b => a.accepts? b = some true := by
  unfold equality operands at h
  split at h
  · cases h
  · rename_i hcs
    simp [hcs] at hone
  · refine types_of_compared hq (fun c hc => .of_kids hc)
      (f := fun a b => do require (← accept a b) t.pos .incomparable) (fun a b => ?_)
      (fun a b hab => ?_) (by simpa only [bind_assoc] using h)
    · exact onlyComplains_compare _ _ _ rfl
    · obtain ⟨holds, hho, hab⟩ := Silent.of_need hab
      rw [← bind_pure (require _ _ _)] at hab
      obtain ⟨rfl, -⟩ := hab.of_require rfl fun _ => .pure _
      exact hho

/-- All parts of a chain of comparisons by size are numbers. -/
lemma types_of_relational (h : Silent (relational t visit) s type)
    (hone : t.children.length ≠ 1) : type = .boolean ∧
      ∃ types, Forall₂ (fun k T => Silent (visit k) s T) (t.kids .additiveExpr) types ∧
        types.IsChain fun a b => a.isNumeric = true ∧ b.isNumeric = true := by
  unfold relational operands at h
  split at h
  · cases h
  · rename_i hcs
    simp [hcs] at hone
  · refine types_of_compared hq (fun c hc => .of_kids hc)
      (f := fun a b => require (a.isNumeric && b.isNumeric) t.pos .relationalOperand)
      (fun a b => .require _ _ rfl) (fun a b hab => ?_) h
    rw [← bind_pure (require _ _ _)] at hab
    obtain ⟨hnum, -⟩ := hab.of_require rfl fun _ => .pure _
    rwa [Bool.and_eq_true] at hnum

omit hq in
/-- In a chain with several elements each of them has a neighbour. -/
lemma forall_of_isChain {R : α → α → Prop} {p : α → Prop} (hR : ∀ a b, R a b → p a ∧ p b)
    {as : List α} (h : as.IsChain R) (hma : 2 ≤ as.length) : ∀ a ∈ as, p a := by
  induction h with
  | nil => simp at hma
  | singleton => simp at hma
  | @cons_cons a b as hab hrs ih =>
    refine forall_mem_cons.2 ⟨(hR _ _ hab).1, ?_⟩
    cases as with
    | nil => exact forall_mem_singleton.2 (hR _ _ hab).2
    | cons c as => exact ih (by simp)

omit hq in
lemma visited_of_types (htys : Forall₂ (fun k T => Silent (visit k) s T) parts types)
    (hkn : ∀ T ∈ types, T ≠ .unknown) : ∀ c ∈ parts, Visited visit s true c := by
  intro c hc
  obtain ⟨T, hT, hvis⟩ := exists_of_forall₂ htys hc
  exact ⟨T, hvis, fun _ => hkn T hT⟩

lemma visited_of_equality (h : Silent (equality t visit) s type)
    (hone : t.children.length ≠ 1) (hma : 2 ≤ (t.kids .relationalExpr).length) :
    ∀ c ∈ t.kids .relationalExpr, Visited visit s true c := by
  obtain ⟨-, types, htys, hcha⟩ := types_of_equality hq h hone
  rw [htys.length_eq] at hma
  exact visited_of_types htys
    (forall_of_isChain (fun a b hab => known_of_accepts? hab) hcha hma)

lemma visited_of_relational (h : Silent (relational t visit) s type)
    (hone : t.children.length ≠ 1) (hma : 2 ≤ (t.kids .additiveExpr).length) :
    ∀ c ∈ t.kids .additiveExpr, Visited visit s true c := by
  obtain ⟨-, types, htys, hcha⟩ := types_of_relational hq h hone
  rw [htys.length_eq] at hma
  have hnum := forall_of_isChain (fun _ _ hab => hab) hcha hma
  refine visited_of_types htys fun T hT => ?_
  rintro rfl
  cases hnum _ hT

/-- Sums are of numbers, or something is added to a string. -/
lemma types_of_additive (h : Silent (additive t visit) s type)
    (hone : t.children.length ≠ 1) :
    ∃ types, Forall₂ (fun k T => Silent (visit k) s T) (t.kids .multiplicativeExpr) types ∧
      (.string ∈ types ∧ (∀ o ∈ operators t.children, o = "+") ∧ type = .string ∨
        (∀ T ∈ types, T.isNumeric = true) ∧
          type = if .float ∈ types then .float else .integer) := by
  unfold additive operands at h
  split at h
  · cases h
  · rename_i hcs
    simp [hcs] at hone
  · have hmap : ∀ c ∈ t.kids .multiplicativeExpr, OnlyComplains (visit c) := fun c hc =>
      hq c (.of_kids hc)
    obtain ⟨types, htys, h⟩ := h.of_bind (onlyComplains.mapM hmap) fun types => by
      split
      · split
        · exact .pure _
        · exact onlyComplains.complaining _ rfl _
      · split
        · exact .pure _
        · exact onlyComplains.complaining _ rfl _
    refine ⟨types, htys.forall₂_of_mapM hmap, ?_⟩
    split at h
    · rename_i hstr
      split at h
      · rename_i hplus
        refine .inl ⟨by simpa using hstr, by simpa using hplus, ?_⟩
        exact (Except.ok.inj (congrArg Prod.fst h)).symm
      · exact (h.of_complain rfl fun _ => .pure _).elim
    · split at h
      · rename_i hnum
        refine .inr ⟨by simpa using hnum, ?_⟩
        simpa using (Except.ok.inj (congrArg Prod.fst h)).symm
      · exact (h.of_complain rfl fun _ => .pure _).elim

lemma visited_of_additive (h : Silent (additive t visit) s type)
    (hone : t.children.length ≠ 1) : ∀ c ∈ t.kids .multiplicativeExpr, Visited visit s false c := by
  obtain ⟨types, htys, -⟩ := types_of_additive hq h hone
  intro c hc
  obtain ⟨T, -, hvis⟩ := exists_of_forall₂ htys hc
  exact ⟨T, hvis, nofun⟩

/-- The condition of `?:` is boolean, and its two values go together. -/
lemma types_of_ternary (h : Silent (ternary t visit) s type)
    (hque : t.children.any (·.text = "?") = true) :
    ∃ c a b second, t.kid? .logicalOrExpr = some c ∧ t.kidAt? .expression 0 = some a ∧
      t.kidAt? .expression 1 = some b ∧ Silent (visit c) s .boolean ∧ Silent (visit a) s type ∧
      Silent (visit b) s second ∧ type.accepts? second = some true := by
  have hla : ∀ condition first second : Ty, OnlyComplains (do
      require (condition = .boolean) t.pos .ternaryPredicate
      require (← accept first second) t.pos .ternaryBranches
      return first : Check Ty) := fun _ _ _ =>
    .bind (.require _ _ rfl) fun _ =>
      onlyComplains_compared _ _ _ rfl _
  unfold ternary at h
  simp only [hque, if_true] at h
  obtain ⟨condition, hc, h⟩ := h.of_bind (onlyComplains.visitKid hq _) fun _ =>
    .bind (onlyComplains.visitKidAt hq _ _) fun _ =>
      .bind (onlyComplains.visitKidAt hq _ _) fun _ => hla _ _ _
  obtain ⟨first, ha, h⟩ := h.of_bind (onlyComplains.visitKidAt hq _ _) fun _ =>
    .bind (onlyComplains.visitKidAt hq _ _) fun _ => hla _ _ _
  obtain ⟨second, hb, h⟩ := h.of_bind (onlyComplains.visitKidAt hq _ _) fun _ => hla _ _ _
  obtain ⟨hbool, h⟩ := h.of_require rfl fun _ =>
    onlyComplains_compared _ _ _ rfl _
  obtain ⟨holds, hho, h⟩ := Silent.of_need h
  obtain ⟨rfl, hpure⟩ := h.of_require rfl fun _ => .pure _
  obtain rfl : first = type := Except.ok.inj (congrArg Prod.fst hpure)
  cases of_decide_eq_true hbool
  obtain ⟨kc, hkc, hvc⟩ := hc.of_visitPart
  obtain ⟨ka, hka, hva⟩ := ha.of_visitPart
  obtain ⟨kb, hkb, hvb⟩ := hb.of_visitPart
  exact ⟨kc, ka, kb, second, hkc, hka, hkb, hvc, hva, hvb, hho⟩

lemma visited_of_ternary (h : Silent (ternary t visit) s type)
    (hque : t.children.any (·.text = "?") = true) :
    ∃ c a b, t.kid? .logicalOrExpr = some c ∧ t.kidAt? .expression 0 = some a ∧
      t.kidAt? .expression 1 = some b ∧ Visited visit s true c ∧ Visited visit s true a ∧
      Visited visit s true b := by
  obtain ⟨c, a, b, second, hc, ha, hb, hcond, hfst, hsnd, hacc⟩ :=
    types_of_ternary hq h hque
  obtain ⟨hkn, hknown'⟩ := known_of_accepts? hacc
  exact ⟨c, a, b, hc, ha, hb, ⟨.boolean, hcond, fun _ => nofun⟩,
    ⟨type, hfst, fun _ => hkn⟩, ⟨second, hsnd, fun _ => hknown'⟩⟩

lemma visited_of_arrayLiteral (h : Silent (arrayLiteral t visit) s type) :
    ∀ c ∈ t.kids .expression, Visited visit s false c := by
  have hin : ∀ c ∈ t.kids .expression, c.tree.Within t := fun _ => .of_kids
  have hgo : ∀ base types, OnlyComplains (arrayLiteral.go t base types) := by
    intro base types
    induction types with
    | nil => exact .pure ()
    | cons entry types ih =>
      rw [arrayLiteral.go]
      refine .bind (onlyComplains.accept _ _) fun holds => ?_
      split
      · exact ih
      · exact onlyComplains.complain _ rfl
  unfold arrayLiteral at h
  obtain ⟨types, htys, -⟩ := h.of_bind (onlyComplains.visitTypes hq hin) fun types => by
    split
    · exact .pure _
    · exact .map (hgo _ _)
  exact visited_of_visitTypes hq hin htys

lemma visited_of_newObject (h : Silent (newObject t visit) s type) {a : t.Sub}
    (ha : t.kid? .arguments = some a) :
    ∀ e ∈ a.tree.kids .expression, Visited visit s false (a.lift e) := by
  have hin : ∀ e ∈ (a.tree.kids .expression).map a.lift, e.tree.Within t := by
    intro e he
    obtain ⟨k, hk, rfl⟩ := mem_map.1 he
    exact (Tree.Within.of_kids hk).trans (.of_kid? ha)
  unfold newObject at h
  dsimp only at h
  split at h
  · exact (h.of_complain rfl fun _ => .pure _).elim
  · obtain ⟨id?, -, h⟩ := h.of_bind (onlyComplains.class? _) fun id? => by
      split
      · exact onlyComplains.complaining _ rfl _
      · rw [ha]
        refine .bind (onlyComplains.visitTypes hq hin) fun _ => ?_
        refine onlyComplains.get fun s => ?_
        split
        · exact .pure _
        · split
          · exact .map (onlyComplains.matchArguments _ (fun _ _ _ => rfl) _ _)
          · exact onlyComplains.complaining _ rfl _
    split at h
    · exact (h.of_complain rfl fun _ => .pure _).elim
    · rw [ha] at h
      obtain ⟨types, htys, -⟩ := h.of_bind (onlyComplains.visitTypes hq hin) fun _ => by
        refine onlyComplains.get fun s => ?_
        split
        · exact .pure _
        · split
          · exact .map (onlyComplains.matchArguments _ (fun _ _ _ => rfl) _ _)
          · exact onlyComplains.complaining _ rfl _
      exact fun e he => visited_of_visitTypes hq hin htys _ (mem_map_of_mem he)

lemma visited_of_call (hop : op.tree.Within t) (h : Silent (call t visit op state) s r) :
    state.2 ≠ none ∧ ∀ e ∈ arguments op, Visited visit s false e := by
  have hin : ∀ e ∈ arguments op, e.tree.Within t := fun e he =>
    (within_of_mem_arguments he).trans hop
  rcases state with ⟨type, _ | f⟩
  · exact (Silent.of_complain rfl (fun _ => .pure _) h).elim
  · refine ⟨(nomatch ·), ?_⟩
    obtain ⟨types, htys, -⟩ := h.of_bind (onlyComplains.visitTypes hq hin) fun _ => by
      dsimp only
      split
      · exact .map (onlyComplains.matchArguments _ (fun _ _ _ => rfl) _ _)
      · exact onlyComplains.complaining _ rfl _
    exact visited_of_visitTypes hq hin htys

lemma visited_of_index (hop : op.tree.Within t) (h : Silent (index t visit op state) s r) :
    state.1 ≠ .unknown ∧ ∀ e, op.tree.kid? .expression = some e →
      Visited visit s true (op.lift e) := by
  unfold index at h
  split at h
  · refine ⟨(nomatch ·), fun e he => ?_⟩
    rw [he] at h
    have hin : (op.lift e).tree.Within t := (Tree.Within.of_kid? he).trans hop
    obtain ⟨type, hvis, h⟩ := h.of_bind (hq _ hin) fun _ =>
      .map (.require _ _ rfl)
    obtain ⟨hint, -⟩ := h.of_require rfl fun _ => .pure _
    refine ⟨type, hvis, fun _ hunk => ?_⟩
    rw [of_decide_eq_true hint] at hunk
    cases hunk
  · exact (h.of_complain rfl fun _ => .pure _).elim

omit hq in
lemma known_of_member {op : Tree} (h : Silent (member op type) s r) : type ≠ .unknown := by
  rintro rfl
  obtain ⟨_, -, h⟩ := Silent.of_need h
  exact h.of_complain rfl fun _ => .pure _

/-- A suffix asks for what stands before it. -/
lemma known_of_suffix (hop : op.tree.Within t) (hfst : op.tree.children.head? = some first)
    (htx : first.text = "." ∨ first.text = "(" ∨ first.text = "[")
    (h : Silent (suffix t visit state op) s r) : state ≠ (.unknown, none) := by
  rintro rfl
  unfold suffix at h
  split at h
  · cases h
  · rename_i first' rest hcs
    obtain rfl : first' = first := by simpa [hcs] using hfst
    rcases htx with htx | htx | htx
    · rw [htx] at h
      exact known_of_member h rfl
    · rw [htx] at h
      exact (visited_of_call hq hop h).1 rfl
    · rw [htx] at h
      exact (visited_of_index hq hop h).1 rfl

/-- What a check of a chain with suffixes went through. -/
lemma silent_of_leftHandSide (h : Silent (leftHandSide t visit) s type) :
    ∃ atom found f r, t.kid? .primaryAtom = some atom ∧ Silent (visit atom) s found ∧
      Silent (callee? atom.tree) s f ∧ Silent ((t.kids .suffixOp).foldlM (suffix t visit)
        (match f with
          | some f => (f.type, some f)
          | none => (found, none))) s r ∧ type = r.1 := by
  have hfo : ∀ start, OnlyComplains ((t.kids .suffixOp).foldlM (suffix t visit) start) :=
    fun _ => onlyComplains.foldlM
      (fun _ hop state => onlyComplains.suffix hq (.of_kids hop) state) _
  obtain ⟨atom, hat, h⟩ := Silent.of_need h
  obtain ⟨found, hfd, h⟩ := h.of_bind (hq atom (.of_kid? hat)) fun _ =>
    .bind (onlyComplains.callee? _) fun _ =>
      .map (hfo _)
  obtain ⟨f, hf, h⟩ := h.of_bind (onlyComplains.callee? _) fun _ =>
    .map (hfo _)
  obtain ⟨r, hr, h⟩ := h.of_bind (hfo _) fun _ => .pure _
  exact ⟨atom, found, f, r, hat, hfd, hf, hr, (Except.ok.inj (congrArg Prod.fst h)).symm⟩

/-- The arguments of a suffix were visited, and its index was asked for. -/
lemma visited_of_suffix (hop : op.tree.Within t) (hfst : op.tree.children.head? = some first)
    (h : Silent (suffix t visit state op) s r) :
    (first.text = "(" → ∀ e ∈ arguments op, Visited visit s false e) ∧
      (first.text = "[" → ∀ e, op.tree.kid? .expression = some e →
        Visited visit s true (op.lift e)) := by
  unfold suffix at h
  split at h
  · cases h
  · rename_i first' rest hcs
    obtain rfl : first' = first := by simpa [hcs] using hfst
    constructor
    · intro htx
      rw [htx] at h
      exact (visited_of_call hq hop h).2
    · intro htx
      rw [htx] at h
      exact (visited_of_index hq hop h).2

end Node

end Check

end Compiscript
