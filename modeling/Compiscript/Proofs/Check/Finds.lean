import Compiscript.Proofs.Check.Invariant
import Compiscript.Proofs.Check.Term
import Compiscript.Proofs.Mips.Operands

/-!
# Finding Types

Steps of the checker that find what a condition asks for.

What links the checker to the rules is that it has no complaint exactly if there is a
type by the rules, and that it has found that one then. `Check.Finds` states this for a step with an
arbitrary condition in the place of "has the type". It is kept by sequencing steps if
conditions are composed like relations, so the check of a node is one composition that
is then compared with the rule for it.
-/

namespace Compiscript

open List hiding beq_eq_decide

/-- A state with more complaints. -/
def Checker.adding (s : Checker) (es : List SemanticError) : Checker :=
  { s with errors := s.errors ++ es }

lemma Checker.adding_nil (s : Checker) : s.adding [] = s := by
  rw [Checker.adding, append_nil]

lemma Checker.adding_adding (s : Checker) (es es' : List SemanticError) :
    (s.adding es).adding es' = s.adding (es ++ es') := by
  rw [Checker.adding, Checker.adding, Checker.adding, append_assoc]

namespace Check

variable {α β : Type} {Γ : Scopes}

/-- Whatever state with the scopes `Γ` a step begins in, it ends well and only adds
    complaints. It adds none exactly if `p` can be met, and it has found what meets `p`
    then. What it finds is `good` in any case. -/
def Finds (Γ : Scopes) (good p : α → Prop) (x : Check α) : Prop :=
  ∀ s : Checker, s.scopes = Γ → ∃ a es, x.run s = (.ok a, s.adding es) ∧ good a ∧
    (es = [] → p a) ∧ ∀ b, p b → es = [] ∧ a = b

namespace Finds

variable {good p q : α → Prop} {x : Check α}

lemma congr (h : Finds Γ good p x) (hpq : ∀ a, p a ↔ q a) : Finds Γ good q x := by
  rwa [← funext fun a => propext (hpq a)]

lemma pure {a : α} (h : good a) : Finds Γ good (· = a) (Pure.pure a) := fun s _ =>
  ⟨a, [], by rw [Checker.adding_nil]; rfl, h, fun _ => rfl, fun _ hb => ⟨rfl, hb.symm⟩⟩

/-- Steps in sequence: their conditions are composed like relations. -/
lemma bind {good' : β → Prop} {q : α → β → Prop} {f : α → Check β} (hx : Finds Γ good p x)
    (hf : ∀ a, good a → Finds Γ good' (q a) (f a)) :
    Finds Γ good' (fun b => ∃ a, p a ∧ q a b) (x >>= f) := by
  intro s hs
  obtain ⟨a, es, hrun, ha, hsound, hcom⟩ := hx s hs
  obtain ⟨b, es', hrun', hb, hsound', hcomplete'⟩ := hf a ha (s.adding es) hs
  refine ⟨b, es ++ es', ?_, hb, fun hnil => ?_, ?_⟩
  · rw [run_bind, hrun]
    dsimp only
    rw [hrun', Checker.adding_adding]
  · obtain ⟨rfl, rfl⟩ := append_eq_nil_iff.1 hnil
    exact ⟨a, hsound rfl, hsound' rfl⟩
  · rintro b' ⟨a', ha', hb'⟩
    obtain ⟨rfl, rfl⟩ := hcom a' ha'
    obtain ⟨rfl, rfl⟩ := hcomplete' b' hb'
    exact ⟨rfl, rfl⟩

/-- A step that always complains meets nothing. -/
lemma complain {a : α} (h : good a) (pos : Pos) (c : Complaint) :
    Finds Γ good (fun _ => False) (do complain pos c; return a) := fun _ _ =>
  ⟨a, [⟨pos, c⟩], rfl, h, fun hnil => (nomatch hnil), fun _ hb => hb.elim⟩

variable {T : Ty}

lemma type (h : T.IsProper) : Finds Γ Ty.IsProper (· = T) (Pure.pure T) := pure h

/-- A type that is given in place of one that cannot be found. -/
lemma mistyped (h : T.IsProper) (pos : Pos) (c : Complaint) :
    Finds Γ Ty.IsProper (fun _ => False) (do Check.complain pos c; return T) := complain h pos c

lemma require (holds : Bool) (pos : Pos) (c : Complaint) :
    Finds Γ (fun _ => True) (fun _ => holds = true) (require holds pos c) := by
  cases holds with
  | false => exact (complain (a := ()) trivial pos c).congr fun _ => by simp
  | true => exact (pure (a := ()) trivial).congr fun _ => by simp

/-- Types that are known in all their parts are compared by being equal. -/
lemma accept {a b : Ty} (ha : a.IsProper) :
    Finds Γ (fun _ => True) (· = decide (a = b)) (accept a b) := by
  rw [Check.accept, Ty.accepts?_of_isProper ha b]
  exact pure trivial

lemma visitPart {t : Tree} {visit : t.Sub → Check Ty} {part : Option t.Sub} {k : t.Sub}
    {good p : Ty → Prop} (hk : part = some k) (h : Finds Γ good p (visit k)) :
    Finds Γ good p (visitPart visit part) := by
  subst hk
  exact h

lemma resolve? (x : String) : Finds Γ (· = Γ.resolve? x) (· = Γ.resolve? x) (resolve? x) := by
  rintro s rfl
  exact ⟨_, [], by rw [Checker.adding_nil]; rfl, rfl, fun _ => rfl, fun _ hb => ⟨rfl, hb.symm⟩⟩

end Finds

/-- A step finds the type of a term by the rules. -/
abbrev Types (Γ : Scopes) (e : Term) (x : Check Ty) : Prop := Finds Γ Ty.IsProper (e.HasType Γ) x

section Tokens

/-- What a text that is no literal stands for. -/
lemma ofText_of_first {x : String} {c : Char} {u : List Char} (hx : x.toList = c :: u)
    (hqt : c ≠ '"') (hdigit : Text.isDigit c = false)
    (hwords : x ≠ "true" ∧ x ≠ "false" ∧ x ≠ "null") :
    ofText x = do
      match ← resolve? x with
      | some sym => return sym.type
      | none => return .unknown := by
  have hdec : Text.isDecimal c = false := by
    rw [Text.isDigit, Bool.or_eq_false_iff] at hdigit
    exact hdigit.1
  have hpoint : Text.isPointNumeral (c :: u) = false := by
    rw [Text.isPointNumeral, List.takeWhile_cons, hdec]
    by_cases hc : c = '.'
    · subst hc
      rfl
    · simp [hc]
  have hnume : Text.isNumeral (c :: u) = false := by
    rw [Text.isNumeral, List.all_cons, hdigit, Bool.false_and, Bool.and_false]
  have hquo : ¬ (decide (2 ≤ (c :: u).length) && (c :: u).head? == some '"' &&
      (c :: u).getLast? == some '"') = true := by simp [hqt]
  have hboo : ¬ (decide (x = "true") || decide (x = "false")) = true := by
    simp [hwords.1, hwords.2.1]
  rw [ofText, hx]
  exact (if_neg hquo).trans <| (if_neg hboo).trans <| (if_neg hwords.2.2).trans <|
    (if_neg (Bool.eq_false_iff.1 hpoint)).trans (if_neg (Bool.eq_false_iff.1 hnume))

lemma finds_paren (hΓ : Γ.Typed) {t : Token} (ht : t.Is .openParen ∨ t.Is .closeParen) :
    Finds Γ (· = .unknown) (· = .unknown) (ofText t.text) := by
  have hnn : ∀ x : String, x ≠ "this" → Lexer.kindOf? x.toList ≠ some .identifier →
      Γ.resolve? x = none := by
    intro x hthis hkd
    cases hx : Γ.resolve? x with
    | none => rfl
    | some sym => exact ((hΓ.name x sym hx).elim hthis hkd).elim
  have hfind : ∀ x : String, Γ.resolve? x = none → (ofText x = do
        match ← resolve? x with
        | some sym => return sym.type
        | none => return .unknown) → Finds Γ (· = .unknown) (· = .unknown) (ofText x) := by
    intro x hx htx
    rw [htx]
    refine ((Finds.resolve? x).bind (q := fun _ T => T = .unknown) fun found hfd => ?_).congr
      fun T => by simp
    rw [hfd, hx]
    exact Finds.pure rfl
  rcases ht with ht | ht
  · rw [ht.lexed.text_eq (s := "(") (by rw [ht.kind]; rfl)]
    exact hfind _ (hnn _ (by decide) (by decide))
      (ofText_of_first (c := '(') (u := []) rfl (by decide) (by decide) (by decide))
  · rw [ht.lexed.text_eq (s := ")") (by rw [ht.kind]; rfl)]
    exact hfind _ (hnn _ (by decide) (by decide))
      (ofText_of_first (c := ')') (u := []) rfl (by decide) (by decide) (by decide))

lemma ofText_of_identifier {t : Token} (ht : t.Is .identifier) :
    ofText t.text = do
      match ← resolve? t.text with
      | some sym => return sym.type
      | none => return .unknown := by
  obtain ⟨c, cs, hcs, hc, -⟩ := ht.lexed.exists_of_identifier ht.kind
  have hwords : t.text ≠ "true" ∧ t.text ≠ "false" ∧ t.text ≠ "null" :=
    ⟨ht.lexed.text_ne_of_identifier ht.kind (k := .kwTrue) (by decide) (by decide),
      ht.lexed.text_ne_of_identifier ht.kind (k := .kwFalse) (by decide) (by decide),
      ht.lexed.text_ne_of_identifier ht.kind (k := .kwNull) (by decide) (by decide)⟩
  have hqt : c ≠ '"' := by
    rintro rfl
    exact absurd hc (by decide)
  exact ofText_of_first hcs hqt (Text.isDigit_of_isNameStart hc) hwords

variable {t : Token} {e : Term}

lemma finds_name (ht : t.Is .identifier) {sym : Symbol} (hsym : Γ.resolve? t.text = some sym) :
    Finds Γ (· = sym.type) (· = sym.type) (ofText t.text) := by
  rw [ofText_of_identifier ht]
  refine ((Finds.resolve? t.text).bind (q := fun _ T => T = sym.type) fun found hfd => ?_).congr
    fun T => by simp
  rw [hfd, hsym]
  exact Finds.pure rfl

lemma types_pure {T : Ty} (hT : T.IsProper) (h : e.HasType Γ T)
    (ho : ∀ U, e.HasType Γ U → U = T) : Types Γ e (pure T) :=
  (Finds.pure hT).congr fun U => ⟨fun heq => heq ▸ h, ho U⟩

/-- Literals have the type they are written in. -/
lemma types_literal (ht : t.Is .literal) : Types Γ (.ofLiteral t.text) (ofText t.text) := by
  have hmat := ht.lexed.matches_patternOf (by rw [ht.kind]; decide)
  rw [ht.kind] at hmat
  rcases Pattern.matches_alt.1 hmat with hint | hstr
  · obtain ⟨u, v, huv, hu, hv⟩ := Pattern.matches_seq.1 hint
    obtain ⟨c, rfl, hc⟩ := Pattern.matches_one.1 hu
    have hdig : ∀ d ∈ t.text.toList, d.isDigit = true := by
      rw [huv, singleton_append, forall_mem_cons]
      exact ⟨hc, Pattern.matches_many_one.1 hv⟩
    have hqt : t.text.toList.head? ≠ some '"' := by
      rw [huv]
      rintro heq
      cases heq
      exact absurd hc (by decide)
    have hwords : ∀ (s : String) (d : Char), s.toList.head? = some d → d.isDigit = false →
        t.text ≠ s := by
      rintro s d hd hno rfl
      rw [hdig d (List.mem_of_head? hd)] at hno
      cases hno
    have hnume : Text.isNumeral t.text.toList = true := by
      rw [Text.isNumeral, Bool.and_eq_true, List.all_eq_true]
      exact ⟨by rw [huv]; rfl, fun d hd => Text.isDigit_of_isDigit (hdig d hd)⟩
    have hpoint : Text.isPointNumeral t.text.toList = false := by
      -- There is no point among digits.
      rw [Text.isPointNumeral]
      split
      · rename_i rest hdrop
        have hmem : '.' ∈ t.text.toList := List.mem_of_mem_drop (by rw [hdrop]; simp)
        exact absurd (hdig _ hmem) (by decide)
      · rfl
    rw [Term.ofLiteral, if_neg hqt, ofText]
    have hhd : (t.text.toList.head? == some '"') = false := by simp [hqt]
    simp only [hhd, hpoint, hnume, hwords "true" 't' (by decide) rfl,
      hwords "false" 'f' (by decide) rfl, hwords "null" 'n' (by decide) rfl, Bool.and_false,
      Bool.false_and, Bool.or_false, decide_false, Bool.false_eq_true, if_false, if_true]
    exact types_pure trivial .integer (by rintro _ ⟨⟩; rfl)
  · obtain ⟨u, v, huv, hu, hv⟩ := Pattern.matches_seq.1 hstr
    obtain ⟨c, rfl, hc⟩ := Pattern.matches_one.1 hu
    obtain ⟨v', w, rfl, -, hw⟩ := Pattern.matches_seq.1 hv
    obtain ⟨d, rfl, hd⟩ := Pattern.matches_one.1 hw
    cases eq_of_beq hc
    cases eq_of_beq hd
    have hhd : t.text.toList.head? = some '"' := by rw [huv]; rfl
    have hla : t.text.toList.getLast? = some '"' := by
      rw [huv, ← append_assoc]
      exact getLast?_concat
    have hlen : 2 ≤ t.text.toList.length := by rw [huv]; simp
    rw [Term.ofLiteral, if_pos hhd, ofText,
      if_pos (by rw [hhd, hla, decide_eq_true hlen]; rfl)]
    exact types_pure trivial .string (by rintro _ ⟨⟩; rfl)

lemma types_keyword {k : Kind} (hk : (k, e) ∈ keywords) (ht : t.Is k) :
    Types Γ e (ofText t.text) := by
  have hcases : (k = .kwTrue ∧ e = .boolean true) ∨ (k = .kwFalse ∧ e = .boolean false) ∨
      (k = .kwNull ∧ e = .null) := by
    simpa [keywords] using hk
  rcases hcases with ⟨rfl, rfl⟩ | ⟨rfl, rfl⟩ | ⟨rfl, rfl⟩
  · rw [ht.lexed.text_eq (s := "true") (by rw [ht.kind]; rfl)]
    exact types_pure trivial .boolean (by rintro _ ⟨⟩; rfl)
  · rw [ht.lexed.text_eq (s := "false") (by rw [ht.kind]; rfl)]
    exact types_pure trivial .boolean (by rintro _ ⟨⟩; rfl)
  · rw [ht.lexed.text_eq (s := "null") (by rw [ht.kind]; rfl)]
    exact types_pure trivial .null (by rintro _ ⟨⟩; rfl)

end Tokens

section Lists

variable {γ : Type} {terms : List Term}

lemma finds_mapM {xs : List γ} {f : γ → Check Ty}
    (h : Forall₂ (fun x e => Types Γ e (f x)) xs terms) :
    Finds Γ (fun types => ∀ T ∈ types, T.IsProper) (Forall₂ (Term.HasType Γ) terms)
      (xs.mapM f) := by
  induction h with
  | nil =>
    rw [mapM_nil]
    exact (Finds.pure (by simp)).congr fun types => by rw [forall₂_nil_left_iff]
  | @cons x e xs terms hx _ ih =>
    rw [mapM_cons]
    refine (hx.bind fun T hT => ih.bind fun types htys =>
      Finds.pure (forall_mem_cons.2 ⟨hT, htys⟩)).congr fun types => ?_
    rw [forall₂_cons_left_iff]
    simp only [exists_and_left]

lemma types_orNull {e : Term} {x : Check Ty} (h : Types Γ e x) :
    Types Γ e (do return (← x).orNull) := by
  have hsm : ∀ T : Ty, T.IsProper → T.orNull = T := by
    intro T hT
    cases T <;> first | rfl | exact hT.elim
  refine (h.bind (q := fun T U => U = T) fun T hT => ?_).congr fun T => by simp
  rw [hsm T hT]
  exact Finds.pure hT

variable {t : Tree} {visit : t.Sub → Check Ty} {parts : List t.Sub} {params : List (String × Ty)}
  {types : List Ty}

/-- All operands of a logical operator are boolean. -/
lemma finds_logical
    (h : Forall₂ (fun k e => Types Γ e (visit k)) parts terms) :
    Finds Γ Ty.IsProper (fun T => T = .boolean ∧ ∀ e ∈ terms, e.HasType Γ .boolean)
      (do
        for part in parts do
          require ((← visit part) = .boolean) t.pos .logicalOperand
        return .boolean) := by
  induction h with
  | nil => exact (Finds.type (T := .boolean) trivial).congr fun _ => by simp
  | @cons part e parts terms hp _ ih =>
    simp only [forIn_cons, bind_assoc, pure_bind] at ih ⊢
    refine (hp.bind fun T _ => (Finds.require _ t.pos .logicalOperand).bind fun _ _ =>
      ih).congr fun _ => ?_
    rw [forall_mem_cons]
    constructor
    · rintro ⟨T, hT, -, hbool, rfl, hr⟩
      rw [of_decide_eq_true hbool] at hT
      exact ⟨rfl, hT, hr⟩
    · rintro ⟨rfl, he, hr⟩
      exact ⟨.boolean, he, (), rfl, rfl, hr⟩

/-- Each operand of a comparison is compared with the one before, so all have the
    type of the first. -/
lemma finds_equality
    (h : Forall₂ (fun k e => Types Γ e (visit k)) parts terms) {before : Ty}
    (hbef : before.IsProper) :
    Finds Γ (fun _ => True) (fun last => last = before ∧ ∀ e ∈ terms, e.HasType Γ before)
      (parts.foldlM (fun before part => do
        let type ← visit part
        require (← accept before type) t.pos .incomparable
        return type) before) := by
  induction h generalizing before with
  | nil => exact (Finds.pure trivial).congr fun _ => by simp
  | @cons part e parts terms hp _ ih =>
    simp only [foldlM_cons, bind_assoc, pure_bind]
    refine (hp.bind fun T hT => (Finds.accept hbef).bind fun holds _ =>
      (Finds.require holds t.pos .incomparable).bind fun _ _ => ih hT).congr fun last => ?_
    rw [forall_mem_cons]
    constructor
    · rintro ⟨T, hT, holds, rfl, -, hsm, rfl, hr⟩
      cases of_decide_eq_true hsm
      exact ⟨rfl, hT, hr⟩
    · rintro ⟨rfl, he, hr⟩
      exact ⟨_, he, true, by simp, (), rfl, rfl, hr⟩

/-- All operands of a comparison by size are numbers. -/
lemma finds_relational
    (h : Forall₂ (fun k e => Types Γ e (visit k)) parts terms) (before : Ty) :
    Finds Γ (fun _ => True)
      (fun last => ∃ types, Forall₂ (Term.HasType Γ) terms types ∧
        (types ≠ [] → before.isNumeric = true) ∧ (∀ T ∈ types, T.isNumeric = true) ∧
        last = types.getLastD before)
      (parts.foldlM (fun before part => do
        let type ← visit part
        require (before.isNumeric && type.isNumeric) t.pos .relationalOperand
        return type) before) := by
  induction h generalizing before with
  | nil =>
    refine (Finds.pure (a := before) trivial).congr fun last => ?_
    simp [forall₂_nil_left_iff]
  | @cons part e parts terms hp _ ih =>
    simp only [foldlM_cons, bind_assoc, pure_bind]
    refine (hp.bind fun T _ => (Finds.require _ t.pos .relationalOperand).bind fun _ _ =>
      ih T).congr fun last => ?_
    constructor
    · rintro ⟨T, hT, -, hnum, types, htys, -, hall, rfl⟩
      rw [Bool.and_eq_true] at hnum
      refine ⟨T :: types, .cons hT htys, fun _ => hnum.1, ?_, by rw [getLastD_cons]⟩
      rw [forall_mem_cons]
      exact ⟨hnum.2, hall⟩
    · rintro ⟨types, htys, hbef, hall, rfl⟩
      obtain ⟨T, types, hT, hr, rfl⟩ := forall₂_cons_left_iff.1 htys
      rw [forall_mem_cons] at hall
      have hnum : (before.isNumeric && T.isNumeric) = true := by
        rw [hbef (by simp), hall.1]
        rfl
      exact ⟨T, hT, (), hnum, types, hr, fun _ => hall.1, hall.2,
        by rw [getLastD_cons]⟩

lemma finds_arguments (pos : Pos) (mismatch : Nat → Ty → Ty → Complaint)
    (hpars : ∀ p ∈ params, p.2.IsProper)
    (hlen : params.length = types.length) (i : Nat) :
    Finds Γ (fun _ => True) (fun _ => params.map Prod.snd = types)
      (do
        for ((_, wanted), type, i) in params.zip (types.zipIdx i) do
          require (← accept wanted type) pos (mismatch i wanted type)) := by
  induction params generalizing types i with
  | nil =>
    cases length_eq_zero_iff.1 hlen.symm
    exact (Finds.pure (a := ()) trivial).congr fun _ => by simp
  | cons param params ih =>
    cases types with
    | nil => cases hlen
    | cons T types =>
      rw [forall_mem_cons] at hpars
      have hr := ih hpars.2 (by simpa using hlen) (i + 1)
      simp only [zipIdx_cons, zip_cons_cons, forIn_cons, bind_assoc,
        pure_bind] at hr ⊢
      refine ((Finds.accept hpars.1).bind fun holds _ =>
        (Finds.require holds pos _).bind fun _ _ => hr).congr fun _ => ?_
      simp

/-- Arguments are compared with parameters one by one. -/
lemma finds_matchArguments (pos : Pos) (mismatch : Nat → Ty → Ty → Complaint)
    (hpars : ∀ p ∈ params, p.2.IsProper) (hlen : params.length = types.length) :
    Finds Γ (fun _ => True) (fun _ => params.map Prod.snd = types)
      (matchArguments pos mismatch params types) := by
  unfold matchArguments
  exact finds_arguments pos mismatch hpars hlen 1

/-- All elements of an array have the type of the first. -/
lemma finds_elements (t : Tree) {base : Ty} (hba : base.IsProper) (types : List Ty) (i : Nat) :
    Finds Γ (fun _ => True) (fun _ => ∀ T ∈ types, base = T)
      (arrayLiteral.go t base (types.zipIdx i)) := by
  induction types generalizing i with
  | nil => exact (Finds.pure (a := ()) trivial).congr fun _ => by simp
  | cons T types ih =>
    rw [zipIdx_cons, arrayLiteral.go]
    refine ((Finds.accept hba).bind (q := fun holds _ => holds = true ∧ ∀ U ∈ types, base = U)
      fun holds _ => ?_).congr fun _ => by simp
    cases holds with
    | false =>
      exact (Finds.complain (a := ()) trivial t.pos _).congr fun _ => by simp
    | true => exact (ih (i + 1)).congr fun _ => by simp

end Lists

end Check

end Compiscript
