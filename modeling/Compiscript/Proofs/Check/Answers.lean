import Compiscript.Proofs.Check.Classes
import Compiscript.Proofs.Check.Outline

/-!
# Expressions that Lack a Type

What can go wrong when an expression is checked.

A check gives up only where a part or a type is missing. The parts that the grammar asks
for are always there, so what is left are types. A name that is not declared has no
type, and neither has what gets its type from it; if such a type has to be compared,
there is no answer. So the check of an expression ends well, or it stops for want of a
type, and it does not stop if all names that are read in it are declared and have types.
-/

namespace Compiscript

open List hiding foldlM get mapM
open Compiscript.Tree

namespace Ty

/-- A type as a check finds it: known in all its parts, or not at all and then not for sure. -/
def Sound (sure : Prop) (T : Ty) : Prop := T.IsProper ∨ (T = .unknown ∧ ¬ sure)

variable {T : Ty}

lemma orNull_of_isProper (h : T.IsProper) : T.orNull = T := by
  cases T <;> first | rfl | exact h.elim

lemma Sound.orNull {sure : Prop} (h : T.Sound sure) : T.orNull.IsProper := by
  rcases h with h | ⟨rfl, -⟩
  · rwa [orNull_of_isProper h]
  · trivial

lemma isProper_of_primitive? {x : String} (h : primitive? x = some T) : T.IsProper := by
  unfold primitive? at h
  split at h <;> cases h <;> trivial

lemma isProper_ofName (x : String) : (ofName x).IsProper := by
  unfold ofName
  dsimp only
  split
  · trivial
  · split
    · cases hpri : primitive? (String.ofList (x.toList.take (x.toList.length - 2))) with
      | none => trivial
      | some T =>
        have hT : T.IsProper := isProper_of_primitive? hpri
        exact hT
    · split
      · rename_i hpri
        exact isProper_of_primitive? hpri
      · split <;> trivial

end Ty

/-- A name that can be written in a program. -/
def IsWritable (x : String) : Prop := x = "this" ∨ Lexer.kindOf? x.toList = some .identifier

/-- A symbol as declarations make it. -/
structure Symbol.Sound (sure : Prop) (sym : Symbol) : Prop where
  type : sym.type.Sound sure
  params : ∀ p ∈ Check.paramsOf sym, IsWritable p.1 ∧ p.2.IsProper

/-- The members of a class have types in any case. -/
def ClassInfo.Sound (c : ClassInfo) : Prop :=
  ∀ x sym, c.fields.get? x = some sym ∨ c.methods.get? x = some sym → sym.Sound True

/-- A state as checks leave it. -/
structure Checker.Sound (sure : Prop) (s : Checker) : Prop extends s.Ordered where
  symbols : ∀ table ∈ s.scopes.tables, ∀ x sym, table.get? x = some sym →
    IsWritable x ∧ sym.Sound sure
  members : ∀ c ∈ s.classes.all, c.Sound
  function : ∀ f, s.function = some f → f.Sound sure

variable {sure : Prop}

lemma Ty.Sound.of_true {T : Ty} (h : T.Sound True) : T.Sound sure := by
  rcases h with h | ⟨-, h⟩
  · exact .inl h
  · exact absurd trivial h

lemma Symbol.Sound.of_true {sym : Symbol} (h : sym.Sound True) : sym.Sound sure :=
  ⟨h.type.of_true, h.params⟩

lemma Checker.Sound.weaken {s : Checker} (h : s.Sound sure) : s.Sound False := by
  have hsymb : ∀ {sym : Symbol}, sym.Sound sure → sym.Sound False := fun hsym =>
    ⟨hsym.type.imp_right fun hno => ⟨hno.1, id⟩, hsym.params⟩
  exact {
    toOrdered := h.toOrdered
    symbols := fun table htab x sym hx =>
      ⟨(h.symbols table htab x sym hx).1, hsymb (h.symbols table htab x sym hx).2⟩
    members := h.members
    function := fun f hf => hsymb (h.function f hf) }

lemma Scopes.exists_table_of_resolve? {Γ : Scopes} {x : String} {sym : Symbol}
    (h : Γ.resolve? x = some sym) : ∃ table ∈ Γ.tables, table.get? x = some sym := by
  rcases Option.or_eq_some_iff.1 h with hinn | ⟨-, hglo⟩
  · obtain ⟨table, htab, hfd⟩ := exists_of_findSome?_eq_some hinn
    exact ⟨table, mem_append_left _ htab, hfd⟩
  · exact ⟨Γ.global, by simp [tables], hglo⟩

lemma Classes.exists_of_search {α : Type} {cs : Classes} {find : ClassInfo → Option α} {id : Nat}
    {a : α} (h : cs.search find id = some a) : ∃ c ∈ cs.all, find c = some a := by
  have hgo : ∀ fuel start, search.go cs find fuel start = some a →
      ∃ c ∈ cs.all, find c = some a := by
    intro fuel
    induction fuel with
    | zero =>
      intro start h
      cases h
    | succ fuel ih =>
      intro start h
      cases start with
      | none => cases h
      | some id =>
        rw [search.go] at h
        split at h
        · cases h
        · rename_i c hc
          split at h
          · rename_i found hfd
            exact ⟨c, mem_of_getElem? hc, hfd.trans h⟩
          · exact ih _ h
  exact hgo _ _ h

namespace Checker.Sound

variable {sure : Prop} {s : Checker} (h : s.Sound sure)

include h

variable {x : String} {sym : Symbol} {id : Nat}

lemma resolve? (hx : s.scopes.resolve? x = some sym) : IsWritable x ∧ sym.Sound sure := by
  obtain ⟨table, htab, hfd⟩ := Scopes.exists_table_of_resolve? hx
  exact h.symbols table htab x sym hfd

lemma field? (hx : s.classes.field? id x = some sym) : sym.Sound sure := by
  obtain ⟨c, hc, hfd⟩ := Classes.exists_of_search hx
  exact (h.members c hc x sym (.inl hfd)).of_true

lemma method? (hx : s.classes.method? id x = some sym) : sym.Sound sure := by
  obtain ⟨c, hc, hfd⟩ := Classes.exists_of_search hx
  exact (h.members c hc x sym (.inr hfd)).of_true

end Checker.Sound

namespace Check

variable {α β : Type} {sure : Prop} {s : Checker}

/-- Whatever complaints there have been before, a step only adds to them. It ends well with
    a result that is `g`, or it stops for want of a type, and then not for sure. -/
def Answers (sure : Prop) (s : Checker) (g : α → Prop) (x : Check α) : Prop :=
  ∀ es, ∃ r es', x.run (s.adding es) = (r, s.adding es') ∧
    ((∃ a, r = .ok a ∧ g a) ∨ (r = .error .type ∧ ¬ sure))

/-- The same, with a type that can be asked. -/
abbrev Typed (sure : Prop) (s : Checker) (x : Check Ty) : Prop := Answers sure s (Ty.Sound sure) x

namespace Answers

variable {g : α → Prop} {x : Check α}

lemma imp {g' : α → Prop} (h : Answers sure s g x) (himp : ∀ a, g a → g' a) :
    Answers sure s g' x := by
  intro es
  obtain ⟨r, es', hrun, ⟨a, hr, ha⟩ | hr⟩ := h es
  · exact ⟨r, es', hrun, .inl ⟨a, hr, himp a ha⟩⟩
  · exact ⟨r, es', hrun, .inr hr⟩

lemma of_finds {p : α → Prop} (h : Finds s.scopes g p x) : Answers sure s g x := by
  intro es
  obtain ⟨a, es', hrun, ha, -⟩ := h (s.adding es) rfl
  rw [Checker.adding_adding] at hrun
  exact ⟨_, _, hrun, .inl ⟨a, rfl, ha⟩⟩

lemma pure {a : α} (h : g a) : Answers sure s g (Pure.pure a) := of_finds (Finds.pure h)

lemma bind {g' : β → Prop} {f : α → Check β} (hx : Answers sure s g x)
    (hf : ∀ a, g a → Answers sure s g' (f a)) : Answers sure s g' (x >>= f) := by
  intro es
  obtain ⟨r, es1, hrun, ⟨a, rfl, ha⟩ | ⟨rfl, hsu⟩⟩ := hx es
  · obtain ⟨r', es', hrun', hr'⟩ := hf a ha es1
    refine ⟨r', es', ?_, hr'⟩
    rw [run_bind, hrun]
    exact hrun'
  · refine ⟨.error .type, es1, ?_, .inr ⟨rfl, hsu⟩⟩
    rw [run_bind, hrun]

lemma get {k : Checker → Check α} (h : ∀ es, Answers sure s g (k (s.adding es))) :
    Answers sure s g (MonadState.get >>= k) := fun es => h es es

lemma complain (p : Pos) (c : Complaint) {a : α} (h : g a) :
    Answers sure s g (do complain p c; return a) := of_finds (Finds.complain h p c)

lemma require (holds : Bool) (p : Pos) (c : Complaint) {k : Unit → Check α}
    (h : Answers sure s g (k ())) : Answers sure s g (require holds p c >>= k) :=
  (of_finds (Finds.require holds p c)).bind fun _ _ => h

/-- Only a type that is not known cannot be asked. -/
lemma accept {a : Ty} (h : a.Sound sure) (b : Ty) :
    Answers sure s (fun _ => True) (accept a b) := by
  rcases h with h | ⟨rfl, hsu⟩
  · exact of_finds (Finds.accept h)
  · exact fun es => ⟨.error .type, es, rfl, .inr ⟨rfl, hsu⟩⟩

lemma compare {a : Ty} (h : a.Sound sure) (b : Ty) (p : Pos) (c : Complaint)
    {k : Unit → Check α} (hk : Answers sure s g (k ())) :
    Answers sure s g (Check.accept a b >>= fun holds => Check.require holds p c >>= k) :=
  (accept h b).bind fun _ _ => require _ p c hk

lemma need {what : Absent} {o : Option β} {b : β} (ho : o = some b) {k : β → Check α}
    (h : Answers sure s g (k b)) : Answers sure s g (need what o >>= k) := by
  subst ho
  exact h

lemma resolve? (x : String) : Answers sure s (· = s.scopes.resolve? x) (resolve? x) :=
  of_finds (Finds.resolve? x)

lemma class? (x : String) : Answers sure s (· = s.classNames.get? x) (class? x) :=
  fun es => ⟨_, es, rfl, .inl ⟨_, rfl, rfl⟩⟩

lemma visitPart {t : Tree} {visit : t.Sub → Check Ty} {g : Ty → Prop} {part : Option t.Sub}
    {k : t.Sub} (hk : part = some k) (h : Answers sure s g (visit k)) :
    Answers sure s g (visitPart visit part) := by
  subst hk
  exact h

lemma mapM {g : β → Prop} {f : α → Check β} {xs : List α} (h : ∀ x ∈ xs, Answers sure s g (f x)) :
    Answers sure s (fun bs => ∀ b ∈ bs, g b) (xs.mapM f) := by
  induction xs with
  | nil =>
    rw [mapM_nil]
    exact pure (by simp)
  | cons y ys ih =>
    rw [forall_mem_cons] at h
    rw [mapM_cons]
    exact h.1.bind fun b hb => (ih h.2).bind fun bs hbs =>
      pure (forall_mem_cons.2 ⟨hb, hbs⟩)

lemma foldlM {g : β → Prop} {f : β → α → Check β} {xs : List α}
    (h : ∀ x ∈ xs, ∀ b, g b → Answers sure s g (f b x)) {b : β} (hb : g b) :
    Answers sure s g (xs.foldlM f b) := by
  induction xs generalizing b with
  | nil => exact pure hb
  | cons y ys ih =>
    rw [forall_mem_cons] at h
    rw [foldlM_cons]
    exact (h.1 b hb).bind fun b' hb' => ih h.2 hb'

lemma forIn {f : α → PUnit → Check (ForInStep PUnit)} {xs : List α}
    (h : ∀ x ∈ xs, Answers sure s (fun _ => True) (f x .unit)) :
    Answers sure s (fun _ => True) (forIn xs PUnit.unit f) := by
  induction xs with
  | nil => exact pure trivial
  | cons y ys ih =>
    rw [forall_mem_cons] at h
    rw [forIn_cons]
    refine h.1.bind fun step _ => ?_
    cases step with
    | done u => exact pure trivial
    | yield u => exact ih h.2

/-- Finding the type of an initial value ends well in any case. -/
lemma infer {sure' : Prop} {t : Tree} {visit : t.Sub → Check Ty} {e : t.Sub}
    (h : Answers sure' s (Ty.Sound sure') (visit e)) :
    Answers sure s Ty.IsProper (infer visit e) := by
  intro es
  have hval : Answers sure' s Ty.IsProper (do return (← visit e).orNull) :=
    h.bind fun T hT => pure hT.orNull
  obtain ⟨r, es', hrun, ⟨T, rfl, hT⟩ | ⟨rfl, -⟩⟩ := hval es
  · exact ⟨.ok T, es', by rw [Check.infer, run_tryCatch, hrun], .inl ⟨T, rfl, hT⟩⟩
  · exact ⟨.ok .null, es', by rw [Check.infer, run_tryCatch, hrun]; rfl, .inl ⟨_, rfl, trivial⟩⟩

end Answers

/-! ### Tokens -/

lemma answers_token (hs : s.Sound sure) (tok : Token) :
    Answers sure s (Ty.Sound False) (check (.leaf tok)) := by
  have hpro : ∀ {T : Ty}, T.IsProper → Answers sure s (Ty.Sound False) (pure T) :=
    fun hT => .pure (.inl hT)
  rw [show check (.leaf tok) = ofText tok.text from check_eq _]
  unfold ofText
  dsimp only
  split
  · exact hpro trivial
  · split
    · exact hpro trivial
    · split
      · exact hpro trivial
      · split
        · exact hpro trivial
        · split
          · exact hpro trivial
          · refine (Answers.resolve? _).bind fun found hfd => ?_
            cases found with
            | none => exact .pure (.inr ⟨rfl, id⟩)
            | some sym =>
              refine .pure ?_
              rcases (hs.resolve? hfd.symm).2.type with hT | ⟨hT, -⟩
              · exact .inl hT
              · exact .inr ⟨hT, id⟩

lemma answers_name (hs : s.Sound sure) {o : Token} (ho : o.Is .identifier ∨ o.Is .kwThis)
    (hrd : sure → s.scopes.resolve? o.text ≠ none) : Typed sure s (check (.leaf o)) := by
  rw [show check (.leaf o) = ofText o.text from check_eq _, ofText_of_name ho]
  refine (Answers.resolve? _).bind fun found hfd => ?_
  cases found with
  | none => exact .pure (.inr ⟨rfl, fun hsu => hrd hsu hfd.symm⟩)
  | some sym => exact .pure (hs.resolve? hfd.symm).2.type

lemma answers_literal {tok : Token} {e : Term} (h : Types s.scopes e (ofText tok.text)) :
    Typed sure s (check (.leaf tok)) := by
  rw [show check (.leaf tok) = ofText tok.text from check_eq _]
  exact (Answers.of_finds h).imp fun _ => .inl

/-! ### Expressions, given their parts -/

section Node

variable {t : Tree} {visit : t.Sub → Check Ty}

lemma answers_last {cs : List Tree} (hall : ∀ c ∈ cs, Answers sure s (Ty.Sound False) (check c))
    {found : Ty} (hfd : found.Sound False)
    (hso : found.Sound sure ∨ ∃ c ∈ cs, Typed sure s (check c)) :
    Typed sure s (cs.foldlM (fun found c => do
      let type ← check c
      return if type = .unknown then found else type) found) := by
  induction cs generalizing found with
  | nil =>
    refine .pure (hso.resolve_right ?_)
    rintro ⟨_, hc, -⟩
    cases hc
  | cons c cs ih =>
    rw [forall_mem_cons] at hall
    rw [foldlM_cons]
    have hsp : ∀ {g : Ty → Prop}, (∀ T, g T → T.Sound False) → Answers sure s g (check c) →
        (∀ T, g T → (if T = .unknown then found else T).Sound sure ∨
          ∃ d ∈ cs, Typed sure s (check d)) →
        Typed sure s ((do
          let type ← check c
          return if type = .unknown then found else type) >>= fun found =>
            cs.foldlM (fun found c => do
              let type ← check c
              return if type = .unknown then found else type) found) := by
      intro g hg hc hnx
      rw [bind_assoc]
      refine hc.bind fun T hT => ?_
      rw [pure_bind]
      refine ih hall.2 ?_ (hnx T hT)
      split
      · exact hfd
      · exact hg T hT
    rcases hso with hso | ⟨d, hd, hso⟩
    · refine hsp (fun _ => id) hall.1 fun T hT => .inl ?_
      split
      · exact hso
      · rename_i hT'
        exact .inl (hT.resolve_right fun hno => hT' hno.1)
    · rcases mem_cons.1 hd with rfl | hd
      · refine hsp (fun T hT => ?_) hso fun T hT => .inl ?_
        · exact hT.imp_right fun hno => ⟨hno.1, id⟩
        · split
          · rename_i hT'
            subst hT'
            rcases hT with hT | ⟨-, hsu⟩
            · exact hT.elim
            · exact hfd.imp_right fun hno => ⟨hno.1, hsu⟩
          · exact hT
      · exact hsp (fun _ => id) hall.1 fun T _ => .inr ⟨d, hd, hso⟩

lemma answers_visitAll (hall : ∀ c ∈ t.children, Answers sure s (Ty.Sound False) (check c))
    (hso : ∃ c ∈ t.children, Typed sure s (check c)) :
    Typed sure s (visitAll fun k : t.Sub => check k.tree) := by
  rw [visitAll_check]
  exact answers_last hall (.inr ⟨rfl, id⟩) (.inr hso)

variable {operand : Rule} {op : t.Sub} {state : Chained}

lemma answers_operands {several : List t.Sub → Check Ty}
    (hne : t.kids operand ≠ []) (h : ∀ k ∈ t.kids operand, Typed sure s (visit k))
    (hsev : Typed sure s (several (t.kids operand))) :
    Typed sure s (operands t visit operand several) := by
  obtain ⟨k, ks, hks⟩ := exists_cons_of_ne_nil hne
  have hk : k ∈ t.kids operand := hks ▸ mem_cons_self
  unfold operands
  split
  · rename_i hnil
    have hmem := (of_mem_kids hk).1
    rw [hnil] at hmem
    cases hmem
  · exact .visitPart (by rw [kidAt?, hks]; rfl) (h k hk)
  · exact hsev

lemma answers_logical (hne : t.kids operand ≠ [])
    (h : ∀ k ∈ t.kids operand, Typed sure s (visit k)) :
    Typed sure s (logical t visit operand) := by
  refine answers_operands hne h ?_
  refine (Answers.forIn fun k hk => ?_).bind fun _ _ => .pure (.inl trivial)
  exact (h k hk).bind fun _ _ => .require _ _ _ (.pure trivial)

lemma answers_compared {parts : List t.Sub} (hne : parts ≠ [])
    (h : ∀ k ∈ parts, Typed sure s (visit k)) {f : Ty → Ty → Check Unit}
    (hf : ∀ a b, a.Sound sure → Answers sure s (fun _ => True) (f a b)) :
    Typed sure s (do
      let first ← visitPart visit parts.head?
      let _ ← parts.tail.foldlM (fun before part => do
        let type ← visit part
        f before type
        return type) first
      return Ty.boolean) := by
  obtain ⟨k, ks, rfl⟩ := exists_cons_of_ne_nil hne
  rw [forall_mem_cons] at h
  refine (Answers.visitPart rfl h.1).bind fun first hfst => ?_
  refine (Answers.foldlM (g := Ty.Sound sure) (fun k' hk' before hbef => ?_) hfst).bind
    fun _ _ => .pure (.inl trivial)
  exact (h.2 k' hk').bind fun type hty => (hf before type hbef).bind fun _ _ => .pure hty

lemma answers_equality (hne : t.kids .relationalExpr ≠ [])
    (h : ∀ k ∈ t.kids .relationalExpr, Typed sure s (visit k)) :
    Typed sure s (equality t visit) := by
  refine answers_operands hne h ?_
  have hrow := answers_compared hne h
    (f := fun a b => do require (← accept a b) t.pos .incomparable) fun a b ha => by
      rw [← bind_pure (accept a b >>= _), bind_assoc]
      exact .compare ha b _ _ (.pure trivial)
  simpa only [bind_assoc] using hrow

lemma answers_relational (hne : t.kids .additiveExpr ≠ [])
    (h : ∀ k ∈ t.kids .additiveExpr, Typed sure s (visit k)) : Typed sure s (relational t visit) :=
  answers_operands hne h (answers_compared hne h
    (f := fun a b => require (a.isNumeric && b.isNumeric) t.pos .relationalOperand)
    fun _ _ _ => .of_finds (Finds.require _ _ _))

lemma answers_additive (hne : t.kids .multiplicativeExpr ≠ [])
    (h : ∀ k ∈ t.kids .multiplicativeExpr, Typed sure s (visit k)) :
    Typed sure s (additive t visit) := by
  refine answers_operands hne h ((Answers.mapM h).bind fun types _ => ?_)
  split
  · split
    · exact .pure (.inl trivial)
    · exact .complain _ _ (.inl trivial)
  · split
    · split <;> exact .pure (.inl trivial)
    · exact .complain _ _ (.inl trivial)

lemma answers_ternary {c a b : t.Sub} (hc : t.kid? .logicalOrExpr = some c)
    (hcond : Typed sure s (visit c))
    (hbrs : t.children.any (·.text = "?") = true → t.kidAt? .expression 0 = some a ∧
      t.kidAt? .expression 1 = some b ∧ Typed sure s (visit a) ∧ Typed sure s (visit b)) :
    Typed sure s (ternary t visit) := by
  unfold ternary
  refine (Answers.visitPart hc hcond).bind fun condition hcnd => ?_
  split
  · rename_i hque
    obtain ⟨ha, hb, hfst, hsnd⟩ := hbrs hque
    refine (Answers.visitPart ha hfst).bind fun first hfst => ?_
    refine (Answers.visitPart hb hsnd).bind fun second _ => .require _ _ _ ?_
    exact .compare hfst _ _ _ (.pure hfst)
  · exact .pure hcnd

lemma answers_arrayLiteral (h : ∀ k ∈ t.kids .expression, Typed sure s (visit k)) :
    Typed sure s (arrayLiteral t visit) := by
  unfold arrayLiteral
  refine (Answers.mapM (g := Ty.IsProper) fun k hk => ?_).bind fun types htys => ?_
  · exact (h k hk).bind fun T hT => .pure hT.orNull
  · cases types with
    | nil => exact .pure (.inl trivial)
    | cons base rest =>
      have hba := htys base (.head _)
      exact (Answers.of_finds (finds_elements t hba rest 2)).bind fun _ _ => .pure (.inl hba)

lemma answers_arguments {f : Symbol} (hf : f.Sound sure) (found : List Ty) (p : Pos)
    (mismatch : Nat → Ty → Ty → Complaint) (count : Complaint) {g : α → Prop} {k : Unit → Check α}
    (hk : Answers sure s g (k ())) :
    Answers sure s g (if (paramsOf f).length = found.length then
      matchArguments p mismatch (paramsOf f) found >>= k else complain p count >>= k) := by
  split
  · rename_i hlen
    exact (Answers.of_finds (finds_matchArguments p mismatch (fun q hq => (hf.params q hq).2)
      hlen)).bind fun _ _ => hk
  · exact Answers.require false p count hk

lemma answers_newObject (hs : s.Sound sure)
    (h : ∀ a, t.kid? .arguments = some a → ∀ e ∈ a.tree.kids .expression,
      Typed sure s (visit (a.lift e))) : Typed sure s (newObject t visit) := by
  unfold newObject
  dsimp only
  split
  · exact .complain _ _ (.inl trivial)
  · rename_i name _
    refine (Answers.class? _).bind fun id hid => ?_
    cases id with
    | none => exact .complain _ _ (.inl trivial)
    | some id =>
      refine (Answers.mapM (g := Ty.IsProper) fun e he => ?_).bind fun found _ =>
        .get fun es => ?_
      · split at he
        · rename_i a ha
          obtain ⟨k, hk, rfl⟩ := mem_map.1 he
          exact (h a ha k hk).bind fun T hT => .pure hT.orNull
        · cases he
      · cases hmeth : (s.adding es).classes.method? id "constructor" with
        | none => exact .pure (.inl trivial)
        | some f =>
          have hf : f.Sound sure := hs.method? hmeth
          exact answers_arguments (k := fun _ => pure (Ty.class name))
            (g := Ty.Sound sure) hf found _ _ _
            (.pure (.inl trivial))

/-! ### Suffixes -/

/-- What a chain of suffixes has come to has a type or not. -/
def Chained.Sound (sure : Prop) (c : Chained) : Prop :=
  c.1.Sound sure ∧ ∀ f, c.2 = some f → f.Sound sure

lemma Chained.Sound.null : Chained.Sound sure (.null, none) :=
  ⟨.inl trivial, fun _ hf => nomatch hf⟩

lemma answers_member (hs : s.Sound sure) {op : Tree} {x : String} (hx : op.childText? 1 = some x)
    (type : Ty) : Answers sure s (Chained.Sound sure) (member op type) := by
  unfold member
  refine .need hx ?_
  split
  · refine (Answers.class? _).bind fun id hid => ?_
    cases id with
    | none => exact .complain _ _ .null
    | some id =>
      refine .get fun es => ?_
      dsimp only
      split
      · rename_i field hfld
        have hfld : field.Sound sure := hs.field? hfld
        exact .pure ⟨hfld.type, fun _ hf => nomatch hf⟩
      · split
        · rename_i method hmeth
          have hmeth : method.Sound sure := hs.method? hmeth
          exact .pure ⟨hmeth.type, fun f hf => Option.some.inj hf ▸ hmeth⟩
        · exact .complain _ _ .null
  · exact .complain _ _ .null

lemma answers_call (h : ∀ e ∈ arguments op, Typed sure s (visit e))
    (hsta : state.Sound sure) : Answers sure s (Chained.Sound sure) (call t visit op state) := by
  obtain ⟨type, _ | f⟩ := state
  · exact .complain _ _ .null
  · refine (Answers.mapM (g := Ty.IsProper) fun e he => ?_).bind fun found _ => ?_
    · exact (h e he).bind fun T hT => .pure hT.orNull
    · exact answers_arguments (k := fun _ => pure (type, none)) (g := Chained.Sound sure)
        (hsta.2 f rfl) found _ _ _ (.pure ⟨hsta.1, fun _ hf => nomatch hf⟩)

lemma answers_index (h : ∀ e, op.tree.kid? .expression = some e → Typed sure s (visit (op.lift e)))
    (hsta : state.Sound sure) : Answers sure s (Chained.Sound sure) (index t visit op state) := by
  unfold index
  split
  · rename_i elem f
    have helem : elem.IsProper := hsta.1.resolve_right fun hno => nomatch hno.1
    have hres : Chained.Sound sure (elem, f) := ⟨.inl helem, hsta.2⟩
    split
    · rename_i e he
      exact (h e he).bind fun _ _ => .require _ _ _ (.pure hres)
    · exact .pure hres
  · exact .complain _ _ ⟨.inl trivial, hsta.2⟩

lemma answers_callee? (hs : s.Sound sure) (atom : Tree) :
    Answers sure s (fun o => ∀ f, o = some f → f.Sound sure) (callee? atom) := by
  unfold callee?
  dsimp only
  split
  · exact .pure fun _ hf => nomatch hf
  · refine (Answers.resolve? _).bind fun found hfd => .pure fun f hf => ?_
    obtain ⟨hf, -⟩ := Option.filter_eq_some_iff.1 hf
    exact (hs.resolve? (hfd.symm.trans hf)).2

lemma answers_leftHandSide (hs : s.Sound sure) {atom : t.Sub}
    (hat : t.kid? .primaryAtom = some atom) (h : Typed sure s (visit atom))
    (hsuf : ∀ op ∈ t.kids .suffixOp, ∀ state, Chained.Sound sure state →
      Answers sure s (Chained.Sound sure) (suffix t visit state op)) :
    Typed sure s (leftHandSide t visit) := by
  unfold leftHandSide
  refine .need hat (h.bind fun type hty => ?_)
  refine (answers_callee? hs _).bind fun f hf => ?_
  refine (Answers.foldlM (g := Chained.Sound sure) hsuf ?_).bind fun r hr => .pure hr.1
  cases f with
  | none => exact ⟨hty, fun _ hf => nomatch hf⟩
  | some f => exact ⟨(hf f rfl).type, fun g hg => Option.some.inj hg ▸ hf f rfl⟩

end Node

end Check

/-! ### The names that are read -/

/-- Kinds whose texts do not begin with a question mark. -/
def Kind.opens (k : Kind) : Bool :=
  k == .identifier || k == .literal || (k.spelling?.bind (·.toList.head?)).any (· ≠ '?')

/-- Items whose texts do not begin with a question mark, if those of expressions do not. -/
def Item.opens : Item → Bool
  | .rule r => r.isInExpression
  | .token k => k.opens
  | .oneOf ks => ks.all Kind.opens
  | _ => false

lemma Token.Is.opens {o : Token} {k : Kind} (ho : o.Is k) (hk : k.opens = true) :
    (leaf o).Opens := by
  simp only [Kind.opens, Bool.or_eq_true, beq_iff_eq, Option.any_eq_true, decide_eq_true_eq] at hk
  rcases hk with (rfl | rfl) | ⟨d, hd, hne⟩
  · exact .of_identifier ho
  · exact .of_literal ho
  · obtain ⟨u, hu, hd⟩ := Option.bind_eq_some_iff.1 hd
    exact .of_spelling ho hu hd hne

/-- No expression begins with a question mark. -/
lemma Derives.opens {r : Rule} {t : Tree} (h : Derived r t)
    (hr : r.isInExpression = true) : t.Opens := by
  have hfst : ∀ r ∈ Rule.all, r.isInExpression = true → ∀ e ∈ production r,
      e.body.head?.any Item.opens = true := by decide
  induction hn : sizeOf t using Nat.strong_induction_on generalizing t r with
  | _ n ih =>
    subst hn
    obtain ⟨e, p, cs, he, hcs, rfl⟩ := h
    have hopens := hfst r (Rule.mem_all r) hr e he
    generalize e.body = items at hcs hopens
    cases hcs with
    | nil => cases hopens
    | token ht hk _ => exact (Token.Is.opens ⟨ht, hk⟩ hopens).node _ _ _
    | oneOf ht hk _ =>
      exact (Token.Is.opens ⟨ht, rfl⟩ (all_eq_true.1 hopens _ hk)).node _ _ _
    | rule he' hbd _ =>
      refine (ih _ (sizeOf_child_lt (t := .node _ p _) (.head _))
        ⟨_, _, _, he', hbd, rfl⟩ hopens rfl).node _ _ _
    | skip | take | stop | more | choice => cases hopens

namespace Tree

mutual

/-- The names that are read in an expression, `this` among them. The target of an assignment
    is not looked at. -/
def reads : Tree → List String
  | .node ⟨_, some .identifierExpr⟩ _ cs => cs.map text
  | .node ⟨_, some .thisExpr⟩ _ cs => cs.map text
  | .node ⟨_, some .assignExpr⟩ _ cs => readsOfLast cs
  | .node ⟨_, some .propertyAssignExpr⟩ _ cs => readsOfLast cs
  | .node tag _ cs => if tag.rule.isInExpression then readsOf cs else []
  | _ => []

/-- The names that are read in several expressions. -/
def readsOf : List Tree → List String
  | [] => []
  | c :: cs => reads c ++ readsOf cs

/-- The names that are read in the last of several expressions. -/
def readsOfLast : List Tree → List String
  | [] => []
  | c :: cs => if cs.isEmpty then reads c else readsOfLast cs

end

lemma mem_readsOf {cs : List Tree} {x : String} : x ∈ readsOf cs ↔ ∃ c ∈ cs, x ∈ c.reads := by
  induction cs with
  | nil => simp [readsOf]
  | cons c cs ih => simp [readsOf, ih]

lemma reads_eq_readsOf {P : Token → Prop} {r : Rule} {t : Tree} (h : Derives P r t)
    (hin : r.isInExpression = true) (hr : r ≠ .assignmentExpr ∧ r ≠ .primaryAtom) :
    t.reads = readsOf t.children := by
  have hlabs : ∀ r ∈ Rule.all, r ≠ .assignmentExpr ∧ r ≠ .primaryAtom → ∀ e ∈ production r,
      e.label = none ∨ e.label = some .ternaryExpr ∨ e.label = some .callExpr ∨
        e.label = some .indexExpr ∨ e.label = some .propertyAccessExpr := by decide
  obtain ⟨e, p, cs, he, -, rfl⟩ := h
  rcases hlabs r (Rule.mem_all r) hr e he with hl | hl | hl | hl | hl <;> rw [hl] <;>
    exact if_pos hin

end Tree

namespace Check

variable {sure : Prop} {s : Checker} {t : Tree}

lemma check_tagged (tag : Tag) (h : t.tag? = some tag) : check t = tagged t (check ·.tree) tag := by
  cases t with
  | node tag' p cs =>
    cases h
    exact check_eq _
  | leaf _ => cases h
  | bad _ => cases h

/-- All names of a list are declared. -/
def Declares (s : Checker) (xs : List String) : Prop := ∀ x ∈ xs, s.scopes.resolve? x ≠ none

/-- The parts of an expression answer, if the names that are read in them are declared. -/
structure Replies (sure : Prop) (s : Checker) (t : Tree) : Prop where
  sound : s.Sound sure
  part : ∀ {c : Tree} {r : Rule}, c.Within t → sizeOf c < sizeOf t → c.isOf r = true →
    r.isInExpression = true → r ≠ .suffixOp → r ≠ .arguments → (sure → Declares s c.reads) →
    Typed sure s (check c)
  declared : sure → Declares s t.reads

namespace Replies

variable (hr : Replies sure s t)

include hr

variable {r : Rule} {P : Token → Prop}

/-- The children of most expressions are read like the expression itself. -/
lemma child {c : Tree} (hrs : t.reads = Tree.readsOf t.children)
    (hc : c ∈ t.children) (hof : c.isOf r = true) (hin : r.isInExpression = true)
    (hsuf : r ≠ .suffixOp) (hargs : r ≠ .arguments) : Typed sure s (check c) := by
  refine hr.part (.of_mem hc) (sizeOf_child_lt hc) hof hin hsuf hargs
    fun hsu x hx => hr.declared hsu x ?_
  rw [hrs]
  exact Tree.mem_readsOf.2 ⟨c, hc, hx⟩

lemma kids {q : Rule} (hrs : t.reads = Tree.readsOf t.children)
    (hin : q.isInExpression = true) (hsuf : q ≠ .suffixOp) (hargs : q ≠ .arguments) :
    ∀ k ∈ t.kids q, Typed sure s (check k.tree) := fun _ hk =>
  hr.child hrs (of_mem_kids hk).1 (of_mem_kids hk).2 hin
    hsuf hargs

/-- Expressions whose children are all visited. -/
lemma visitAll (h : Derives P r t) (hin : r.isInExpression = true)
    (hrs : t.reads = Tree.readsOf t.children)
    (hno : r.MentionsOnly fun q => q ≠ .suffixOp ∧ q ≠ .arguments)
    (hso : ∃ c ∈ t.children, (∃ q, c.isOf q = true) ∨ Typed sure s (check c)) :
    Typed sure s (visitAll fun k : t.Sub => check k.tree) := by
  have hnd : ∀ c ∈ t.children, ∀ q, c.isOf q = true → Typed sure s (check c) := by
    intro c hc q hof
    rcases h.leaf_or_mentioned hc with ⟨tok, rfl⟩ | ⟨q', hof', e, he, hment⟩
    · cases hof
    · have hin' : q'.isInExpression = true :=
        Rule.closed_isInExpression r (Rule.mem_all r) hin e he q' (Rule.mem_all q') hment
      have hnot := hno e he q' (Rule.mem_all q') hment
      exact hr.child hrs hc hof' hin' hnot.1 hnot.2
  refine answers_visitAll (fun c hc => ?_) ?_
  · rcases h.leaf_or_mentioned hc with ⟨tok, rfl⟩ | ⟨q, hof, -⟩
    · exact answers_token hr.sound tok
    · exact (hnd c hc q hof).imp fun T hT => hT.imp_right fun hno => ⟨hno.1, id⟩
  · obtain ⟨c, hc, ⟨q, hof⟩ | hans⟩ := hso
    · exact ⟨c, hc, hnd c hc q hof⟩
    · exact ⟨c, hc, hans⟩

/-- The expressions in the arguments of a call or a creation. -/
lemma arguments {a : Tree} (h : Derives P .arguments a) (ha : a.Within t)
    (hsz : sizeOf a < sizeOf t) (hrs : ∀ x ∈ a.reads, x ∈ t.reads) :
    ∀ e ∈ a.kids .expression, Typed sure s (check e.tree) := by
  intro e he
  obtain ⟨hmem, hex⟩ := of_mem_kids he
  refine hr.part ((Tree.Within.of_mem hmem).trans ha) (e.2.trans hsz) hex rfl nofun nofun
    fun hsu x hx => hr.declared hsu x (hrs x ?_)
  rw [Tree.reads_eq_readsOf h rfl (by decide)]
  exact mem_readsOf.2 ⟨e.tree, hmem, hx⟩

/-- Only the last child of an assignment is visited. -/
lemma assignmentExpr (h : Derives P .assignmentExpr t) : Typed sure s (check t) := by
  obtain ⟨e, p, cs, he, hcs, heq⟩ := h
  rw [check_tagged ⟨.assignmentExpr, e.label⟩ (by rw [heq]; rfl)]
  have hp : ∀ r c, (t.children.filter (·.isOf r)).head? = some c → r.isInExpression = true →
      r ≠ .suffixOp → r ≠ .arguments → (∀ x ∈ c.reads, x ∈ t.reads) →
      Typed sure s (visitPart (fun k : t.Sub => check k.tree) (t.kid? r)) := by
    intro r c hhd hin hsuf hargs hrs
    obtain ⟨hc, hof⟩ := mem_filter.1 (mem_of_head? hhd)
    obtain ⟨k, hk, hkc⟩ := kid?_eq_some hhd
    refine .visitPart hk ?_
    rw [hkc]
    exact hr.part (.of_mem hc) (sizeOf_child_lt hc) hof hin hsuf hargs
      fun hsu x hx => hr.declared hsu x (hrs x hx)
  rcases mem_three.1 he with rfl | rfl | rfl
  · cases hcs with
    | rule _ _ hcs => cases hcs with
    | token _ _ hcs => cases hcs with
    | rule _ _ hcs => cases hcs with
    | nil =>
      refine hp .assignmentExpr _ (by rw [heq]; rfl) rfl nofun nofun fun x hx => ?_
      rw [heq]
      exact hx
  · cases hcs with
    | rule _ _ hcs => cases hcs with
    | token _ _ hcs => cases hcs with
    | token _ _ hcs => cases hcs with
    | token _ _ hcs => cases hcs with
    | rule _ _ hcs => cases hcs with
    | nil =>
      refine hp .assignmentExpr _ (by rw [heq]; rfl) rfl nofun nofun fun x hx => ?_
      rw [heq]
      exact hx
  · cases hcs with
    | rule _ _ hcs => cases hcs with
    | nil =>
      refine hp .conditionalExpr _ (by rw [heq]; rfl) rfl nofun nofun fun x hx => ?_
      rw [heq]
      exact Tree.mem_readsOf.2 ⟨_, .head _, hx⟩

lemma conditionalExpr (h : Derived .conditionalExpr t) :
    Typed sure s (ternary t (check ·.tree)) := by
  have hrs := Tree.reads_eq_readsOf h rfl (by decide)
  have hor := hr.kids hrs (q := .logicalOrExpr) rfl nofun nofun
  have hbra := hr.kids hrs (q := .expression) rfl nofun nofun
  obtain ⟨e, p, cs, he, hcs, heq⟩ := h
  cases mem_singleton.1 he
  cases hcs with
  | @rule _ e1 p1 body _ _ he1 hbd hcs =>
    obtain ⟨c, hc, -⟩ := kid?_eq_some (r := .logicalOrExpr) (t := t) (by rw [heq]; rfl)
    have hcond := hor c (mem_kids_of_kid? hc)
    cases hcs with
    | skip hcs => cases hcs with
      | nil =>
        -- A single child is the condition, and its text is no question mark.
        refine answers_ternary (a := c) (b := c) hc hcond fun hque => ?_
        have hopens : (Tree.node ⟨.logicalOrExpr, e1.label⟩ p1 body).Opens :=
          Derives.opens ⟨_, _, _, he1, hbd, rfl⟩ rfl
        simp [heq, hopens.text_ne] at hque
    | take hcs => cases hcs with
    | token _ _ hcs => cases hcs with
    | rule _ _ hcs => cases hcs with
    | token _ _ hcs => cases hcs with
    | rule _ _ hcs => cases hcs with
    | nil =>
      obtain ⟨a, b, hkd, -⟩ := kids_eq_pair (r := .expression) (t := t)
        (by rw [heq]; rfl)
      refine answers_ternary (a := a) (b := b) hc hcond fun _ => ⟨?_, ?_, ?_, ?_⟩
      · rw [kidAt?, hkd]
        rfl
      · rw [kidAt?, hkd]
        rfl
      · exact hbra a (by rw [hkd]; simp)
      · exact hbra b (by rw [hkd]; simp)

/-- A name stands for itself, and so does `this`; a creation has arguments. -/
lemma primaryAtom (h : Derived .primaryAtom t) : Typed sure s (check t) := by
  obtain ⟨e, p, cs, he, hcs, heq⟩ := id h
  rw [check_tagged ⟨.primaryAtom, e.label⟩ (by rw [heq]; rfl)]
  have hnm : ∀ o : Token, t.children = [.leaf o] → (o.Is .identifier ∨ o.Is .kwThis) →
      t.reads = [o.text] →
      Typed sure s (Check.visitAll fun k : t.Sub => check k.tree) := by
    intro o hchs ho hrs
    have hans : Typed sure s (check (.leaf o)) :=
      answers_name hr.sound ho fun hsu => hr.declared hsu _ (by rw [hrs]; simp)
    rw [visitAll_check, hchs]
    refine answers_last (fun c hc => ?_) (.inr ⟨rfl, id⟩) (.inr ⟨_, .head _, hans⟩)
    rw [mem_singleton.1 hc]
    exact answers_token hr.sound o
  rcases mem_three.1 he with rfl | rfl | rfl
  · cases hcs with
    | token ht hk hcs => cases hcs with
    | nil => exact hnm _ (by rw [heq]; rfl) (.inl ⟨ht, hk⟩) (by rw [heq]; rfl)
  · refine answers_newObject hr.sound fun a ha e he => ?_
    obtain ⟨hmem, hof⟩ := Tree.of_kid? ha
    have hrs : t.reads = Tree.readsOf t.children := by rw [heq]; rfl
    refine hr.arguments (h.of_isOf (.of_mem hmem) hof) (.of_mem hmem) a.2 (fun x hx => ?_) e he
    rw [hrs]
    exact Tree.mem_readsOf.2 ⟨a.tree, hmem, hx⟩
  · cases hcs with
    | token ht hk hcs => cases hcs with
    | nil => exact hnm _ (by rw [heq]; rfl) (.inr ⟨ht, hk⟩) (by rw [heq]; rfl)

omit hr in
lemma exists_second (h : Derives P .suffixOp t) : ∃ x, t.childText? 1 = some x := by
  obtain ⟨e, p, cs, he, hcs, rfl⟩ := h
  rcases mem_three.1 he with rfl | rfl | rfl
  · cases hcs with
    | token _ _ hcs => cases hcs with
    | skip hcs => cases hcs with
      | token _ _ _ => exact ⟨_, rfl⟩
    | take hcs => cases hcs with
    | rule _ _ _ => exact ⟨_, rfl⟩
  · cases hcs with
    | token _ _ hcs => cases hcs with
    | rule _ _ _ => exact ⟨_, rfl⟩
  · cases hcs with
    | token _ _ hcs => cases hcs with
    | token _ _ _ => exact ⟨_, rfl⟩

lemma suffix {op : t.Sub} (hop : op.tree.Within t) (h : Derived .suffixOp op.tree)
    (hrs : ∀ x ∈ op.tree.reads, x ∈ t.reads) {state : Chained} (hsta : state.Sound sure) :
    Answers sure s (Chained.Sound sure) (Check.suffix t (check ·.tree) state op) := by
  have hreads' := Tree.reads_eq_readsOf h rfl (by decide)
  have hch : ∀ c ∈ op.tree.children, ∀ x ∈ c.reads, x ∈ t.reads := fun c hc x hx =>
    hrs x (hreads' ▸ Tree.mem_readsOf.2 ⟨c, hc, hx⟩)
  have hca : Answers sure s (Chained.Sound sure) (call t (check ·.tree) op state) := by
    refine answers_call (fun e he => ?_) hsta
    unfold Check.arguments at he
    split at he
    · rename_i a ha
      obtain ⟨k, hk, rfl⟩ := mem_map.1 he
      obtain ⟨hmem, hof⟩ := Tree.of_kid? ha
      exact hr.arguments (h.of_isOf (.of_mem hmem) hof) ((Tree.Within.of_mem hmem).trans hop)
        (a.2.trans op.2) (hch _ hmem) k hk
    · cases he
  have hidx : Answers sure s (Chained.Sound sure) (index t (check ·.tree) op state) := by
    refine answers_index (fun e he => ?_) hsta
    obtain ⟨hmem, hof⟩ := Tree.of_kid? he
    exact hr.part ((Tree.Within.of_mem hmem).trans hop) (e.2.trans op.2) hof rfl nofun nofun
      fun hsu x hx => hr.declared hsu x (hch _ hmem x hx)
  obtain ⟨x, hx⟩ := exists_second h
  unfold Check.suffix
  split
  · rename_i hnil
    rw [childText?, hnil] at hx
    cases hx
  · split
    · exact answers_member hr.sound hx _
    · exact hca
    · exact hidx
    · exact .pure hsta

lemma of_derives (h : Derived r t) (hin : r.isInExpression = true)
    (hvd : r ≠ .suffixOp ∧ r ≠ .arguments) : Typed sure s (check t) := by
  obtain ⟨e, p, cs, he, hcs, heq⟩ := id h
  have htag : t.tag? = some ⟨r, e.label⟩ := by rw [heq]; rfl
  have hchs : t.children = cs := by rw [heq]; rfl
  have hrs := Tree.reads_eq_readsOf h hin
  have hru : ∀ q, .rule q ∈ e.body → ∃ c ∈ t.children, (Part.rule q).fits c = true :=
    fun q hq => hchs ▸ hcs.exists_part hq (beq_self_eq_true q)
  have hne : ∀ q, .rule q ∈ e.body → t.kids q ≠ [] := by
    intro q hq hnil
    obtain ⟨c, hc, hof⟩ := hru q hq
    obtain ⟨k, hk, -⟩ := exists_kid hc hof
    rw [hnil] at hk
    cases hk
  have hall : r ≠ .assignmentExpr ∧ r ≠ .primaryAtom →
      (r.MentionsOnly fun q => q ≠ .suffixOp ∧ q ≠ .arguments) → (∃ q, .rule q ∈ e.body) →
      Typed sure s (Check.visitAll fun k : t.Sub => check k.tree) := by
    rintro hr' hno ⟨q, hq⟩
    obtain ⟨c, hc, hof⟩ := hru q hq
    exact hr.visitAll h hin (hrs hr') hno ⟨c, hc, .inl ⟨q, hof⟩⟩
  have hkd {q : Rule} (hr' : r ≠ .assignmentExpr ∧ r ≠ .primaryAtom)
      (hin : q.isInExpression = true) (hq : q ≠ .suffixOp ∧ q ≠ .arguments) :=
    hr.kids (hrs hr') hin hq.1 hq.2
  rw [check_tagged _ htag]
  -- One case for each rule. Those that only visit their parts are all done by `hall`.
  cases r with try cases mem_singleton.1 he
  | expression | multiplicativeExpr =>
    exact hall (by decide) (by decide) ⟨_, .head _⟩
  | assignmentExpr =>
    rw [← check_tagged _ htag]
    exact hr.assignmentExpr h
  | conditionalExpr =>
    exact hr.conditionalExpr h
  | logicalOrExpr | logicalAndExpr =>
    exact answers_logical (hne _ (.head _)) (hkd (by decide) rfl (by decide))
  | equalityExpr =>
    exact answers_equality (hne _ (.head _)) (hkd (by decide) rfl (by decide))
  | relationalExpr =>
    exact answers_relational (hne _ (.head _)) (hkd (by decide) rfl (by decide))
  | additiveExpr =>
    exact answers_additive (hne _ (.head _)) (hkd (by decide) rfl (by decide))
  | unaryExpr =>
    rcases mem_pair.1 he with rfl | rfl
    · exact hall (by decide) (by decide) ⟨_, .tail _ (.head _)⟩
    · exact hall (by decide) (by decide) ⟨_, .head _⟩
  | primaryExpr =>
    rcases mem_three.1 he with rfl | rfl | rfl
    · exact hall (by decide) (by decide) ⟨_, .head _⟩
    · exact hall (by decide) (by decide) ⟨_, .head _⟩
    · exact hall (by decide) (by decide) ⟨_, .tail _ (.head _)⟩
  | literalExpr =>
    have hlit : ∀ tok ∈ cs, Typed sure s (check tok) →
        Typed sure s (Check.visitAll fun k : t.Sub => check k.tree) :=
      fun c hc hans => hr.visitAll h rfl (hrs (by decide)) (by decide)
        ⟨c, hchs ▸ hc, .inr hans⟩
    simp only [production, mem_cons, not_mem_nil, or_false] at he
    rcases he with rfl | rfl | rfl | rfl | rfl
    · cases hcs with
      | token ht hk _ =>
        exact hlit _ (.head _) (answers_literal (types_literal ⟨ht, hk⟩))
    · exact hall (by decide) (by decide) ⟨_, .head _⟩
    · cases hcs with
      | token ht hk _ =>
        exact hlit _ (.head _)
          (answers_literal (types_keyword (e := .null) (by simp [keywords]) ⟨ht, hk⟩))
    · cases hcs with
      | token ht hk _ =>
        exact hlit _ (.head _)
          (answers_literal (types_keyword (e := .boolean true) (by simp [keywords]) ⟨ht, hk⟩))
    · cases hcs with
      | token ht hk _ =>
        exact hlit _ (.head _)
          (answers_literal (types_keyword (e := .boolean false) (by simp [keywords]) ⟨ht, hk⟩))
  | leftHandSide =>
    obtain ⟨c, hc, hof⟩ := hru .primaryAtom (.head _)
    obtain ⟨atom, hat⟩ := Option.isSome_iff_exists.1 (isSome_kid? ⟨c, hc, hof⟩)
    have hatoms := hkd (q := .primaryAtom) (by decide) rfl (by decide)
    refine answers_leftHandSide hr.sound hat (hatoms atom (mem_kids_of_kid? hat))
      fun op hop state hsta => ?_
    obtain ⟨hmem, hof⟩ := of_mem_kids hop
    refine hr.suffix (.of_mem hmem) (h.of_isOf (.of_mem hmem) hof) (fun x hx => ?_) hsta
    rw [hrs (by decide)]
    exact Tree.mem_readsOf.2 ⟨op.tree, hmem, hx⟩
  | primaryAtom =>
    rw [← check_tagged _ htag]
    exact hr.primaryAtom h
  | arrayLiteral =>
    exact answers_arrayLiteral (hkd (by decide) rfl (by decide))
  | suffixOp => exact absurd rfl hvd.1
  | arguments => exact absurd rfl hvd.2
  | _ => cases hin

end Replies

/-- Expressions stop only for want of a type, and not if all names that are read in them are
    declared and have types. -/
lemma answers_of_derives {r : Rule} (hs : s.Sound sure) (h : Derived r t)
    (hin : r.isInExpression = true) (hvd : r ≠ .suffixOp ∧ r ≠ .arguments)
    (hrd : sure → Declares s t.reads) : Typed sure s (check t) := by
  induction hn : sizeOf t using Nat.strong_induction_on generalizing t r with
  | _ n ih =>
    subst hn
    refine Replies.of_derives ⟨hs, ?_, hrd⟩ h hin hvd
    intro c q hc hlt hof hin' hsuf hargs hread'
    exact ih _ hlt (h.of_isOf hc hof) hin' ⟨hsuf, hargs⟩ hread' rfl

end Check

end Compiscript
