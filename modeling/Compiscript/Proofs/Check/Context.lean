import Compiscript.Proofs.Codegen.Resolver

/-!
# The Place of a Check

Where the checker is in a program: which scopes are open, how many loops, and the
function and the class whose body is being read.

Scopes have no names of their own, so two stacks of scopes are compared by what
they hold. The same scopes are open if there are as many, if all but the innermost
have the names they had, and if the innermost has at most got new ones behind those
it had.

Most visits put back by hand what they have changed, and do not get to it if the
visit of a part fails.

## Theorems

* `Checker.context_restored`: A visit that ends well ends at the place where it began.
-/

namespace Compiscript

open List hiding get modify

namespace Symbol

/-- The same symbol, which may have got a value. -/
def Kept (a b : Symbol) : Prop := b = a ∨ b = a.initialized

lemma initialized_initialized (s : Symbol) : s.initialized.initialized = s.initialized := by
  rcases s with ⟨name, type, place, _ | _ | _⟩ <;> rfl

lemma Kept.trans {a b c : Symbol} (h : a.Kept b) (h' : b.Kept c) : a.Kept c := by
  rcases h with rfl | rfl <;> rcases h' with rfl | rfl
  · exact .inl rfl
  · exact .inr rfl
  · exact .inr rfl
  · exact .inr (initialized_initialized a)

end Symbol

namespace Table

variable {t t' t'' : Table String Symbol}

lemma mem_keys_iff (t : Table String Symbol) (x : String) : x ∈ t.keys ↔ t.contains x = true := by
  simp [keys, contains]

lemma contains_iff_get? (t : Table String Symbol) (x : String) :
    t.contains x = true ↔ ∃ sym, t.get? x = some sym := by
  rw [contains, get?, any_eq_true, ← Option.isSome_iff_exists, Option.isSome_map,
    find?_isSome]

/-- The symbols of a table are still there, and new ones stand behind them. -/
structure Grows (t t' : Table String Symbol) : Prop where
  keys : t.keys <+: t'.keys
  symbols : ∀ x sym, t.get? x = some sym → ∃ sym', t'.get? x = some sym' ∧ sym.Kept sym'

/-- The symbols of a table are still there, and no others. -/
structure Stays (t t' : Table String Symbol) : Prop extends Grows t t' where
  same : t'.keys = t.keys

lemma Grows.refl (t : Table String Symbol) : t.Grows t :=
  ⟨prefix_rfl, fun _ sym h => ⟨sym, h, .inl rfl⟩⟩

lemma Grows.trans (h : t.Grows t') (h' : t'.Grows t'') : t.Grows t'' := by
  refine ⟨h.keys.trans h'.keys, fun x sym hx => ?_⟩
  obtain ⟨sym', hx', hkept⟩ := h.symbols x sym hx
  obtain ⟨sym'', hx'', hkept'⟩ := h'.symbols x sym' hx'
  exact ⟨sym'', hx'', hkept.trans hkept'⟩

lemma Stays.refl (t : Table String Symbol) : t.Stays t := ⟨.refl t, rfl⟩

lemma Stays.trans (h : t.Stays t') (h' : t'.Stays t'') : t.Stays t'' :=
  ⟨h.toGrows.trans h'.toGrows, h'.same.trans h.same⟩

/-- A new name stands behind all others. -/
lemma Grows.set {sym : Symbol} (h : t.contains sym.name = false) :
    t.Grows (t.set sym.name sym) := by
  have hmem : sym.name ∉ t.keys := by
    rw [mem_keys_iff, h]
    exact Bool.false_ne_true
  refine ⟨?_, fun x found hx => ?_⟩
  · rw [keys_set_of_not_mem t hmem]
    exact prefix_append _ _
  · have hne : sym.name ≠ x := by
      rintro rfl
      exact hmem ((mem_keys_iff t _).2 ((contains_iff_get? t _).2 ⟨found, hx⟩))
    exact ⟨found, by rw [get?_set_of_ne t hne, hx], .inl rfl⟩

/-- Giving a value to a variable changes no name. -/
lemma Stays.markInitialized (t : Table String Symbol) (x : String) :
    t.Stays (t.modify x Symbol.initialized) := by
  have hkeys : (t.modify x Symbol.initialized).keys = t.keys := by
    unfold modify
    split
    · rename_i sym hsym
      exact keys_set_of_mem t ((mem_keys_iff t x).2 ((contains_iff_get? t x).2 ⟨sym, hsym⟩)) _
    · rfl
  refine ⟨⟨hkeys ▸ prefix_rfl, fun y sym hy => ?_⟩, hkeys⟩
  by_cases hxy : x = y
  · subst hxy
    exact ⟨sym.initialized, by rw [get?_modify_self, hy]; rfl, .inr rfl⟩
  · exact ⟨sym, by rw [get?_modify_of_ne t hxy, hy], .inl rfl⟩

end Table

open Table (Grows Stays)

namespace Scopes

/-- All tables, the innermost first. -/
def tables (s : Scopes) : List (Table String Symbol) := s.inner ++ [s.global]

/-- Whether two stacks of tables are those of the same scopes. -/
def SameTables : List (Table String Symbol) → List (Table String Symbol) → Prop
  | t :: ts, t' :: ts' => t.Grows t' ∧ List.Forall₂ Stays ts ts'
  | _, _ => False

/-- The same scopes are open. -/
def Same (s s' : Scopes) : Prop := SameTables s.tables s'.tables

lemma tables_eq (s : Scopes) : s.tables = s.current :: s.tables.tail := by
  rcases s with ⟨_ | ⟨t, rest⟩, global⟩ <;> rfl

lemma tables_push (s : Scopes) : s.push.tables = .empty :: s.tables := rfl

variable {s s' : Scopes}

lemma tables_pop (h : s.inner ≠ []) : s.pop.tables = s.tables.tail := by
  rcases s with ⟨_ | ⟨t, rest⟩, global⟩
  · exact absurd rfl h
  · rfl

lemma tables_modifyCurrent (s : Scopes) (f : Table String Symbol → Table String Symbol) :
    (s.modifyCurrent f).tables = f s.current :: s.tables.tail := by
  rcases s with ⟨_ | ⟨t, rest⟩, global⟩ <;> rfl

lemma forall₂_stays_refl (ts : List (Table String Symbol)) : Forall₂ Stays ts ts :=
  forall₂_same.2 fun t _ => .refl t

lemma forall₂_stays_trans {ts ts' ts'' : List (Table String Symbol)}
    (h : Forall₂ Stays ts ts') (h' : Forall₂ Stays ts' ts'') : Forall₂ Stays ts ts'' := by
  induction h generalizing ts'' with
  | nil => exact h'
  | cons ht _ ih =>
    cases h' with
    | cons ht' hrs => exact .cons (ht.trans ht') (ih hrs)

lemma Same.refl (s : Scopes) : s.Same s := by
  rw [Same, tables_eq]
  exact ⟨.refl _, forall₂_stays_refl _⟩

lemma Same.trans (h : s.Same s') (h' : s'.Same s'') : s.Same s'' := by
  rw [Same, tables_eq s, tables_eq s'] at h
  rw [Same, tables_eq s', tables_eq s''] at h'
  rw [Same, tables_eq s, tables_eq s'']
  refine ⟨h.1.trans h'.1, ?_⟩
  exact forall₂_stays_trans h.2 h'.2

lemma Same.of_stays (h : Forall₂ Stays s.tables s'.tables) : s.Same s' := by
  rw [tables_eq s, tables_eq s'] at h
  obtain ⟨hhd, htail⟩ := forall₂_cons.1 h
  rw [Same, tables_eq s, tables_eq s']
  exact ⟨hhd.toGrows, htail⟩

lemma Same.of_push (h : s.push.Same s') : s.Same s'.pop := by
  rw [Same, tables_push, tables_eq s'] at h
  have hinn : s'.inner ≠ [] := by
    intro hnil
    have htab : s'.tables.tail = [] := by rw [tables, hnil]; rfl
    have htail := h.2
    rw [htab, tables_eq s] at htail
    cases htail
  refine .of_stays ?_
  rw [tables_pop hinn]
  exact h.2

lemma Same.define? {sym : Symbol} (h : s.define? sym = some s') : s.Same s' := by
  unfold Scopes.define? at h
  split at h
  · cases h
  · rename_i hcon
    cases h
    rw [Same, tables_modifyCurrent, tables_eq]
    exact ⟨.set (Bool.eq_false_iff.2 hcon), forall₂_stays_refl _⟩

lemma forall₂_stays_modify {f : Table String Symbol → Table String Symbol}
    (hf : ∀ t : Table String Symbol, t.Stays (f t)) (ts : List (Table String Symbol)) (i : Nat) :
    Forall₂ Stays ts (ts.modify i f) := by
  induction ts generalizing i with
  | nil =>
    rw [modify_nil]
    exact .nil
  | cons t ts ih =>
    cases i with
    | zero =>
      rw [modify_zero_cons]
      exact .cons (hf t) (forall₂_stays_refl ts)
    | succ i =>
      rw [modify_succ_cons]
      exact .cons (.refl t) (ih i)

lemma stays_markInitialized (s : Scopes) (x : String) :
    Forall₂ Stays s.tables (s.update x Symbol.initialized).tables := by
  unfold update
  split
  · rename_i i _
    exact rel_append (forall₂_stays_modify (.markInitialized · x) s.inner i)
      (forall₂_stays_refl [s.global])
  · exact rel_append (forall₂_stays_refl s.inner) (.cons (.markInitialized s.global x) .nil)

lemma Same.markInitialized (s : Scopes) (x : String) :
    s.Same (s.update x Symbol.initialized) := .of_stays (stays_markInitialized s x)

lemma Same.inner_eq_nil (h : s.Same s') (hs : s.inner = []) : s'.inner = [] := by
  rw [Same, tables_eq s, tables_eq s'] at h
  have htail : s.tables.tail = [] := by rw [tables, hs]; rfl
  have htail' := h.2
  rw [htail] at htail'
  have hlen : (s'.inner ++ [s'.global]).length = 1 := by
    rw [← tables, tables_eq, forall₂_nil_left_iff.1 htail']
    rfl
  rw [length_append, length_singleton] at hlen
  exact length_eq_zero_iff.1 (by omega)

end Scopes

/-- The checker is at the same place. -/
structure Checker.SameContext (s s' : Checker) : Prop where
  scopes : s.scopes.Same s'.scopes
  loopDepth : s'.loopDepth = s.loopDepth
  function : s'.function = s.function
  inClass : s'.inClass = s.inClass

namespace Checker.SameContext

variable {s s' s'' : Checker}

lemma refl (s : Checker) : s.SameContext s := ⟨.refl _, rfl, rfl, rfl⟩

lemma trans (h : s.SameContext s') (h' : s'.SameContext s'') : s.SameContext s'' :=
  ⟨h.scopes.trans h'.scopes, h'.loopDepth.trans h.loopDepth, h'.function.trans h.function,
    h'.inClass.trans h.inClass⟩

end Checker.SameContext

namespace Check

variable {α β : Type}

/-- A step leads from a state to another one and gives a result. -/
def Gives (x : Check α) (s : Checker) (a : α) (s' : Checker) : Prop := x.run s = (.ok a, s')

variable {s : Checker} {b : β} {s' : Checker}

/-- Two steps that end well do so one by one. -/
lemma Gives.of_bind {x : Check α} {f : α → Check β} {s'' : Checker}
    (h : Gives (x >>= f) s b s'') : ∃ a s', Gives x s a s' ∧ Gives (f a) s' b s'' := by
  rw [Gives, run_bind] at h
  rcases hx : x.run s with ⟨r, s'⟩
  rw [hx] at h
  cases r with
  | ok a => exact ⟨a, s', hx, h⟩
  | error e => cases h

/-- Looking at the state does not change it. -/
lemma Gives.of_get {k : Checker → Check β}
    (h : Gives (MonadState.get >>= k) s b s') : Gives (k s) s b s' := h

/-- A change of the state has one outcome. -/
lemma Gives.of_modify {f : Checker → Checker} {u : PUnit}
    (h : Gives (modify f) s u s') : s' = f s := (congrArg Prod.snd h).symm

/-- Nothing but the list of complaints has changed, and none is about scopes. -/
def Complained (s s' : Checker) : Prop :=
  ∃ es, s' = { s with errors := s.errors ++ es } ∧ ∀ e ∈ es, e.complaint.isAboutScopes = false

/-- A step that does nothing but complain. -/
def OnlyComplains (x : Check α) : Prop := Moves Complained x

/-- A step that comes back to where it began, if it ends well. -/
def Restores (x : Check α) : Prop := ∀ s a s', Gives x s a s' → s.SameContext s'

/-! ### Expressions -/

lemma OnlyComplains.complain (p : Pos) {c : Complaint} (h : c.isAboutScopes = false) :
    OnlyComplains (complain p c) := fun _ => ⟨[⟨p, c⟩], rfl, forall_mem_singleton.2 h⟩

/-- The small steps of expressions only complain. -/
lemma onlyComplains : Steps @OnlyComplains := by
  refine .of_moves (R := Complained) (fun s => ⟨[], ?_, forall_mem_nil _⟩) (fun s _ _ h h' => ?_)
    fun s p c h => OnlyComplains.complain p (Complaint.isAboutScopes_eq_false h) s
  · rw [append_nil]
  · obtain ⟨es, rfl, hes⟩ := h
    obtain ⟨es', rfl, hes'⟩ := h'
    exact ⟨es ++ es', by rw [append_assoc], forall_mem_append.2 ⟨hes, hes'⟩⟩

namespace OnlyComplains

lemma bind {x : Check α} {f : α → Check β} (hx : OnlyComplains x)
    (hf : ∀ a, OnlyComplains (f a)) : OnlyComplains (x >>= f) := onlyComplains.bind hx hf

lemma map {x : Check α} {f : α → β} (hx : OnlyComplains x) : OnlyComplains (do return f (← x)) :=
  onlyComplains.map hx

lemma sameContext {x : Check α} (h : OnlyComplains x) (s : Checker) :
    s.SameContext (x.run s).2 := by
  obtain ⟨es, hs, -⟩ := h s
  rw [hs]
  exact ⟨.refl _, rfl, rfl, rfl⟩

/-- Catching a failure does not change what is complained about. -/
lemma recover {x : Check Ty} (h : OnlyComplains x) :
    OnlyComplains (tryCatch x fun _ => return .null) := Moves.recover h

end OnlyComplains

lemma OnlyComplains.pure (a : α) : OnlyComplains (Pure.pure a : Check α) :=
  onlyComplains.pure a

lemma OnlyComplains.require (holds : Bool) (p : Pos) {c : Complaint} (h : c.isOrdinary = true) :
    OnlyComplains (require holds p c) :=
  onlyComplains.require holds p h

section Derives

variable {P : Token → Prop} {r : Rule} {t : Tree} (h : Derives P r t)

include h

/-- The nodes that expressions are made of only complain. -/
lemma onlyComplains_of_derives {tag : Tag} {c : Tree} (hc : c.Within t) (htag : c.tag? = some tag)
    (hr : tag.rule.isInExpression = true) : OnlyComplains (check c) :=
  onlyComplains.check (h.of_within hc htag) hr (.refl c)

end Derives

/-! ### Statements -/

namespace Restores

variable {x : Check α} {body : Check Unit}

lemma of_run (h : ∀ s : Checker, s.SameContext (x.run s).2) : Restores x := by
  intro s a s' hx
  have hs := h s
  rwa [hx] at hs

lemma bind {f : α → Check β} (hx : Restores x) (hf : ∀ a, Restores (f a)) : Restores (x >>= f) := by
  intro s b s'' h
  obtain ⟨a, s', hxa, hfb⟩ := h.of_bind
  exact (hx s a s' hxa).trans (hf a s' b s'' hfb)

lemma define (p : Pos) (sym : Symbol) : Restores (define p sym) := by
  refine of_run fun s => ?_
  rw [run_define]
  cases hdef : s.scopes.define? sym with
  | none => exact ⟨.refl _, rfl, rfl, rfl⟩
  | some scopes => exact ⟨.define? hdef, rfl, rfl, rfl⟩

lemma loop (h : Restores body) :
    Restores (do enterLoop; body; leaveLoop) := by
  intro s a s' hrun
  obtain ⟨_, s1, hent, hrun⟩ := hrun.of_bind
  obtain ⟨_, s2, hb, hlv⟩ := hrun.of_bind
  cases hent.of_modify
  cases hlv.of_modify
  have hsm := h _ _ _ hb
  refine ⟨hsm.scopes, ?_, hsm.function, hsm.inClass⟩
  change s2.loopDepth - 1 = s.loopDepth
  rw [hsm.loopDepth]
  rfl

lemma scope (h : Restores body) :
    Restores (do pushScope; body; popScope) := by
  intro s a s' hrun
  obtain ⟨_, s1, hpush, hrun⟩ := hrun.of_bind
  obtain ⟨_, s2, hb, hpop⟩ := hrun.of_bind
  cases hpush.of_modify
  cases hpop.of_modify
  have hsm := h _ _ _ hb
  exact ⟨hsm.scopes.of_push, hsm.loopDepth, hsm.function, hsm.inClass⟩

end Restores

lemma restores_steps : Steps @Restores where
  pure _ := .of_run fun s => .refl s
  bind := .bind
  throw _ := .of_run fun s => .refl s
  get h s a s' hrun := h s s a s' hrun
  complain _ _ _ := .of_run fun _ => ⟨.refl _, rfl, rfl, rfl⟩

namespace Restores

/-- The function around is put back behind a body. -/
lemma functionBody (p : Pos) (f : Symbol) (params : List (String × Ty)) {body : Check Unit}
    (h : Restores body) : Restores (functionBody p f params body) := by
  refine bind (restores_steps.forIn fun _ _ _ => ?_) fun _ => ?_
  · exact bind (define p _) fun _ => restores_steps.pure _
  intro s a s' hrun
  obtain ⟨_, s1, hset, hrun⟩ := hrun.of_get.of_bind
  obtain ⟨_, s2, hb, hback⟩ := hrun.of_bind
  cases hset.of_modify
  cases hback.of_modify
  have hsm := h _ _ _ hb
  exact ⟨hsm.scopes, hsm.loopDepth, rfl, hsm.inClass⟩

/-- The class around is put back behind a method. -/
lemma methodScope (p : Pos) (f : Symbol) (id : Nat) (className : String) {body : Check Unit}
    (h : Restores body) : Restores (do
      let outer := (← MonadState.get).inClass
      pushScope
      modify fun s => { s with inClass := some id }
      Check.define p (.ofVariable "this" (.class className) false true)
      Check.functionBody p f (paramsOf f) body
      modify fun s => { s with inClass := outer }
      popScope) := by
  have hins : Restores (do
      Check.define p (.ofVariable "this" (.class className) false true)
      Check.functionBody p f (paramsOf f) body) :=
    bind (define p _) fun _ => functionBody p f (paramsOf f) h
  intro s a s' hrun
  obtain ⟨_, s1, hpush, hrun⟩ := hrun.of_get.of_bind
  obtain ⟨_, s2, hset, hrun⟩ := hrun.of_bind
  rw [← bind_assoc] at hrun
  obtain ⟨_, s3, hb, hrun⟩ := hrun.of_bind
  obtain ⟨_, s4, hback, hpop⟩ := hrun.of_bind
  cases hpush.of_modify
  cases hset.of_modify
  cases hback.of_modify
  cases hpop.of_modify
  have hsm := hins _ _ _ hb
  exact ⟨hsm.scopes.of_push, hsm.loopDepth, hsm.function, rfl⟩

end Restores

/-- Every visit is made of steps that come back. -/
lemma restores_invariant : Invariant OnlyComplains @Restores where
  toSteps := restores_steps
  recover _ hE := .of_run fun s =>
    (OnlyComplains.recover (.map hE)).sameContext s
  undeclared _ _ := .of_run fun _ => ⟨.refl _, rfl, rfl, rfl⟩
  define p sym _ := .define p sym
  markInitialized x := .of_run fun s => ⟨.markInitialized s.scopes x, rfl, rfl, rfl⟩
  fillClass _ _ _ := .of_run fun _ => ⟨.refl _, rfl, rfl, rfl⟩
  loop := .loop
  scope := .scope
  functionScope p f params _ h := .scope (.functionBody p f params h)
  methodScope p f id className _ h := .methodScope p f id className h

lemma restores_classHead (t : Tree) : Restores (classHead t) :=
  restores_steps.classHead (fun p _ _ => .define p _)
    (fun _ _ => .of_run fun _ => ⟨.refl _, rfl, rfl, rfl⟩) t

/-- Every visit of a tree that the grammar allows comes back to where it began. -/
lemma restores_of_derives {P : Token → Prop} {r : Rule} {t c : Tree} (h : Derives P r t)
    (hc : c.Within t) : Restores (check c) := by
  refine restores_invariant.check (fun d hd hof => ?_) (fun d _ j _ =>
    restores_steps.jump d (.of_run fun _ => ⟨.refl _, rfl, rfl, rfl⟩)) fun d _ _ =>
      restores_classHead d
  have hex : Derives P .expression d := h.of_isOf (hd.trans hc) hof
  exact onlyComplains.check hex rfl (.refl d)

end Check

/-- In a text without syntax errors, the visit of any node, begun in any state, ends at the same
    place if it ends well. A visit of a node of an expression changes nothing but the list of
    complaints, however it ends. So a check of the whole text that ends well ends outside of all
    scopes but the outermost, of all loops, functions and classes. -/
theorem Checker.context_restored (source : String) (hparse : (parse source).errors = []) :
    (∀ t, t.Within (parse source).tree → ∀ s,
      (∀ type s', Checker.run t s = (.ok type, s') → s.SameContext s') ∧
      (∀ tag, t.tag? = some tag → tag.rule.isInExpression = true → ∀ r s',
        Checker.run t s = (r, s') → ∃ es, s' = { s with errors := s.errors ++ es })) ∧
    ∀ type s', Checker.run (parse source).tree .start = (.ok type, s') →
      s'.scopes.inner = [] ∧ s'.loopDepth = 0 ∧ s'.function = none ∧ s'.inClass = none := by
  have hder := derives_of_parse hparse
  refine ⟨fun t ht s => ⟨fun type s' hrun => ?_, fun tag htag hr r s' hrun => ?_⟩, ?_⟩
  · exact Check.restores_of_derives hder ht s type s' hrun
  · obtain ⟨es, hes, -⟩ := Check.onlyComplains_of_derives hder ht htag hr s
    refine ⟨es, ?_⟩
    rw [← hes]
    exact (congrArg Prod.snd hrun).symm
  · intro type s' hrun
    have hsm := Check.restores_of_derives hder (.refl _) .start type s' hrun
    exact ⟨hsm.scopes.inner_eq_nil rfl, hsm.loopDepth, hsm.function, hsm.inClass⟩

/-- Two functions and a variable, with nothing left open behind them. -/
theorem Checker.context_restored_sharing : (parse Gen.sharing).errors = [] ∧
      ∃ type s', Checker.run (parse Gen.sharing).tree .start = (.ok type, s') ∧
        s'.scopes.inner = [] ∧ s'.loopDepth = 0 ∧ s'.function = none ∧ s'.inClass = none := by
  obtain ⟨hparse, hsz, hok, -, -⟩ := Gen.sharing_evaluated
  have hres := (Checker.context_restored Gen.sharing hparse).2
  refine ⟨hparse, ?_⟩
  rw [Gen.run_eq_checkedUpTo hsz] at hres ⊢
  rcases hrun : Gen.checkedUpTo (parse Gen.sharing).tree with ⟨_ | type, s'⟩
  · rw [hrun] at hok
    cases hok
  · exact ⟨type, s', rfl, hres type s' hrun⟩

end Compiscript
