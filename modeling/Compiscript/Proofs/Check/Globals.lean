import Compiscript.Proofs.Check.Invariant

/-!
# The Symbols of the Program

What is known about the outermost scope after a check.

A symbol is there under its own name, and it is no parameter: parameters are
declared in scopes of their own. This holds whatever the tree looks like and
even if the check gives up in the middle.
-/

namespace Compiscript

namespace Table

variable {κ α : Type} [DecidableEq κ]

lemma get?_modify_self (t : Table κ α) (k : κ) (f : α → α) :
    (t.modify k f).get? k = (t.get? k).map f := by
  unfold modify
  cases h : t.get? k with
  | none => simpa using h
  | some a => simp

lemma get?_modify_of_ne (t : Table κ α) {k k' : κ} (h : k ≠ k') (f : α → α) :
    (t.modify k f).get? k' = t.get? k' := by
  unfold modify
  split
  · exact get?_set_of_ne t h _
  · rfl

/-- Every symbol has its name as a key, and none is a parameter. -/
def Named (t : Table String Symbol) : Prop :=
  ∀ x sym, t.get? x = some sym → sym.name = x ∧ sym.place.isParam ≠ some true

namespace Named

variable {t : Table String Symbol}

lemma empty : Named .empty := by
  intro x sym h
  cases h

lemma set (h : Named t) {sym : Symbol} (hsym : sym.place.isParam ≠ some true) :
    Named (t.set sym.name sym) := by
  intro x found hx
  by_cases hnm : sym.name = x
  · subst hnm
    rw [get?_set_self] at hx
    cases hx
    exact ⟨rfl, hsym⟩
  · rw [get?_set_of_ne t hnm] at hx
    exact h x found hx

lemma modify (h : Named t) (x : String) {f : Symbol → Symbol} (hnm : ∀ s, (f s).name = s.name)
    (hpla : ∀ s, (f s).place = s.place) : Named (t.modify x f) := by
  intro y found hy
  by_cases hxy : x = y
  · subst hxy
    rw [get?_modify_self] at hy
    obtain ⟨sym, hsym, rfl⟩ := Option.map_eq_some_iff.1 hy
    rw [hnm, hpla]
    exact h x sym hsym
  · rw [get?_modify_of_ne t hxy] at hy
    exact h y found hy

end Named

end Table

namespace Symbol

lemma name_initialized (s : Symbol) : s.initialized.name = s.name := by
  unfold initialized
  split <;> rfl

lemma place_initialized (s : Symbol) : s.initialized.place = s.place := by
  unfold initialized
  split <;> rfl

end Symbol

namespace Check

open Table (Named)

/-- A step after which the outermost scope is still as it should be. -/
def KeepsGlobals {α : Type} (x : Check α) : Prop :=
  Moves (fun s s' => Named s.scopes.global → Named s'.scopes.global) x

lemma keepsGlobals_steps : Steps @KeepsGlobals :=
  .of_moves (R := fun s s' => Named s.scopes.global → Named s'.scopes.global) (fun _ => id)
    (fun _ _ _ h h' hs => h' (h hs)) fun _ _ _ _ => id

/-- The same for a step in an inner scope. -/
def KeepsInside {α : Type} (x : Check α) : Prop :=
  ∀ s, s.scopes.inner ≠ [] → Named s.scopes.global → Named (x.run s).2.scopes.global

namespace KeepsGlobals

variable {α : Type} {x : Check α}

lemma of_modify {f : Checker → Checker} (h : ∀ s, (f s).scopes.global = s.scopes.global) :
    KeepsGlobals (modify f) := by
  intro s hs
  change Named (f s).scopes.global
  rwa [h]

lemma inside (hx : KeepsGlobals x) : KeepsInside x := fun s _ h => hx s h

lemma define (p : Pos) {sym : Symbol} (hsym : sym.place.isParam ≠ some true) :
    KeepsGlobals (Check.define p sym) := by
  intro s h
  rw [run_define]
  cases hdef : s.scopes.define? sym with
  | none => exact h
  | some scopes =>
    unfold Scopes.define? at hdef
    split at hdef
    · cases hdef
    · cases hdef
      dsimp only
      unfold Scopes.modifyCurrent
      split
      · exact h.set hsym
      · exact h

lemma markInitialized (x : String) : KeepsGlobals (modify fun s =>
    { s with scopes := s.scopes.update x Symbol.initialized }) := by
  intro s h
  change Named (s.scopes.update x Symbol.initialized).global
  unfold Scopes.update
  split
  · exact h
  · exact h.modify x Symbol.name_initialized Symbol.place_initialized

end KeepsGlobals

namespace KeepsInside

variable {α β : Type}

/-- Declarations in an inner scope leave the outermost one alone. -/
lemma define {k : Unit → Check β} (h : KeepsInside (k ())) (p : Pos) (sym : Symbol) :
    KeepsInside (Check.define p sym >>= k) := by
  intro s hinn hglo
  rw [run_bind, run_define]
  cases hdef : s.scopes.define? sym with
  | none => exact h _ hinn hglo
  | some scopes =>
    unfold Scopes.define? at hdef
    split at hdef
    · cases hdef
    · cases hdef
      have hmod : (s.scopes.modifyCurrent (·.set sym.name sym)).inner ≠ [] ∧
          (s.scopes.modifyCurrent (·.set sym.name sym)).global = s.scopes.global := by
        unfold Scopes.modifyCurrent
        split
        · rename_i hnil
          exact absurd hnil hinn
        · exact ⟨List.cons_ne_nil _ _, rfl⟩
      refine h _ hmod.1 ?_
      change Named (s.scopes.modifyCurrent (·.set sym.name sym)).global
      rwa [hmod.2]

lemma after_modify {f : Checker → Checker} (hf : ∀ s, (f s).scopes = s.scopes) {k : Unit → Check β}
    (h : KeepsInside (k ())) : KeepsInside (modify f >>= k) := by
  intro s hinn hglo
  refine h (f s) ?_ ?_
  · rwa [hf]
  · rwa [hf]

/-- Parameters, and then the body of their function. -/
lemma functionBody {k : Unit → Check β} (hk : KeepsGlobals (k ())) {body : Check Unit}
    (hb : KeepsGlobals body) (p : Pos) (f : Symbol) (params : List (String × Ty)) :
    KeepsInside (Check.functionBody p f params body >>= k) := by
  have hset : ∀ f : Option Symbol,
      KeepsGlobals (modify fun s => { s with function := f } : Check Unit) :=
    fun f => .of_modify fun _ => rfl
  unfold Check.functionBody
  rw [bind_assoc]
  induction params with
  | nil =>
    rw [List.forIn_nil, pure_bind]
    refine KeepsGlobals.inside ?_
    rw [bind_assoc]
    refine keepsGlobals_steps.get fun s => ?_
    rw [bind_assoc]
    refine keepsGlobals_steps.bind (hset _) fun _ => ?_
    rw [bind_assoc]
    exact keepsGlobals_steps.bind hb fun _ => keepsGlobals_steps.bind (hset _) fun _ => hk
  | cons param params ih =>
    rw [List.forIn_cons, bind_assoc, bind_assoc]
    exact define ih p _

end KeepsInside

/-- What goes on in a scope that is entered. -/
lemma KeepsGlobals.enter {β : Type} {k : Unit → Check β} (h : KeepsInside (k ())) :
    KeepsGlobals (pushScope >>= k) :=
  fun s hs => h { s with scopes := s.scopes.push } (List.cons_ne_nil _ _) hs

lemma keepsGlobals_invariant : Invariant (fun _ => True) @KeepsGlobals where
  toSteps := keepsGlobals_steps
  recover hx _ := .recover (keepsGlobals_steps.bind hx fun _ => keepsGlobals_steps.pure _)
  undeclared _ _ := .of_modify fun _ => rfl
  define := .define
  markInitialized := .markInitialized
  fillClass _ _ _ := .of_modify fun _ => rfl
  loop h := keepsGlobals_steps.bind (.of_modify fun _ => rfl) fun _ =>
    keepsGlobals_steps.bind h fun _ => .of_modify fun _ => rfl
  scope h := keepsGlobals_steps.bind (.of_modify fun _ => rfl) fun _ =>
    keepsGlobals_steps.bind h fun _ => .of_modify fun _ => rfl
  functionScope p f params _ h :=
    .enter (.functionBody (k := fun _ => popScope) (.of_modify fun _ => rfl) h p f params)
  methodScope p f id className body h := by
    refine keepsGlobals_steps.get fun s => ?_
    generalize s.inClass = outer
    have hlv : KeepsGlobals (do
        modify fun s => { s with inClass := outer }
        popScope : Check Unit) :=
      keepsGlobals_steps.bind (.of_modify fun _ => rfl) fun _ => .of_modify fun _ => rfl
    refine .enter (.after_modify (f := fun s => { s with inClass := some id }) (fun _ => rfl) ?_)
    exact .define (.functionBody hlv h p f (paramsOf f)) p
      (.ofVariable "this" (.class className) false true)

end Check

/-- The outermost scope after a check. -/
def Checker.globals (t : Tree) : Table String Symbol := (Checker.run t .start).2.scopes.global

/-- After a check the symbols of the outermost scope have their names as keys,
    and none of them is a parameter. -/
lemma Checker.globals_named (t : Tree) : (Checker.globals t).Named :=
  Check.keepsGlobals_invariant.check (fun _ _ _ => trivial)
    (fun c _ _ _ => Check.keepsGlobals_steps.jump c (.of_modify fun _ => rfl))
    (fun c _ _ => Check.keepsGlobals_steps.classHead .define
      (fun _ _ => .of_modify fun _ => rfl) c) .start .empty

end Compiscript
