import Compiscript.Proofs.Core.Semantics
import Compiscript.Proofs.Tac.Names

/-!
# Names and Scopes

When block scopes make no difference.

A program is well named if every name is declared at most once, is used only
where its declaration is visible, and does not look like a temporary. The scopes
of such a program never hold a name twice, so the value of a name can be kept in
one place for all of them: at any time the scopes are the visible names, each
with its value in a flat store.
-/

namespace Compiscript.Core

open List

/-- The names in an expression. -/
def Expr.vars : Expr → List String
  | .int _ | .bool _ => []
  | .var x => [x]
  | .minus e | .bang e => e.vars
  | .binary _ a b | .andAlso a b | .orElse a b => a.vars ++ b.vars
  | .question c a b => c.vars ++ (a.vars ++ b.vars)

namespace Stmt

/-- The names declared anywhere in a statement. -/
def declared : Stmt → List String
  | .declare x _ => [x]
  | .seq a b | .branch _ a b => a.declared ++ b.declared
  | .block s | .loop _ s => s.declared
  | _ => []

/-- The names that a statement leaves in scope, the latest first. -/
def binds : Stmt → List String
  | .declare x _ => [x]
  | .seq a b => b.binds ++ a.binds
  | _ => []

/-- Whether all names are used where they are visible. `visible` are those
    declared before and further out. -/
def Visible (visible : List String) : Stmt → Prop
  | .skip => True
  | .seq a b => a.Visible visible ∧ b.Visible (a.binds ++ visible)
  | .declare _ e | .print e => ∀ x ∈ e.vars, x ∈ visible
  | .assign x e => x ∈ visible ∧ ∀ y ∈ e.vars, y ∈ visible
  | .block s => s.Visible visible
  | .branch c a b => (∀ x ∈ c.vars, x ∈ visible) ∧ a.Visible visible ∧ b.Visible visible
  | .loop c s => (∀ x ∈ c.vars, x ∈ visible) ∧ s.Visible visible

instance decidableVisible : (visible : List String) → (s : Stmt) → Decidable (s.Visible visible)
  | _, .skip => .isTrue trivial
  | visible, .seq a b =>
    have := decidableVisible visible a
    have := decidableVisible (a.binds ++ visible) b
    inferInstanceAs (Decidable (a.Visible visible ∧ b.Visible (a.binds ++ visible)))
  | visible, .declare _ e | visible, .print e =>
    inferInstanceAs (Decidable (∀ x ∈ e.vars, x ∈ visible))
  | visible, .assign x e =>
    inferInstanceAs (Decidable (x ∈ visible ∧ ∀ y ∈ e.vars, y ∈ visible))
  | visible, .block s => decidableVisible visible s
  | visible, .branch c a b =>
    have := decidableVisible visible a
    have := decidableVisible visible b
    inferInstanceAs
      (Decidable ((∀ x ∈ c.vars, x ∈ visible) ∧ a.Visible visible ∧ b.Visible visible))
  | visible, .loop c s =>
    have := decidableVisible visible s
    inferInstanceAs (Decidable ((∀ x ∈ c.vars, x ∈ visible) ∧ s.Visible visible))

lemma binds_subset (s : Stmt) : s.binds ⊆ s.declared := by
  induction s with
  | seq a b iha ihb =>
    intro x hx
    rcases mem_append.1 hx with hx | hx
    · exact mem_append_right _ (ihb hx)
    · exact mem_append_left _ (iha hx)
  | declare x e => exact List.Subset.refl _
  | _ => exact nil_subset _

lemma binds_nodup {s : Stmt} (h : s.declared.Nodup) : s.binds.Nodup := by
  induction s with
  | seq a b iha ihb =>
    rcases nodup_append.1 h with ⟨ha, hb, hdisj⟩
    refine nodup_append.2 ⟨ihb hb, iha ha, ?_⟩
    intro x hx y hy
    exact (hdisj y (a.binds_subset hy) x (b.binds_subset hx)).symm
  | declare x e => exact h
  | _ => exact nodup_nil

end Stmt

/-- Programs that can do without scopes. -/
structure WellNamed (p : Stmt) : Prop where
  nodup : p.declared.Nodup
  visible : p.Visible []
  noTemps : ∀ x ∈ p.declared, Tac.isTempName x = false

instance (p : Stmt) : Decidable (WellNamed p) :=
  decidable_of_iff (p.declared.Nodup ∧ p.Visible [] ∧ ∀ x ∈ p.declared, Tac.isTempName x = false)
    ⟨fun ⟨h1, h2, h3⟩ => ⟨h1, h2, h3⟩, fun ⟨h1, h2, h3⟩ => ⟨h1, h2, h3⟩⟩

section Erasure

variable {V : Type}

/-- Scopes of names, each name with its value in a flat store. -/
def shown (names : List (List String)) (store : String → V) : List (List (String × V)) :=
  names.map (·.map fun x => (x, store x))

variable {names : List (List String)} {store : String → V} {x : String} {v : V}

variable {scope : List String} {e : Expr}

lemma lookup_shown (h : x ∈ scope) :
    (scope.map fun x => (x, store x)).lookup x = some (store x) := by
  induction scope with
  | nil => simp at h
  | cons y rest ih =>
    by_cases hxy : x = y
    · simp [hxy]
    · have hx : x ∈ rest := by simpa [hxy] using h
      simp [lookup_cons, beq_eq_false_iff_ne.2 hxy, ih hx]

lemma lookup_shown_of_not_mem (h : x ∉ scope) :
    (scope.map fun x => (x, store x)).lookup x = none := by
  induction scope with
  | nil => rfl
  | cons y rest ih =>
    simp only [mem_cons, not_or] at h
    simp [lookup_cons, beq_eq_false_iff_ne.2 h.1, ih h.2]

lemma get?_shown (h : x ∈ names.flatten) :
    Memory.blocks.get? (shown names store) x = some (store x) := by
  change (shown names store).findSome? (·.lookup x) = _
  induction names with
  | nil => simp at h
  | cons scope rest ih =>
    rw [shown, map_cons, findSome?_cons]
    by_cases hx : x ∈ scope
    · rw [lookup_shown hx]
    · rw [lookup_shown_of_not_mem hx]
      exact ih (by simpa [hx] using h)

lemma map_update_of_not_mem (h : x ∉ scope) :
    (scope.map fun y => (y, Function.update store x v y)) = scope.map fun y => (y, store y) := by
  refine map_congr_left fun y hy => ?_
  have hyx : y ≠ x := fun heq => h (heq ▸ hy)
  rw [Function.update_of_ne hyx]

lemma shown_update_of_not_mem (h : x ∉ names.flatten) :
    shown names (Function.update store x v) = shown names store := by
  refine map_congr_left fun scope hsc => map_update_of_not_mem fun hx => ?_
  exact h (mem_flatten_of_mem hsc hx)

lemma assignIn_shown (h : x ∈ names.flatten) (hnd : names.flatten.Nodup) :
    Memory.assignIn x v (shown names store) = some (shown names (Function.update store x v)) := by
  induction names with
  | nil => simp at h
  | cons scope rest ih =>
    rw [flatten_cons] at h hnd
    rcases nodup_append.1 hnd with ⟨_, hr, hdisj⟩
    change Memory.assignIn x v (scope.map (fun x => (x, store x)) :: shown rest store) = _
    rw [Memory.assignIn]
    by_cases hx : x ∈ scope
    · have hout : x ∉ rest.flatten := fun hx' => hdisj x hx x hx' rfl
      rw [lookup_shown hx, Option.isSome_some, if_pos rfl, ← shown_update_of_not_mem (v := v) hout]
      simp only [shown, map_cons, map_map, Option.some.injEq, List.cons.injEq, and_true]
      refine map_congr_left fun y _ => ?_
      by_cases hyx : y = x
      · simp [hyx]
      · simp [hyx]
    · have hin : x ∈ rest.flatten := (mem_append.1 h).resolve_left hx
      rw [lookup_shown_of_not_mem hx, ih hin hr]
      simp [shown, map_update_of_not_mem hx]

lemma declare_shown {rest : List (List String)}
    (h : x ∉ (scope :: rest).flatten) : Memory.blocks.declare (shown (scope :: rest) store) x v =
      shown ((x :: scope) :: rest) (Function.update store x v) := by
  rw [← shown_update_of_not_mem (v := v) h]
  simp [shown, Memory.blocks]

/-- What an expression comes to depends on its names only. -/
lemma Expr.eval_congr [DecidableEq V] (A : Arith V) {look look' : String → Option V}
    (h : ∀ x ∈ e.vars, look x = look' x) : e.eval A look = e.eval A look' := by
  induction e with
  | int n => rfl
  | bool b => rfl
  | var x => rw [Expr.eval, Expr.eval, h x (mem_singleton.2 rfl)]
  | minus e ih | bang e ih => rw [Expr.eval, Expr.eval, ih h]
  | binary _ a b iha ihb | andAlso a b iha ihb | orElse a b iha ihb =>
    rw [Expr.vars, forall_mem_append] at h
    rw [Expr.eval, Expr.eval, iha h.1, ihb h.2]
  | question c a b ihc iha ihb =>
    rw [Expr.vars, forall_mem_append, forall_mem_append] at h
    rw [Expr.eval, Expr.eval, ihc h.1, iha h.2.1, ihb h.2.2]

/-- A run with scopes and a run without end in the same way. `names` are in scope at the end. -/
def Agree (names : List (List String)) (r : Ending × Config (List (List (String × V))) V)
    (r' : Ending × Config (String → V) V) : Prop :=
  r.1 = r'.1 ∧ r.2.out = r'.2.out ∧ (r.1 = .done → r.2.env = shown names r'.2.env)

/-- A configuration with scopes, for one without. -/
def Config.shown (names : List (List String)) (c : Config (String → V) V) :
    Config (List (List (String × V))) V :=
  ⟨Core.shown names c.env, c.out⟩

lemma Agree.done (names : List (List String)) (c : Config (String → V) V) :
    Agree names (.done, c.shown names) (.done, c) :=
  ⟨rfl, rfl, fun _ => rfl⟩

lemma Agree.andThen
    {r : Ending × Config (List (List (String × V))) V} {r' : Ending × Config (String → V) V}
    {next : Config (List (List (String × V))) V → Ending × Config (List (List (String × V))) V}
    {next' : Config (String → V) V → Ending × Config (String → V) V} (h : Agree names r r')
    (hnx : ∀ c, Agree names' (next (c.shown names)) (next' c)) :
    Agree names' (andThen r next) (andThen r' next') := by
  rcases r with ⟨ending, c⟩
  rcases r' with ⟨ending', c'⟩
  rcases h with ⟨rfl, hout, henv⟩
  cases ending with
  | done =>
    have hc : c = c'.shown names := by
      rcases c with ⟨env, out⟩
      rw [Config.shown, ← henv rfl, ← hout]
    rw [hc]
    exact hnx c'
  | fault f => exact ⟨rfl, hout, fun h => nomatch h⟩
  | timeout => exact ⟨rfl, hout, fun h => nomatch h⟩

lemma Agree.withValue {α : Type} {v : Except Fault α}
    {c : Config (String → V) V} {next : α → Ending × Config (List (List (String × V))) V}
    {next' : α → Ending × Config (String → V) V}
    (hnx : ∀ a, v = .ok a → Agree names' (next a) (next' a)) :
    Agree names' (withValue v (c.shown names) next) (withValue v c next') := by
  cases v with
  | ok a => exact hnx a rfl
  | error f => exact ⟨rfl, rfl, fun h => nomatch h⟩

/-- A block leaves the scopes as they were. -/
lemma Agree.inBlock
    {body : Config (List (List (String × V))) V → Ending × Config (List (List (String × V))) V}
    {body' : Config (String → V) V → Ending × Config (String → V) V} (c : Config (String → V) V)
    (h : Agree (scope :: names) (body (c.shown ([] :: names))) (body' c)) :
    Agree names (Core.inBlock Memory.blocks body (c.shown names))
      (Core.inBlock Memory.flat body' c) :=
  h.andThen fun c => Agree.done names c

lemma Agree.repeatWhile {test : Config (List (List (String × V))) V → Except Fault Bool}
    {test' : Config (String → V) V → Except Fault Bool}
    {body : Config (List (List (String × V))) V → Ending × Config (List (List (String × V))) V}
    {body' : Config (String → V) V → Ending × Config (String → V) V}
    (htest : ∀ c, test (c.shown names) = test' c)
    (hbd : ∀ c, Agree names (body (c.shown names)) (body' c)) (n : Nat)
    (c : Config (String → V) V) : Agree names (repeatWhile test body n (c.shown names))
      (repeatWhile test' body' n c) := by
  induction n generalizing c with
  | zero => exact ⟨rfl, rfl, fun h => nomatch h⟩
  | succ n ih =>
    rw [Core.repeatWhile, Core.repeatWhile, htest c]
    refine Agree.withValue fun go _ => ?_
    cases go with
    | true => exact (hbd c).andThen ih
    | false => exact Agree.done names c

variable [DecidableEq V] (A : Arith V)

lemma eval_shown {c : Config (String → V) V} (h : ∀ x ∈ e.vars, x ∈ names.flatten) :
    (c.shown names).eval A Memory.blocks e = c.eval A Memory.flat e :=
  Expr.eval_congr A fun x hx => get?_shown (h x hx)

/-- A statement does the same with and without scopes. -/
lemma exec_blocks (fuel : Nat) {s : Stmt} {rest : List (List String)}
    (hnms : (scope :: rest).flatten.Nodup) (hdecl : s.declared.Nodup)
    (hnew : ∀ x ∈ s.declared, x ∉ (scope :: rest).flatten)
    (hvis : s.Visible (scope :: rest).flatten) (c : Config (String → V) V) :
    Agree ((s.binds ++ scope) :: rest) (exec A Memory.blocks fuel s (c.shown (scope :: rest)))
      (exec A Memory.flat fuel s c) := by
  induction s generalizing scope rest c with
  | skip => exact Agree.done _ c
  | seq a b iha ihb =>
    rcases nodup_append.1 hdecl with ⟨ha, hb, hab⟩
    rw [Stmt.declared, forall_mem_append] at hnew
    refine (iha hnms ha hnew.1 hvis.1 c).andThen fun c => ?_
    -- What the first statement binds is new to the scopes and to the second.
    have hsc : ((a.binds ++ scope) :: rest).flatten = a.binds ++ (scope :: rest).flatten := by
      simp
    rw [Stmt.binds, append_assoc]
    refine ihb ?_ hb ?_ ?_ c
    · rw [hsc]
      refine nodup_append.2 ⟨Stmt.binds_nodup ha, hnms, ?_⟩
      rintro x hx y hy rfl
      exact hnew.1 x (a.binds_subset hx) hy
    · intro x hx hmem
      rw [hsc] at hmem
      rcases mem_append.1 hmem with hmem | hmem
      · exact hab x (a.binds_subset hmem) x hx rfl
      · exact hnew.2 x hx hmem
    · rw [hsc]
      exact hvis.2
  | declare x e =>
    rw [exec, exec, eval_shown A hvis]
    refine Agree.withValue fun v _ => ⟨rfl, rfl, fun _ => ?_⟩
    exact declare_shown (hnew x (mem_singleton.2 rfl))
  | assign x e =>
    rw [exec, exec, eval_shown A hvis.2]
    refine Agree.withValue fun v _ => ?_
    have hass : Memory.blocks.assign? (c.shown (scope :: rest)).env x v =
        some (shown (scope :: rest) (Function.update c.env x v)) :=
      assignIn_shown hvis.1 hnms
    rw [hass]
    exact ⟨rfl, rfl, fun _ => rfl⟩
  | print e =>
    rw [exec, exec, eval_shown A hvis]
    exact Agree.withValue fun v _ => ⟨rfl, rfl, fun _ => rfl⟩
  | block s ih =>
    change Agree (scope :: rest) _ _
    exact Agree.inBlock c (@ih [] (scope :: rest) hnms hdecl hnew hvis c)
  | branch e a b iha ihb =>
    rcases nodup_append.1 hdecl with ⟨ha, hb, _⟩
    rw [Stmt.declared, forall_mem_append] at hnew
    rw [exec, exec, Config.test, Config.test, eval_shown A hvis.1]
    change Agree (scope :: rest) _ _
    refine Agree.withValue fun go _ => ?_
    cases go with
    | true => exact Agree.inBlock c (@iha [] (scope :: rest) hnms ha hnew.1 hvis.2.1 c)
    | false => exact Agree.inBlock c (@ihb [] (scope :: rest) hnms hb hnew.2 hvis.2.2 c)
  | loop e s ih =>
    change Agree (scope :: rest) _ _
    refine Agree.repeatWhile (fun c => ?_) (fun c => ?_) fuel c
    · rw [Config.test, Config.test, eval_shown A hvis.1]
    · exact Agree.inBlock c (@ih [] (scope :: rest) hnms hdecl hnew hvis.2 c)

end Erasure

end Compiscript.Core
