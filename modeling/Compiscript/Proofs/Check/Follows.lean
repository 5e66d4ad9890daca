import Compiscript.Proofs.Check.Outline

/-!
# Checks that Follow an Outline

What the checker does with names is told by the outline of what it checks: the names of
the open scopes change as in a walk through the outline, and the complaints about scopes
are those about the faults that the walk finds. If there are no complaints at all then
there are no faults of any kind.
-/

namespace Compiscript

open List hiding modify

namespace Scopes

variable {s s' : Scopes}

/-- The names of the open scopes, the innermost first. -/
def names (s : Scopes) : Names := s.tables.map Table.keys

lemma names_eq (s : Scopes) : s.names = s.current.keys :: s.tables.tail.map Table.keys := by
  rw [names, tables_eq, map_cons, tail_cons]

lemma names_push (s : Scopes) : s.push.names = [] :: s.names := rfl

lemma names_pop (h : s.inner ≠ []) : s.pop.names = s.names.tail := by
  rw [names, tables_pop h, names, map_tail]

lemma resolve?_eq_none (s : Scopes) (x : String) : s.resolve? x = none ↔ x ∉ s.names.flatten := by
  have hget : ∀ t : Table String Symbol, t.get? x = none ↔ x ∉ t.keys := fun t => by
    rw [Table.mem_keys_iff, Table.contains_iff_get?, ← Option.ne_none_iff_exists', not_not]
  rw [resolve?, Option.or_eq_none_iff, findSome?_eq_none_iff, hget, names, tables,
    map_append, flatten_append, mem_append, not_or]
  simp [hget]

lemma resolve?_ne_none (s : Scopes) (x : String) : s.resolve? x ≠ none ↔ x ∈ s.names.flatten := by
  rw [Ne, resolve?_eq_none, not_not]

variable {sym : Symbol}

lemma names_define? (h : s.define? sym = some s') :
    sym.name ∉ s.names.headD [] ∧ s'.names = s.names.add sym.name := by
  unfold define? at h
  split at h
  · cases h
  · rename_i hcon
    cases h
    have hmem : sym.name ∉ s.current.keys := by rwa [Table.mem_keys_iff]
    rw [names_eq s, names, tables_modifyCurrent, map_cons,
      Table.keys_set_of_not_mem s.current hmem]
    exact ⟨hmem, rfl⟩

lemma mem_names_of_define? (h : s.define? sym = none) : sym.name ∈ s.names.headD [] := by
  unfold define? at h
  split at h
  · rename_i hcon
    rw [names_eq]
    exact (Table.mem_keys_iff _ _).2 hcon
  · cases h

lemma names_markInitialized (s : Scopes) (x : String) :
    (s.update x Symbol.initialized).names = s.names := by
  have hfor : ∀ {ts ts' : List (Table String Symbol)}, Forall₂ Table.Stays ts ts' →
      ts'.map Table.keys = ts.map Table.keys := by
    intro ts ts' h
    induction h with
    | nil => rfl
    | cons ht _ ih => rw [map_cons, map_cons, ht.same, ih]
  exact hfor (stays_markInitialized s x)

end Scopes

/-- Between two states, what an outline says has happened to names. -/
structure Checker.Traced (os : List Outline) (s s' : Checker) : Prop where
  names : s'.scopes.names = (walkAll s.scopes.names os).1
  errors : ∃ es, s'.errors = s.errors ++ es ∧
    es.filter (·.complaint.isAboutScopes) = (walkAll s.scopes.names os).2.filterMap Fault.error? ∧
    (es = [] → (walkAll s.scopes.names os).2 = [])
  /-- Classes that there were have not been changed. -/
  classes : s.classes.all <+: s'.classes.all

namespace Checker.Traced

variable {os os' : List Outline} {s s' s'' : Checker}

lemma trans (h : Traced os s s') (h' : Traced os' s' s'') : Traced (os ++ os') s s'' := by
  obtain ⟨es, hes, hscs, hno⟩ := h.errors
  obtain ⟨es', hes', hscopes', hnone'⟩ := h'.errors
  rw [h.names] at hscopes' hnone'
  refine ⟨?_, ⟨es ++ es', ?_, ?_, ?_⟩, h.classes.trans h'.classes⟩
  · rw [walkAll_append, h'.names, h.names]
  · rw [hes', hes, append_assoc]
  · rw [walkAll_append, filter_append, filterMap_append, hscs, hscopes']
  · intro hnil
    obtain ⟨rfl, rfl⟩ := append_eq_nil_iff.1 hnil
    rw [walkAll_append, hno rfl, hnone' rfl]
    rfl

/-- Only scopes and complaints count, if old classes have stayed. -/
lemma congr (h : Traced os s s') (hscs : s''.scopes = s'.scopes)
    (her : s''.errors = s'.errors) (hcls : s.classes.all <+: s''.classes.all) : Traced os s s'' :=
  ⟨hscs ▸ h.names, her ▸ h.errors, hcls⟩

/-- Names and complaints have stayed as they were. -/
lemma of_same (hscs : s'.scopes.names = s.scopes.names) (her : s'.errors = s.errors)
    (hcls : s.classes.all <+: s'.classes.all) : Traced [] s s' :=
  ⟨hscs, ⟨[], by rw [her, append_nil], rfl, fun _ => rfl⟩, hcls⟩

lemma refl (s : Checker) : Traced [] s s := .of_same rfl rfl prefix_rfl

/-- Complaints that are not about scopes, and names that are asked for. -/
lemma of_errors {es : List SemanticError} {us : List String}
    (hs : s' = { s with errors := s.errors ++ es })
    (hes : ∀ e ∈ es, e.complaint.isAboutScopes = false)
    (hus : es = [] → ∀ u ∈ us, s.scopes.resolve? u ≠ none) : Traced (us.map .use) s s' := by
  subst hs
  obtain ⟨hnms, her, hgood⟩ := walkAll_uses s.scopes.names us
  refine ⟨hnms.symm, ⟨es, rfl, ?_, fun hnil => hgood fun u hu => ?_⟩, prefix_rfl⟩
  · rw [her, filter_eq_nil_iff]
    intro e he
    rw [hes e he]
    exact Bool.false_ne_true
  · exact (Scopes.resolve?_ne_none _ _).1 (hus hnil u hu)

/-- An assignment to a variable that is declared. -/
lemma assigned {x : String} (hx : s.scopes.resolve? x ≠ none) (p : Pos) :
    Traced [.assign p x] s s := by
  have hwk : walkAll s.scopes.names [.assign p x] = (s.scopes.names, []) := by
    rw [walkAll_singleton, Outline.walk, if_pos ((Scopes.resolve?_ne_none _ _).1 hx)]
  refine ⟨by rw [hwk], ⟨[], (append_nil _).symm, ?_, fun _ => ?_⟩, prefix_rfl⟩
  · rw [hwk]
    rfl
  · rw [hwk]

/-- An assignment to a variable that is not declared, whatever the value uses. -/
lemma undeclared {x : String} (hx : s.scopes.resolve? x = none) (p : Pos) (us : List String) :
    Traced (.assign p x :: us.map .use) s
      { s with errors := s.errors ++ [⟨p, .undeclared x⟩] } := by
  have hmem : x ∉ s.scopes.names.flatten := (Scopes.resolve?_eq_none _ _).1 hx
  obtain ⟨hnms, her, -⟩ := walkAll_uses s.scopes.names us
  refine ⟨?_, ⟨_, rfl, ?_, nofun⟩, prefix_rfl⟩
  · rw [walkAll, Outline.walk]
    exact hnms.symm
  · rw [walkAll, Outline.walk, if_neg hmem, filterMap_append, her]
    rfl

/-- What happens in a scope of its own. -/
lemma scope (h : Traced os { s with scopes := s.scopes.push } s') :
    Traced [.scope os] s { s' with scopes := s'.scopes.pop } := by
  have hnms := h.names
  rw [Scopes.names_push] at hnms
  obtain ⟨xs, hxs⟩ := walkAll_cons_fst [] s.scopes.names os
  rw [hxs] at hnms
  have hinn : s'.scopes.inner ≠ [] := by
    intro hnil
    have hlen := congrArg List.length hnms
    rw [Scopes.names, Scopes.tables, hnil, Scopes.names, Scopes.tables] at hlen
    simp at hlen
  obtain ⟨es, hes, hscs, hno⟩ := h.errors
  rw [Scopes.names_push] at hscs hno
  refine ⟨?_, ⟨es, hes, ?_, ?_⟩, h.classes⟩
  · rw [walkAll_singleton, Outline.walk, Scopes.names_pop hinn, hnms]
    rfl
  · rw [walkAll_singleton, Outline.walk, hscs]
  · rwa [walkAll_singleton, Outline.walk]

end Checker.Traced

namespace Check

open Checker (Traced)

variable {α β : Type} {os os' : List Outline}

/-- A step that does with names what an outline says, if it ends well. -/
def Follows (os : List Outline) (x : Check α) : Prop := ∀ s a s', Gives x s a s' → Traced os s s'

namespace Follows

variable {x : Check α} {f : α → Check β}

lemma bind (hx : Follows os x) (hf : ∀ a, Follows os' (f a)) : Follows (os ++ os') (x >>= f) := by
  intro s b s'' h
  obtain ⟨a, s', hxa, hfb⟩ := h.of_bind
  exact (hx s a s' hxa).trans (hf a s' b s'' hfb)

/-- Names that are asked for, if nothing is complained about. -/
lemma of_uses {us : List String} (hx : OnlyComplains x)
    (hus : ∀ s a, Silent x s a → ∀ u ∈ us, s.scopes.resolve? u ≠ none) :
    Follows (us.map .use) x := by
  intro s a s' h
  obtain ⟨es, hs, hes⟩ := hx s
  have hs' : s' = { s with errors := s.errors ++ es } := (congrArg Prod.snd h).symm.trans hs
  refine Traced.of_errors hs' hes fun hnil => ?_
  rw [hnil, append_nil] at hs'
  rw [hs'] at h
  exact hus s a h

lemma of_onlyComplains (hx : OnlyComplains x) : Follows [] x :=
  @of_uses α x [] hx fun _ _ _ _ hu => nomatch hu

lemma pure (a : α) : Follows [] (Pure.pure a : Check α) :=
  of_onlyComplains (.pure a)

/-- A step with nothing behind it but its result. -/
lemma andReturn (hx : Follows os x) (f : α → β) : Follows os (x >>= fun a => Pure.pure (f a)) := by
  rw [← append_nil os]
  exact hx.bind fun a => pure (f a)

/-- A step with nothing to do with names before it. -/
lemma after (hx : OnlyComplains x) (hf : ∀ a, Follows os (f a)) : Follows os (x >>= f) :=
  (of_onlyComplains hx).bind hf

lemma of_modify {f : Checker → Checker} (hscs : ∀ s, (f s).scopes.names = s.scopes.names)
    (her : ∀ s, (f s).errors = s.errors) (hcls : ∀ s, s.classes.all <+: (f s).classes.all) :
    Follows [] (modify f : Check PUnit) := by
  intro s a s' h
  rw [h.of_modify]
  exact .of_same (hscs s) (her s) (hcls s)

lemma define (p : Pos) (sym : Symbol) : Follows [.declare p sym.name] (Check.define p sym) := by
  intro s a s' h
  have hs : s' = _ := (congrArg Prod.snd h).symm.trans (congrArg Prod.snd (run_define p sym s))
  subst hs
  cases hdef : s.scopes.define? sym with
  | none =>
    have hmem := Scopes.mem_names_of_define? hdef
    refine ⟨?_, ⟨[⟨p, .redeclared sym.name⟩], rfl, ?_, nofun⟩, prefix_rfl⟩
    · rw [walkAll_singleton, Outline.walk, if_pos hmem]
    · rw [walkAll_singleton, Outline.walk, if_pos hmem]
      rfl
  | some scopes =>
    obtain ⟨hmem, hnms⟩ := Scopes.names_define? hdef
    refine ⟨?_, ⟨[], ?_, ?_, fun _ => ?_⟩, prefix_rfl⟩
    · rw [walkAll_singleton, Outline.walk, if_neg hmem]
      exact hnms
    · exact (append_nil _).symm
    · rw [walkAll_singleton, Outline.walk, if_neg hmem]
      rfl
    · rw [walkAll_singleton, Outline.walk, if_neg hmem]

lemma scope {body : Check Unit} (h : Follows os body) :
    Follows [.scope os] (do pushScope; body; popScope) := by
  intro s a s' hrun
  obtain ⟨_, s1, hpush, hrun⟩ := hrun.of_bind
  obtain ⟨_, s2, hb, hpop⟩ := hrun.of_bind
  cases hpush.of_modify
  cases hpop.of_modify
  exact (h _ _ _ hb).scope

lemma loop {body : Check α} (h : Follows os body) :
    Follows os (do enterLoop; let _ ← body; leaveLoop) := by
  have hent : Follows [] enterLoop :=
    of_modify (fun _ => rfl) (fun _ => rfl) fun _ => prefix_rfl
  have hlv : Follows [] leaveLoop :=
    of_modify (fun _ => rfl) (fun _ => rfl) fun _ => prefix_rfl
  have hboth := hent.bind fun _ => h.bind fun _ => hlv
  rwa [nil_append, append_nil] at hboth

/-- The parameters of a function are declared before its body. -/
lemma functionBody (p : Pos) (f : Symbol) (params : List (String × Ty)) {body : Check Unit}
    (h : Follows os body) : Follows (params.map (fun param => .declare p param.1) ++ os)
      (Check.functionBody p f params body) := by
  have hset : ∀ g : Option Symbol,
      Follows [] (modify fun s => { s with function := g } : Check Unit) := fun g =>
    of_modify (fun _ => rfl) (fun _ => rfl) fun _ => prefix_rfl
  unfold Check.functionBody
  refine bind ?_ fun _ => ?_
  · induction params with
    | nil => exact pure _
    | cons param params ih =>
      simp only [forIn_cons, bind_assoc, pure_bind]
      exact (define p (.ofParameter param.1 param.2)).bind fun _ => ih
  · intro s a s' hrun
    have hr := (hset (some f)).bind fun _ => h.bind fun _ => hset s.function
    rw [nil_append, append_nil] at hr
    exact hr s a s' hrun.of_get

end Follows

end Check

end Compiscript
