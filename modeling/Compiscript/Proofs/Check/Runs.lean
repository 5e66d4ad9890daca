import Compiscript.Proofs.Check.Answers
import Compiscript.Proofs.Check.Members

/-!
# Steps that Keep a State Sound

Statements change the state, so what is said about them speaks of the state before and
of the state after. A statement that ends well leaves a sound state, classes that were
there are there as they were, and names that it declares are declared. It ends well for
sure if every name it reads is declared before. `Tree.readsOnly` goes
through a tree with the names that are bound where it stands.
-/

namespace Compiscript

open List hiding get modify

/-- Rules whose trees may declare names in the scope they stand in. -/
def Rule.mayDeclare : Rule → Bool
  | .statement | .variableDeclaration | .constantDeclaration | .functionDeclaration
  | .classDeclaration | .forStatement => true
  | _ => false

namespace Tree

/-- The names that a statement adds to the scope it stands in. What a `for` starts with stands
    in the scope around it. -/
def declares : Tree → List String
  | .node ⟨.variableDeclaration, _⟩ _ cs => nameIn cs
  | .node ⟨.constantDeclaration, _⟩ _ cs => nameIn cs
  | .node ⟨.functionDeclaration, _⟩ _ cs => nameIn cs
  | .node ⟨.classDeclaration, _⟩ _ cs => nameIn cs
  | .node ⟨.statement, _⟩ _ [c] => c.declares
  | .node ⟨.forStatement, _⟩ _ (_ :: _ :: start :: _) => start.declares
  | _ => []

/-- The names of the parameters of a method. -/
def paramsOfMethod : Tree → List String
  | .node ⟨.classMember, _⟩ _ [.node ⟨.functionDeclaration, _⟩ _ cs] => paramsIn cs
  | _ => []

/-- The parameters of the last method with a given name. -/
def lastParams (ms : List Tree) (name : List String) : List String :=
  ((ms.filter (·.nameOfMethod = name)).getLast?.map paramsOfMethod).getD []

mutual

/-- Whether all names that a tree reads are bound, before it or in it. -/
def readsOnly (bound : List String) : Tree → Bool
  | .node ⟨.variableDeclaration, _⟩ _ cs => readsOnlyAll (nameIn cs ++ bound) cs
  | .node ⟨.foreachStatement, _⟩ _ cs =>
    (readsOf cs).all (bound.contains ·) && readsOnlyAll (nameIn cs ++ bound) cs
  | .node ⟨.functionDeclaration, _⟩ _ cs => readsOnlyAll (paramsIn cs ++ nameIn cs ++ bound) cs
  | .node ⟨.classDeclaration, _⟩ _ cs => readsOnlyMembers (nameIn cs ++ bound) cs cs
  | .node ⟨.switchCase, _⟩ _ cs => (readsOf cs).all (bound.contains ·)
  | .node ⟨.defaultCase, _⟩ _ _ => true
  | .node tag p cs =>
    if tag.rule.isInExpression then (reads (.node tag p cs)).all (bound.contains ·)
    else readsOnlyAll bound cs
  | _ => true

/-- Whether trees, one after the other, read only names that are bound. -/
def readsOnlyAll (bound : List String) : List Tree → Bool
  | [] => true
  | c :: cs => readsOnly bound c && readsOnlyAll (c.declares ++ bound) cs

/-- Whether the members of a class, of which `ms` are all, read only names that are bound. -/
def readsOnlyMembers (bound : List String) (ms : List Tree) : List Tree → Bool
  | [] => true
  | .node ⟨.classMember, _⟩ _ [.node ⟨.functionDeclaration, _⟩ _ cs] :: rest =>
    readsOnlyAll (lastParams ms (nameIn cs) ++ "this" :: bound) cs &&
      readsOnlyMembers bound ms rest
  | .node ⟨.classMember, _⟩ _ [.node ⟨.constantDeclaration, _⟩ _ cs] :: rest =>
    (cs.any (·.isOf .typeMark) || (readsOf cs).all (bound.contains ·)) &&
      readsOnlyMembers bound ms rest
  | _ :: rest => readsOnlyMembers bound ms rest

end

variable {bound : List String} {r : Rule} {c t : Tree} {cs : List Tree}

lemma declares_of_isOf (hc : c.isOf r = true) (hr : r.mayDeclare = false) : c.declares = [] := by
  obtain ⟨l, p, cs, rfl⟩ := exists_of_isOf hc
  cases r <;> first | rfl | cases hr

/-- Trees that declare nothing are read with the same names. -/
lemma readsOnly_of_mem (h : readsOnlyAll bound cs = true) (hno : ∀ c ∈ cs, c.declares = []) :
    ∀ c ∈ cs, c.readsOnly bound = true := by
  induction cs with
  | nil => exact fun _ hc => nomatch hc
  | cons c cs ih =>
    rw [forall_mem_cons] at hno ⊢
    rw [readsOnlyAll, Bool.and_eq_true, hno.1, nil_append] at h
    exact ⟨h.1, ih h.2 hno.2⟩

/-- An expression reads only names that are bound if those that are read in it are. -/
lemma readsOnly_iff (hc : c.isOf r = true) (hr : r.isInExpression = true) :
    c.readsOnly bound = true ↔ ∀ x ∈ c.reads, x ∈ bound := by
  have heq : c.readsOnly bound = c.reads.all (bound.contains ·) := by
    obtain ⟨l, p, cs, rfl⟩ := exists_of_isOf hc
    cases r <;> first | rfl | cases hr
  simp [heq]

/-- The same for expressions among several trees. -/
lemma readsOnly_of_readsOf (h : (readsOf cs).all (bound.contains ·) = true) (hmem : c ∈ cs)
    (hc : c.isOf r = true) (hr : r.isInExpression = true) : c.readsOnly bound = true := by
  refine (readsOnly_iff hc hr).2 fun x hx => ?_
  have hbd := all_eq_true.1 h x (mem_readsOf.2 ⟨c, hmem, hx⟩)
  simpa using hbd

/-- The children of a statement that declare nothing. -/
lemma readsOnly_child {P : Token → Prop} (h : Derives P r t)
    (hno : r.MentionsOnly fun q => q.mayDeclare = false)
    (hrd : readsOnlyAll bound t.children = true) : ∀ c ∈ t.children, c.readsOnly bound = true := by
  refine readsOnly_of_mem hrd fun c hc => ?_
  rcases h.leaf_or_mentioned hc with ⟨tok, rfl⟩ | ⟨q, hof, e, he, hment⟩
  · rfl
  · exact declares_of_isOf hof (hno e he q (Rule.mem_all q) hment)

end Tree

/-! ### Sound states -/

namespace Table

lemma Stays.exists_kept {t t' : Table String Symbol} (h : t.Stays t') {x : String} {sym' : Symbol}
    (hx : t'.get? x = some sym') : ∃ sym, t.get? x = some sym ∧ sym.Kept sym' := by
  have hmem : x ∈ t.keys := by
    rw [← h.same, mem_keys_iff, contains_iff_get?]
    exact ⟨sym', hx⟩
  obtain ⟨sym, hsym⟩ := (contains_iff_get? t x).1 ((mem_keys_iff t x).1 hmem)
  obtain ⟨sym'', hsym'', hkept⟩ := h.symbols x sym hsym
  cases Option.some.inj (hsym''.symm.trans hx)
  exact ⟨sym, hsym, hkept⟩

end Table

variable {sure : Prop}

lemma Symbol.sound_ofVariable {T : Ty} (h : T.Sound sure) (x : String)
    (const init : Bool) : (Symbol.ofVariable x T const init).Sound sure :=
  ⟨h, fun _ hp => nomatch hp⟩

lemma Symbol.Sound.kept {a b : Symbol} (h : a.Sound sure) (hkept : a.Kept b) : b.Sound sure := by
  rcases hkept with rfl | rfl
  · exact h
  · obtain ⟨name, type, place, _ | _ | _⟩ := a
    · exact ⟨h.type, fun _ hp => nomatch hp⟩
    · exact h
    · exact h

namespace Checker.Sound

variable {sure : Prop} {s s' : Checker} (h : s.Sound sure)

include h

/-- Complaints and open loops do not matter, nor does the class around. -/
lemma of_eq (hscs : s'.scopes = s.scopes) (hcls : s'.classes = s.classes)
    (hfun : s'.function = s.function) (hnms : s'.classNames = s.classNames) : s'.Sound sure where
  toOrdered := h.toOrdered.of_eq hcls hnms
  symbols := hscs ▸ h.symbols
  members := hcls ▸ h.members
  function := hfun ▸ h.function

lemma setScopes {Γ : Scopes} (hΓ : ∀ table ∈ Γ.tables, ∀ x sym, table.get? x = some sym →
    IsWritable x ∧ sym.Sound sure) : ({ s with scopes := Γ } : Checker).Sound sure where
  symbols := hΓ
  members := h.members
  function := h.function
  toOrdered := h.toOrdered.of_eq rfl rfl

lemma push : ({ s with scopes := s.scopes.push } : Checker).Sound sure := by
  refine h.setScopes ?_
  rw [Scopes.tables_push, forall_mem_cons]
  exact ⟨fun _ _ hx => (nomatch hx), h.symbols⟩

lemma pop : ({ s with scopes := s.scopes.pop } : Checker).Sound sure := by
  refine h.setScopes fun table htab => h.symbols table ?_
  simp only [Scopes.tables, Scopes.pop, mem_append] at htab ⊢
  exact htab.imp_left mem_of_mem_tail

lemma setFunction {f : Option Symbol} (hf : ∀ g, f = some g → g.Sound sure) :
    ({ s with function := f } : Checker).Sound sure where
  symbols := h.symbols
  members := h.members
  function := hf
  toOrdered := h.toOrdered.of_eq rfl rfl

lemma define {sym : Symbol} {Γ : Scopes} (hΓ : s.scopes.define? sym = some Γ)
    (hnm : IsWritable sym.name) (hsym : sym.Sound sure) :
    ({ s with scopes := Γ } : Checker).Sound sure := by
  unfold Scopes.define? at hΓ
  split at hΓ
  · cases hΓ
  cases hΓ
  have hsyms := h.symbols
  rw [Scopes.tables_eq, forall_mem_cons] at hsyms
  refine h.setScopes ?_
  rw [Scopes.tables_modifyCurrent, forall_mem_cons]
  refine ⟨fun x found hx => ?_, hsyms.2⟩
  rcases Table.eq_or_get?_of_set hx with ⟨rfl, rfl⟩ | hx
  · exact ⟨hnm, hsym⟩
  · exact hsyms.1 x found hx

lemma markInitialized (x : String) :
    ({ s with scopes := s.scopes.update x Symbol.initialized } : Checker).Sound sure := by
  refine h.setScopes fun table htab y sym' hy => ?_
  obtain ⟨old, hold, hstays⟩ : ∃ old ∈ s.scopes.tables, old.Stays table :=
    exists_of_forall₂ (Scopes.stays_markInitialized s.scopes x).flip htab
  obtain ⟨sym, hsym, hkept⟩ := hstays.exists_kept hy
  obtain ⟨hnm, hsound⟩ := h.symbols old hold y sym hsym
  exact ⟨hnm, hsound.kept hkept⟩

end Checker.Sound

/-! ### Names that are declared -/

/-- Names stay declared while the same scopes are open. -/
lemma Scopes.Same.resolve?_ne_none {Γ Γ' : Scopes} (h : Γ.Same Γ') {x : String}
    (hx : Γ.resolve? x ≠ none) : Γ'.resolve? x ≠ none := by
  have hkeys : ∀ keys ∈ Γ.names, ∃ keys' ∈ Γ'.names, keys ⊆ keys' := by
    rw [Same, tables_eq Γ, tables_eq Γ'] at h
    rw [names_eq, names_eq, forall_mem_cons, forall_mem_map]
    refine ⟨⟨_, .head _, h.1.keys.subset⟩, fun table htab => ?_⟩
    obtain ⟨table', htable', hstays⟩ := exists_of_forall₂ h.2 htab
    exact ⟨_, .tail _ (mem_map_of_mem htable'), hstays.keys.subset⟩
  rw [Scopes.resolve?_ne_none, List.mem_flatten] at hx ⊢
  obtain ⟨keys, hmem, hx⟩ := hx
  obtain ⟨keys', hmem', hsub⟩ := hkeys keys hmem
  exact ⟨keys', hmem', hsub hx⟩

lemma Checker.sound_start (sure : Prop) : start.Sound sure where
  symbols := by
    intro table htab x sym hx
    rw [mem_singleton.1 htab] at hx
    cases hx
  members := fun _ hc => nomatch hc
  function := fun _ hf => nomatch hf
  bases := fun _ _ hc => nomatch hc
  named := fun _ _ hx => nomatch hx

/-- A state between two steps. It is sound, the classes that there were are there as they
    were, and names are declared. -/
structure Checker.Ready (sure : Prop) (before : List ClassInfo) (bound : List String)
    (s : Checker) : Prop where
  sound : s.Sound sure
  classes : before <+: s.classes.all
  declared : sure → Check.Declares s bound

namespace Checker.Ready

variable {sure : Prop} {before : List ClassInfo} {bound bound' : List String} {s s' : Checker}
  (h : s.Ready sure before bound)

include h

lemma mono (hsub : bound' ⊆ bound) : s.Ready sure before bound' :=
  ⟨h.sound, h.classes, fun hsu x hx => h.declared hsu x (hsub hx)⟩

/-- Names stay declared while the same scopes are open. -/
lemma of_same (hsm : s.scopes.Same s'.scopes)
    (hs' : s'.Ready sure before bound') : s'.Ready sure before (bound' ++ bound) where
  sound := hs'.sound
  classes := hs'.classes
  declared hsu x hx := (mem_append.1 hx).elim (hs'.declared hsu x) fun hx =>
    hsm.resolve?_ne_none (h.declared hsu x hx)

lemma of_eq (hscs : s'.scopes = s.scopes)
    (hcls : s'.classes = s.classes) (hfun : s'.function = s.function)
    (hnms : s'.classNames = s.classNames) : s'.Ready sure before bound where
  sound := h.sound.of_eq hscs hcls hfun hnms
  classes := hcls ▸ h.classes
  declared hsu x hx := hscs ▸ h.declared hsu x hx

lemma push : ({ s with scopes := s.scopes.push } : Checker).Ready sure before bound where
  sound := h.sound.push
  classes := h.classes
  declared hsu x hx := by
    have hdecl := h.declared hsu x hx
    rw [Scopes.resolve?_ne_none] at hdecl ⊢
    exact hdecl

lemma pop : ({ s with scopes := s.scopes.pop } : Checker).Ready sure before [] :=
  ⟨h.sound.pop, h.classes, fun _ _ hx => nomatch hx⟩

lemma setFunction {f : Option Symbol} (hf : ∀ g, f = some g → g.Sound sure) :
    ({ s with function := f } : Checker).Ready sure before bound :=
  ⟨h.sound.setFunction hf, h.classes, h.declared⟩

lemma markInitialized (x : String) :
    ({ s with scopes := s.scopes.update x Symbol.initialized } : Checker).Ready
      sure before bound where
  sound := h.sound.markInitialized x
  classes := h.classes
  declared hsu y hy :=
    (Scopes.Same.markInitialized s.scopes x).resolve?_ne_none (h.declared hsu y hy)

end Checker.Ready

/-! ### Steps that end well, or stop for want of a type -/

namespace Check

variable {α β : Type} {sure : Prop} {s : Checker}

/-- A step leads from a state to one as told, or it stops for want of a type, and then not for
    sure. -/
def Runs (sure : Prop) (s : Checker) (post : α → Checker → Prop) (x : Check α) : Prop :=
  (∃ a s', Gives x s a s' ∧ post a s') ∨ (¬ sure ∧ ∃ s', x.run s = (.error .type, s'))

/-- The same, to a state that is ready. -/
abbrev Readies (sure : Prop) (s : Checker) (before : List ClassInfo) (bound : List String)
    (x : Check α) : Prop := Runs sure s (fun _ s' => s'.Ready sure before bound) x

namespace Runs

variable {post : α → Checker → Prop} {x : Check α}

lemma imp {post' : α → Checker → Prop} (h : Runs sure s post x)
    (himp : ∀ a s', Gives x s a s' → post a s' → post' a s') : Runs sure s post' x := by
  refine h.imp_left ?_
  rintro ⟨a, s', hgv, hpost⟩
  exact ⟨a, s', hgv, himp a s' hgv hpost⟩

lemma pure {a : α} (h : post a s) : Runs sure s post (Pure.pure a) := .inl ⟨a, s, rfl, h⟩

lemma bind {post' : β → Checker → Prop} {f : α → Check β} (hx : Runs sure s post x)
    (hf : ∀ a s', post a s' → Runs sure s' post' (f a)) : Runs sure s post' (x >>= f) := by
  rcases hx with ⟨a, s1, hgv, hpost⟩ | ⟨hsu, s', hrun⟩
  · have hrun : (x >>= f).run s = (f a).run s1 := by rw [run_bind, hgv]
    rcases hf a s1 hpost with ⟨b, s', hgv', hpost'⟩ | ⟨hsu, s', hrun'⟩
    · exact .inl ⟨b, s', hrun.trans hgv', hpost'⟩
    · exact .inr ⟨hsu, s', hrun.trans hrun'⟩
  · exact .inr ⟨hsu, s', by rw [run_bind, hrun]⟩

lemma get {k : Checker → Check α} (h : Runs sure s post (k s)) :
    Runs sure s post (MonadState.get >>= k) := h

lemma of_modify {f : Checker → Checker} {post : PUnit → Checker → Prop} (h : post .unit (f s)) :
    Runs sure s post (modify f) := .inl ⟨.unit, f s, rfl, h⟩

lemma need {what : Absent} {o : Option β} {b : β} (ho : o = some b) {k : β → Check α}
    (h : Runs sure s post (k b)) : Runs sure s post (need what o >>= k) := by
  subst ho
  exact h

lemma visitPart {t : Tree} {visit : t.Sub → Check Ty} {post : Ty → Checker → Prop}
    {part : Option t.Sub} {k : t.Sub} (hk : part = some k) (h : Runs sure s post (visit k)) :
    Runs sure s post (visitPart visit part) := by
  subst hk
  exact h

/-- A loop with an invariant that may depend on what is left. -/
lemma forIn {I : List α → Checker → Prop} {f : α → PUnit → Check (ForInStep PUnit)} {xs : List α}
    (hsp : ∀ y ys s, y ∈ xs → I (y :: ys) s →
      Runs sure s (fun step s' => step = .yield .unit ∧ I ys s') (f y .unit)) (hs : I xs s) :
    Runs sure s (fun _ => I []) (forIn xs PUnit.unit f) := by
  induction xs generalizing s with
  | nil => exact pure hs
  | cons y ys ih =>
    rw [forIn_cons]
    refine (hsp y ys s (.head _) hs).bind ?_
    rintro _ s' ⟨rfl, hs'⟩
    exact ih (fun z zs s hz => hsp z zs s (.tail _ hz)) hs'

section Ready

variable {before : List ClassInfo} {bound : List String} (hs : s.Ready sure before bound)

include hs

/-- Steps that only complain leave everything else as it is. -/
lemma of_answers {g : α → Prop} (h : Answers sure s g x) :
    Runs sure s (fun a s' => g a ∧ s'.Ready sure before bound) x := by
  obtain ⟨r, es, hrun, ⟨a, rfl, ha⟩ | ⟨rfl, hsu⟩⟩ := h []
  · rw [Checker.adding_nil] at hrun
    exact .inl ⟨a, _, hrun, ha, hs.of_eq rfl rfl rfl rfl⟩
  · rw [Checker.adding_nil] at hrun
    exact .inr ⟨hsu, _, hrun⟩

lemma require (holds : Bool) (p : Pos) (c : Complaint) :
    Readies sure s before bound (require holds p c) :=
  (of_answers hs (.of_finds (Finds.require holds p c))).imp fun _ _ _ h => h.2

lemma complain (p : Pos) (c : Complaint) : Readies sure s before bound (complain p c) :=
  of_modify (hs.of_eq rfl rfl rfl rfl)

lemma compare {a : Ty} (h : a.Sound sure) (b : Ty) (p : Pos) (c : Complaint)
    {k : Unit → Check α} (hk : ∀ s', s'.Ready sure before bound → Runs sure s' post (k ())) :
    Runs sure s post (Check.accept a b >>= fun holds => Check.require holds p c >>= k) :=
  (of_answers hs (.accept h b)).bind fun _ _ h => (require h.2 _ p c).bind fun _ => hk

/-- A name is declared after its declaration, also if it was declared before. -/
lemma define {sym : Symbol} (hnm : IsWritable sym.name) (hsym : sym.Sound sure) (p : Pos) :
    Readies sure s before (sym.name :: bound) (Check.define p sym) := by
  refine .inl ⟨(), _, run_define p sym s, ?_⟩
  cases hdef : s.scopes.define? sym with
  | none =>
    refine ⟨hs.sound.of_eq rfl rfl rfl rfl, hs.classes, fun hsu => ?_⟩
    have hmem := Scopes.mem_names_of_define? hdef
    refine forall_mem_cons.2 ⟨?_, hs.declared hsu⟩
    rw [Scopes.names_eq] at hmem
    rw [Scopes.resolve?_ne_none, Scopes.names_eq, flatten_cons]
    exact mem_append_left _ hmem
  | some Γ =>
    refine ⟨hs.sound.define hdef hnm hsym, hs.classes, fun hsu => ?_⟩
    refine forall_mem_cons.2 ⟨?_, fun x hx => ?_⟩
    · rw [Scopes.resolve?_define hdef]
      nofun
    · exact (Scopes.Same.define? hdef).resolve?_ne_none (hs.declared hsu x hx)

variable {bound' : List String} {body : Check Unit}

lemma loop
    (h : ∀ s, s.Ready sure before bound →
      Runs sure s (fun _ s' => s'.Ready sure before bound') body) :
    Runs sure s (fun _ s' => s'.Ready sure before bound') (do enterLoop; body; leaveLoop) := by
  have hent : Readies sure s before bound enterLoop :=
    of_modify (hs.of_eq rfl rfl rfl rfl)
  exact hent.bind fun _ s1 hs1 => (h s1 hs1).bind fun _ _ hs2 =>
    of_modify (hs2.of_eq rfl rfl rfl rfl)

lemma pushScope : Readies sure s before bound pushScope := of_modify hs.push

/-- A scope around a step, which takes with it all names that are declared there. -/
lemma scope
    (h : ∀ s, s.Ready sure before bound →
      Runs sure s (fun _ s' => s'.Ready sure before bound') body) :
    Readies sure s before [] (do Check.pushScope; body; popScope) :=
  (pushScope hs).bind fun _ s1 hs1 => (h s1 hs1).bind fun _ _ hs2 => of_modify hs2.pop

end Ready

end Runs

end Check

end Compiscript
