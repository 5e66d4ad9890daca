import Compiscript.Proofs.Check.Carries
import Compiscript.Proofs.Check.Scoping

/-!
# Checks Come to an End

A check that ends well, and one that stops for want of a type, are shown by one induction.

What is left for it are classes, the one thing that is declared in several steps. The
members of a class are taken in while it is the last class there is, and from the first
method on it is as it will stay.

## Theorems

* `Checker.returns_or_reads_undeclared`: Every check ends well or stops for want of a type,
  and it does not stop if only names are read that are declared there.
-/

namespace Compiscript

open List hiding modify
open Compiscript.Tree

namespace Tree

variable {bound : List String} {cs : List Tree}

lemma lastParams_concat (ms : List Tree) (m : Tree) (name : List String) :
    lastParams (ms ++ [m]) name =
      if m.nameOfMethod = name then m.paramsOfMethod else lastParams ms name := by
  unfold lastParams
  rw [filter_append]
  split
  · rename_i hnm
    rw [filter_cons_of_pos (by simpa using hnm), filter_nil, getLast?_concat]
    rfl
  · rename_i hnm
    rw [filter_cons_of_neg (by simpa using hnm), filter_nil, append_nil]

lemma lastParams_filter {p : Tree → Bool} {ms : List Tree} {name : List String}
    (hno : ∀ m ∈ ms, p m = false → m.nameOfMethod ≠ name) :
    lastParams (ms.filter p) name = lastParams ms name := by
  unfold lastParams
  rw [filter_filter]
  refine congrArg (fun l => (l.getLast?.map paramsOfMethod).getD []) (filter_congr ?_)
  intro m hm
  cases hp : p m with
  | true => simp
  | false => simp [hno m hm hp]

section Members

variable {ms : List Tree} {m : Tree} {l l' : Option Label} {p p' : Pos}

lemma readsOnlyMembers_tail (h : readsOnlyMembers bound ms (m :: cs) = true) :
    readsOnlyMembers bound ms cs = true := by
  unfold readsOnlyMembers at h
  split at h <;> rename_i heq <;> cases heq
  · exact (Bool.and_eq_true_iff.1 h).2
  · exact (Bool.and_eq_true_iff.1 h).2
  · exact h

variable {ds : List Tree}

lemma readsOnly_method (h : readsOnlyMembers bound ms cs = true)
    (hm : .node ⟨.classMember, l⟩ p [.node ⟨.functionDeclaration, l'⟩ p' ds] ∈ cs) :
    readsOnlyAll (lastParams ms (nameIn ds) ++ "this" :: bound) ds = true := by
  induction cs with
  | nil => cases hm
  | cons c cs ih =>
    rcases mem_cons.1 hm with rfl | hm
    · exact (Bool.and_eq_true_iff.1 h).1
    · exact ih (readsOnlyMembers_tail h) hm

lemma readsOnly_constant (h : readsOnlyMembers bound ms cs = true)
    (hm : .node ⟨.classMember, l⟩ p [.node ⟨.constantDeclaration, l'⟩ p' ds] ∈ cs) :
    ds.any (·.isOf .typeMark) = true ∨ (readsOf ds).all (bound.contains ·) = true := by
  induction cs with
  | nil => cases hm
  | cons c cs ih =>
    rcases mem_cons.1 hm with rfl | hm
    · exact Bool.or_eq_true_iff.1 (Bool.and_eq_true_iff.1 h).1
    · exact ih (readsOnlyMembers_tail h) hm

end Members

end Tree

namespace Check

variable {sure : Prop} {before : List ClassInfo} {bound : List String} {s : Checker} {t : Tree}

/-! ### Classes -/

/-- A state while a class is being declared: the class is `c` now and comes behind all others. -/
structure Filling (sure : Prop) (others : List ClassInfo) (bound : List String) (c : ClassInfo)
    (s : Checker) : Prop extends s.Ready sure others bound where
  all : s.classes.all = others ++ [c]

section Class

variable {others : List ClassInfo} {c : ClassInfo}

namespace Filling

variable (hs : Filling sure others bound c s)

include hs

lemma get? : s.classes.get? others.length = some c := by
  rw [Classes.get?, hs.all]
  exact getElem?_concat_length

lemma base_lt {b : Nat} (hb : c.base = some b) : b < others.length :=
  hs.sound.bases _ c hs.get? b hb

lemma sound_class : c.Sound := hs.sound.members c (by rw [hs.all]; simp)

lemma of_eq {s' : Checker} (hscs : s'.scopes = s.scopes) (hcls : s'.classes = s.classes)
    (hfun : s'.function = s.function) (hnms : s'.classNames = s.classNames) :
    Filling sure others bound c s' :=
  ⟨hs.toReady.of_eq hscs hcls hfun hnms, by rw [hcls, hs.all]⟩

/-- Changing the class that is being declared. -/
lemma change {f : ClassInfo → ClassInfo} (hf : (f c).Sound)
    (hba : ∀ b, (f c).base = some b → b < others.length) : Filling sure others bound (f c)
      { s with classes := s.classes.modify others.length f } := by
  have hall : (s.classes.modify others.length f).all = others ++ [f c] := by
    rw [Classes.modify, hs.all, modify_last]
  have hmbs := hs.sound.members
  rw [hs.all] at hmbs
  have hord := hs.sound.change others.length (f := f) fun d hd b hb =>
    hba b (Option.some.inj (hs.get?.symm.trans hd) ▸ hb)
  refine ⟨⟨⟨hord, hs.sound.symbols, ?_, hs.sound.function⟩, ?_, hs.declared⟩, hall⟩
  · rw [hall]
    rw [forall_mem_append] at hmbs ⊢
    exact ⟨hmbs.1, by simpa using hf⟩
  · rw [hall]
    exact prefix_append _ _

/-- The class gets its number under its name. -/
lemma name (x : String) : Filling sure others bound c
    { s with classNames := s.classNames.set x others.length } :=
  ⟨⟨⟨hs.sound.name (by simp [hs.all]) x, hs.sound.symbols, hs.sound.members, hs.sound.function⟩,
    hs.classes, hs.declared⟩, hs.all⟩

end Filling

variable {sym : Symbol} {ms : List Tree} {m : Tree}

lemma runs_addField (hs : Filling sure others bound c s) (p : Pos) (className : String)
    (hsym : sym.Sound True) :
    Runs sure s (fun _ s' => ∃ c', Filling sure others bound c' s' ∧ c'.methods = c.methods)
      (addField p others.length className sym) := by
  unfold addField
  refine .get ?_
  dsimp only
  split
  · exact .of_modify ⟨c, hs.of_eq rfl rfl rfl rfl, rfl⟩
  · refine .of_modify ⟨_, hs.change ?_ fun _ => hs.base_lt, rfl⟩
    rintro x found (hfd | hfd)
    · rcases Table.eq_or_get?_of_set hfd with ⟨-, rfl⟩ | hfd
      · exact hsym
      · exact hs.sound_class x found (.inl hfd)
    · exact hs.sound_class x found (.inr hfd)

lemma runs_addMethod (hs : Filling sure others bound c s) (p : Pos) (className : String)
    (hsym : sym.Sound True) : Runs sure s (fun _ s' => Filling sure others bound
      { c with methods := c.methods.set sym.name sym } s')
      (addMethod p others.length className sym) := by
  unfold addMethod
  refine .get ?_
  have hreq : ∀ holds e, Runs sure s (fun _ s' => Filling sure others bound c s')
      (require holds p e) := by
    intro holds e
    unfold require
    split
    · exact .pure hs
    · exact .of_modify (hs.of_eq rfl rfl rfl rfl)
  refine (hreq _ _).bind fun _ s1 hs1 => .of_modify (hs1.change
    (f := fun c => { c with methods := c.methods.set sym.name sym }) ?_ fun _ => hs1.base_lt)
  rintro x found (hfd | hfd)
  · exact hs.sound_class x found (.inl hfd)
  · rcases Table.eq_or_get?_of_set hfd with ⟨-, rfl⟩ | hfd
    · exact hsym
    · exact hs.sound_class x found (.inr hfd)

lemma runs_extendBase (hs : Filling sure others bound c s)
    (hba : ∀ x, baseName? t = some x → ∀ b, s.classNames.get? x = some b → b < others.length) :
    Runs sure s (fun _ s' => ∃ c', Filling sure others bound c' s' ∧ c'.methods = c.methods)
      (extendBase t others.length) := by
  unfold extendBase
  split
  · exact .pure ⟨c, hs, rfl⟩
  · rename_i x hx
    have hcl : Runs sure s (fun found s' => found = s.classNames.get? x ∧ s' = s) (class? x) :=
      .inl ⟨_, s, rfl, rfl, rfl⟩
    refine hcl.bind ?_
    rintro found s' ⟨rfl, rfl⟩
    split
    · exact .of_modify ⟨c, hs.of_eq rfl rfl rfl rfl, rfl⟩
    · rename_i b hb
      refine .of_modify ⟨_, hs.change hs.sound_class fun b' hb' => ?_, rfl⟩
      exact Option.some.inj hb' ▸ hba x hx b hb

/-- The class has all methods of its members so far, each with the parameters of the last one
    of its name. -/
def HasMethods (c : ClassInfo) (ms : List Tree) : Prop :=
  ∀ m ∈ ms, ∀ x ∈ m.nameOfMethod, ∃ sym, c.methods.get? x = some sym ∧
    (paramsOf sym).map Prod.fst = lastParams ms [x]

lemma HasMethods.concat {c' : ClassInfo} (h : HasMethods c ms)
    (hmeths : c'.methods = c.methods) (hm : m.nameOfMethod = []) : HasMethods c' (ms ++ [m]) := by
  intro m' hm' x hx
  rcases mem_append.1 hm' with hm' | hm'
  · obtain ⟨sym, hsym, hpars⟩ := h m' hm' x hx
    refine ⟨sym, by rw [hmeths, hsym], ?_⟩
    rw [lastParams_concat, if_neg (by rw [hm]; nofun), hpars]
  · rw [mem_singleton.1 hm', hm] at hx
    cases hx

lemma HasMethods.concat_method (h : HasMethods c ms)
    (hm : m.nameOfMethod = [sym.name]) (hpars : (paramsOf sym).map Prod.fst = m.paramsOfMethod) :
    HasMethods { c with methods := c.methods.set sym.name sym } (ms ++ [m]) := by
  intro m' hm' x hx
  rw [lastParams_concat, hm]
  by_cases hnm : sym.name = x
  · subst hnm
    exact ⟨sym, Table.get?_set_self _ _ _, by rw [if_pos rfl, hpars]⟩
  · rw [if_neg (by simpa using hnm)]
    rcases mem_append.1 hm' with hm' | hm'
    · obtain ⟨found, hfd, hpars⟩ := h m' hm' x hx
      exact ⟨found, by rw [← hfd]; exact Table.get?_set_of_ne _ hnm _, hpars⟩
    · rw [mem_singleton.1 hm', hm, mem_singleton] at hx
      exact absurd hx.symm hnm

lemma nameOfMethod_eq_nil {P : Token → Prop} (h : Derives P .classMember m)
    (hno : m.kid? .functionDeclaration = none) : m.nameOfMethod = [] := by
  obtain ⟨l, p, r, l', p', cs, rfl, rfl | rfl | rfl⟩ := eq_of_member h
  · obtain ⟨k, hk, -⟩ := kid?_of_member (m := .node ⟨.classMember, l⟩ p _) rfl
    rw [hk] at hno
    cases hno
  · rfl
  · rfl

section Members

variable (h : Derived .classDeclaration t) {m : t.Sub} (hm : m ∈ t.kids .classMember)
  (hrd : sure → readsOnlyMembers bound t.children t.children = true)

include h hm hrd

lemma runs_fieldValue {k : m.tree.Sub} (hk : m.tree.kid? .constantDeclaration = some k)
    (hmk : k.tree.markedType? = none) (hs : Filling sure others bound c s) :
    Runs sure s (fun T s' => T.Sound sure ∧ Filling sure others bound c s')
      (visitPart (fun k : t.Sub => check k.tree)
        ((k.tree.kid? .expression).map fun e => m.lift (k.lift e))) := by
  obtain ⟨hmem, hof⟩ := of_mem_kids hm
  obtain ⟨hkmem, hkof⟩ := of_kid? hk
  have hmb : Derived .classMember m.tree := h.of_isOf (.of_mem hmem) hof
  have hconst : Derived .constantDeclaration k.tree :=
    hmb.of_isOf (.of_mem hkmem) hkof
  obtain ⟨e, he⟩ := hconst.exists_kid? (q := .expression) (by decide)
  obtain ⟨hemem, heof⟩ := of_kid? he
  have hin : e.tree.Within t :=
    (Within.of_mem hemem).trans ((Within.of_mem hkmem).trans (.of_mem hmem))
  have hrs : sure → e.tree.readsOnly bound = true := by
    intro hsu
    obtain ⟨l, p, l', p', cs, heq, hktree⟩ := eq_of_kid hmb hk
    have hchs : k.tree.children = cs := by rw [hktree, children_node]
    rw [heq] at hmem
    rcases readsOnly_constant (hrd hsu) hmem with hany | hall
    · rw [← hchs] at hany
      obtain ⟨mark, hmark'⟩ := Option.isSome_iff_exists.1
        (isSome_kid? (any_eq_true.1 hany))
      rw [markedType?, hmark'] at hmk
      cases hmk
    · rw [hchs] at hemem
      exact readsOnly_of_readsOf hall hemem heof rfl
  have hruns : Runs sure s (fun T s' => T.Sound sure ∧ Filling sure others bound c s')
      (check e.tree) := by
    refine (runs_expression h hin heof hs.toReady hrs).imp fun T s' hgv hT => ?_
    obtain ⟨es, hes, -⟩ := onlyComplains.check (h.of_isOf hin heof) rfl (.refl _) s
    have hs' : s' = { s with errors := s.errors ++ es } := (congrArg Prod.snd hgv).symm.trans hes
    rw [hs']
    exact ⟨hT.1, hs.of_eq rfl rfl rfl rfl⟩
  exact .visitPart (by rw [he]; rfl) hruns

lemma runs_declareMember (hs : Filling sure others bound c s)
    (hms : HasMethods c ms) (className : String) :
    Runs sure s (fun _ s' => ∃ c', Filling sure others bound c' s' ∧ HasMethods c' (ms ++ [m.tree]))
      (declareMember t (check ·.tree) others.length className m) := by
  obtain ⟨hmem, hof⟩ := of_mem_kids hm
  have hmb : Derived .classMember m.tree := h.of_isOf (.of_mem hmem) hof
  have hfld : m.tree.kid? .functionDeclaration = none → ∀ (p : Pos) (sym : Symbol),
      sym.Sound True → ∀ s, Filling sure others bound c s →
      Runs sure s (fun _ s' => ∃ c', Filling sure others bound c' s' ∧
        HasMethods c' (ms ++ [m.tree])) (addField p others.length className sym) := by
    intro hno p sym hsym s hs
    refine (runs_addField hs p className hsym).imp ?_
    rintro _ s' - ⟨c', hs', hmeths⟩
    exact ⟨c', hs', hms.concat hmeths (nameOfMethod_eq_nil hmb hno)⟩
  obtain ⟨l, p, r, l', p', cs, heq, hr⟩ := eq_of_member hmb
  obtain ⟨k, hk, hktree⟩ := kid?_of_member heq
  obtain ⟨hkmem, hkof⟩ := of_kid? hk
  have hno : ∀ {q : Rule}, r ≠ q → m.tree.kid? q = none := fun hq => kid?_of_member_ne heq hq
  have hpt : Derived r k.tree := hmb.of_isOf (.of_mem hkmem) hkof
  unfold declareMember
  rcases hr with rfl | rfl | rfl
  · obtain ⟨x, hx, hwr⟩ := hpt.exists_name (by decide)
    rw [hno (q := .variableDeclaration) nofun, hno (q := .constantDeclaration) nofun, hk]
    refine .need hx ?_
    have hpars : Runs sure s (fun params s' => (∀ p ∈ params, IsWritable p.1 ∧ p.2.IsProper) ∧
        params.map Prod.fst = paramsIn k.tree.children ∧ s' = s) (parameters k.tree) :=
      (runs_parameters hs.toReady hpt).imp fun params s' hgv hpars =>
        ⟨hpars.1, hpars.2.1, (Tracks.gives_parameters hgv).1⟩
    refine hpars.bind ?_
    rintro params s1 ⟨hgood, hnms, rfl⟩
    have hsym : (Symbol.ofFunction x ((k.tree.typeOf? .typeExpr).getD .null) params).Sound True :=
      ⟨.inl (isProper_typeOf? _ _), hgood⟩
    refine (runs_addMethod hs k.tree.pos className hsym).imp fun _ s' _ hs' => ⟨_, hs', ?_⟩
    refine hms.concat_method ((nameOfMethod_eq hmb hk).trans (nameIn_eq hx)) (hnms.trans ?_)
    rw [hktree, heq]
    rfl
  · obtain ⟨x, hx, -⟩ := hpt.exists_name (by decide)
    rw [hk]
    refine .need hx (hfld (hno nofun) _ _ (Symbol.sound_ofVariable (.inl ?_) x _ _) s hs)
    cases hmk : k.tree.markedType? with
    | none => trivial
    | some T => exact isProper_markedType? hmk
  · obtain ⟨x, hx, -⟩ := hpt.exists_name (by decide)
    rw [hno (q := .variableDeclaration) nofun, hk]
    refine .need hx ?_
    cases hmk : k.tree.markedType? with
    | some T =>
      have hT : T.Sound True := .inl (isProper_markedType? hmk)
      exact hfld (hno nofun) _ _ (Symbol.sound_ofVariable hT x _ _) s hs
    | none =>
      refine (runs_fieldValue h hm hrd hk hmk hs).bind fun T s1 hs1 => ?_
      have hT : T.orNull.Sound True := .inl hs1.1.orNull
      exact hfld (hno nofun) _ _ (Symbol.sound_ofVariable hT x _ _) s1 hs1.2

lemma runs_methodBody (hps : PartsCarry sure t)
    (hs : s.Ready sure before bound) (hbef : before[others.length]? = some c)
    (hms : HasMethods c ((t.kids .classMember).map Sub.tree)) (className : String) :
    Readies sure s before [] (methodBody t (check ·.tree) others.length className m) := by
  obtain ⟨hmem, hof⟩ := of_mem_kids hm
  have hmb : Derived .classMember m.tree := h.of_isOf (.of_mem hmem) hof
  unfold methodBody
  split
  · exact .pure (hs.mono (nil_subset _))
  · rename_i f hf
    obtain ⟨hfmem, hfof⟩ := of_kid? hf
    have hfun : Derived .functionDeclaration f.tree :=
      hmb.of_isOf (.of_mem hfmem) hfof
    obtain ⟨x, hx, -⟩ := hfun.exists_name (by decide)
    have hnm : m.tree.nameOfMethod = [x] :=
      (nameOfMethod_eq hmb hf).trans (nameIn_eq hx)
    obtain ⟨sym, hsym, hpars⟩ := hms m.tree (mem_map_of_mem hm) x (by simp [hnm])
    have hget : s.classes.get? others.length = some c := by
      obtain ⟨later, hlat⟩ := hs.classes
      rw [Classes.get?, ← hlat,
        getElem?_append_left (List.getElem?_eq_some_iff.1 hbef).1, hbef]
    have hsound : sym.Sound True :=
      hs.sound.members c (mem_of_getElem? hget) x sym (.inr hsym)
    have hla : lastParams t.children [x] = (paramsOf sym).map Prod.fst := by
      rw [hpars, kids_map_tree, lastParams_filter]
      intro d hd hno
      obtain ⟨tok, rfl⟩ := h.leaf_of_mem hd (by decide) hno
      rintro ⟨⟩
    obtain ⟨b, hb⟩ := hfun.exists_kid? (q := .block) (by decide)
    obtain ⟨hbmem, hbof⟩ := of_kid? hb
    have hrs : sure → b.tree.readsOnly ((paramsOf sym).map Prod.fst ++ "this" :: bound) = true := by
      intro hsu
      obtain ⟨l, p, l', p', cs, heq, hftree⟩ := eq_of_kid hmb hf
      have hchs : f.tree.children = cs := by rw [hftree, children_node]
      rw [heq] at hmem
      have hall := readsOnly_method (hrd hsu) hmem
      rw [← hchs, nameIn_eq hx, hla] at hall
      exact readsOnly_child hfun (by decide) hall b.tree hbmem
    have hin : b.tree.Within t :=
      (Within.of_mem hbmem).trans ((Within.of_mem hfmem).trans (.of_mem hmem))
    have hbd : ∀ s, s.Ready sure before ((paramsOf sym).map Prod.fst ++ "this" :: bound) →
        Readies sure s before [] (do
          let _ ← visitPart (fun k : t.Sub => check k.tree)
            ((f.tree.kid? .block).map fun b => m.lift (f.lift b)) : Check Unit) := by
      intro s hs
      have hblk := hps b.tree .block hin (m.lift (f.lift b)).2 hbof (.inl rfl) before _ s hs
        hrs
      rw [hb]
      exact hblk.bind fun _ _ hs => .pure (hs.mono (nil_subset _))
    refine .need hx (.get ?_)
    rw [hget, Option.bind_some, hsym, Option.getD_some]
    refine .get ((Runs.pushScope hs).bind fun _ s1 hs1 => ?_)
    have hcl : Readies sure s1 before bound
        (modify fun s => { s with inClass := some others.length }) :=
      .of_modify (hs1.of_eq rfl rfl rfl rfl)
    refine hcl.bind fun _ s2 hs2 => ?_
    have hthis := Symbol.sound_ofVariable (.inl trivial : (Ty.class className).Sound sure) "this"
      false true
    refine (Runs.define hs2 (.inl rfl) hthis _).bind fun _ s3 hs3 => ?_
    refine (runs_functionBody hs3 _ hsound.of_true hsound.params hbd).bind fun _ s4 hs4 => ?_
    have hback : Readies sure s4 before [] (modify fun s' => { s' with inClass := s.inClass }) :=
      .of_modify (hs4.of_eq rfl rfl rfl rfl)
    exact hback.bind fun _ s5 hs5 => .of_modify hs5.pop

omit hm in
lemma runs_members (hs : Filling sure others bound c s) (className : String) :
    Runs sure s (fun _ s' => ∃ c', Filling sure others bound c' s' ∧
      HasMethods c' ((t.kids .classMember).map Sub.tree))
      (forIn (t.kids .classMember) PUnit.unit fun m _ => do
        declareMember t (check ·.tree) others.length className m
        return ForInStep.yield PUnit.unit) := by
  refine (Runs.forIn (I := fun rest s' => ∃ done c, t.kids .classMember = done ++ rest ∧
    Filling sure others bound c s' ∧ HasMethods c (done.map Sub.tree)) ?_
    ⟨[], c, rfl, hs, fun _ hm => nomatch hm⟩).imp ?_
  · rintro m rest s' hm ⟨done, c, hdn, hs', hms⟩
    refine (runs_declareMember h hm hrd hs' hms className).bind ?_
    rintro _ s'' ⟨c', hs'', hms'⟩
    refine .pure ⟨rfl, done ++ [m], c', by rw [hdn, append_assoc]; rfl, hs'', ?_⟩
    rw [map_append]
    exact hms'
  · rintro _ s' - ⟨done, c', hdn, hs', hms⟩
    rw [append_nil] at hdn
    exact ⟨c', hs', hdn ▸ hms⟩

omit hm in
lemma runs_methods (hps : PartsCarry sure t) (hs : s.Ready sure (others ++ [c]) bound)
    (hms : HasMethods c ((t.kids .classMember).map Sub.tree)) (className : String) :
    Readies sure s (others ++ [c]) bound (forIn (t.kids .classMember) PUnit.unit fun m _ => do
        methodBody t (check ·.tree) others.length className m
        return ForInStep.yield PUnit.unit) := by
  refine Runs.forIn (I := fun _ s' => s'.Ready sure (others ++ [c]) bound)
    (fun m ms s' hm hs' => ?_) hs
  have hres : Restores (methodBody t (check ·.tree) others.length className m) :=
    restores_invariant.methodBody (fun k hk => restores_of_derives h hk) _ _
      (.of_kids hm)
  have hbd := runs_methodBody h hm hrd hps hs' getElem?_concat_length hms className
  exact (hbd.imp fun _ s'' hgv hs'' =>
    hs'.of_same (hres _ _ _ hgv).scopes hs'').bind fun _ _ hs'' => .pure ⟨rfl, hs''⟩

end Members

lemma unchanged_of_define {p : Pos} {u : Unit} {s' : Checker}
    (h : Gives (define p sym) s u s') : s'.classes = s.classes ∧ s'.classNames = s.classNames := by
  rw [Gives, run_define] at h
  cases (Prod.mk.inj h).2
  cases s.scopes.define? sym <;> exact ⟨rfl, rfl⟩

lemma ready_add (hs : s.Ready sure before bound) (x : String) :
    Filling sure s.classes.all bound ⟨x, .empty, .empty, none⟩
      { s with classes := (s.classes.add x).1 } := by
  refine ⟨⟨⟨hs.sound.add x, hs.sound.symbols, ?_, hs.sound.function⟩, prefix_append _ _,
    hs.declared⟩, rfl⟩
  rw [Classes.add, forall_mem_append]
  refine ⟨hs.sound.members, ?_⟩
  simp only [forall_mem_singleton]
  rintro y sym (hy | hy) <;> cases hy

lemma runs_class (hps : PartsCarry sure t) (hs : s.Ready sure before bound)
    (h : Derived .classDeclaration t)
    (hself : baseName? t = none ∨ baseName? t ≠ t.tokenText? .identifier)
    (hrd : sure → readsOnlyMembers (nameIn t.children ++ bound) t.children t.children =
      true) : Readies sure s before t.declares (declareClass t (check ·.tree)) := by
  obtain ⟨x, hx, hwr⟩ := h.exists_name (by decide)
  rw [nameIn_eq hx] at hrd
  rw [declares_eq h (by simp) hx]
  unfold declareClass
  refine .need hx (.get ?_)
  have hadd : Runs sure s (fun _ s' => s' = { s with classes := (s.classes.add x).1 })
      (modify fun s' => { s' with classes := (s.classes.add x).1 }) := .of_modify rfl
  refine hadd.bind ?_
  rintro _ s1 rfl
  have hadded := ready_add hs x
  have hsym : (Symbol.ofClass x (.class x) s.classes.all.length).Sound sure :=
    ⟨.inl trivial, fun _ hp => nomatch hp⟩
  have hdef : Runs sure { s with classes := (s.classes.add x).1 }
      (fun _ s' => Filling sure s.classes.all (x :: bound) ⟨x, .empty, .empty, none⟩ s' ∧
        s'.classNames = s.classNames)
      (define t.pos (.ofClass x (.class x) s.classes.all.length)) := by
    refine (Runs.define hadded.toReady hwr hsym _).imp fun _ s' hgv hs' => ?_
    obtain ⟨hcls, hnms⟩ := unchanged_of_define hgv
    exact ⟨⟨hs', by rw [hcls]; rfl⟩, hnms⟩
  refine hdef.bind ?_
  rintro _ s2 ⟨hs2, hnms⟩
  have hnam : Runs sure s2 (fun _ s' =>
      Filling sure s.classes.all (x :: bound) ⟨x, .empty, .empty, none⟩ s' ∧
        s'.classNames = s.classNames.set x s.classes.all.length)
      (modify fun s' => { s' with classNames := s'.classNames.set x s.classes.all.length }) :=
    .of_modify ⟨hs2.name x, by rw [hnms]⟩
  refine hnam.bind ?_
  rintro _ s3 ⟨hs3, hset⟩
  refine (runs_extendBase hs3 fun y hy b hb => ?_).bind ?_
  · -- Another name than that of the class itself stands for a class before it.
    rw [hset] at hb
    rcases Table.eq_or_get?_of_set hb with ⟨rfl, -⟩ | hb
    · rcases hself with hself | hself
      · rw [hself] at hy
        cases hy
      · exact absurd (hy.trans hx.symm) hself
    · exact hs.sound.named y b hb
  rintro _ s4 ⟨c1, hs4, -⟩
  refine (runs_members h hrd hs4 x).bind ?_
  rintro _ s5 ⟨c, hs5, hms⟩
  have hrdy : s5.Ready sure (s.classes.all ++ [c]) (x :: bound) :=
    ⟨hs5.sound, by rw [hs5.all], hs5.declared⟩
  refine (runs_methods h hrd hps hrdy hms x).bind fun _ s6 hs6 => .pure ?_
  refine ⟨hs6.sound, ?_, (hs6.mono (cons_subset_cons x (nil_subset bound))).declared⟩
  exact hs.classes.trans ((prefix_append _ _).trans hs6.classes)

end Class

/-! ### All statements -/

lemma carries_of_derives {r : Rule} {t : Tree} (h : Derived r t)
    (hr : r.isStatement = true ∨ r = .switchStatement)
    (hself : t.Everywhere fun c => c.extendsItself = false) : Carries sure t := by
  have hps : PartsCarry sure t := fun c q hc hlt hof hq =>
    carries_of_derives (h.of_isOf hc hof) hq (hself.sub hc)
  intro before bound s hs hrd
  -- The names that were there are still there, since every visit comes back.
  suffices hruns : Readies sure s before t.declares (check t) from
    hruns.imp fun _ s' hgv hs' =>
      hs.of_same (restores_of_derives h (.refl t) _ _ _ hgv).scopes hs'
  have hlab : ∀ r ∈ Rule.all, r.isStatement = true ∨ r = .switchStatement →
      ∀ e ∈ production r, e.label = none := by decide
  obtain ⟨e, p, cs, he, hcs, rfl⟩ := id h
  rw [hlab r (Rule.mem_all r) hr e he] at h hps hself hrd ⊢
  rw [check_node]
  have hnn : ∀ {x : Check Ty}, Readies sure s before bound x →
      Readies sure s before [] x := fun hx =>
    hx.imp fun _ _ _ hs => hs.mono (nil_subset _)
  cases r with
  | program => exact runs_program hps hs h hrd
  | block => exact runs_block hps hs h hrd
  | variableDeclaration => exact runs_variable hs h hrd
  | constantDeclaration => exact runs_constant hs hrd h
  | assignment => exact hnn (runs_assignment hs hrd h)
  | expressionStatement | printStatement =>
    exact hnn (runs_evaluate h hs (by decide) fun hsu =>
      readsOnly_child h (by decide) (hrd hsu))
  | ifStatement => exact hnn (runs_if hps hs hrd h)
  | whileStatement => exact hnn (runs_while hps hs hrd h)
  | doWhileStatement => exact hnn (runs_doWhile hps hs hrd h)
  | forStatement => exact runs_for hps hs h hrd
  | foreachStatement =>
    exact runs_foreach hps hs h fun hsu => Bool.and_eq_true_iff.1 (hrd hsu)
  | returnStatement => exact hnn (runs_return hs hrd h)
  | functionDeclaration => exact runs_function hps hs h hrd
  | classDeclaration =>
    refine runs_class hps hs h ?_ hrd
    have hnot := hself.here
    simp only [extendsItself, isOf, beq_self_eq_true, Bool.true_and,
      Bool.and_eq_false_iff] at hnot
    exact hnot.imp (fun hno => by simpa using hno) fun hno => by simpa using hno
  | breakStatement => exact hnn (runs_jump hs .break)
  | continueStatement => exact hnn (runs_jump hs .continue)
  | switchStatement => exact hnn (runs_switch hs hrd h)
  | statement =>
    have hone : cs.flatMap declares = (Tree.node ⟨.statement, none⟩ p cs).declares := by
      obtain ⟨q, -, rfl⟩ := mem_map.1 he
      cases hcs with
      | rule _ _ hcs => cases hcs with
      | nil => exact append_nil _
    rw [← hone]
    exact runs_visitAll hps hs h (by decide) hrd
  | tryCatchStatement =>
    exact (runs_visitAll hps hs h (by decide) hrd).imp fun _ _ _ hs =>
      hs.mono (nil_subset _)
  | _ => rcases hr with hr | hr <;> cases hr
termination_by sizeOf t
decreasing_by exact hlt

end Check

/-- Take a text without syntax errors in which no class names itself as its base. Its check
    ends well, and then the base of every class is a class before it. Or the check stops for
    want of a type, and then the text reads a name that is not declared where it is read. -/
theorem Checker.returns_or_reads_undeclared (source : String) (hparse : (parse source).errors = [])
    (hself : (parse source).tree.Everywhere fun c => c.extendsItself = false) :
    (∃ type s, Checker.run (parse source).tree .start = (.ok type, s) ∧
      ∀ id c b, s.classes.get? id = some c → c.base = some b → b < id) ∨
    ((parse source).tree.readsOnly [] = false ∧
      ∃ s, Checker.run (parse source).tree .start = (.error .type, s)) := by
  have hrdy : Checker.start.Ready ((parse source).tree.readsOnly [] = true) [] [] :=
    ⟨Checker.sound_start _, List.nil_prefix, fun _ _ hx => nomatch hx⟩
  rcases Check.carries_of_derives (derives_of_parse hparse) (.inl rfl) hself [] [] .start hrdy id
    with ⟨type, s, hrun, hs⟩ | ⟨hrs, s, hrun⟩
  · exact .inl ⟨type, s, hrun, fun id c b hc => hs.sound.bases id c hc b⟩
  · exact .inr ⟨Bool.eq_false_iff.2 hrs, s, hrun⟩

/-- Mistakes of other sorts are reported, and the check ends well. -/
theorem Checker.returns_slips : (parse Gen.slips).errors = [] ∧
      (parse Gen.slips).tree.Everywhere (fun c => c.extendsItself = false) ∧
      ∃ type s, Checker.run (parse Gen.slips).tree .start = (.ok type, s) ∧
        s.errors = [⟨⟨1, 0⟩, .undeclared "y"⟩, ⟨⟨1, 12⟩, .redeclared "x"⟩] ∧
        ∀ id c b, s.classes.get? id = some c → c.base = some b → b < id := by
  obtain ⟨-, -, ⟨hparse, hsz, hnn, hok, her⟩, -⟩ := Gen.texts_evaluated
  have hself : (parse Gen.slips).tree.Everywhere fun c => c.extendsItself = false := by
    intro c hc
    have hnot : c.isOf .switchStatement = false ∧ c.isOf .classDeclaration = false := by
      simpa using (Tree.all_iff _).1 hnn c hc
    rw [Tree.extendsItself, hnot.2, Bool.false_and, Bool.false_and]
  obtain ⟨type, hrun⟩ := Checker.exists_run hsz hok
  refine ⟨hparse, hself, ?_⟩
  rcases Checker.returns_or_reads_undeclared Gen.slips hparse hself with
    ⟨type', s, hrun', hbases⟩ | ⟨-, s, hrun'⟩
  · have hs := (Prod.mk.inj (hrun'.symm.trans hrun)).2
    exact ⟨type', s, hrun', by rw [hs, her], hbases⟩
  · have hne : ∀ s s' : Checker,
        ((.ok type, s) : Except Absent Ty × Checker) ≠ (.error .type, s') := fun _ _ => by simp
    exact absurd (hrun.symm.trans hrun') (hne _ _)

end Compiscript
