import Compiscript.Proofs.Check.Outlined

/-!
# Classes Follow their Outlines

A class is declared before its members are read, and its methods are read when all
members are known. While the members are taken in, only the class itself changes and
no scope does. The body of a method is then read with the parameters that the class
has for its name. These are its own if no other method has the name.
-/

namespace Compiscript.Check

open List hiding modify
open Compiscript.Tree

open Checker (Traced)

variable {P : Token → Prop} {before : List ClassInfo} {us us' : List String}
  {s s1 s' : Checker} {c c1 c' : ClassInfo}

/-- Nothing has changed but the class that was added last, which is `c` now. Names are
    asked for on the way. -/
def Fills (before : List ClassInfo) (us : List String) (s s' : Checker) (c : ClassInfo) : Prop :=
  ∃ es, s' = { s with errors := s.errors ++ es, classes := ⟨before ++ [c]⟩ } ∧
    (∀ e ∈ es, e.complaint.isAboutScopes = false) ∧
    (es = [] → ∀ u ∈ us, s.scopes.resolve? u ≠ none)

lemma Fills.trans (h : Fills before us s s1 c1) (h' : Fills before us' s1 s' c') :
    Fills before (us ++ us') s s' c' := by
  obtain ⟨es, rfl, hes, hus⟩ := h
  obtain ⟨es', rfl, hes', hus'⟩ := h'
  refine ⟨es ++ es', ?_, fun e he => ?_, fun hnil u hu => ?_⟩
  · rw [append_assoc]
  · exact (mem_append.1 he).elim (hes e) (hes' e)
  · obtain ⟨rfl, rfl⟩ := append_eq_nil_iff.1 hnil
    exact (mem_append.1 hu).elim (hus rfl u) (hus' rfl u)

lemma Fills.of_onlyComplains {α : Type} {x : Check α} {a : α} (hx : OnlyComplains x)
    (hs : s.classes.all = before ++ [c]) (hrun : Gives x s a s')
    (hus : Silent x s a → ∀ u ∈ us, s.scopes.resolve? u ≠ none) : Fills before us s s' c := by
  obtain ⟨es, hes, hscs⟩ := hx s
  have hs' : s' = { s with errors := s.errors ++ es } := (congrArg Prod.snd hrun).symm.trans hes
  refine ⟨es, ?_, hscs, fun hnil => hus ?_⟩
  · rw [hs', ← hs]
  · rw [hnil, append_nil] at hs'
    rw [hs'] at hrun
    exact hrun

lemma Fills.classes (h : Fills before us s s' c) : s'.classes.all = before ++ [c] := by
  obtain ⟨_, rfl, -⟩ := h
  rfl

lemma modify_last (before : List ClassInfo) (c : ClassInfo) (f : ClassInfo → ClassInfo) :
    (before ++ [c]).modify before.length f = before ++ [f c] := by
  induction before with
  | nil => rfl
  | cons b before ih => rw [cons_append, length_cons, modify_succ_cons, ih]; rfl

variable (hs : s.classes.all = before ++ [c])

include hs

lemma Fills.refl : Fills before [] s s c :=
  .of_onlyComplains (.pure ()) hs rfl fun _ _ hu => nomatch hu

variable {u : Unit} {p : Pos} {className : String} {sym : Symbol}

lemma fills_modify {f : ClassInfo → ClassInfo}
    (hrun : Gives (modify fun s => { s with classes := s.classes.modify before.length f }) s u s') :
    Fills before [] s s' (f c) := by
  cases hrun.of_modify
  refine ⟨[], ?_, fun _ he => (nomatch he), fun _ _ hu => (nomatch hu)⟩
  rw [Classes.modify, hs, modify_last, append_nil]

/-- Complaints leave the class as it is. -/
lemma Fills.of_complain {e : Complaint}
    (he : e.isOrdinary = true) (hrun : Gives (complain p e) s u s') : Fills before [] s s' c :=
  .of_onlyComplains (onlyComplains.complain p he) hs hrun fun _ _ hu => nomatch hu

lemma fills_extendBase {t : Tree} (hrun : Gives (extendBase t before.length) s u s') :
    ∃ c', Fills before [] s s' c' ∧ c'.methods = c.methods := by
  unfold extendBase at hrun
  split at hrun
  · cases hrun
    exact ⟨c, .refl hs, rfl⟩
  · obtain ⟨base, s1, hba, hrun⟩ := hrun.of_bind
    cases hba
    split at hrun
    · exact ⟨c, .of_complain hs rfl hrun, rfl⟩
    · exact ⟨_, fills_modify hs hrun, rfl⟩

lemma fills_addField (hrun : Gives (addField p before.length className sym) s u s') :
    ∃ c', Fills before [] s s' c' ∧ c'.methods = c.methods := by
  unfold addField at hrun
  replace hrun := hrun.of_get
  dsimp only at hrun
  split at hrun
  · exact ⟨c, .of_complain hs rfl hrun, rfl⟩
  · exact ⟨_, fills_modify hs hrun, rfl⟩

lemma fills_addMethod (hrun : Gives (addMethod p before.length className sym) s u s') :
    Fills before [] s s' { c with methods := c.methods.set sym.name sym } := by
  unfold addMethod at hrun
  obtain ⟨_, s1, hreq, hrun⟩ := hrun.of_get.of_bind
  have hfst : Fills before [] s s1 c :=
    .of_onlyComplains (.require _ _ rfl) hs hreq fun _ _ hu => nomatch hu
  exact hfst.trans (fills_modify hfst.classes hrun)

omit hs

/-! ### Members -/

lemma eq_of_member {m : Tree} (h : Derives P .classMember m) : ∃ l p r l' p' cs,
    m = .node ⟨.classMember, l⟩ p [.node ⟨r, l'⟩ p' cs] ∧
      (r = .functionDeclaration ∨ r = .variableDeclaration ∨ r = .constantDeclaration) := by
  obtain ⟨e, p, cs, he, hcs, rfl⟩ := h
  rcases mem_three.1 he with rfl | rfl | rfl
  all_goals
    cases hcs with
    | rule _ _ hcs => cases hcs with
    | nil => exact ⟨_, _, _, _, _, _, rfl, by simp⟩

section Member

variable {m : Tree} {l l' : Option Label} {p p' : Pos} {r : Rule} {cs : List Tree}
  (hm : m = .node ⟨.classMember, l⟩ p [.node ⟨r, l'⟩ p' cs])

include hm

lemma kid?_of_member : ∃ k, m.kid? r = some k ∧ k.tree = .node ⟨r, l'⟩ p' cs := by
  refine kid?_eq_some ?_
  simp [hm, children_node, isOf]

lemma kid?_of_member_ne {q : Rule} (hq : r ≠ q) : m.kid? q = none := by
  rw [kid?, kids_eq_nil]
  · rfl
  · rw [hm, children_node, filter_cons_of_neg (by simpa [isOf] using hq)]
    rfl

end Member

section Kid

variable {m : Tree} {q q' : Rule} {k : m.Sub} (h : Derives P .classMember m)
  (hk : m.kid? q = some k)

include h hk

lemma eq_of_kid : ∃ l p l' p' cs,
    m = .node ⟨.classMember, l⟩ p [.node ⟨q, l'⟩ p' cs] ∧ k.tree = .node ⟨q, l'⟩ p' cs := by
  obtain ⟨l, p, r, l', p', cs, hm, -⟩ := eq_of_member h
  obtain rfl : r = q := by
    by_contra hr
    rw [kid?_of_member_ne hm hr] at hk
    cases hk
  obtain ⟨k', hk', htree⟩ := kid?_of_member hm
  cases Option.some.inj (hk'.symm.trans hk)
  exact ⟨l, p, l', p', cs, hm, htree⟩

lemma kid?_eq_none_of_kid (hne : q ≠ q') : m.kid? q' = none := by
  obtain ⟨l, p, l', p', cs, hm, -⟩ := eq_of_kid h hk
  exact kid?_of_member_ne hm hne

end Kid

lemma nameOfMethod_eq {m : Tree} (h : Derives P .classMember m) {f : m.Sub}
    (hf : m.kid? .functionDeclaration = some f) : m.nameOfMethod = nameIn f.tree.children := by
  obtain ⟨l, p, r, l', p', cs, hm, hr⟩ := eq_of_member h
  by_cases hfun : r = .functionDeclaration
  · subst hfun
    obtain ⟨k, hk, hktree⟩ := kid?_of_member hm
    cases Option.some.inj (hk.symm.trans hf)
    rw [hktree, hm]
    rfl
  · rw [kid?_of_member_ne hm hfun] at hf
    cases hf

/-- A class has the method that a member declares, with the parameters of the member. -/
def HasMethod (c : ClassInfo) (m : Tree) : Prop :=
  ∀ f, m.kid? .functionDeclaration = some f → ∀ x ∈ nameIn f.tree.children,
    ∃ sym, c.methods.get? x = some sym ∧
      (paramsOf sym).map Prod.fst = paramsIn f.tree.children

/-- Taking in a member sets its own method and no other. -/
structure Takes (m : Tree) (c c' : ClassInfo) : Prop where
  method : HasMethod c' m
  others : ∀ x, x ∉ nameOfMethod m → c'.methods.get? x = c.methods.get? x

variable {t : Tree} {visit : t.Sub → Check Ty} (hv : Tracks t visit)

include hv

variable {m : t.Sub} {className : String} {u : Unit} {ms : List t.Sub} {id : Nat}

lemma fills_constant {k : m.tree.Sub} (hin : m.tree.Within t)
    (h : Derives P .constantDeclaration k.tree) (hvar : m.tree.kid? .variableDeclaration = none)
    (hk : m.tree.kid? .constantDeclaration = some k) (hs : s.classes.all = before ++ [c])
    (hrun : Gives (declareMember t visit before.length className m) s u s') :
    ∃ c', Fills before (if k.tree.children.any (·.isOf .typeMark) then []
      else usesOf false k.tree.children) s s' c' ∧ c'.methods = c.methods := by
  unfold declareMember at hrun
  rw [hvar, hk] at hrun
  obtain ⟨x, -, hrun⟩ := hrun.of_need
  cases hmk : k.tree.kid? .typeMark with
  | some mark =>
    have hany : k.tree.children.any (·.isOf .typeMark) = true := any_eq_true.2
      ⟨_, of_kid? hmk⟩
    rw [markedType?, hmk] at hrun
    rw [if_pos hany]
    exact fills_addField hs hrun
  | none =>
    have hany : ¬ k.tree.children.any (·.isOf .typeMark) = true := by
      intro hany
      have hso := isSome_kid? (any_eq_true.1 hany)
      rw [hmk] at hso
      cases hso
    have hp : ∀ e, (k.tree.kid? .expression).map (fun e => m.lift (k.lift e)) = some e →
        IsExpression e := by
      intro e he
      obtain ⟨e', he', rfl⟩ := Option.map_eq_some_iff.1 he
      exact ⟨(Within.of_kid? he').trans ((Within.of_kid? hk).trans hin),
        (of_mem_kids (mem_kids_of_kid? he')).2⟩
    rw [markedType?, hmk] at hrun
    rw [if_neg hany]
    obtain ⟨type, s1, hvis, hrun⟩ := hrun.of_bind
    have hval : Fills before (usesOf false k.tree.children) s s1 c := by
      refine .of_onlyComplains (hv.complains_part hp) hs hvis fun hsil u hu => ?_
      obtain ⟨e, he, hue⟩ := mem_usesOf_children h (by decide) hu
      obtain ⟨e', he', hsil⟩ := hsil.of_visitPart
      have hex := hp e' he'
      rw [h.kid?_of_mem (by decide) he, Option.map_some] at he'
      cases he'
      exact hv.declared _ hex.1 hex.2 s false ⟨type, hsil, by simp⟩ u hue
    obtain ⟨c', hfld, hmeths⟩ := fills_addField hval.classes hrun
    have hfills := hval.trans hfld
    rw [append_nil] at hfills
    exact ⟨c', hfills, hmeths⟩

lemma fills_declareMember (hin : m.tree.Within t)
    (h : Derives P .classMember m.tree) (hs : s.classes.all = before ++ [c])
    (hrun : Gives (declareMember t visit before.length className m) s u s') :
    ∃ c', Fills before m.tree.usesOfField s s' c' ∧ Takes m.tree c c' := by
  obtain ⟨l, p, r, l', p', cs, hm, hr⟩ := eq_of_member h
  obtain ⟨k, hk, hktree⟩ := kid?_of_member hm
  have hno : ∀ {q : Rule}, r ≠ q → m.tree.kid? q = none := fun hq => kid?_of_member_ne hm hq
  have htakes : r ≠ .functionDeclaration → ∀ c', c'.methods = c.methods → Takes m.tree c c' := by
    refine fun hr c' hmeths => ⟨fun f hf => ?_, fun y _ => by rw [hmeths]⟩
    rw [hno hr] at hf
    cases hf
  rcases hr with rfl | rfl | rfl
  · unfold declareMember at hrun
    rw [hno (q := .variableDeclaration) nofun, hno (q := .constantDeclaration) nofun, hk] at hrun
    obtain ⟨x, hx, hrun⟩ := hrun.of_need
    obtain ⟨params, s1, hpars, hadd⟩ := hrun.of_bind
    obtain ⟨hs1, hnms⟩ := Tracks.gives_parameters hpars
    rw [hs1] at hadd
    have hmeth := nameOfMethod_eq h hk
    have huses : m.tree.usesOfField = [] := by
      rw [hm]
      rfl
    refine ⟨_, huses ▸ fills_addMethod hs hadd, fun f hf y hy => ?_, fun y hy => ?_⟩
    · cases Option.some.inj (hk.symm.trans hf)
      rw [nameIn_eq hx, mem_singleton] at hy
      subst hy
      exact ⟨_, Table.get?_set_self _ _ _, hnms⟩
    · rw [hmeth, nameIn_eq hx, mem_singleton] at hy
      exact Table.get?_set_of_ne _ (Ne.symm hy) _
  · unfold declareMember at hrun
    rw [hk] at hrun
    obtain ⟨x, -, hrun⟩ := hrun.of_need
    obtain ⟨c', hfills, hmeths⟩ := fills_addField hs hrun
    have huses : m.tree.usesOfField = [] := by
      rw [hm]
      rfl
    exact ⟨c', huses ▸ hfills, htakes nofun c' hmeths⟩
  · have hder : Derives P .constantDeclaration k.tree :=
      h.of_isOf (.of_kid? hk) (isOf_of_kid? hk)
    obtain ⟨c', hfills, hmeths⟩ := fills_constant hv hin hder (hno nofun) hk hs hrun
    have huses : m.tree.usesOfField = if k.tree.children.any (·.isOf .typeMark) then []
        else usesOf false k.tree.children := by
      rw [hktree, hm]
      rfl
    exact ⟨c', huses ▸ hfills, htakes nofun c' hmeths⟩

/-- When all members have been taken in, every method is there with its own parameters,
    if no two have one name. -/
lemma fills_members (hin : ∀ m ∈ ms, m.tree.Within t)
    (h : ∀ m ∈ ms, Derives P .classMember m.tree)
    (hnd : (ms.flatMap fun m => m.tree.nameOfMethod).Nodup) {u : PUnit}
    (hs : s.classes.all = before ++ [c])
    (hrun : Gives (forIn ms PUnit.unit fun m _ => do
      declareMember t visit before.length className m
      return ForInStep.yield PUnit.unit) s u s') :
    ∃ c', Fills before (ms.flatMap fun m => m.tree.usesOfField) s s' c' ∧
      (∀ m ∈ ms, HasMethod c' m.tree) ∧
      ∀ x, x ∉ ms.flatMap (fun m => m.tree.nameOfMethod) →
        c'.methods.get? x = c.methods.get? x := by
  induction ms generalizing s c with
  | nil =>
    cases hrun
    exact ⟨c, .refl hs, fun _ hm => (nomatch hm), fun _ _ => rfl⟩
  | cons m ms ih =>
    rw [forall_mem_cons] at hin h
    rw [flatMap_cons, nodup_append] at hnd
    simp only [forIn_cons, bind_assoc, pure_bind] at hrun
    obtain ⟨_, s1, hmb, hrun⟩ := hrun.of_bind
    obtain ⟨c1, hfills, htakes⟩ := fills_declareMember hv hin.1 h.1 hs hmb
    obtain ⟨c', hfills', hmeths, hoth⟩ :=
      ih hin.2 h.2 hnd.2.1 hfills.classes hrun
    refine ⟨c', ?_, forall_mem_cons.2 ⟨?_, hmeths⟩, fun x hx => ?_⟩
    · rw [flatMap_cons]
      exact hfills.trans hfills'
    · intro f hf x hx
      obtain ⟨sym, hsym, hpars⟩ := htakes.method f hf x hx
      -- The names of later methods are others.
      have hlat : x ∉ ms.flatMap fun m => m.tree.nameOfMethod := by
        intro hmem
        rw [← nameOfMethod_eq h.1 hf] at hx
        exact hnd.2.2 x hx x hmem rfl
      exact ⟨sym, by rw [hoth x hlat, hsym], hpars⟩
    · rw [flatMap_cons, mem_append, not_or] at hx
      rw [hoth x hx.2, htakes.others x hx.1]

/-! ### Methods -/

omit hv in
lemma Follows.methodScope {os : List Outline} (p : Pos) (f : Symbol) (id : Nat)
    (className : String) {body : Check Unit} (h : Follows os body) :
    Follows [.scope (.declare p "this" :: ((paramsOf f).map (fun q => .declare p q.1) ++ os))] (do
      let outer := (← MonadState.get).inClass
      pushScope
      modify fun s => { s with inClass := some id }
      Check.define p (.ofVariable "this" (.class className) false true)
      Check.functionBody p f (paramsOf f) body
      modify fun s => { s with inClass := outer }
      popScope) := by
  have hset : ∀ g : Option Nat,
      Follows [] (modify fun s => { s with inClass := g } : Check Unit) := fun g =>
    .of_modify (fun _ => rfl) (fun _ => rfl) fun _ => prefix_rfl
  intro s a s' hrun
  have hins := (hset (some id)).bind fun _ =>
    (Follows.define p (.ofVariable "this" (.class className) false true)).bind fun _ =>
      (Follows.functionBody p f (paramsOf f) h).bind fun _ => hset s.inClass
  rw [append_nil] at hins
  have hsc := hins.scope
  simp only [bind_assoc] at hsc
  exact hsc s a s' hrun.of_get

lemma traced_methodBody (hin : m.tree.Within t) (h : Derives P .classMember m.tree)
    (hc : s.classes.all[id]? = some c) (hmeth : HasMethod c m.tree)
    (hrun : Gives (methodBody t visit id className m) s u s') :
    Traced (outlineMethods [m.tree]) s s' := by
  obtain ⟨l, p, r, l', p', cs, hm, hr⟩ := eq_of_member h
  obtain ⟨k, hk, hktree⟩ := kid?_of_member hm
  have hnn : r ≠ .functionDeclaration → Traced (outlineMethods [m.tree]) s s' := by
    intro hne
    unfold methodBody at hrun
    rw [kid?_of_member_ne hm hne] at hrun
    cases hrun
    have hout : outlineMethods [m.tree] = [] := by
      rw [hm]
      rcases hr with rfl | rfl | rfl
      · exact absurd rfl hne
      · rfl
      · rfl
    rw [hout]
    exact .refl s
  rcases hr with rfl | rfl | rfl
  · have hout : outlineMethods [m.tree] = [.scope (.declare k.tree.pos "this" ::
          ((paramsIn k.tree.children).map (.declare k.tree.pos) ++
            outlineAll k.tree.children))] := by
      rw [hktree, hm]
      rfl
    have hder : Derives P .functionDeclaration k.tree :=
      h.of_isOf (.of_kid? hk) (isOf_of_kid? hk)
    have hbd : Follows (outlineAll k.tree.children) (do
        let _ ← visitPart visit ((k.tree.kid? .block).map fun b => m.lift (k.lift b)) :
        Check Unit) := by
      rw [outlineAll_children (q := .block) hder (by decide)]
      refine .andReturn (fun s type s' hrun => ?_) _
      obtain ⟨b', hb', hrun⟩ := hrun.of_need
      obtain ⟨b, hb, rfl⟩ := Option.map_eq_some_iff.1 hb'
      rw [hder.kids_of_kid? (by decide) hb, flatMap_singleton]
      exact hv.follows _ ((Within.of_kid? hb).trans ((Within.of_kid? hk).trans hin))
        .block rfl (of_kid? hb).2 s type s' hrun
    unfold methodBody at hrun
    rw [hk] at hrun
    obtain ⟨x, hx, hrun⟩ := hrun.of_need
    obtain ⟨sym, hsym, hpars⟩ := hmeth k hk x (by simp [nameIn_eq hx])
    replace hrun := hrun.of_get
    have hget : ((s.classes.get? id).bind (·.methods.get? x)).getD default = sym := by
      rw [Classes.get?, hc, Option.bind_some, hsym, Option.getD_some]
    rw [hget] at hrun
    rw [hout, ← hpars, map_map]
    exact Follows.methodScope k.tree.pos sym id className hbd s u s' hrun
  · exact hnn nofun
  · exact hnn nofun

lemma traced_methods
    (hin : ∀ m ∈ ms, m.tree.Within t) (h : ∀ m ∈ ms, Derives P .classMember m.tree)
    (hc : s.classes.all[id]? = some c) (hmeths : ∀ m ∈ ms, HasMethod c m.tree) {u : PUnit}
    (hrun : Gives (forIn ms PUnit.unit fun m _ => do
      methodBody t visit id className m
      return ForInStep.yield PUnit.unit) s u s') :
    Traced (ms.flatMap fun m => outlineMethods [m.tree]) s s' := by
  induction ms generalizing s with
  | nil =>
    cases hrun
    exact .refl _
  | cons m ms ih =>
    rw [forall_mem_cons] at hin h hmeths
    simp only [forIn_cons, bind_assoc, pure_bind] at hrun
    obtain ⟨_, s1, hmeth, hrun⟩ := hrun.of_bind
    have hfst := traced_methodBody hv hin.1 h.1 hc hmeths.1 hmeth
    have hc1 : s1.classes.all[id]? = some c := by
      obtain ⟨later, hlat⟩ := hfst.classes
      rw [← hlat, getElem?_append_left (List.getElem?_eq_some_iff.1 hc).1, hc]
    rw [flatMap_cons]
    exact hfst.trans (ih hin.2 h.2 hc1 hmeths.2 hrun)

omit hv in
lemma classes_of_define (h : Gives (define p sym) s u s') : s'.classes = s.classes := by
  rw [Gives, run_define] at h
  cases (Prod.mk.inj h).2
  cases s.scopes.define? sym <;> rfl

/-- Classes follow their outlines, if no two methods of theirs have one name. -/
lemma Tracks.follows_class (h : Derives P .classDeclaration t)
    (hnd : (t.children.flatMap nameOfMethod).Nodup) : Follows t.outline (declareClass t visit) := by
  have hout : t.outline = (nameIn t.children).map (.declare t.pos) ++
      (t.children.flatMap usesOfField).map .use ++ outlineMethods t.children := by
    obtain ⟨_, _, _, -, -, rfl⟩ := id h
    rfl
  have hks : ∀ {β : Type} (f : Tree → List β), (∀ tok, f (.leaf tok) = []) →
      t.children.flatMap f = (t.kids .classMember).flatMap fun m => f m.tree := by
    refine fun f hf => flatMap_children fun c hc hno => ?_
    obtain ⟨tok, rfl⟩ := h.leaf_of_mem hc (by decide) hno
    exact hf tok
  have hin : ∀ m ∈ t.kids .classMember, m.tree.Within t := fun _ => .of_kids
  have hder : ∀ m ∈ t.kids .classMember, Derives P .classMember m.tree := fun m hm =>
    h.of_isOf (hin m hm) (of_mem_kids hm).2
  rw [hks _ fun _ => rfl] at hnd
  rw [hout, outlineMethods_eq, hks _ fun _ => rfl, hks _ fun _ => rfl]
  unfold declareClass
  refine follows_named fun x hx => ?_
  rw [hx]
  intro s a s' hrun
  obtain ⟨_, s1, hadd, hrun⟩ := hrun.of_get.of_bind
  cases hadd.of_modify
  obtain ⟨_, s2, hdef, hrun⟩ := hrun.of_bind
  obtain ⟨_, s3, hnm, hrun⟩ := hrun.of_bind
  cases hnm.of_modify
  obtain ⟨_, s4, hba, hrun⟩ := hrun.of_bind
  obtain ⟨_, s5, hmbs, hrun⟩ := hrun.of_bind
  obtain ⟨_, s6, hmeths, hrun⟩ := hrun.of_bind
  cases hrun
  have hadded : Traced [] s { s with
      classes := ⟨s.classes.all ++ [⟨x, .empty, .empty, none⟩]⟩ } :=
    .of_same rfl rfl (prefix_append _ _)
  have hdec := hadded.trans (Follows.define t.pos _ _ _ _ hdef)
  have hcls := congrArg Classes.all (classes_of_define hdef)
  -- The class that was added is the last one until the first method is read.
  obtain ⟨c1, hfills, -⟩ := fills_extendBase
    (s := { s2 with classNames := s2.classNames.set x s.classes.all.length }) hcls hba
  obtain ⟨c2, hfills', hhas, -⟩ :=
    fills_members hv hin hder hnd hfills.classes hmbs
  obtain ⟨es, hs5, hes, hus⟩ := hfills.trans hfills'
  have huses := Traced.of_errors (s := s2) rfl hes hus
  have hbef : Traced _ s s5 := (hdec.trans huses).congr (by rw [hs5]) (by rw [hs5])
    (by rw [hs5]; exact prefix_append _ _)
  refine hbef.trans (traced_methods hv hin hder (c := c2) ?_ hhas hmeths)
  rw [hs5]
  exact getElem?_concat_length

end Compiscript.Check
