import Compiscript.Proofs.Codegen.Resolver

/-!
# Classes and Their Bases

Looking up a member goes from class to class along the bases, which would never end if a class
were among its own bases.

Classes are numbered in the order of their declarations, and the base of a class has a smaller
number. Of all that a check does, only the head of a class matters for it: the base is
looked up when the class itself can already be found, but under another name.

## Main definitions

* `Checker.Reached`: All states that a check can come to, by what is done to the classes.

## Theorems

* `Checker.lookup_finds_nearest`: The nearest class on the way that has a member gives it.
-/

namespace Compiscript

open List hiding modify

lemma Table.eq_or_get?_of_set {κ α : Type} [DecidableEq κ] {t : Table κ α} {x y : κ} {a b : α}
    (h : (t.set x a).get? y = some b) : (x = y ∧ b = a) ∨ t.get? y = some b := by
  by_cases hxy : x = y
  · subst hxy
    rw [get?_set_self] at h
    exact .inl ⟨rfl, (Option.some.inj h).symm⟩
  · rw [get?_set_of_ne t hxy] at h
    exact .inr h

/-! ### The order of classes -/

/-- Classes extend classes that came before them, and names stand for classes that there are. -/
structure Checker.Ordered (s : Checker) : Prop where
  bases : ∀ id c, s.classes.get? id = some c → ∀ b, c.base = some b → b < id
  named : ∀ x id, s.classNames.get? x = some id → id < s.classes.all.length

namespace Checker.Ordered

variable {s s' : Checker} (h : s.Ordered)

include h

lemma of_eq (hcls : s'.classes = s.classes) (hnms : s'.classNames = s.classNames) : s'.Ordered := by
  constructor
  · rw [hcls]
    exact h.bases
  · rw [hcls, hnms]
    exact h.named

lemma add (x : String) : ({ s with classes := (s.classes.add x).1 } : Checker).Ordered where
  bases id c hc b hb := by
    rw [Classes.get?, Classes.add] at hc
    rcases Nat.lt_or_ge id s.classes.all.length with hlt | hge
    · rw [getElem?_append_left hlt] at hc
      exact h.bases id c hc b hb
    · rw [getElem?_append_right hge] at hc
      rw [mem_singleton.1 (mem_of_getElem? hc)] at hb
      cases hb
  named y id hy := by
    rw [Classes.add, length_append]
    exact (h.named y id hy).trans_le (Nat.le_add_right _ _)

lemma name {id : Nat} (hid : id < s.classes.all.length) (x : String) :
    ({ s with classNames := s.classNames.set x id } : Checker).Ordered where
  bases := h.bases
  named y j hy := by
    rcases Table.eq_or_get?_of_set hy with ⟨-, rfl⟩ | hy
    · exact hid
    · exact h.named y j hy

lemma change (id : Nat) {f : ClassInfo → ClassInfo}
    (hf : ∀ c, s.classes.get? id = some c → ∀ b, (f c).base = some b → b < id) :
    ({ s with classes := s.classes.modify id f } : Checker).Ordered where
  bases j d hd b hb := by
    rw [Classes.get?, Classes.modify, getElem?_modify] at hd
    obtain ⟨c, hc, rfl⟩ := Option.map_eq_some_iff.1 hd
    split at hb
    · rename_i hid
      exact hid ▸ hf c (hid ▸ hc) b hb
    · exact h.bases j c hc b hb
  named x j hx := by
    rw [Classes.modify, length_modify]
    exact h.named x j hx

lemma extend (p : Pos) (x : String) (id : Nat) (b? : Option Nat) :
    (∀ b, b? = some b → b < id) → ((match b? with
      | none => Check.complain p (.noBaseClass x)
      | some b => modify fun s =>
        { s with classes := s.classes.modify id ({ · with base := some b }) } : Check Unit).run
      s).2.Ordered := by
  intro hba
  cases b? with
  | none => exact h.of_eq rfl rfl
  | some b => exact h.change id fun _ _ b' hb' => Option.some.inj hb' ▸ hba b rfl

lemma extendBase (t : Tree) (id : Nat)
    (hba : ∀ x, Check.baseName? t = some x → ∀ b, s.classNames.get? x = some b → b < id) :
    ((Check.extendBase t id).run s).2.Ordered := by
  unfold Check.extendBase
  cases hx : Check.baseName? t with
  | none => exact h
  | some x =>
    exact h.extend t.pos x id _ (hba x hx)

/-- The base of a class is found under another name than its own, so it came before. -/
lemma classHead {t : Tree} (hof : t.isOf .classDeclaration = true)
    (hself : t.extendsItself = false) : ((Check.classHead t).run s).2.Ordered := by
  unfold Check.classHead Check.tokenText
  cases hx : t.tokenText? .identifier with
  | none => exact h
  | some x =>
    obtain ⟨s2, hdef, hcls, hnms⟩ : ∃ s2 : Checker,
        (Check.define t.pos (.ofClass x (.class x) s.classes.all.length)).run
          { s with classes := (s.classes.add x).1 } = (.ok (), s2) ∧
        s2.classes = (s.classes.add x).1 ∧ s2.classNames = s.classNames := by
      rw [Check.run_define]
      split <;> exact ⟨_, rfl, rfl, rfl⟩
    have hlt : s.classes.all.length < s2.classes.all.length := by simp [hcls, Classes.add]
    have hnam := ((h.add x).of_eq hcls hnms).name hlt x
    have hext := hnam.extendBase t s.classes.all.length fun y hy b hb => by
      rcases Table.eq_or_get?_of_set hb with ⟨rfl, -⟩ | hb
      · simp [Tree.extendsItself, hof, hx, hy] at hself
      · exact h.named y b (hnms ▸ hb)
    change (ExceptT.run (do
      Check.define t.pos (.ofClass x (.class x) s.classes.all.length)
      modify fun s' => { s' with classNames := s'.classNames.set x s.classes.all.length }
      Check.extendBase t s.classes.all.length
      return (x, s.classes.all.length) : Check (String × Nat))
        { s with classes := (s.classes.add x).1 }).2.Ordered
    rw [Check.run_bind, hdef]
    change (ExceptT.run (do
      Check.extendBase t s.classes.all.length
      return (x, s.classes.all.length) : Check (String × Nat))
        { s2 with classNames := s2.classNames.set x s.classes.all.length }).2.Ordered
    rw [Check.run_bind]
    rcases hrun : (Check.extendBase t s.classes.all.length).run _ with ⟨_ | _, s3⟩ <;>
      rw [hrun] at hext <;> exact hext

end Checker.Ordered

/-! ### Chains of bases -/

namespace Classes

/-- The classes on the way from a class along the bases, to one that has none. -/
inductive Chain (cs : Classes) : Nat → List Nat → Prop
  | last {id : Nat} {c : ClassInfo} (hc : cs.get? id = some c) (hba : c.base = none) :
    Chain cs id [id]
  | next {id b : Nat} {c : ClassInfo} {rest : List Nat} (hc : cs.get? id = some c)
    (hba : c.base = some b) (h : Chain cs b rest) : Chain cs id (id :: rest)

lemma exists_chain {s : Checker} (h : s.Ordered) {id : Nat} (hid : id < s.classes.all.length) :
    ∃ ids, s.classes.Chain id ids ∧ ids.Nodup ∧ ids.length ≤ id + 1 ∧ ∀ j ∈ ids, j ≤ id := by
  have hc : s.classes.get? id = some s.classes.all[id] := getElem?_eq_getElem hid
  cases hba : s.classes.all[id].base with
  | none => exact ⟨[id], .last hc hba, by simp, by simp, by simp⟩
  | some b =>
    have hb := h.bases id _ hc b hba
    obtain ⟨ids, hcha, hnd, hlen, hle⟩ := exists_chain h (hb.trans hid)
    refine ⟨id :: ids, .next hc hba hcha, nodup_cons.2 ⟨fun hmem => ?_, hnd⟩, ?_, ?_⟩
    · exact absurd (hle id hmem) (by omega)
    · rw [length_cons]
      omega
    · exact forall_mem_cons.2 ⟨le_rfl, fun j hj => (hle j hj).trans hb.le⟩
termination_by id

/-- A search that is long enough finds what the first class on the chain has to offer. -/
lemma Chain.search_go {cs : Classes} {id : Nat} {ids : List Nat} (h : cs.Chain id ids)
    {α : Type} (find : ClassInfo → Option α) {fuel : Nat} (hfu : ids.length ≤ fuel) :
    search.go cs find fuel (some id) = (ids.filterMap cs.get?).findSome? find := by
  have hsp : ∀ {id c fuel rest}, cs.get? id = some c →
      search.go cs find fuel c.base = (rest.filterMap cs.get?).findSome? find →
      search.go cs find (fuel + 1) (some id) = ((id :: rest).filterMap cs.get?).findSome? find := by
    intro id c fuel rest hc hr
    rw [search.go, hc, filterMap_cons_some hc, findSome?_cons, ← hr]
    dsimp only
    cases find c <;> rfl
  induction h generalizing fuel with
  | last hc hba =>
    obtain _ | fuel := fuel
    · cases hfu
    · exact hsp hc (by rw [hba]; cases fuel <;> rfl)
  | next hc hba _ ih =>
    obtain _ | fuel := fuel
    · cases hfu
    · exact hsp hc (by rw [hba]; exact ih (Nat.le_of_succ_le_succ hfu))

end Classes

/-! ### All states of a check -/

/-- The states that the check of a program can come to. -/
inductive Checker.Reached (program : Tree) : Checker → Prop
  | start : Reached program .start
  | aside {s s' : Checker} (h : Reached program s) (hcls : s'.classes = s.classes)
    (hnms : s'.classNames = s.classNames) : Reached program s'
  | head {s : Checker} (h : Reached program s) {t : Tree} (ht : t.Within program)
    (hof : t.isOf .classDeclaration = true) : Reached program ((Check.classHead t).run s).2
  | fill {s : Checker} (h : Reached program s) (id : Nat) {f : ClassInfo → ClassInfo}
    (hf : ∀ c, (f c).base = c.base) : Reached program { s with classes := s.classes.modify id f }

namespace Checker

variable {program : Tree} {s : Checker}

/-- The check of a part of the program leads to such a state, even if it stops halfway. -/
lemma Reached.check (hs : Reached program s) {t : Tree} (ht : t.Within program) :
    Reached program ((Compiscript.check t).run s).2 := by
  have hpas : Check.Passing fun s s' => Reached program s → Reached program s' :=
    { trans := fun _ _ _ h h' hs => h' (h hs)
      aside := fun hcls hnms _ hs => hs.aside hcls hnms
      fill := fun _ id _ hf hs => hs.fill id hf }
  exact hpas.check (fun c hc hof s hs => hs.head (hc.trans ht) hof) s hs

lemma Reached.ordered (hself : program.Everywhere fun c => c.extendsItself = false)
    (hs : Reached program s) : s.Ordered := by
  induction hs with
  | start => exact ⟨fun _ _ hc => (nomatch hc), fun _ _ hx => nomatch hx⟩
  | aside _ hcls hnms ih => exact ih.of_eq hcls hnms
  | head _ ht hof ih => exact ih.classHead hof (hself _ ht)
  | fill _ id hf ih =>
    exact ih.change id fun c hc b hb => ih.bases id c hc b (hf c ▸ hb)

/-- Take a program in which no class names itself as its base, and any state that its check can come
    to. All classes there are have finitely many bases, which are different classes, and a field or
    method is looked up in the class and its bases one by one up to the first that has it. -/
theorem lookup_finds_nearest (hself : program.Everywhere fun c => c.extendsItself = false)
    (hs : Reached program s) : (∀ t, t.Within program → Reached program (Checker.run t s).2) ∧
    (∀ x id, s.classNames.get? x = some id → id < s.classes.all.length) ∧
    ∀ id, id < s.classes.all.length → ∃ ids, s.classes.Chain id ids ∧ ids.Nodup ∧ ∀ x,
      s.classes.field? id x = (ids.filterMap s.classes.get?).findSome? (·.fields.get? x) ∧
      s.classes.method? id x = (ids.filterMap s.classes.get?).findSome? (·.methods.get? x) := by
  have hord := hs.ordered hself
  refine ⟨fun t ht => hs.check ht, hord.named, fun id hid => ?_⟩
  obtain ⟨ids, hcha, hnd, hlen, -⟩ := Classes.exists_chain hord hid
  have hfu : ids.length ≤ s.classes.all.length := hlen.trans hid
  exact ⟨ids, hcha, hnd, fun x => ⟨hcha.search_go _ hfu, hcha.search_go _ hfu⟩⟩

/-- A class, and another one that extends it. -/
def twoClasses : Tree :=
  let leaf := fun k x => Tree.leaf ⟨k, x, ⟨1, 0⟩⟩
  let declaration := fun cs =>
    Tree.node ⟨.statement, none⟩ ⟨1, 0⟩ [.node ⟨.classDeclaration, none⟩ ⟨1, 0⟩ cs]
  .node ⟨.program, none⟩ ⟨1, 0⟩ [declaration [leaf .identifier "A"],
    declaration [leaf .identifier "B", leaf .colon ":", leaf .identifier "A",
      leaf .closeBrace "\x7d"]]

/-- Members of the second class are looked up on the chain of the two. -/
theorem lookup_finds_nearest_twoClasses :
    twoClasses.Everywhere (fun c => c.extendsItself = false) ∧
    ∃ s, Reached twoClasses s ∧ s.classes.Chain 1 [1, 0] ∧ ∀ x, s.classes.field? 1 x =
      ([1, 0].filterMap s.classes.get?).findSome? (·.fields.get? x) := by
  have hself : twoClasses.Everywhere fun c => c.extendsItself = false := by decide
  have hbases : (run twoClasses .start).2.classes.all.map (·.base) = [none, some 0] := by
    rw [Gen.run_eq_checkedUpTo (by decide +kernel)]
    decide +kernel
  have hs := (lookup_finds_nearest hself .start).1 _ (.refl _)
  obtain ⟨-, -, hchai⟩ := lookup_finds_nearest hself hs
  obtain ⟨ids, hchain, -, hfound⟩ := hchai 1 (by rw [← length_map, hbases]; decide)
  have hbase : ∀ {id : Nat} {c : ClassInfo}, (run twoClasses .start).2.classes.get? id =
      some c → [none, some 0][id]? = some c.base := fun hc => by
    rw [← hbases, getElem?_map]
    exact congrArg (Option.map _) hc
  obtain rfl : ids = [1, 0] := by
    cases hchain with
    | last hc hnone => cases (hbase hc).trans (congrArg some hnone)
    | next hc hb hchain =>
      cases (hbase hc).trans (congrArg some hb)
      cases hchain with
      | last => rfl
      | next hc hb => cases (hbase hc).trans (congrArg some hb)
  exact ⟨hself, _, hs, hchain, fun x => (hfound x).1⟩

end Checker

end Compiscript
