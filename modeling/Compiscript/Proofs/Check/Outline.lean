import Compiscript.Proofs.Check.Uses

/-!
# What a Program Does with Names

The outline of a program: its declarations, its assignments to variables, the names
whose types are asked for, and the scopes they stand in.

An outline is read in two ways. `Outline.walk` goes through it with the names of the
open scopes, as a checker does, and collects what is wrong. `faults` has no scopes to
keep: every occurrence of a name knows the scope it stands in, and it is compared with
those before it.

A scope is known by its path, the numbers of the scopes that lead to it, with its own
number first. A scope encloses those whose paths end in its own.
-/

namespace Compiscript

open List

/-- What a part of a program does with names. -/
inductive Outline where
  | declare (p : Pos) (x : String)
  | assign (p : Pos) (x : String)
  /-- The type of a name is asked for. -/
  | use (x : String)
  | scope (body : List Outline)

namespace Tree

/-- The name that a node declares: its first identifier. -/
def nameIn (cs : List Tree) : List String :=
  ((cs.filter (·.isToken .identifier)).map text).head?.toList

lemma nameIn_eq {t : Tree} {x : String} (hx : t.tokenText? .identifier = some x) :
    nameIn t.children = [x] := congrArg Option.toList hx

/-- The names of the parameters of a function. -/
def paramsIn (cs : List Tree) : List String :=
  match cs.find? (·.isOf .parameters) with
  | some ps => (ps.children.filter (·.isOf .parameter)).flatMap fun p => nameIn p.children
  | none => []

/-- The variable that an assignment writes to. -/
def targetIn : List Tree → List String
  | .leaf x :: _ => [x.text]
  | _ => []

/-- The names in the header of a `for`: the first expression is a condition. -/
def usesOfHeader (cs : List Tree) : List String :=
  match cs.filter (·.isOf .expression) with
  | [] => []
  | e :: es => usesOf true [e] ++ usesOf false es

/-- The names in the value of a constant in a class. If it has a written type then its
    value is not looked at. -/
def usesOfField : Tree → List String
  | .node ⟨.classMember, _⟩ _ [.node ⟨.constantDeclaration, _⟩ _ cs] =>
    if cs.any (·.isOf .typeMark) then [] else usesOf false cs
  | _ => []

/-- The name of a method of a class. -/
def nameOfMethod : Tree → List String
  | .node ⟨.classMember, _⟩ _ [.node ⟨.functionDeclaration, _⟩ _ cs] => nameIn cs
  | _ => []

mutual

/-- The outline of a tree. -/
def outline : Tree → List Outline
  | .node ⟨.block, _⟩ _ cs => [.scope (outlineAll cs)]
  | .node ⟨.variableDeclaration, _⟩ p cs =>
    (nameIn cs).map (.declare p) ++ (usesOf false cs).map .use
  | .node ⟨.constantDeclaration, _⟩ p cs =>
    (usesOf (cs.any (·.isOf .typeMark)) cs).map .use ++ (nameIn cs).map (.declare p)
  | .node ⟨.assignment, _⟩ p cs => (targetIn cs).map (.assign p) ++ (usesOf true cs).map .use
  | .node ⟨.expressionStatement, _⟩ _ cs => (usesOf false cs).map .use
  | .node ⟨.printStatement, _⟩ _ cs => (usesOf false cs).map .use
  | .node ⟨.returnStatement, _⟩ _ cs => (usesOf true cs).map .use
  | .node ⟨.ifStatement, _⟩ _ cs => (usesOf true cs).map .use ++ outlineAll cs
  | .node ⟨.whileStatement, _⟩ _ cs => (usesOf true cs).map .use ++ outlineAll cs
  | .node ⟨.doWhileStatement, _⟩ _ cs => outlineAll cs ++ (usesOf true cs).map .use
  | .node ⟨.forStatement, _⟩ _ (_ :: _ :: start :: rest) =>
    outline start ++ (usesOfHeader rest).map .use ++ outlineAll rest
  | .node ⟨.foreachStatement, _⟩ p cs =>
    (usesOf true cs).map .use ++ [.scope ((nameIn cs).map (.declare p) ++ outlineAll cs)]
  | .node ⟨.functionDeclaration, _⟩ p cs =>
    (nameIn cs).map (.declare p) ++ [.scope ((paramsIn cs).map (.declare p) ++ outlineAll cs)]
  | .node ⟨.classDeclaration, _⟩ p cs =>
    (nameIn cs).map (.declare p) ++ (cs.flatMap usesOfField).map .use ++ outlineMethods cs
  | .node ⟨.program, _⟩ _ cs | .node ⟨.statement, _⟩ _ cs | .node ⟨.tryCatchStatement, _⟩ _ cs
  | .node ⟨.switchStatement, _⟩ _ cs | .node ⟨.switchCase, _⟩ _ cs
  | .node ⟨.defaultCase, _⟩ _ cs => outlineAll cs
  | _ => []

/-- The outline of several trees. -/
def outlineAll : List Tree → List Outline
  | [] => []
  | c :: cs => outline c ++ outlineAll cs

/-- The outline of the methods of a class. The object itself is declared in the scope
    of the parameters. -/
def outlineMethods : List Tree → List Outline
  | [] => []
  | .node ⟨.classMember, _⟩ _ [.node ⟨.functionDeclaration, _⟩ p cs] :: ms =>
    .scope (.declare p "this" :: ((paramsIn cs).map (.declare p) ++ outlineAll cs)) ::
      outlineMethods ms
  | _ :: ms => outlineMethods ms

end

lemma outlineAll_eq (cs : List Tree) : outlineAll cs = cs.flatMap outline := by
  induction cs with
  | nil => rfl
  | cons c cs ih => rw [outlineAll, ih, flatMap_cons]

lemma outlineMethods_eq (cs : List Tree) :
    outlineMethods cs = cs.flatMap fun c => outlineMethods [c] := by
  have hcons : ∀ c cs, outlineMethods (c :: cs) = outlineMethods [c] ++ outlineMethods cs := by
    intro c cs
    rw [outlineMethods.eq_def, outlineMethods.eq_def [c]]
    split <;> simp_all [outlineMethods]
  induction cs with
  | nil => rfl
  | cons c cs ih => rw [hcons, ih, flatMap_cons]

end Tree

/-- What is wrong with a name. -/
inductive Fault where
  | redeclared (p : Pos) (x : String)
  | undeclared (p : Pos) (x : String)
  /-- A name whose type is asked for is not declared. -/
  | unbound (x : String)
deriving DecidableEq, Repr

/-- The complaint about a fault. Names that are used have none of their own. -/
def Fault.error? : Fault → Option SemanticError
  | .redeclared p x => some ⟨p, .redeclared x⟩
  | .undeclared p x => some ⟨p, .undeclared x⟩
  | .unbound _ => none

/-- The names of the open scopes, the innermost first. -/
abbrev Names := List (List String)

/-- Add a name to the innermost scope. -/
def Names.add (x : String) : Names → Names
  | [] => []
  | xs :: rest => (xs ++ [x]) :: rest

mutual

/-- Go through an outline with the names of the open scopes. -/
def Outline.walk (names : Names) : Outline → Names × List Fault
  | .declare p x =>
    if x ∈ names.headD [] then (names, [.redeclared p x]) else (names.add x, [])
  | .assign p x => (names, if x ∈ names.flatten then [] else [.undeclared p x])
  | .use x => (names, if x ∈ names.flatten then [] else [.unbound x])
  | .scope body => (names, (walkAll ([] :: names) body).2)

/-- Go through several outlines in turn. -/
def walkAll (names : Names) : List Outline → Names × List Fault
  | [] => (names, [])
  | o :: os =>
    let r := o.walk names
    let r' := walkAll r.1 os
    (r'.1, r.2 ++ r'.2)

end

lemma walkAll_append (names : Names) (os os' : List Outline) : walkAll names (os ++ os') =
      ((walkAll (walkAll names os).1 os').1,
        (walkAll names os).2 ++ (walkAll (walkAll names os).1 os').2) := by
  induction os generalizing names with
  | nil => rfl
  | cons o os ih =>
    rw [cons_append, walkAll, walkAll, ih]
    simp

lemma walkAll_singleton (names : Names) (o : Outline) : walkAll names [o] = o.walk names := by
  rw [walkAll, walkAll]
  simp

/-- Uses change nothing, and are all good if all names are declared. -/
lemma walkAll_uses (names : Names) (us : List String) : (walkAll names (us.map .use)).1 = names ∧
      (walkAll names (us.map .use)).2.filterMap Fault.error? = [] ∧
      ((∀ u ∈ us, u ∈ names.flatten) → (walkAll names (us.map .use)).2 = []) := by
  induction us with
  | nil => exact ⟨rfl, rfl, fun _ => rfl⟩
  | cons u us ih =>
    rw [map_cons, walkAll, Outline.walk]
    refine ⟨ih.1, ?_, fun h => ?_⟩
    · rw [filterMap_append, ih.2.1]
      split <;> rfl
    · rw [forall_mem_cons] at h
      rw [ih.2.2 h.2, if_pos h.1]
      rfl

/-! ### Occurrences -/

/-- What happens to a name. -/
inductive Act where
  | declares (p : Pos)
  | assigns (p : Pos)
  | uses
deriving DecidableEq, Repr

/-- Something happens to a name in a scope, which is given by its path. -/
structure Occurrence where
  act : Act
  name : String
  scope : List Nat
deriving DecidableEq, Repr

mutual

/-- The occurrences of names in an outline that is number `i` in a scope. -/
def Outline.occurrences (path : List Nat) (i : Nat) : Outline → List Occurrence
  | .declare p x => [⟨.declares p, x, path⟩]
  | .assign p x => [⟨.assigns p, x, path⟩]
  | .use x => [⟨.uses, x, path⟩]
  | .scope body => occurrencesIn (i :: path) 0 body

/-- The occurrences of names in outlines that stand in a scope from number `i` on. -/
def occurrencesIn (path : List Nat) (i : Nat) : List Outline → List Occurrence
  | [] => []
  | o :: os => o.occurrences path i ++ occurrencesIn path (i + 1) os

end

/-- A name is declared here. -/
def Occurrence.declares (o : Occurrence) (x : String) : Bool :=
  match o.act with
  | .declares _ => o.name == x
  | _ => false

/-- A name has been declared in a scope. -/
def DeclaredIn (before : List Occurrence) (x : String) (path : List Nat) : Prop :=
  ∃ d ∈ before, d.declares x = true ∧ d.scope = path

/-- A name has been declared in a scope or in one that encloses it. -/
def DeclaredAround (before : List Occurrence) (x : String) (path : List Nat) : Prop :=
  ∃ d ∈ before, d.declares x = true ∧ d.scope <:+ path

instance (before : List Occurrence) (x : String) (path : List Nat) :
    Decidable (DeclaredIn before x path) :=
  inferInstanceAs (Decidable (∃ d ∈ before, d.declares x = true ∧ d.scope = path))

instance (before : List Occurrence) (x : String) (path : List Nat) :
    Decidable (DeclaredAround before x path) :=
  inferInstanceAs (Decidable (∃ d ∈ before, d.declares x = true ∧ d.scope <:+ path))

/-- What is wrong with an occurrence, given those before it. -/
def Occurrence.fault? (before : List Occurrence) (o : Occurrence) : Option Fault :=
  match o.act with
  | .declares p => if DeclaredIn before o.name o.scope then some (.redeclared p o.name) else none
  | .assigns p => if DeclaredAround before o.name o.scope then none else some (.undeclared p o.name)
  | .uses => if DeclaredAround before o.name o.scope then none else some (.unbound o.name)

/-- What is wrong with occurrences, each compared with those before it. -/
def faults (before : List Occurrence) : List Occurrence → List Fault
  | [] => []
  | o :: os => (o.fault? before).toList ++ faults (before ++ [o]) os

lemma faults_append (before os os' : List Occurrence) :
    faults before (os ++ os') = faults before os ++ faults (before ++ os) os' := by
  induction os generalizing before with
  | nil => simp [faults]
  | cons o os ih => simp [faults, ih]

/-! ### Both readings agree -/

/-- The names of the open scopes are those that have been declared in them. -/
def Fits (names : Names) (before : List Occurrence) (path : List Nat) : Prop :=
  List.Forall₂ (fun xs scope => ∀ x, x ∈ xs ↔ DeclaredIn before x scope) names path.tails

/-- No scope has been opened in a scope from number `i` on. -/
def Unopened (before : List Occurrence) (path : List Nat) (i : Nat) : Prop :=
  ∀ d ∈ before, ∀ j, i ≤ j → ¬ (j :: path) <:+ d.scope

section Agree

variable {names : Names} {before : List Occurrence} {path : List Nat} {i : Nat}

variable {os : List Occurrence} {o : Occurrence}

lemma declaredIn_append {x : String} :
    DeclaredIn (before ++ os) x path ↔ DeclaredIn before x path ∨ DeclaredIn os x path := by
  simp only [DeclaredIn, mem_append, or_and_right, exists_or]

lemma Fits.mem_flatten (h : Fits names before path) (x : String) :
    x ∈ names.flatten ↔ DeclaredAround before x path := by
  have hfor : ∀ {scopes : List (List Nat)} {names : Names},
      Forall₂ (fun xs scope => ∀ x, x ∈ xs ↔ DeclaredIn before x scope) names scopes →
        (x ∈ names.flatten ↔ ∃ scope ∈ scopes, DeclaredIn before x scope) := by
    intro scopes names h
    induction h with
    | nil => simp
    | cons hxs _ ih => simp [hxs x, ih]
  rw [hfor h]
  simp only [mem_tails]
  constructor
  · rintro ⟨_, hsc, d, hd, hx, rfl⟩
    exact ⟨d, hd, hx, hsc⟩
  · rintro ⟨d, hd, hx, hsc⟩
    exact ⟨d.scope, hsc, d, hd, hx, rfl⟩

lemma Fits.exists_cons (h : Fits names before path) : ∃ xs rest, names = xs :: rest ∧
    ∀ x, x ∈ xs ↔ DeclaredIn before x path := by
  unfold Fits at h
  cases path with
  | nil | cons _ _ =>
    obtain ⟨xs, rest, hxs, -, rfl⟩ := forall₂_cons_right_iff.1 h
    exact ⟨xs, rest, rfl, hxs⟩

lemma forall₂_declaredIn_congr {scopes : List (List Nat)} {after : List Occurrence}
    (h : Forall₂ (fun xs scope => ∀ x, x ∈ xs ↔ DeclaredIn before x scope) names scopes)
    (hsm : ∀ scope ∈ scopes, ∀ x, DeclaredIn after x scope ↔ DeclaredIn before x scope) :
    Forall₂ (fun xs scope => ∀ x, x ∈ xs ↔ DeclaredIn after x scope) names scopes := by
  induction h with
  | nil => exact .nil
  | cons hxs _ ih =>
    rw [forall_mem_cons] at hsm
    exact .cons (fun x => (hxs x).trans (hsm.1 x).symm) (ih hsm.2)

/-- What declares nothing new changes no scope. -/
lemma Fits.concat (h : Fits names before path)
    (ho : ∀ x, o.declares x = true → DeclaredIn before x o.scope) :
    Fits names (before ++ [o]) path := by
  refine forall₂_declaredIn_congr h fun scope _ x => ?_
  rw [declaredIn_append, or_iff_left_iff_imp]
  rintro ⟨d, hd, hx, rfl⟩
  rw [mem_singleton] at hd
  subst hd
  exact ho x hx

/-- A new name is added to the innermost scope. -/
lemma Fits.add (h : Fits names before path) (p : Pos) (x : String) :
    Fits (names.add x) (before ++ [⟨.declares p, x, path⟩]) path := by
  have hnew : ∀ scope y, DeclaredIn [⟨.declares p, x, path⟩] y scope ↔ x = y ∧ path = scope := by
    simp [DeclaredIn, Occurrence.declares]
  have hhd : ∀ {xs : List String}, (∀ y, y ∈ xs ↔ DeclaredIn before y path) →
      ∀ y, y ∈ xs ++ [x] ↔ DeclaredIn (before ++ [⟨.declares p, x, path⟩]) y path := by
    intro xs hxs y
    rw [declaredIn_append, hnew, mem_append, hxs, mem_singleton]
    simp [eq_comm]
  unfold Fits at h ⊢
  cases path with
  | nil =>
    obtain ⟨xs, rest, hxs, hr, rfl⟩ := forall₂_cons_right_iff.1 h
    cases hr
    exact .cons (hhd hxs) .nil
  | cons j path =>
    obtain ⟨xs, rest, hxs, hr, rfl⟩ := forall₂_cons_right_iff.1 h
    refine .cons (hhd hxs) (forall₂_declaredIn_congr hr fun scope hsc y => ?_)
    rw [declaredIn_append, hnew, or_iff_left_iff_imp]
    rintro ⟨-, rfl⟩
    -- A scope does not enclose itself from outside.
    have hlen := ((mem_tails _ _).1 hsc).length_le
    rw [length_cons] at hlen
    omega

lemma Fits.push (h : Fits names before path) (hopen : Unopened before path i) :
    Fits ([] :: names) before (i :: path) := by
  refine .cons (fun x => ?_) h
  simp only [not_mem_nil, false_iff]
  rintro ⟨d, hd, -, hsc⟩
  exact hopen d hd i le_rfl (hsc ▸ suffix_rfl)

lemma Unopened.concat (h : Unopened before path i) (ho : o.scope = path) :
    Unopened (before ++ [o]) path (i + 1) := by
  intro d hd j hj hsuf
  rcases mem_append.1 hd with hd | hd
  · exact h d hd j (by omega) hsuf
  · rw [mem_singleton] at hd
    subst hd
    have hlen := hsuf.length_le
    rw [ho, length_cons] at hlen
    omega

lemma Unopened.push (h : Unopened before path i) : Unopened before (i :: path) 0 := by
  intro d hd j _ hsuf
  exact h d hd i le_rfl ((suffix_cons j (i :: path)).trans hsuf)

lemma Unopened.pop (h : Unopened before path i)
    (hos : ∀ o ∈ os, (i :: path) <:+ o.scope) : Unopened (before ++ os) path (i + 1) := by
  intro d hd j hj hsuf
  rcases mem_append.1 hd with hd | hd
  · exact h d hd j (by omega) hsuf
  · have heq := suffix_of_suffix_length_le hsuf (hos d hd) (by simp)
    have := IsSuffix.eq_of_length heq (by simp)
    simp at this
    omega

mutual

lemma Outline.suffix_of_mem (o : Outline) (path : List Nat) (i : Nat) :
    ∀ c ∈ o.occurrences path i, path <:+ c.scope := by
  cases o with
  | declare p x | assign p x | use x =>
    intro c hc
    rw [Outline.occurrences, mem_singleton] at hc
    rw [hc]
  | scope body =>
    intro c hc
    rw [Outline.occurrences] at hc
    exact (suffix_cons i path).trans (suffix_of_mem_occurrencesIn body (i :: path) 0 c hc)

lemma suffix_of_mem_occurrencesIn (os : List Outline) (path : List Nat) (i : Nat) :
    ∀ c ∈ occurrencesIn path i os, path <:+ c.scope := by
  cases os with
  | nil => simp [occurrencesIn]
  | cons o os =>
    intro c hc
    rw [occurrencesIn, mem_append] at hc
    exact hc.elim (o.suffix_of_mem path i c) (suffix_of_mem_occurrencesIn os path (i + 1) c)

end

lemma walkAll_cons_fst (xs : List String) (names : Names) (os : List Outline) :
    ∃ xs', (walkAll (xs :: names) os).1 = xs' :: names := by
  induction os generalizing xs with
  | nil => exact ⟨xs, rfl⟩
  | cons o os ih =>
    have hone : ∃ xs', (o.walk (xs :: names)).1 = xs' :: names := by
      cases o with
      | declare p x =>
        rw [Outline.walk]
        split
        · exact ⟨xs, rfl⟩
        · exact ⟨xs ++ [x], rfl⟩
      | assign p x | use x | scope body => exact ⟨xs, by rw [Outline.walk]⟩
    obtain ⟨xs', hxs'⟩ := hone
    rw [walkAll, hxs']
    exact ih xs'

/-- A walk finds what is wrong with the occurrences, and the scopes fit again. -/
structure Agrees (before : List Occurrence) (path : List Nat) (os : List Occurrence) (n : Nat)
    (r : Names × List Fault) : Prop where
  faults : r.2 = faults before os
  fits : Fits r.1 (before ++ os) path
  unopened : Unopened (before ++ os) path n

mutual

lemma Outline.walk_agrees (o : Outline) {names : Names} {before : List Occurrence}
    {path : List Nat} {i : Nat} (hft : Fits names before path) (hopen : Unopened before path i) :
    Agrees before path (o.occurrences path i) (i + 1) (o.walk names) := by
  cases o with
  | declare p x =>
    obtain ⟨xs, rest, rfl, hxs⟩ := hft.exists_cons
    rw [Outline.walk, Outline.occurrences, headD_cons]
    by_cases hx : x ∈ xs
    · rw [if_pos hx]
      have hdecl := (hxs x).1 hx
      refine ⟨by simp [Compiscript.faults, Occurrence.fault?, hdecl], hft.concat ?_,
        hopen.concat rfl⟩
      intro y hy
      cases of_decide_eq_true hy
      exact hdecl
    · rw [if_neg hx]
      have hdecl := (hxs x).not.1 hx
      exact ⟨by simp [Compiscript.faults, Occurrence.fault?, hdecl], hft.add p x,
        hopen.concat rfl⟩
  | assign _ x | use x =>
    rw [Outline.walk, Outline.occurrences]
    refine ⟨?_, hft.concat (nofun), hopen.concat rfl⟩
    simp only [hft.mem_flatten x, Compiscript.faults, Occurrence.fault?]
    split <;> rfl
  | scope body =>
    rw [Outline.walk, Outline.occurrences]
    have hb := walkAll_agrees body (hft.push hopen) hopen.push
    refine ⟨hb.faults, ?_, hopen.pop (suffix_of_mem_occurrencesIn body (i :: path) 0)⟩
    obtain ⟨xs, hxs⟩ := walkAll_cons_fst [] names body
    have hfits' := hb.fits
    rw [hxs] at hfits'
    exact (forall₂_cons.1 hfits').2

lemma walkAll_agrees (os : List Outline) {names : Names} {before : List Occurrence}
    {path : List Nat} {i : Nat} (hft : Fits names before path) (hopen : Unopened before path i) :
    Agrees before path (occurrencesIn path i os) (i + os.length) (walkAll names os) := by
  cases os with
  | nil =>
    refine ⟨rfl, ?_, ?_⟩ <;> simpa [occurrencesIn, walkAll]
  | cons o os =>
    have hf := o.walk_agrees hft hopen
    have hr := walkAll_agrees os hf.fits hf.unopened
    rw [walkAll, occurrencesIn]
    refine ⟨?_, ?_, ?_⟩
    · rw [hf.faults, hr.faults, faults_append]
    · simpa only [append_assoc] using hr.fits
    · simpa only [append_assoc, length_cons, Nat.add_assoc, Nat.add_comm 1] using hr.unopened

end

end Agree

/-- From a single empty scope, a walk finds what is wrong with the occurrences. -/
lemma walkAll_eq_faults (os : List Outline) :
    (walkAll [[]] os).2 = faults [] (occurrencesIn [] 0 os) := by
  have hft : Fits [[]] [] [] := .cons (fun x => by simp [DeclaredIn]) .nil
  have hopen : Unopened [] [] 0 := fun _ hd => nomatch hd
  exact (walkAll_agrees os hft hopen).faults

/-- A name may be declared again further in, and what was declared there is not known outside. -/
example (p q : Pos) : faults [] (occurrencesIn [] 0 [.declare p "x",
    .scope [.assign p "x", .declare p "x", .declare p "y"], .assign q "y", .declare q "x"]) =
      [.undeclared q "y", .redeclared q "x"] := rfl

end Compiscript
