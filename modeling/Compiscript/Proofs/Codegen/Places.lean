import Compiscript.Proofs.Codegen.Labels

/-!
# Places of Functions

Which labels generated code has besides those that were made up, and where it
leads besides to those.

Only functions mark such places, and only returns and calls lead to them. The
labels of a function are made from its name and that of its class, as the
generator finds them in its state, at the beginning and at the end of the
function, at every return and at every call.
-/

namespace Compiscript

open List hiding get modify

namespace Tac

/-- The labels of a piece of code that do not look made up. -/
def marks (code : List Instr) : List String := (labelsOf code).filter fun l => !isLabelName l

lemma marks_append (a b : List Instr) : marks (a ++ b) = marks a ++ marks b := by
  rw [marks, labelsOf_append, filter_append]
  rfl

variable {op : Op}

lemma marks_of_ne (h : op ≠ .label) (a1 a2 res : Operand) : marks [.of op a1 a2 res] = [] := by
  rw [marks, labelsOf_cons_of_none]
  · rfl
  · cases op <;> first | rfl | exact absurd rfl h

lemma marks_label {l : String} (h : isLabelName l = false) :
    marks [.of .label (.text l) .none .none] = [l] := by
  change [l].filter (fun l => !isLabelName l) = [l]
  rw [filter_cons_of_pos (by rw [h]; rfl), filter_nil]

lemma marks_labelName (n : Nat) : marks [.of .label (.text (labelName n)) .none .none] = [] := by
  change [labelName n].filter (fun l => !isLabelName l) = []
  rw [filter_cons_of_neg (by rw [isLabelName_labelName]; decide), filter_nil]

/-- Where an instruction may lead: to a label that was made up, unless it is a
    call, or to one of certain others. -/
structure Leads (L : Set String) (i : Instr) : Prop where
  jump (h : i.op = .jump) : (∃ n, i.a1 = .text (labelName n)) ∨ ∃ l ∈ L, i.a1 = .text l
  call (h : i.op = .call) : ∃ l ∈ L, i.a1 = .text l

lemma Leads.of_ne {L : Set String} (hj : op ≠ .jump) (hca : op ≠ .call)
    (a1 a2 res : Operand) : Leads L (.of op a1 a2 res) :=
  ⟨fun h => absurd h hj, fun h => absurd h hca⟩

end Tac

namespace Gen

open Tac

/-- The function and the class that code is being made for. -/
structure Spot where
  function : Option String
  inClass : Option String

/-- A state at a spot, without symbols. -/
structure At (s : Spot) (g : Generator) : Prop where
  function : g.function = s.function
  inClass : g.inClass = s.inClass
  symbols : g.symbols = none

lemma At.gives_resolve? {s : Spot} {g : Generator} (h : At s g) (x : String) :
    Gives (resolve? x) g none g := by
  change (Except.ok (g.symbols.bind (·.get? x)), g) = (Except.ok none, g)
  rw [h.symbols]
  rfl

/-- A step that goes from one spot to another. It lays the marks `ls`, in some
    order, and what it comes to is as it should be. -/
def Lays (L : Set String) (s s' : Spot) (ls : List String) {α : Type} (φ : α → Prop)
    (x : Gen α) : Prop :=
  ∀ g, At s g → ∃ code a g', Gives x g a g' ∧ g'.code = g.code ++ code ∧ At s' g' ∧
    (marks code).Perm ls ∧ (∀ i ∈ code, Leads L i) ∧ φ a

/-- A step that stays at a spot and lays no marks. -/
abbrev Stays (L : Set String) (s : Spot) {α : Type} (x : Gen α) : Prop :=
  Lays L s s [] (fun _ => True) x

namespace Lays

variable {L : Set String} {s s' s'' : Spot} {ls ls' : List String} {α β : Type} {φ : α → Prop}
  {ψ : β → Prop} {x : Gen α} {f : α → Gen β}

lemma pure {a : α} (h : φ a) : Lays L s s [] φ (Pure.pure a) := fun g hg =>
  ⟨[], a, g, .pure a g, (append_nil _).symm, hg, .refl _, forall_mem_nil _, h⟩

lemma bind (hx : Lays L s s' ls φ x) (hf : ∀ a, φ a → Lays L s' s'' ls' ψ (f a)) :
    Lays L s s'' (ls ++ ls') ψ (x >>= f) := by
  intro g hg
  obtain ⟨code, a, g', hgv, hcode, hg', hmks, hld, ha⟩ := hx g hg
  obtain ⟨code', b, g'', hgv', hcode', hg'', hmarks', hleads', hb⟩ := hf a ha g' hg'
  refine ⟨code ++ code', b, g'', hgv.bind hgv', ?_, hg'', ?_, ?_, hb⟩
  · rw [hcode', hcode, append_assoc]
  · rw [marks_append]
    exact hmks.append hmarks'
  · exact forall_mem_append.2 ⟨hld, hleads'⟩

lemma mono (h : Lays L s s' ls φ x) (hls : ls.Perm ls') {φ' : α → Prop} (hφ : ∀ a, φ a → φ' a) :
    Lays L s s' ls' φ' x := by
  intro g hg
  obtain ⟨code, a, g', hgv, hcode, hg', hmks, hld, ha⟩ := h g hg
  exact ⟨code, a, g', hgv, hcode, hg', hmks.trans hls, hld, hφ a ha⟩

/-- In front of a step that lays no marks. -/
lemma first (hx : Lays L s s' [] φ x) (hf : ∀ a, φ a → Lays L s' s'' ls' ψ (f a)) :
    Lays L s s'' ls' ψ (x >>= f) := hx.bind hf

/-- Behind a step that lays all the marks. -/
lemma last (hx : Lays L s s' ls φ x) (hf : ∀ a, φ a → Lays L s' s'' [] ψ (f a)) :
    Lays L s s'' ls ψ (x >>= f) := by
  have h := hx.bind hf
  rwa [append_nil] at h

lemma of_silent (h : ∀ g, At s g → ∃ a g', Gives x g a g' ∧ g'.code = g.code ∧ At s' g' ∧ φ a) :
    Lays L s s' [] φ x := by
  intro g hg
  obtain ⟨a, g', hgv, hcode, hg', ha⟩ := h g hg
  exact ⟨[], a, g', hgv, hcode.trans (append_nil _).symm, hg', .refl _,
    forall_mem_nil _, ha⟩

lemma emit {op : Op} {a1 a2 res : Operand} (hmks : marks [.of op a1 a2 res] = ls)
    (hld : Leads L (.of op a1 a2 res)) : Lays L s s ls (fun _ => True) (emit op a1 a2 res) := by
  intro g hg
  refine ⟨[.of op a1 a2 res], (), { g with code := g.code ++ [.of op a1 a2 res] }, rfl, rfl,
    ⟨hg.function, hg.inClass, hg.symbols⟩, ?_, ?_, trivial⟩
  · rw [hmks]
  · exact forall_mem_singleton.2 hld

/-- An instruction that does not lead anywhere, or to a label that was made up. -/
lemma emit_of_ne {op : Op} (hlab : op ≠ .label) (hj : op ≠ .jump) (hca : op ≠ .call)
    (a1 a2 res : Operand) : Stays L s (Gen.emit op a1 a2 res) :=
  emit (marks_of_ne hlab a1 a2 res) (.of_ne hj hca a1 a2 res)

lemma param (v : Value) : Stays L s (Gen.emit .param v.operand .none .none) :=
  emit_of_ne (by decide) (by decide) (by decide) _ _ _

lemma enter : Stays L s (Gen.emit .enter (.int 0) .none .none) :=
  emit_of_ne (by decide) (by decide) (by decide) _ _ _

lemma jump {l : String} (h : l ∈ L) : Stays L s (jump l) :=
  emit (marks_of_ne (by decide) _ _ _) ⟨fun _ => .inr ⟨l, h, rfl⟩, fun h => nomatch h⟩

lemma jump_labelName (n : Nat) : Stays L s (Gen.jump (labelName n)) :=
  emit (marks_of_ne (by decide) _ _ _) ⟨fun _ => .inl ⟨n, rfl⟩, fun h => nomatch h⟩

lemma call {l : String} (h : l ∈ L) (a2 res : Operand) :
    Stays L s (Gen.emit .call (.text l) a2 res) :=
  emit (marks_of_ne (by decide) _ _ _) ⟨fun hop => (nomatch hop), fun _ => ⟨l, h, rfl⟩⟩

lemma label {l : String} (h : isLabelName l = false) : Lays L s s [l] (fun _ => True) (label l) :=
  emit (marks_label h) (.of_ne (by decide) (by decide) _ _ _)

lemma label_labelName (n : Nat) : Stays L s (Gen.label (labelName n)) :=
  emit (marks_labelName n) (.of_ne (by decide) (by decide) _ _ _)

lemma freshTemp : Lays L s s [] (fun _ => True) freshTemp :=
  of_silent fun g hg => ⟨_, { g with temps := g.temps.get.2 }, rfl, rfl,
    ⟨hg.function, hg.inClass, hg.symbols⟩, trivial⟩

lemma release (v : Value) : Stays L s (release v) :=
  of_silent fun g hg => ⟨(), { g with temps := g.temps.giveBack v }, by cases v <;> rfl, rfl,
    ⟨hg.function, hg.inClass, hg.symbols⟩, trivial⟩

lemma frames (F : Frames → Frames) :
    Stays L s (modify fun g => { g with frames := F g.frames } : Gen Unit) :=
  of_silent fun g hg => ⟨(), { g with frames := F g.frames }, rfl, rfl,
    ⟨hg.function, hg.inClass, hg.symbols⟩, trivial⟩

/-! ### Names -/

/-- Without symbols, a name stands for itself. -/
lemma readName (x : String) : Lays L s s [] (· = .text x) (readName x) := by
  refine of_silent fun g hg => ⟨.text x, g, Gives.bind (a := g) rfl ?_, rfl, hg, rfl⟩
  by_cases hfun : g.function.isSome = true
  · rw [if_pos hfun]
    exact (hg.gives_resolve? x).bind rfl
  · rw [if_neg hfun]
    rfl

lemma place (add : Frame → Symbol → Frame × Symbol) (f x : String) :
    Stays L s (place add f x none) := by
  refine of_silent fun g hg => ⟨(), { g with frames := g.frames.set (add (g.frames.get f)
    (.ofVariable x .unknown false false)).1 }, rfl, rfl, ⟨hg.function, hg.inClass, hg.symbols⟩,
      trivial⟩

lemma resolve? (x : String) : Lays L s s [] (· = none) (resolve? x) :=
  of_silent fun g hg => ⟨none, g, hg.gives_resolve? x, rfl, hg, rfl⟩

lemma get {k : Generator → Gen β} (h : ∀ g, At s g → Lays L s s' ls ψ (k g)) :
    Lays L s s' ls ψ (MonadState.get >>= k) :=
  fun g hg => h g hg g hg

lemma placeInFunction (x : String) : Stays L s (placeInFunction x) := by
  rw [Gen.placeInFunction]
  refine get fun g _ => ?_
  split
  · refine (resolve? x).first ?_
    rintro _ rfl
    exact place _ _ _
  · exact pure trivial

lemma storeLabels (x entry exit : String) : Stays L s (storeLabels x entry exit) := by
  rw [Gen.storeLabels]
  refine (resolve? x).first ?_
  rintro _ rfl
  exact pure trivial

lemma move (v : Value) (x : String) : Stays L s (Gen.move v x) :=
  emit_of_ne (by decide) (by decide) (by decide) _ _ _

/-- Statements may hold functions, so that code between labels may lay marks. -/
lemma labelling (L : Set String) (s : Spot) :
    Labelling fun ls {α : Type} (x : Gen α) => Lays L s s ls (fun _ => True) x where
  pure _ := pure trivial
  seq hx hf := hx.bind fun a _ => hf a
  countLabel := of_silent fun g hg => ⟨_, { g with labels := g.labels + 1 }, rfl, rfl,
    ⟨hg.function, hg.inClass, hg.symbols⟩, trivial⟩
  freshTemp := freshTemp
  release := release
  move := move
  test h _ _ _ := by
    rcases h with rfl | rfl <;> exact emit_of_ne (by decide) (by decide) (by decide) _ _ _
  jump := jump_labelName
  label := label_labelName

/-- Small steps stay where they are and lay no marks. -/
lemma steps (L : Set String) (s : Spot) : Steps fun _ {α : Type} (x : Gen α) => Stays L s x where
  pure _ := pure trivial
  seq hx hf := hx.first fun a _ => hf a
  get _ h := get fun g _ => h g
  emit h a1 a2 res _ _ _ := by
    refine emit_of_ne ?_ ?_ ?_ a1 a2 res <;> (rintro rfl; cases h)
  freshTemp := freshTemp
  release := release
  setResult n := of_silent fun g hg =>
    ⟨(), { g with result := some n }, rfl, rfl, ⟨hg.function, hg.inClass, hg.symbols⟩, trivial⟩
  readName x := (readName x).mono (.refl _) fun _ _ => trivial
  placeInFunction := placeInFunction
  choose := (labelling L s).choose (p := []) (q := []) (r := [])
  shortcut hsk decided _ _ := (labelling L s).shortcut (p := []) (q := []) hsk decided
  branch := (labelling L s).branch (p := []) (q := []) (r := [])
  loop := (labelling L s).loop (p := []) (q := [])

end Lays

/-! ### Calls -/

/-- All calls in what is left of a chain are calls of certain names. The first
    argument is the name that was read last. -/
def CallsIn (N : Set String) : Option String → List Tree → Prop
  | _, [] => True
  | x, s :: rest =>
    match suffixOf s with
    | .field => CallsIn N (s.tokenText? .identifier) rest
    | .call => (∃ y ∈ N, x = some y) ∧ CallsIn N none rest
    | _ => CallsIn N x rest

/-- The name that a chain starts with, if it is one. -/
def startName? (atom : Tree) : Option String :=
  if atom.tag?.bind (·.label) = some .identifierExpr then atom.tokenText? .identifier else none

/-- What a tree calls has a place. -/
structure Known (L : Set String) (t : Tree) : Prop where
  calls (h : t.isOf .leftHandSide = true) (a : t.Sub) (ha : t.kid? .primaryAtom = some a) :
    CallsIn {x | "func_" ++ x ∈ L} (startName? a.tree) ((t.kids .suffixOp).map Tree.Sub.tree)
  created (h : t.tag?.bind (·.label) = some .newExpr) (x : String)
    (hx : t.tokenText? .identifier = some x) : "func_" ++ x ++ "_constructor" ∈ L

instance CallsIn.decidable {N : Set String} [DecidablePred (· ∈ N)] :
    ∀ (x : Option String) (ss : List Tree), Decidable (CallsIn N x ss)
  | _, [] => .isTrue trivial
  | x, s :: rest =>
    have (y : Option String) : Decidable (CallsIn N y rest) := decidable y rest
    have : Decidable (∃ y ∈ N, x = some y) :=
      decidable_of_iff (∃ y, x = some y ∧ y ∈ N) (exists_congr fun _ => and_comm)
    match h : suffixOf s with
    | .field => decidable_of_iff (CallsIn N (s.tokenText? .identifier) rest) (by rw [CallsIn, h])
    | .call => decidable_of_iff ((∃ y ∈ N, x = some y) ∧ CallsIn N none rest) (by rw [CallsIn, h])
    | .index | .broken => decidable_of_iff (CallsIn N x rest) (by rw [CallsIn, h])

instance Known.decidable {L : Set String} [DecidablePred (· ∈ L)] (t : Tree) :
    Decidable (Known L t) :=
  have : DecidablePred (· ∈ {x | "func_" ++ x ∈ L}) := fun _ => inferInstanceAs (Decidable (_ ∈ L))
  decidable_of_iff
    ((t.isOf .leftHandSide = true → ∀ a, t.kid? .primaryAtom = some a →
        CallsIn {x | "func_" ++ x ∈ L} (startName? a.tree) ((t.kids .suffixOp).map Tree.Sub.tree)) ∧
      (t.tag?.bind (·.label) = some .newExpr → ∀ x, t.tokenText? .identifier = some x →
        "func_" ++ x ++ "_constructor" ∈ L))
    ⟨fun ⟨hcas, hcre⟩ => ⟨hcas, hcre⟩, fun h => ⟨h.calls, h.created⟩⟩

/-- A link of a chain stands for the name that was read last. -/
def Link.Follows (x : Option String) (l : Link) : Prop :=
  ∀ y, x = some y → l.name = some y ∧ ∀ z, l.value = .text z → z = y

lemma Link.Follows.calleeName {l : Link} {y : String} (h : l.Follows (some y)) :
    calleeName l = y := by
  obtain ⟨hnm, hval⟩ := h y rfl
  unfold Gen.calleeName
  split
  · rename_i z hz
    exact hval z hz
  · rw [hnm, Option.getD_some]

/-- A result in a temporary, under the name that was read last. -/
lemma Link.Follows.temp {l : Link} {x : Option String} (h : l.Follows x) (n : Int) :
    Link.Follows x ⟨.temp n, l.name⟩ :=
  fun y hy => ⟨(h y hy).1, fun _ hz => by cases hz⟩

namespace Lays

variable {L : Set String} {s : Spot}

lemma readField (object : Value) (field : String) :
    Lays L s s [] (fun v => ∃ n, v = .temp n) (readField object field) := by
  rw [Gen.readField]
  refine freshTemp.first fun n _ => ?_
  exact (emit_of_ne (by decide) (by decide) (by decide) _ _ _).first fun _ _ => pure ⟨n, rfl⟩

section Node

variable {t : Tree} {visit : t.Sub → Gen Value}
  (hv : ∀ c : t.Sub, c.tree.Within t → Stays L s (visit c))

include hv

lemma newObject (hkn : Known L t) (hlab : t.tag?.bind (·.label) = some .newExpr)
    (hx : ∃ x, t.tokenText? .identifier = some x) : Stays L s (newObject t visit) := by
  obtain ⟨x, hx⟩ := hx
  have hsts := steps L s
  simp only [Gen.newObject, Gen.tokenText, hx, need, pure_bind]
  refine first (hsts.linking.arguments hv) fun args _ => first hsts.freshTemp fun n _ => ?_
  refine first (hsts.emit rfl _ _ _) fun _ _ => first (param _) fun _ _ => ?_
  refine first (hsts.linking.pass param args) fun _ _ => first hsts.freshTemp fun r _ => ?_
  refine first (call (hkn.created hlab x hx) _ _) fun _ _ => ?_
  exact first (hsts.release _) fun _ _ => hsts.pure _

/-- A return leads to the end of the function at the spot. -/
lemma returnStatement (hexit : s.function.getD "None" ++ "_exit" ∈ L) :
    Stays L s (returnStatement t visit) := by
  have hsts := steps L s
  have hj : Stays L s (do
      Gen.jump ((← MonadState.get).function.getD "None" ++ "_exit")
      return .none : Gen Value) := by
    refine get fun g hg => ?_
    rw [hg.function]
    exact (jump hexit).first fun _ _ => pure trivial
  rw [Gen.returnStatement]
  split
  · exact hj
  · rename_i e he
    refine first (hv e (.of_kid? he)) fun v _ => first hsts.resultTemp fun r _ => ?_
    exact first (move v _) fun _ _ => first (release v) fun _ _ => hj

variable (hc : t.Everywhere Complete)

include hc

/-- One suffix of a chain: a call is one of the name that was read last. -/
lemma suffix {start : t.Sub} (hst : start.tree.Within t) {before : List t.Sub}
    (hbef : ∀ c ∈ before, c.tree.Within t) (base : Value) {l : Link} {x : Option String}
    (hl : l.Follows x) {k : t.Sub} (hk : k.tree.Within t) {rest : List Tree}
    (hcas : CallsIn {x | "func_" ++ x ∈ L} x (k.tree :: rest)) :
    ∃ y, CallsIn {x | "func_" ++ x ∈ L} y rest ∧
      Lays L s s [] (Link.Follows y) (Gen.suffix t visit base (some start) before l k) := by
  have hsts := steps L s
  have hsub : ∀ c : k.tree.Sub, c.tree.Within k.tree → Stays L s (visit (k.lift c)) :=
    fun c hc => hv (k.lift c) (hc.trans hk)
  rw [CallsIn] at hcas
  cases hsuf : suffixOf k.tree with
  | field =>
    rw [hsuf] at hcas
    obtain ⟨y, hy⟩ := (hc k.tree hk).exists_field hsuf
    refine ⟨some y, by rwa [hy] at hcas, ?_⟩
    simp only [Gen.suffix, hsuf, tokenText, hy, need, pure_bind]
    refine (readField l.value y).first ?_
    rintro _ ⟨n, rfl⟩
    have hfol : Link.Follows (some y) ⟨.temp n, some y⟩ := by
      intro z hz
      exact ⟨hz, fun _ hz => by cases hz⟩
    by_cases hba : l.value = base
    · rw [if_pos hba]
      exact pure hfol
    · rw [if_neg hba]
      exact (release _).first fun _ _ => pure hfol
  | call =>
    rw [hsuf] at hcas
    obtain ⟨⟨y, hy, rfl⟩, hrs⟩ := hcas
    refine ⟨none, hrs, ?_⟩
    rw [suffix_of_call hsuf]
    refine Lays.first (hsts.linking.arguments hsub) fun args _ => freshTemp.first fun n _ => ?_
    -- However the name is found, it is the one that was read last.
    have hca : ∀ name, name = y →
        Lays L s s [] (Link.Follows none) (finishCall args name (.temp n) l.value) := by
      rintro _ rfl
      have hpla : "func_" ++ _ ∈ L := hy
      refine Lays.first (hsts.linking.pass param args) fun _ _ =>
        (call hpla _ _).first fun _ _ => ?_
      exact (release _).first fun _ _ => pure fun _ hz => by cases hz
    have hnm : l.name.getD "None" = y := by rw [(hl y rfl).1, Option.getD_some]
    cases before with
    | nil => exact hca _ hl.calleeName
    | cons last earlier =>
      have hear : ∀ c ∈ earlier.reverse, c.tree.Within t :=
        fun c hc => hbef c (.tail _ (mem_reverse.1 hc))
      by_cases hmeth : suffixOf last.tree = .field
      · dsimp only
        rw [if_pos hmeth]
        cases hbef : earlier.reverse with
        | nil => exact (param _).first fun _ _ => hca _ hnm
        | cons k ks =>
          rw [hbef] at hear
          exact Lays.first (hsts.linking.receiver hv hc param hst (cons_ne_nil k ks)
            hear base) fun _ _ => hca _ hnm
      · dsimp only
        rw [if_neg hmeth]
        exact hca _ hl.calleeName
  | index =>
    rw [hsuf] at hcas
    refine ⟨x, hcas, ?_⟩
    rw [Gen.suffix, hsuf]
    refine Lays.first (Steps.visitKid (Q := fun _ {α : Type} (x : Gen α) => Stays L s x) hsub
      ((hc k.tree hk).exists_index hsuf)) fun i _ => ?_
    refine freshTemp.first fun n _ => Lays.first (hsts.emit rfl _ _ _) fun _ _ => ?_
    refine (release _).first fun _ _ => (release _).first fun _ _ => ?_
    exact pure (hl.temp n)
  | broken =>
    rw [hsuf] at hcas
    rw [Gen.suffix, hsuf]
    exact ⟨x, hcas, pure hl⟩

lemma suffixes {start : t.Sub} (hst : start.tree.Within t) (base : Value) {before : List t.Sub}
    (hbef : ∀ c ∈ before, c.tree.Within t) {rest : List t.Sub}
    (hrs : ∀ c ∈ rest, c.tree.Within t) {l : Link} {x : Option String} (hl : l.Follows x)
    (hcas : CallsIn {x | "func_" ++ x ∈ L} x (rest.map Tree.Sub.tree)) :
    Stays L s (suffixes t visit base (some start) before l rest) := by
  induction rest generalizing before l x with
  | nil => exact pure trivial
  | cons k rest ih =>
    obtain ⟨hk, hrs⟩ := forall_mem_cons.1 hrs
    obtain ⟨y, hcas, hsuf⟩ := suffix hv hc hst hbef base hl hk hcas
    rw [Gen.suffixes]
    exact hsuf.first fun l' hl' => ih (forall_mem_cons.2 ⟨hk, hbef⟩) hrs hl' hcas

/-- A chain that starts with a name has that name to begin with. -/
lemma chain (hkn : Known L t) (hof : t.isOf .leftHandSide = true)
    (ha : ∃ k, t.kid? .primaryAtom = some k)
    (hat : ∀ k, t.kid? .primaryAtom = some k → ∀ x, startName? k.tree = some x →
      Lays L s s [] (· = .text x) (visit k)) : Stays L s (chain t visit) := by
  obtain ⟨start, hst⟩ := ha
  have hin := Tree.Within.of_kid? hst
  have hcas := hkn.calls hof start hst
  have hsta : Lays L s s [] (fun v => ∀ x, startName? start.tree = some x → v = .text x)
      (visit start) := by
    cases hnm : startName? start.tree with
    | none => exact (hv start hin).mono (.refl _) fun _ _ _ h => nomatch h
    | some x =>
      refine (hat start hst x hnm).mono (.refl _) ?_
      rintro _ rfl y hy
      rw [Option.some.inj hy]
  rw [Gen.chain]
  dsimp only
  rw [hst]
  refine hsta.first fun base hba => ?_
  refine suffixes hv hc hin base (forall_mem_nil _)
    (fun c hc => .of_kids hc) (fun y hy => ?_) hcas
  rw [hba y hy]
  refine ⟨rfl, fun z hz => ?_⟩
  injection hz with hz
  exact hz.symm

end Node

end Lays

/-! ### Code without functions and classes -/

/-- Whether a tree is a program or declares a function or a class. -/
def isOuter (t : Tree) : Bool :=
  t.isOf .program || t.isOf .functionDeclaration || t.isOf .classDeclaration

variable {t : Tree} {x : String}

/-- A chain that starts with a name reads it first. -/
lemma generate_startName (hof : t.isOf .primaryAtom = true)
    (hx : startName? t = some x) : generate t = readName x := by
  unfold startName? at hx
  split at hx
  · rename_i hlab
    obtain ⟨label, p, cs, rfl⟩ := Tree.exists_of_isOf hof
    obtain rfl : label = some .identifierExpr := hlab
    rw [generate_of_tag rfl]
    exact identifier_eq hx
  · cases hx

lemma lays_identifier {L : Set String} {s : Spot}
    (hof : t.isOf .primaryAtom = true) (hx : startName? t = some x) :
    Lays L s s [] (· = .text x) (generate t) := by
  rw [generate_startName hof hx]
  exact .readName x

/-- Code without functions and classes lays no marks, and returns in it lead to the
    end of the function at the spot. -/
lemma lays_plain {L : Set String} {s : Spot} (t : Tree) (hc : t.Everywhere Complete)
    (hpl : t.Everywhere fun p => isOuter p = false) (hkn : t.Everywhere (Known L))
    (hret : t.Everywhere fun p =>
      p.isOf .returnStatement = true → s.function.getD "None" ++ "_exit" ∈ L) :
    Stays L s (generate t) := by
  have hv : ∀ c : t.Sub, c.tree.Within t → Stays L s (generate c.tree) := fun c h =>
    lays_plain c.tree (hc.sub h) (hpl.sub h) (hkn.sub h) (hret.sub h)
  have hsts := Lays.steps L s
  rw [generate_eq]
  cases t with
  | node tag start cs =>
    have hof : ∀ {r : Rule}, tag.rule = r → (Tree.node tag start cs).isOf r = true :=
      fun h => beq_iff_eq.2 h
    have houter : ∀ {r : Rule}, r ∈ [Rule.program, .functionDeclaration, .classDeclaration] →
        tag.rule ≠ r := by
      intro r hr h
      have hhere := hpl.here
      simp only [mem_cons, not_mem_nil, or_false] at hr
      rcases hr with rfl | rfl | rfl <;> simp [isOuter, hof h] at hhere
    have hnm : ∀ {parts : List Part}, parts ∈ requiredByRule tag.rule → parts ∈ required tag :=
      mem_required_of_rule
    refine hsts.tagged hv rfl hc.here (fun h => absurd h (houter (by simp)))
      (fun h => .returnStatement hv (hret.here (hof h))) (fun h => absurd h (houter (by simp)))
      (fun h => absurd h (houter (by simp))) (fun h => ?_) fun h => ?_
    · refine .chain hv hc hkn.here (hof h) (hc.here.exists_kid rfl (hnm ?_)) ?_
      · rw [h]
        exact .head _
      · intro k hk x hx
        exact lays_identifier (Tree.isOf_of_kid? hk) hx
    · refine .newObject hv hkn.here h (hc.here.exists_text rfl (mem_required_of_label ?_))
      rw [h]
      exact .head _
  | leaf tok => exact hsts.pure _
  | bad tok => exact hsts.pure _
termination_by sizeOf t
decreasing_by exact c.2

end Gen

end Compiscript
