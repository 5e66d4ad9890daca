import Compiscript.Proofs.Core.ExprCode

/-!
# Code for Statements

What it means for a piece of code to carry out a statement, and how such pieces
are put together.

The machine mirrors a configuration if it has printed the same and every name
that is no temporary has the same value. Code for a statement takes the machine
from a mirror of what was before to a mirror of what is afterwards. If the
statement comes to a division by zero so does the machine, with the same output.
-/

namespace Compiscript.Core

open List

open Machine Tac

section Stmt

variable {V : Type}

/-- The machine is at a place, has printed the same as a configuration and has
    the same variables, temporaries apart. -/
structure Mirrors (s : State V) (pc : Nat) (c : Config (String → V) V) : Prop where
  pc_eq : s.pc = pc
  store_eq (x : String) : isTempName x = false → s.store x = c.env x
  out_eq : s.out = c.out

lemma Mirrors.goto {s : State V} {pc : Nat} {c : Config (String → V) V} (h : Mirrors s pc c)
    (pc' : Nat) : Mirrors { s with pc := pc' } pc' c :=
  ⟨rfl, h.store_eq, h.out_eq⟩

lemma Mirrors.write {s : State V} {pc : Nat} {c : Config (String → V) V} (h : Mirrors s pc c)
    (x : String) (v : V) :
    Mirrors (s.write x v) (pc + 1) { c with env := Function.update c.env x v } where
  pc_eq := congrArg (· + 1) h.pc_eq
  store_eq y hy := by
    change Function.update s.store x v y = Function.update c.env x v y
    by_cases hyx : y = x
    · rw [hyx, Function.update_self, Function.update_self]
    · rw [Function.update_of_ne hyx, Function.update_of_ne hyx, h.store_eq y hy]
  out_eq := h.out_eq

lemma Mirrors.print {s : State V} {pc : Nat} {c : Config (String → V) V} (h : Mirrors s pc c)
    (v : V) : Mirrors (s.print v) (pc + 1) { c with out := c.out ++ [v] } where
  pc_eq := congrArg (· + 1) h.pc_eq
  store_eq := h.store_eq
  out_eq := congrArg (· ++ [v]) h.out_eq

variable [DecidableEq V]

/-- The machine does what a run of the evaluator says: it goes to a place, to a
    division by zero, or on for `m` steps at least. -/
def Follows (A : Arith V) (code : List Instr) (m : Nat) (s : State V) (pc : Nat) :
    Ending × Config (String → V) V → Prop
  | (.done, c) => ∃ s', Reaches (step A code) s s' ∧ Mirrors s' pc c
  | (.fault _, c) => ∃ s', Halts (step A code) s .zeroDivision s' ∧ s'.out = c.out
  | (.timeout, c) => ∃ k s', m ≤ k ∧ Steps (step A code) k s s' ∧ s'.out = c.out

variable {A : Arith V} {code : List Instr} {m k : Nat} {s s' : State V} {pc pc' : Nat}
  {c : Config (String → V) V} {r : Ending × Config (String → V) V}

namespace Follows

lemma of_steps (hs : Steps (step A code) k s s') (h : Follows A code m s' pc r) :
    Follows A code (k + m) s pc r := by
  rcases r with ⟨ending, c⟩
  cases ending with
  | done =>
    obtain ⟨u, hu, hmir⟩ := h
    exact ⟨u, Reaches.trans ⟨k, hs⟩ hu, hmir⟩
  | fault f =>
    obtain ⟨u, hu, hout⟩ := h
    exact ⟨u, .of_reaches ⟨k, hs⟩ hu, hout⟩
  | timeout =>
    obtain ⟨j, u, hj, hu, hout⟩ := h
    exact ⟨k + j, u, by omega, hs.trans hu, hout⟩

lemma mono (h : Follows A code m s pc r) (hk : k ≤ m) : Follows A code k s pc r := by
  rcases r with ⟨ending, c⟩
  cases ending with
  | done => exact h
  | fault f => exact h
  | timeout =>
    obtain ⟨j, u, hj, hu, hout⟩ := h
    exact ⟨j, u, by omega, hu, hout⟩

lemma of_reaches (hs : Reaches (step A code) s s') (h : Follows A code m s' pc r) :
    Follows A code m s pc r := by
  obtain ⟨k, hk⟩ := hs
  exact (h.of_steps hk).mono (by omega)

lemma of_step (hs : step A code s = .ok s') (h : Follows A code m s' pc r) :
    Follows A code m s pc r :=
  h.of_reaches (.one hs)

lemma done (h : Mirrors s pc c) : Follows A code m s pc (.done, c) := ⟨s, .refl s, h⟩

lemma andThen {next : Config (String → V) V → Ending × Config (String → V) V}
    (h : Follows A code m s pc r)
    (hnx : ∀ s' c, Mirrors s' pc c → Follows A code m s' pc' (next c)) :
    Follows A code m s pc' (Core.andThen r next) := by
  rcases r with ⟨ending, c⟩
  cases ending with
  | done =>
    obtain ⟨u, hu, hmir⟩ := h
    exact (hnx u c hmir).of_reaches hu
  | fault f => exact h
  | timeout => exact h

/-- A run that ends well can go on to another place. -/
lemma onward (h : Follows A code m s pc r)
    (hon : ∀ s' c, Mirrors s' pc c → ∃ s'', Reaches (step A code) s' s'' ∧ Mirrors s'' pc' c) :
    Follows A code m s pc' r := by
  rcases r with ⟨ending, c⟩
  cases ending with
  | done =>
    obtain ⟨u, hu, hmir⟩ := h
    obtain ⟨w, hw, hmirrors'⟩ := hon u c hmir
    exact ⟨w, hu.trans hw, hmirrors'⟩
  | fault f => exact h
  | timeout => exact h

/-- Without scopes a block is what is in it. -/
lemma inBlock {body : Config (String → V) V → Ending × Config (String → V) V}
    (h : Follows A code m s pc (body c)) :
    Follows A code m s pc (Core.inBlock Memory.flat body c) :=
  h.andThen fun _ _ hmir => .done hmir

end Follows

lemma Mirrors.of_passes {p : Temps} (h : Mirrors s pc c) (hp : p.Kept)
    (hs : Passes A code p s pc' s') : Mirrors s' pc' c where
  pc_eq := hs.pc_eq
  store_eq x hx := (hs.frame x (hp.safe hx)).trans (h.store_eq x hx)
  out_eq := hs.out_eq.trans h.out_eq

lemma Mirrors.label (h : Mirrors s pc c) {l : String}
    (hget : code[pc]? = some (.of .label (.text l) .none .none)) (hl : l ≠ "program_end") :
    ∃ s', Reaches (step A code) s s' ∧ Mirrors s' (pc + 1) c := by
  cases h.pc_eq
  exact ⟨s.next, .one (step_label hget hl), h.goto _⟩

lemma Mirrors.jump (h : Mirrors s pc c) {l : String}
    (hget : code[pc]? = some (.of .jump (.text l) .none .none)) (hl : target? code l = some pc') :
    ∃ s', Reaches (step A code) s s' ∧ Mirrors s' pc' c := by
  cases h.pc_eq
  exact ⟨_, .one (step_jump hget hl), h.goto _⟩

lemma Mirrors.eval_eq (h : Mirrors s pc c) {e : Expr} (hvs : e.Plain) :
    c.eval A Memory.flat e = evalIn A s.store e :=
  Expr.eval_congr A fun x hx => congrArg some (h.store_eq x (hvs x hx)).symm

variable {e : Expr} {p p' p1 p2 : Temps} {n n' n1 n2 : Nat} {v : Value}
  {b be ba bb : List Instr} {start : Nat}

lemma withValue_map {α β C : Type} (r : Except Fault α) (f : α → β) (c : C)
    (next : β → Ending × C) : withValue (r.map f) c next = withValue r c fun a => next (f a) := by
  cases r <;> rfl

/-- The code of an expression, and what is done with the value. -/
lemma Codes.follows (hcds : Codes A e p n v be p' n') (hp : p.Kept) (hvs : e.Plain)
    (hpd : Placed code be start) (hnd : (labelsOf code).Nodup) (h : Mirrors s start c)
    {next : V → Ending × Config (String → V) V} (hnx : ∀ s', Mirrors s' (start + be.length) c →
      Follows A code m s' pc (next (Tac.read A s'.store v.display))) :
    Follows A code m s pc (withValue (c.eval A Memory.flat e) c next) := by
  rw [h.eval_eq hvs]
  cases hw : evalIn A s.store e with
  | ok w =>
    obtain ⟨s', hs', hrd⟩ := hcds.value hpd hnd h.pc_eq hw
    have hfol := hnx s' (h.of_passes hp hs')
    rw [hrd] at hfol
    exact hfol.of_reaches hs'.reaches
  | error f =>
    obtain ⟨s', hs', hout⟩ := hcds.fault hpd hnd h.pc_eq hw
    exact ⟨s', hs', hout.trans h.out_eq⟩

lemma Codes.tests (hcds : Codes A e p n v be p' n') (hp : p.Kept) (hvs : e.Plain)
    {l : String} {rest : List Instr} {away : Nat}
    (hpd : Placed code (be ++ .of .ifz v.operand .none (.text l) :: rest) start)
    (hnd : (labelsOf code).Nodup) (hl : target? code l = some away) (h : Mirrors s start c)
    {next : Bool → Ending × Config (String → V) V}
    (htrue : ∀ s', Mirrors s' (start + be.length + 1) c → Follows A code m s' pc (next true))
    (hfalse : ∀ s', Mirrors s' away c → Follows A code m s' pc (next false)) :
    Follows A code m s pc (withValue (c.test A Memory.flat e) c next) := by
  rw [Config.test, withValue_map]
  refine hcds.follows hp hvs hpd.left hnd h fun s' h' => ?_
  have hget := hpd.right.get
  rw [← h'.pc_eq] at hget
  by_cases hz : Tac.read A s'.store v.display = A.zero
  · rw [decide_eq_true hz]
    exact .of_step (step_ifz_zero hget hl hz) (hfalse _ (h'.goto away))
  · rw [decide_eq_false hz]
    refine .of_step (step_ifz_ne hget hz) (htrue _ ?_)
    exact ⟨congrArg (· + 1) h'.pc_eq, h'.store_eq, h'.out_eq⟩

/-- Code for a statement. It takes the pool from `p` to `p'` and the count of
    labels from `n` to `n'`. -/
structure StmtCodes (A : Arith V) (st : Stmt) (p : Temps) (n : Nat) (b : List Instr)
    (p' : Temps) (n' : Nat) : Prop where
  kept : p'.Kept
  labels : Labels n n' (labelsOf b)
  run {code : List Instr} {start : Nat} (hpd : Placed code b start)
    (hnd : (labelsOf code).Nodup) {s : State V} {c : Config (String → V) V}
    (h : Mirrors s start c) (fuel : Nat) :
    Follows A code fuel s (start + b.length) (exec A Memory.flat fuel st c)

namespace StmtCodes

variable {x y st : Stmt}

lemma skip (hp : p.Kept) (n : Nat) : StmtCodes A .skip p n [] p n where
  kept := hp
  labels := .nil n
  run _ _ _ _ h _ := .done h

lemma seq (hx : StmtCodes A x p n ba p1 n1) (hy : StmtCodes A y p1 n1 bb p2 n2) :
    StmtCodes A (.seq x y) p n (ba ++ bb) p2 n2 where
  kept := hy.kept
  labels := by
    rw [labelsOf_append]
    exact hx.labels.append hy.labels
  run hpd hnd s c h fuel := by
    rw [length_append, ← Nat.add_assoc]
    exact (hx.run hpd.left hnd h fuel).andThen fun s' c' h' =>
      hy.run hpd.right hnd h' fuel

lemma block (hst : StmtCodes A st p n b p' n') : StmtCodes A (.block st) p n b p' n' where
  kept := hst.kept
  labels := hst.labels
  run hpd hnd _ _ h fuel := (hst.run hpd hnd h fuel).inBlock

/-- The code of an expression and one instruction that uses the value. -/
lemma use (hp : p.Kept) (he : Codes A e p n v be p1 n1) (hvs : e.Plain) {i : Instr}
    (hlab : labelOf? i = none) {next : Config (String → V) V → V → Config (String → V) V}
    (hex : ∀ fuel c, exec A Memory.flat fuel st c =
      withValue (c.eval A Memory.flat e) c fun w => (.done, next c w))
    (hsp : ∀ {code : List Instr} {s : State V} {pc : Nat} {c : Config (String → V) V},
      Mirrors s pc c → code[pc]? = some i → ∃ s', step A code s = .ok s' ∧
        Mirrors s' (pc + 1) (next c (Tac.read A s.store v.display))) :
    StmtCodes A st p n (be ++ [i]) (p1.giveBack v) n1 where
  kept := he.kept_giveBack
  labels := by
    rw [labelsOf_append, labelsOf_cons_of_none hlab]
    exact he.labels.append (.nil n1)
  run hpd hnd s c h fuel := by
    rw [hex, length_append, ← Nat.add_assoc]
    refine he.follows hp hvs hpd.left hnd h fun s' h' => ?_
    obtain ⟨s'', hs'', h''⟩ := hsp h' hpd.right.get
    exact .of_step hs'' (.done h'')

lemma mirrors_mov {a x : String} (h : Mirrors s pc c)
    (hget : code[pc]? = some (.of .mov (.text a) .none (.text x))) : ∃ s', step A code s = .ok s' ∧
      Mirrors s' (pc + 1) { c with env := Function.update c.env x (Tac.read A s.store a) } := by
  cases h.pc_eq
  exact ⟨_, step_mov hget, h.write x _⟩

lemma declare (hp : p.Kept) (he : Codes A e p n v be p1 n1) (hvs : e.Plain) (x : String) :
    StmtCodes A (.declare x e) p n (be ++ [.of .mov v.operand .none (.text x)])
      (p1.giveBack v) n1 :=
  use hp he hvs rfl (fun _ _ => rfl) mirrors_mov

lemma assign (hp : p.Kept) (he : Codes A e p n v be p1 n1) (hvs : e.Plain) (x : String) :
    StmtCodes A (.assign x e) p n (be ++ [.of .mov v.operand .none (.text x)]) (p1.giveBack v) n1 :=
  use hp he hvs rfl (fun _ _ => rfl) mirrors_mov

lemma print (hp : p.Kept) (he : Codes A e p n v be p1 n1) (hvs : e.Plain) :
    StmtCodes A (.print e) p n (be ++ [.of .print v.operand .none .none]) (p1.giveBack v) n1 := by
  refine use hp he hvs rfl (fun _ _ => rfl) fun h hget => ?_
  cases h.pc_eq
  exact ⟨_, step_print hget, h.print _⟩

/-- The code of a branch. -/
def branchCode (v : Value) (n : Nat) (be ba bb : List Instr) : List Instr :=
  be ++
    .of .ifz v.operand .none (.text (labelName n)) ::
      (ba ++
        .of .jump (.text (labelName (n + 1))) .none .none ::
          .of .label (.text (labelName n)) .none .none ::
            (bb ++ [.of .label (.text (labelName (n + 1))) .none .none]))

lemma branch (hp : p.Kept) (he : Codes A e p n v be p1 n1) (hvs : e.Plain)
    (hx : StmtCodes A x (p1.giveBack v) (n1 + 2) ba p2 n2) {p3 : Temps} {n3 : Nat}
    (hy : StmtCodes A y p2 n2 bb p3 n3) :
    StmtCodes A (.branch e x y) p n (branchCode v n1 be ba bb) p3 n3 where
  kept := hy.kept
  labels := by
    refine (he.labels.append (hx.labels.append hy.labels).pair).of_perm ?_
    rw [branchCode, labelsOf_append]
    refine Perm.append_left _ ?_
    rw [labelsOf_cons_of_none rfl, labelsOf_append, labelsOf_cons_of_none rfl]
    refine perm_middle.trans (.cons _ ?_)
    rw [filterMap_append, ← append_assoc]
    exact perm_append_singleton _ _
  run {code start} hpd hnd s c h fuel := by
    have hifz := hpd.right
    have hjump := hifz.tail.right
    have hlab := hjump.tail
    have hdn := hlab.tail.right
    have hlen : start + (branchCode v n1 be ba bb).length =
        start + be.length + 1 + ba.length + 1 + 1 + bb.length + 1 := by
      simp [branchCode]
      omega
    rw [hlen, exec]
    refine he.tests hp hvs hpd hnd (target?_of_nodup hnd hlab.get rfl) h ?_ ?_
    · intro s' h'
      refine ((hx.run hifz.tail.left hnd h' fuel).onward fun s'' c' h'' => ?_).inBlock
      obtain ⟨u, hu, hmir⟩ := h''.jump hjump.get (target?_of_nodup hnd hdn.get rfl)
      obtain ⟨w, hw, hmirrors'⟩ := hmir.label hdn.get (labelName_ne_end _)
      exact ⟨w, hu.trans hw, hmirrors'⟩
    · intro s' h'
      obtain ⟨u, hu, hmir⟩ := h'.label hlab.get (labelName_ne_end _)
      refine .of_reaches hu ?_
      exact ((hy.run hlab.tail.left hnd hmir fuel).onward fun s'' c' h'' =>
        h''.label hdn.get (labelName_ne_end _)).inBlock

/-- The code of a loop. -/
def loopCode (v : Value) (n : Nat) (be b : List Instr) : List Instr :=
  .of .label (.text (labelName n)) .none .none ::
    (be ++
      .of .ifz v.operand .none (.text (labelName (n + 1))) ::
        (b ++
          [.of .jump (.text (labelName n)) .none .none,
            .of .label (.text (labelName (n + 1))) .none .none]))

lemma loop (hp : p.Kept) (he : Codes A e p (n + 2) v be p1 n1) (hvs : e.Plain)
    (hx : StmtCodes A x (p1.giveBack v) n1 b p2 n2) :
    StmtCodes A (.loop e x) p n (loopCode v n be b) p2 n2 where
  kept := hx.kept
  labels := by
    refine (he.labels.append hx.labels).pair.of_perm ?_
    refine .cons _ ?_
    rw [filterMap_append, filterMap_cons_none rfl, filterMap_append,
      ← append_assoc]
    exact perm_append_singleton _ _
  run {code start} hpd hnd s c h fuel := by
    have hifz := hpd.tail.right
    have hjump := hifz.tail.right
    have hdn := hjump.tail
    have hlen : start + (loopCode v n be b).length =
        start + 1 + be.length + 1 + b.length + 1 + 1 := by
      simp [loopCode]
      omega
    rw [hlen, exec]
    -- `k` rounds are left to the evaluator; each is at least one step.
    have hrou : ∀ k, k ≤ fuel → ∀ s c, Mirrors s start c →
        Follows A code k s (start + 1 + be.length + 1 + b.length + 1 + 1)
          (repeatWhile (fun c => c.test A Memory.flat e)
            (inBlock Memory.flat (exec A Memory.flat fuel x)) k c) := by
      intro k
      induction k with
      | zero =>
        intro _ s c h
        exact ⟨0, s, Nat.le_refl 0, .refl s, h.out_eq⟩
      | succ k ih =>
        intro hk s c h
        cases h.pc_eq
        rw [repeatWhile, Nat.add_comm k 1]
        refine .of_steps (.one (step_label hpd.get (labelName_ne_end n))) ?_
        refine he.tests hp hvs hpd.tail hnd (target?_of_nodup hnd hdn.get rfl)
          (h.goto _) ?_ ?_
        · intro s' h'
          have hb := (hx.run hifz.tail.left hnd h' fuel).inBlock
          refine (hb.mono (by omega)).andThen fun s'' c' h'' => ?_
          obtain ⟨u, hu, hmir⟩ :=
            h''.jump hjump.get (target?_of_nodup hnd hpd.get rfl)
          exact .of_reaches hu (ih (by omega) u c' hmir)
        · intro s' h'
          obtain ⟨u, hu, hmir⟩ := h'.label hdn.get (labelName_ne_end _)
          exact .of_reaches hu (.done hmir)
    exact hrou fuel (Nat.le_refl fuel) s c h

end StmtCodes

end Stmt

end Compiscript.Core
