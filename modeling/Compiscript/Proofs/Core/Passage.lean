import Compiscript.Proofs.Core.Scoping
import Compiscript.Proofs.Tac.Temps
import Mathlib.Data.List.Nodup

/-!
# Passing Through Code

Parts of a run that lead from one place of the code to another without printing,
and that write to temporaries of a pool only.

Such passages can be put one behind the other. If a passage leads to a division
by zero, so does its beginning.
-/

namespace Compiscript.Core

open List

open Machine Tac

/-- The labels with the numbers from `n` up to `n'`, each once. -/
structure Labels (n n' : Nat) (ls : List String) : Prop where
  le : n ≤ n'
  perm : ls.Perm ((List.range' n (n' - n)).map labelName)

namespace Labels

variable {n n' n'' : Nat} {a b : List String}

lemma nil (n : Nat) : Labels n n [] := by
  refine ⟨Nat.le_refl n, ?_⟩
  rw [Nat.sub_self]
  exact .nil

lemma append (ha : Labels n n' a) (hb : Labels n' n'' b) : Labels n n'' (a ++ b) := by
  rcases ha with ⟨hle, ha⟩
  rcases hb with ⟨hle', hb⟩
  refine ⟨by omega, ?_⟩
  have hrange : range' n (n'' - n) = range' n (n' - n) ++ range' n' (n'' - n') := by
    have happ := @range'_append_1 n (n' - n) (n'' - n')
    rw [show n + (n' - n) = n' by omega, show n' - n + (n'' - n') = n'' - n by omega] at happ
    exact happ.symm
  rw [hrange, map_append]
  exact ha.append hb

/-- Two labels that were made up before some others. -/
lemma pair (hb : Labels (n + 2) n' b) : Labels n n' (labelName n :: labelName (n + 1) :: b) := by
  rcases hb with ⟨hle, hb⟩
  refine ⟨by omega, ?_⟩
  rw [show n' - n = n' - (n + 2) + 1 + 1 by omega, range'_succ, range'_succ]
  exact (hb.cons _).cons _

lemma of_perm (ha : Labels n n' a) (hab : b.Perm a) : Labels n n' b := ⟨ha.le, hab.trans ha.perm⟩

lemma nodup (ha : Labels n n' a) : a.Nodup :=
  ha.perm.nodup_iff.2 (Nodup.map (fun _ _ => labelName_injective) nodup_range')

lemma exists_of_mem (ha : Labels n n' a) {l : String} (hl : l ∈ a) : ∃ i, l = labelName i := by
  rcases mem_map.1 (ha.perm.mem_iff.1 hl) with ⟨i, _, rfl⟩
  exact ⟨i, rfl⟩

end Labels

section Passage

variable {V : Type} [DecidableEq V] (A : Arith V) (code : List Instr)

/-- From a state to another one at a given place, printing nothing and writing
    to temporaries of the pool only. -/
structure Passes (p : Temps) (s : State V) (pc : Nat) (s' : State V) : Prop where
  reaches : Reaches (step A code) s s'
  pc_eq : s'.pc = pc
  out_eq : s'.out = s.out
  frame : p.Frame s.store s'.store

/-- From a state to a division by zero, printing nothing. -/
def Faults (s : State V) : Prop :=
  ∃ s', Halts (step A code) s .zeroDivision s' ∧ s'.out = s.out

variable {A code} {p q : Temps} {s s' s'' : State V} {pc pc' : Nat}

namespace Passes

lemma trans (h : Passes A code p s pc s') (h' : Passes A code p s' pc' s'') :
    Passes A code p s pc' s'' where
  reaches := h.reaches.trans h'.reaches
  pc_eq := h'.pc_eq
  out_eq := h'.out_eq.trans h.out_eq
  frame := h.frame.trans h'.frame

lemma faults (h : Passes A code p s pc s') (h' : Faults A code s') : Faults A code s := by
  rcases h' with ⟨u, hu, hout⟩
  exact ⟨u, .of_reaches h.reaches hu, hout.trans h.out_eq⟩

/-- What a name reads as after a passage, if it is safe from the pool. -/
lemma read_eq (h : Passes A code p s pc s') {x : String} (hx : p.Safe x) :
    Tac.read A s'.store x = Tac.read A s.store x := by
  unfold Tac.read
  rw [h.frame x hx]

/-- A passage also keeps to any larger pool. -/
lemma widen (h : Passes A code q s pc s') (hq : ∀ j, q.Avail j → p.Avail j) :
    Passes A code p s pc s' :=
  ⟨h.reaches, h.pc_eq, h.out_eq, h.frame.mono hq⟩

lemma cast_pc (h : Passes A code p s pc s') (hpc : pc = pc') : Passes A code p s pc' s' :=
  hpc ▸ h

lemma refl (p : Temps) (s : State V) : Passes A code p s s.pc s :=
  ⟨.refl s, rfl, rfl, .refl p s.store⟩

lemma goto (h : step A code s = .ok { s with pc := pc }) :
    Passes A code p s pc { s with pc := pc } :=
  ⟨.one h, rfl, rfl, .refl p s.store⟩

lemma write {j : Int} {v : V} (hj : p.Avail j) (hpc : s.pc = pc)
    (h : step A code s = .ok (s.write (tempName (.int j)) v)) :
    Passes A code p s (pc + 1) (s.write (tempName (.int j)) v) :=
  ⟨.one h, congrArg (· + 1) hpc, rfl, .update hj v⟩

lemma label {l : String} (hpc : s.pc = pc)
    (h : code[pc]? = some (.of .label (.text l) .none .none)) (hl : l ≠ "program_end") :
    Passes A code p s (pc + 1) s.next := by
  subst hpc
  exact goto (step_label h hl)

lemma jump {l : String} {k : Nat} (hpc : s.pc = pc)
    (h : code[pc]? = some (.of .jump (.text l) .none .none)) (hl : target? code l = some k) :
    Passes A code p s k { s with pc := k } := by
  subst hpc
  exact goto (step_jump h hl)

/-- Moving a value to a temporary of the pool. -/
lemma mov {j : Int} {y : String} (hj : p.Avail j) (hpc : s.pc = pc)
    (h : code[pc]? = some (.of .mov (.text y) .none (.text (tempName (.int j))))) :
    Passes A code p s (pc + 1) (s.write (tempName (.int j)) (Tac.read A s.store y)) := by
  subst hpc
  exact write hj rfl (step_mov h)

end Passes

/-- Labels that the generator makes up begin with a letter of their own. -/
lemma labelName_ne {l : String} (hl : l.toList.head? ≠ some 'L') (n : Nat) : labelName n ≠ l := by
  rintro rfl
  rw [labelName, String.toList_append] at hl
  exact hl rfl

lemma labelName_ne_end (n : Nat) : labelName n ≠ "program_end" := labelName_ne (by decide) n

end Passage

section Eval

variable {V : Type} [DecidableEq V] {A : Arith V} {p : Temps}

/-- The value of an expression with all variables in a store. -/
def evalIn (A : Arith V) (store : String → V) (e : Expr) : Except Fault V :=
  e.eval A (Memory.flat.get? store)

lemma evalIn_minus (store : String → V) (e : Expr) :
    evalIn A store (.minus e) = (evalIn A store e).map A.neg := by
  rw [evalIn, Expr.eval]
  cases h : evalIn A store e <;> rw [evalIn] at h <;> rw [h] <;> rfl

lemma evalIn_bang (store : String → V) (e : Expr) : evalIn A store (.bang e) =
      (evalIn A store e).map fun x => A.flag (decide (x = A.zero)) := by
  rw [evalIn, Expr.eval]
  cases h : evalIn A store e <;> rw [evalIn] at h <;> rw [h] <;> rfl

lemma evalIn_binary (store : String → V) (op : Binary) (a b : Expr) :
    evalIn A store (.binary op a b) =
      (evalIn A store a).bind fun x => (evalIn A store b).bind fun y =>
        match A.result? op x y with
        | some v => .ok v
        | none => .error .zeroDivision :=
  rfl

lemma evalIn_andAlso (store : String → V) (a b : Expr) :
    evalIn A store (.andAlso a b) =
      (evalIn A store a).bind fun x =>
        if decide (x = A.zero) then .ok A.zero else evalIn A store b := by
  simp only [decide_eq_true_eq]
  rfl

lemma evalIn_orElse (store : String → V) (a b : Expr) :
    evalIn A store (.orElse a b) =
      (evalIn A store a).bind fun x =>
        if !decide (x = A.zero) then .ok A.one else evalIn A store b := by
  simp only [Bool.not_eq_true', decide_eq_false_iff_not, ite_not]
  rfl

lemma evalIn_question (store : String → V) (c a b : Expr) :
    evalIn A store (.question c a b) =
      (evalIn A store c).bind fun x =>
        if x = A.zero then evalIn A store b else evalIn A store a :=
  rfl

/-- No name of an expression looks like a temporary. -/
def Expr.Plain (e : Expr) : Prop := ∀ x ∈ e.vars, isTempName x = false

/-- Names that do not look like temporaries keep their value in code that only
    writes to temporaries. -/
lemma eval_of_frame (hp : p.Kept) {store store' : String → V} (h : p.Frame store store')
    {e : Expr} (hvs : e.Plain) : evalIn A store' e = evalIn A store e :=
  Expr.eval_congr A fun x hx => congrArg some (h x (hp.safe (hvs x hx)))

end Eval

end Compiscript.Core
