import Compiscript.Proofs.Codegen.Run
import Compiscript.Proofs.Core.ExprCode

/-!
# Code for Chains of Operators

All operands of a chain are evaluated first, each of them to an operand that
later code leaves alone, and the operations follow from left to right. For each
operation a temporary is taken for the result, and both operands are given
back.
-/

namespace Compiscript.Core

open List

open Machine Tac

section Chain

variable {V : Type} [DecidableEq V]

/-- The values of several expressions. -/
def evalAll (A : Arith V) (store : String → V) (es : List Expr) : Except Fault (List V) :=
  es.mapM (evalIn A store)

/-- The result of operations from left to right, if they all have one. -/
def fold? (A : Arith V) (x : V) (ops : List (Binary × V)) : Option V :=
  ops.foldlM (fun x l => A.result? l.1 x l.2) x

/-- Code for several expressions, whose values are then in `vs`. -/
structure CodesAll (A : Arith V) (es : List Expr) (p : Temps) (n : Nat) (vs : List Value)
    (b : List Instr) (p' : Temps) (n' : Nat) : Prop where
  kept : p'.Kept
  avail (j : Int) : p'.Avail j ↔ p.Avail j ∧ .temp j ∉ vs
  taken (j : Int) : .temp j ∈ vs → p.Avail j
  apart : vs.Pairwise Temps.Apart
  held (v : Value) : v ∈ vs → p'.Held v
  labels : Labels n n' (labelsOf b)
  values {code : List Instr} {start : Nat} (hpd : Placed code b start)
    (hnd : (labelsOf code).Nodup) {s : State V} (hpc : s.pc = start) {ws : List V}
    (h : evalAll A s.store es = .ok ws) :
    ∃ s', Passes A code p s (start + b.length) s' ∧
      vs.map (fun v => read A s'.store v.display) = ws
  fault {code : List Instr} {start : Nat} (hpd : Placed code b start)
    (hnd : (labelsOf code).Nodup) {s : State V} (hpc : s.pc = start) {f : Fault}
    (h : evalAll A s.store es = .error f) : Faults A code s

variable {A : Arith V} {e : Expr} {es : List Expr} {p p' p1 p2 : Temps} {n n' n1 n2 : Nat}
  {v : Value} {vs : List Value} {b bs : List Instr}

lemma evalAll_cons (store : String → V) (e : Expr) (es : List Expr) : evalAll A store (e :: es) =
      (evalIn A store e).bind fun w => (evalAll A store es).map (w :: ·) := by
  rw [evalAll, evalAll, mapM_cons]
  cases evalIn A store e with
  | error f => rfl
  | ok w =>
    change ((List.mapM (evalIn A store) es).bind fun ws => .ok (w :: ws)) = _
    cases List.mapM (evalIn A store) es <;> rfl

lemma evalAll_of_frame (hp : p.Kept) {store store' : String → V} (h : p.Frame store store')
    (hvs : ∀ e ∈ es, e.Plain) : evalAll A store' es = evalAll A store es := by
  induction es with
  | nil => rfl
  | cons e es ih =>
    rw [evalAll_cons, evalAll_cons, eval_of_frame hp h (hvs e mem_cons_self),
      ih fun e' he' => hvs e' (mem_cons_of_mem _ he')]

namespace CodesAll

lemma nil (hp : p.Kept) (n : Nat) : CodesAll A [] p n [] [] p n where
  kept := hp
  avail j := by simp
  taken j := by simp
  apart := .nil
  held v := by simp
  labels := .nil n
  values _ _ s hpc ws h := by
    injection h with h
    subst hpc
    exact ⟨s, .refl p s, h⟩
  fault _ _ s _ f h := by cases h

section Cons

variable (hp : p.Kept) (hvs : ∀ e ∈ es, e.Plain) (he : Codes A e p n v b p1 n1)
  (hes : CodesAll A es p1 n1 vs bs p2 n2)

include hp hvs he hes

lemma cons_delivers {code : List Instr} {start : Nat} {s : State V}
    (hpd : Placed code (b ++ bs) start) (hnd : (labelsOf code).Nodup) (hpc : s.pc = start) :
    Delivers A code p s (start + (b ++ bs).length)
      (fun store => (v :: vs).map fun v => read A store v.display)
      (evalAll A s.store (e :: es)) := by
  rw [evalAll_cons, length_append, ← Nat.add_assoc]
  refine (he.delivers hpd.left hnd hpc).andThen fun s1 hs1 => ?_
  rw [← evalAll_of_frame hp hs1.frame hvs]
  cases hxs : evalAll A s1.store es with
  | error f => exact hes.fault hpd.right hnd hs1.pc_eq hxs
  | ok xs =>
    obtain ⟨s2, hs2, hrs⟩ := hes.values hpd.right hnd hs1.pc_eq hxs
    refine ⟨s2, hs2.widen fun j => he.avail_of_avail, ?_⟩
    beta_reduce
    rw [map_cons, hrs, hs2.read_eq (he.kept.safe_value he.held)]

/-- One more operand in front. The code of the others does not disturb its value. -/
lemma cons : CodesAll A (e :: es) p n (v :: vs) (b ++ bs) p2 n2 where
  kept := hes.kept
  avail j := by
    rw [hes.avail, he.avail, mem_cons, not_or, and_assoc]
    grind
  taken j hj := by
    rcases mem_cons.1 hj with hj | hj
    · exact he.taken j hj.symm
    · exact he.avail_of_avail (hes.taken j hj)
  apart := by
    refine .cons ?_ hes.apart
    rintro v' hv' j rfl rfl
    exact ((he.avail j).1 (hes.taken j hv')).2 rfl
  held v' hv' := by
    rcases mem_cons.1 hv' with rfl | hv'
    · exact he.held.mono fun j hj => ((hes.avail j).1 hj).1
    · exact hes.held v' hv'
  labels := by
    rw [labelsOf_append]
    exact he.labels.append hes.labels
  values {code start} hpd hnd s hpc ws h := by
    have hd := cons_delivers hp hvs he hes hpd hnd hpc
    rwa [h] at hd
  fault {code start} hpd hnd s hpc f h := by
    have hd := cons_delivers hp hvs he hes hpd hnd hpc
    rwa [h] at hd

end Cons

end CodesAll

/-- Code for operations on values that are already there. It may write to the
    pool and to the values themselves. -/
structure Applies (A : Arith V) (acc : Value) (links : List (Binary × Value)) (p : Temps)
    (r : Value) (b : List Instr) (p' : Temps) : Prop where
  kept : p'.Kept
  avail (j : Int) :
    p'.Avail j ↔ (p.Avail j ∨ .temp j ∈ acc :: links.map Prod.snd) ∧ r ≠ .temp j
  taken (j : Int) : r = .temp j → p.Avail j ∨ .temp j ∈ acc :: links.map Prod.snd
  held : p'.Held r
  labels : labelsOf b = []
  value {q : Temps} (hq : ∀ j, p.Avail j ∨ .temp j ∈ acc :: links.map Prod.snd → q.Avail j)
    {code : List Instr} {start : Nat} (hpd : Placed code b start) {s : State V}
    (hpc : s.pc = start) {w : V}
    (h : fold? A (read A s.store acc.display)
      (links.map fun l => (l.1, read A s.store l.2.display)) = some w) :
    ∃ s', Passes A code q s (start + b.length) s' ∧ read A s'.store r.display = w
  fault {code : List Instr} {start : Nat} (hpd : Placed code b start) {s : State V}
    (hpc : s.pc = start)
    (h : fold? A (read A s.store acc.display)
      (links.map fun l => (l.1, read A s.store l.2.display)) = none) : Faults A code s

lemma Applies.nil (hp : p.Kept) {acc : Value} (hacc : p.Held acc) :
    Applies A acc [] p acc [] p where
  kept := hp
  avail j := by
    simp only [map_nil, mem_singleton]
    constructor
    · intro hj
      exact ⟨Or.inl hj, hacc.not_avail hj⟩
    · rintro ⟨hj | hj, hne⟩
      · exact hj
      · exact absurd hj.symm hne
  taken j hj := Or.inr (by simp [hj])
  held := hacc
  labels := rfl
  value _ _ _ _ s hpc w h := by
    subst hpc
    exact ⟨s, .refl _ s, Option.some.inj h⟩
  fault _ s _ h := by cases h

lemma fold?_cons (A : Arith V) (x y : V) (op : Binary) (ops : List (Binary × V)) :
    fold? A x ((op, y) :: ops) = (A.result? op x y).bind fun z => fold? A z ops :=
  rfl

/-- Values that the pool cannot hand out read the same after code that keeps to the pool. -/
lemma reads_of_passes {code : List Instr} {s s' : State V} {pc : Nat} (hp : p.Kept)
    {links : List (Binary × Value)} (hheld : ∀ v ∈ links.map Prod.snd, p.Held v)
    (h : Passes A code p s pc s') : links.map (fun l => (l.1, read A s'.store l.2.display)) =
      links.map fun l => (l.1, read A s.store l.2.display) := by
  refine map_congr_left fun l hl => ?_
  rw [h.read_eq (hp.safe_value (hheld l.2 (mem_map_of_mem hl)))]

/-- One more operation in front: its result is what the others begin with. -/
lemma Applies.cons {op : Binary} {links : List (Binary × Value)}
    (hp : p.Kept) (hheld : ∀ v' ∈ links.map Prod.snd, p.Held v')
    (hr : Applies A (.temp p.get.1) links ((p.get.2.giveBack acc).giveBack v) r b p') :
    Applies A acc ((op, v) :: links) p r
      (.of op.op acc.operand v.operand (.text (tempName (.int p.get.1))) :: b) p' := by
  have htemps : ∀ j, (((p.get.2.giveBack acc).giveBack v).Avail j ∨
      .temp j ∈ Value.temp p.get.1 :: links.map Prod.snd) ↔
      (p.Avail j ∨ .temp j ∈ acc :: v :: links.map Prod.snd) := by
    intro j
    have hget := p.avail_get_self
    simp only [Temps.avail_giveBack, hp.avail_get, mem_cons]
    grind
  refine ⟨hr.kept, ?_, ?_, hr.held, ?_, ?_, ?_⟩
  · intro j
    rw [hr.avail, htemps]
    rfl
  · intro j hj
    exact (htemps j).1 (hr.taken j hj)
  · rw [labelsOf_cons_of_none (by cases op <;> rfl)]
    exact hr.labels
  · intro q hq code start hpd s hpc w h
    subst hpc
    rw [map_cons, fold?_cons] at h
    have hs := step_binary (A := A) hpd.get
    cases hx : A.result? op (read A s.store acc.display) (read A s.store v.display) with
    | none => rw [hx] at h; cases h
    | some x =>
      rw [hx] at h hs
      have h1 := Passes.write (s := s) p.avail_get_self rfl hs
      rw [← reads_of_passes hp hheld h1] at h
      have hrd : read A (s.write (tempName (.int p.get.1)) x).store
          (Value.temp p.get.1).display = x :=
        read_write_temp (hp.avail_nonneg p.avail_get_self) s x
      obtain ⟨s2, hs2, hval⟩ := hr.value (w := w) (fun j hj => hq j ((htemps j).1 hj))
        hpd.tail h1.pc_eq (by rw [hrd]; exact h)
      refine ⟨s2, ((h1.widen fun j hj => hq j (Or.inl hj)).trans hs2).cast_pc ?_, hval⟩
      rw [length_cons]
      omega
  · intro code start hpd s hpc h
    subst hpc
    rw [map_cons, fold?_cons] at h
    have hs := step_binary (A := A) hpd.get
    cases hx : A.result? op (read A s.store acc.display) (read A s.store v.display) with
    | none =>
      rw [hx] at hs
      exact ⟨s, ⟨.refl s, hs⟩, rfl⟩
    | some x =>
      rw [hx] at h hs
      have h1 := Passes.write (s := s) p.avail_get_self rfl hs
      rw [← reads_of_passes hp hheld h1] at h
      have hrd : read A (s.write (tempName (.int p.get.1)) x).store
          (Value.temp p.get.1).display = x :=
        read_write_temp (hp.avail_nonneg p.avail_get_self) s x
      exact h1.faults (hr.fault hpd.tail h1.pc_eq (by rw [hrd]; exact h))

/-- The generator makes such code, for any values that are held and apart. -/
lemma exists_applies {acc : Value} {links : List (Binary × Value)} (hp : p.Kept)
    (hheld : ∀ v ∈ acc :: links.map Prod.snd, p.Held v)
    (hapart : (acc :: links.map Prod.snd).Pairwise Temps.Apart) :
    ∃ r b p', Gen.Emits (Gen.applyOps acc (links.map fun l => (l.1.op, l.2))) p n r b p' n ∧
      Applies A acc links p r b p' := by
  induction links generalizing acc p with
  | nil => exact ⟨acc, [], p, .pure acc p n, .nil hp (hheld acc (.head _))⟩
  | cons l links ih =>
    rcases l with ⟨op, v⟩
    simp only [map_cons, forall_mem_cons, pairwise_cons] at hheld hapart
    rcases hheld with ⟨hacc, hv, hlinks⟩
    rcases hapart with ⟨⟨haccv, haccl⟩, hvli, hpair⟩
    have hget : ∀ j, p.get.2.Avail j → p.Avail j := fun j hj => (hp.avail_get.1 hj).1
    -- What was held before is not the new temporary.
    have hnew : ∀ v', p.Held v' → Temps.Apart v' (.temp p.get.1) := by
      rintro v' hv' j hj heq
      injection heq with heq
      exact hv'.not_avail p.avail_get_self (heq ▸ hj)
    have hkept : ((p.get.2.giveBack acc).giveBack v).Kept :=
      (hp.get.giveBack (hacc.mono hget)).giveBack ((hv.mono hget).giveBack haccv)
    have hres : ((p.get.2.giveBack acc).giveBack v).Held (.temp p.get.1) :=
      (hp.held_get.giveBack (hnew acc hacc)).giveBack (hnew v hv)
    have hr : ∀ v' ∈ links.map Prod.snd, ((p.get.2.giveBack acc).giveBack v).Held v' :=
      fun v' hv' =>
        (((hlinks v' hv').mono hget).giveBack (haccl v' hv')).giveBack (hvli v' hv')
    obtain ⟨r, b, p', hem, happ⟩ := ih hkept (forall_mem_cons.2 ⟨hres, hr⟩)
      (.cons (fun v' hv' j hj heq => hnew v' (hlinks v' hv') j heq hj) hpair)
    refine ⟨r, _ :: b, p', ?_, .cons hp hlinks happ⟩
    refine (Gen.Emits.freshTemp p n).silent ((Gen.Emits.emit _ _ _ _ _ n).bind ?_)
    exact (Gen.Emits.release acc _ n).silent ((Gen.Emits.release v _ n).silent hem)

/-- The result of a chain with given values of its operands. -/
def chainResult? (A : Arith V) (ops : List Binary) : List V → Option V
  | [] => none
  | x :: ws => fold? A x (ops.zip ws)

/-- The value of a chain, if it has one, is that of its operations on the values of its operands. -/
lemma toOption_chain (A : Arith V) (store : String → V) (e : Expr)
    (links : List (Binary × Expr)) : (evalIn A store (e.chain links)).toOption =
      (evalAll A store (e :: links.map Prod.snd)).toOption.bind
        (chainResult? A (links.map Prod.fst)) := by
  induction links generalizing e with
  | nil =>
    change (evalIn A store e).toOption = _
    rw [evalAll_cons]
    cases evalIn A store e <;> rfl
  | cons l links ih =>
    rcases l with ⟨op, f⟩
    change (evalIn A store ((Expr.binary op e f).chain links)).toOption = _
    rw [ih, map_cons, map_cons, evalAll_cons, evalAll_cons, evalAll_cons,
      evalIn_binary]
    cases evalIn A store e with
    | error _ => rfl
    | ok x =>
      cases evalIn A store f with
      | error _ => rfl
      | ok y =>
        cases hz : A.result? op x y <;> cases evalAll A store (links.map Prod.snd) <;>
          simp [Except.bind, Except.map, Except.toOption, hz, chainResult?, fold?_cons]

/-- The code of a chain: that of all operands, and the operations behind it. -/
lemma Codes.chain {links : List (Binary × Expr)} {acc r : Value} {p3 : Temps}
    (hes : CodesAll A (e :: links.map Prod.snd) p n (acc :: vs) bs p1 n1)
    (hlen : vs.length = links.length)
    (happ : Applies A acc ((links.map Prod.fst).zip vs) p1 r b p3) :
    Codes A (e.chain links) p n r (bs ++ b) p3 n1 := by
  have hsnd : ((links.map Prod.fst).zip vs).map Prod.snd = vs :=
    map_snd_zip (by rw [length_map, hlen])
  have hall : ∀ j, (p1.Avail j ∨ .temp j ∈ acc :: vs) ↔ p.Avail j := by
    intro j
    have := hes.taken j
    rw [hes.avail]
    grind
  have hzip : ∀ store : String → V, chainResult? A (links.map Prod.fst)
          ((acc :: vs).map fun v => read A store v.display) =
        fold? A (read A store acc.display)
          (((links.map Prod.fst).zip vs).map fun l => (l.1, read A store l.2.display)) := by
    intro store
    rw [map_cons, chainResult?, zip_map_right]
    rfl
  have havail := happ.avail
  have htk := happ.taken
  rw [hsnd] at havail htk
  refine .of_delivers happ.kept (fun j => ?_) (fun j hj => (hall j).1 (htk j hj))
    happ.held ?_ fun {code start s} hpd hnd hpc => ?_
  · rw [havail, hall]
  · rw [labelsOf_append, happ.labels]
    exact hes.labels.append (.nil n1)
  · have hvl := toOption_chain A s.store e links
    cases hws : evalAll A s.store (e :: links.map Prod.snd) with
    | error f =>
      rw [hws] at hvl
      have hfault := hes.fault hpd.left hnd hpc hws
      cases hcha : evalIn A s.store (e.chain links) with
      | error _ => exact hfault
      | ok w => rw [hcha] at hvl; cases hvl
    | ok ws =>
      obtain ⟨s1, hs1, rfl⟩ := hes.values hpd.left hnd hpc hws
      rw [hws] at hvl
      have hfo := (hzip s1.store).symm.trans hvl.symm
      cases hcha : evalIn A s.store (e.chain links) with
      | error f =>
        rw [hcha] at hfo
        exact hs1.faults (happ.fault hpd.right hs1.pc_eq hfo)
      | ok w =>
        rw [hcha] at hfo
        obtain ⟨s2, hs2, hrd⟩ := happ.value (q := p) (w := w)
          (fun j hj => (hall j).1 (hsnd ▸ hj)) hpd.right hs1.pc_eq hfo
        refine ⟨s2, (hs1.trans hs2).cast_pc ?_, hrd⟩
        rw [length_append]
        omega

end Chain

end Compiscript.Core
