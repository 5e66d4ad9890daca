import Compiscript.Proofs.Core.Passage

/-!
# Code for Expressions

What it means for a piece of code to compute an expression, and how such pieces
are put together.

`Core.Codes` is about code wherever it stands. Running it from its first
instruction leads behind its last one, with the value of the expression to be
read from an operand, or to a division by zero if the expression has none. The
code may write to temporaries of the pool it was made with, and the operand is
out of reach of the pool that is left: whatever code is made afterwards does not
disturb it.
-/

namespace Compiscript.Core

open List

open Machine Tac

section Codes

variable {V : Type} [DecidableEq V]

/-- Code for an expression. It takes the pool from `p` to `p'` and the count of
    labels from `n` to `n'`, and leaves the value in `v`. -/
structure Codes (A : Arith V) (e : Expr) (p : Temps) (n : Nat) (v : Value) (b : List Instr)
    (p' : Temps) (n' : Nat) : Prop where
  kept : p'.Kept
  avail (j : Int) : p'.Avail j ↔ p.Avail j ∧ v ≠ .temp j
  taken (j : Int) : v = .temp j → p.Avail j
  held : p'.Held v
  labels : Labels n n' (labelsOf b)
  value {code : List Instr} {start : Nat} (hpd : Placed code b start)
    (hnd : (labelsOf code).Nodup) {s : State V} (hpc : s.pc = start) {w : V}
    (h : evalIn A s.store e = .ok w) :
    ∃ s', Passes A code p s (start + b.length) s' ∧ read A s'.store v.display = w
  fault {code : List Instr} {start : Nat} (hpd : Placed code b start)
    (hnd : (labelsOf code).Nodup) {s : State V} (hpc : s.pc = start) {f : Fault}
    (h : evalIn A s.store e = .error f) : Faults A code s

/-- Code leads to a place where what is read is a given value, or to a division by zero if
    there is none. -/
def Delivers {α : Type} (A : Arith V) (code : List Instr) (p : Temps) (s : State V) (pc : Nat)
    (read : (String → V) → α) : Except Fault α → Prop
  | .ok w => ∃ s', Passes A code p s pc s' ∧ read s'.store = w
  | .error _ => Faults A code s

variable {A : Arith V} {e a b c : Expr} {p p' p1 p2 p3 : Temps} {n n' n1 n2 n3 : Nat}
  {v va vb vc : Value} {bl ba bb bc : List Instr} {code : List Instr} {start pc pc' : Nat}
  {s s' : State V}

namespace Delivers

variable {α β : Type} {read : (String → V) → α} {o : Except Fault α}

lemma after (h : Delivers A code p' s' pc read o) (hs : Passes A code p s pc' s')
    (hp : ∀ j, p'.Avail j → p.Avail j) : Delivers A code p s pc read o := by
  cases o with
  | error f => exact hs.faults h
  | ok w =>
    obtain ⟨s2, hs2, hrd⟩ := h
    exact ⟨s2, hs.trans (hs2.widen hp), hrd⟩

/-- What comes behind the value makes another one of it. -/
lemma andThen {read' : (String → V) → β} {f : α → Except Fault β}
    (h : Delivers A code p s pc read o)
    (hf : ∀ s', Passes A code p s pc s' → Delivers A code p s' pc' read' (f (read s'.store))) :
    Delivers A code p s pc' read' (o.bind f) := by
  cases o with
  | error f => exact h
  | ok w =>
    obtain ⟨s', hs', rfl⟩ := h
    exact (hf s' hs').after hs' fun _ => id

/-- What comes behind the value moves it elsewhere. -/
lemma before {read' : (String → V) → α} (h : Delivers A code p s pc read o)
    (hs : ∀ s', Passes A code p s pc s' →
      ∃ s2, Passes A code p s pc' s2 ∧ read' s2.store = read s'.store) :
    Delivers A code p s pc' read' o := by
  cases o with
  | error f => exact h
  | ok w =>
    obtain ⟨s', hs', rfl⟩ := h
    exact hs s' hs'

end Delivers

namespace Codes

lemma delivers (h : Codes A e p n v bl p' n') (hpd : Placed code bl start)
    (hnd : (labelsOf code).Nodup) (hpc : s.pc = start) : Delivers A code p s
      (start + bl.length) (read A · v.display) (evalIn A s.store e) := by
  cases he : evalIn A s.store e with
  | ok w => exact h.value hpd hnd hpc he
  | error f => exact h.fault hpd hnd hpc he

lemma of_delivers (kept : p'.Kept) (avail : ∀ j, p'.Avail j ↔ p.Avail j ∧ v ≠ .temp j)
    (taken : ∀ j, v = .temp j → p.Avail j) (held : p'.Held v) (labels : Labels n n' (labelsOf bl))
    (h : ∀ {code start s}, Placed code bl start → (labelsOf code).Nodup → s.pc = start →
      Delivers A code p s (start + bl.length) (read A · v.display) (evalIn A s.store e)) :
    Codes A e p n v bl p' n' where
  kept := kept
  avail := avail
  taken := taken
  held := held
  labels := labels
  value hpd hnd _ hpc _ he := by
    have hd := h hpd hnd hpc
    rwa [he] at hd
  fault hpd hnd _ hpc _ he := by
    have hd := h hpd hnd hpc
    rwa [he] at hd

lemma avail_of_avail (h : Codes A e p n v bl p' n') {j : Int} (hj : p'.Avail j) : p.Avail j :=
  ((h.avail j).1 hj).1

/-- Once the value is given back, the pool has what it had. -/
lemma avail_giveBack (h : Codes A e p n v bl p' n') (j : Int) :
    (p'.giveBack v).Avail j ↔ p.Avail j := by
  rw [Temps.avail_giveBack, h.avail]
  have := h.taken j
  grind

lemma kept_giveBack (h : Codes A e p n v bl p' n') : (p'.giveBack v).Kept :=
  h.kept.giveBack h.held

/-- The pool after a temporary was taken for a result and the value given back. -/
lemma kept_result (h : Codes A e p n v bl p' n') : (p'.get.2.giveBack v).Kept :=
  h.kept.get.giveBack (h.held.mono fun _ hj => (h.kept.avail_get.1 hj).1)

lemma avail_result (h : Codes A e p n v bl p' n') (j : Int) :
    (p'.get.2.giveBack v).Avail j ↔ p.Avail j ∧ j ≠ p'.get.1 := by
  have htaken := h.taken j
  have hget := ((h.avail _).1 p'.avail_get_self).2
  rw [Temps.avail_giveBack, h.kept.avail_get, h.avail]
  grind

/-- Code that is no more than an operand. -/
lemma leaf (hp : p.Kept) {x : String} (hx : isTempName x = false)
    (heval : ∀ store, evalIn A store e = .ok (read A store x)) :
    Codes A e p n (.text x) [] p n where
  kept := hp
  avail j := by simp
  taken j := by simp
  held := hx
  labels := .nil n
  value _ _ s hpc w h := by
    rw [heval] at h
    injection h with h
    subst hpc
    exact ⟨s, .refl p s, h⟩
  fault _ _ s _ f h := by
    rw [heval] at h
    cases h

/-- Code that leaves its value in a temporary of the pool, which is all that it takes. -/
lemma of_temp {r : Int} (hp : p.Kept) (kept : p'.Kept) (hr : p.Avail r)
    (avail : ∀ j, p'.Avail j ↔ p.Avail j ∧ j ≠ r) (labels : Labels n n' (labelsOf bl))
    (h : ∀ {code start s}, Placed code bl start → (labelsOf code).Nodup → s.pc = start →
      Delivers A code p s (start + bl.length) (read A · (tempName (.int r))) (evalIn A s.store e)) :
    Codes A e p n (.temp r) bl p' n' := by
  refine .of_delivers kept (fun j => ?_) ?_ ?_ labels h
  · rw [avail]
    grind
  · rintro j ⟨⟩
    exact hr
  · exact ⟨hp.avail_nonneg hr, fun hav => ((avail _).1 hav).2 rfl⟩

lemma unary (hp : p.Kept) (ha : Codes A a p n va ba p1 n1) {i : Instr} {f : V → V}
    (hlab : labelOf? i = none)
    (hsp : ∀ {code : List Instr} {s : State V}, code[s.pc]? = some i → step A code s =
        .ok (s.write (tempName (.int p1.get.1)) (f (read A s.store va.display))))
    (heval : ∀ store, evalIn A store e = (evalIn A store a).map f) :
    Codes A e p n (.temp p1.get.1) (ba ++ [i]) (p1.get.2.giveBack va) n1 := by
  have hr := ha.avail_of_avail p1.avail_get_self
  refine .of_temp hp ha.kept_result hr ha.avail_result ?_ fun {code start s} hpd hnd hpc => ?_
  · rw [labelsOf_append, labelsOf_cons_of_none hlab]
    exact ha.labels.append (.nil n1)
  · have hmap : ∀ o : Except Fault V, o.map f = o.bind fun x => .ok (f x) := fun o => by
      cases o <;> rfl
    rw [heval, hmap]
    refine (ha.delivers hpd.left hnd hpc).andThen fun s1 hs1 => ?_
    have hget : code[s1.pc]? = some i := by rw [hs1.pc_eq]; exact hpd.right.get
    refine ⟨_, (Passes.write hr hs1.pc_eq (hsp hget)).cast_pc ?_, ?_⟩
    · rw [length_append]
      rfl
    · exact read_write_temp (hp.avail_nonneg hr) s1 _

end Codes

/-- A jump that is taken or not, depending on a value. -/
def Skips (A : Arith V) (op : Op) (jumps : V → Bool) : Prop :=
  ∀ (code : List Instr) (s : State V) (a l : String) (k : Nat),
    code[s.pc]? = some (.of op (.text a) .none (.text l)) → target? code l = some k →
      step A code s = .ok (if jumps (read A s.store a) then { s with pc := k } else s.next)

lemma skips_ifz (A : Arith V) : Skips A .ifz fun w => decide (w = A.zero) := by
  intro code s a l k h hl
  by_cases ha : read A s.store a = A.zero
  · rw [step_ifz_zero h hl ha]
    simp [ha]
  · rw [step_ifz_ne h ha]
    simp [ha]

lemma skips_ifnz (A : Arith V) : Skips A .ifnz fun w => !decide (w = A.zero) := by
  intro code s a l k h hl
  by_cases ha : read A s.store a = A.zero
  · rw [step_ifnz_zero h ha]
    simp [ha]
  · rw [step_ifnz_ne h hl ha]
    simp [ha]

/-- The code behind the left operand of a logical operator: a jump away, the
    right operand, and the result of either. -/
def logicalTail (op : Op) (va vb : Value) (d r : String) (n : Nat) (bb : List Instr) :
    List Instr :=
  .of op va.operand .none (.text (labelName n)) ::
    (bb ++
      [.of .mov vb.operand .none (.text r), .of .jump (.text (labelName (n + 1))) .none .none,
        .of .label (.text (labelName n)) .none .none, .of .mov (.text d) .none (.text r),
        .of .label (.text (labelName (n + 1))) .none .none])

section LogicalTail

variable {op : Op} {jumps : V → Bool} {d : String} {w0 x : V} {r : Int} (hr : p.Avail r)
  (hr0 : 0 ≤ r) (hsk : Skips A op jumps)
  (hpd : Placed code (logicalTail op va vb d (tempName (.int r)) n bb) start)
  (hnd : (labelsOf code).Nodup) (hpc : s.pc = start)
  (hrd : read A s.store va.display = x)

include hr hr0 hsk hpd hnd hpc hrd

lemma logicalTail_decided (hd : ∀ store, read A store d = w0) (hx : jumps x = true) :
    Delivers A code p s (start + (bb.length + 6)) (read A · (tempName (.int r))) (.ok w0) := by
  have htail := hpd.tail.right
  have haway := htail.tail.tail
  have hjump := hsk code s va.display (labelName n) _ (hpc ▸ hpd.get)
    (target?_of_nodup hnd haway.get rfl)
  rw [hrd, hx, if_pos rfl] at hjump
  have h1 : Passes A code p s _ _ := .goto hjump
  have h2 := h1.trans (.label h1.pc_eq haway.get (labelName_ne_end n))
  have h3 := h2.trans (.mov hr h2.pc_eq haway.tail.get)
  have h4 := h3.trans (.label h3.pc_eq haway.tail.tail.get (labelName_ne_end (n + 1)))
  refine ⟨_, h4.cast_pc (by omega), ?_⟩
  exact (read_write_temp hr0 _ _).trans (hd _)

lemma logicalTail_undecided (hb : Codes A b p1 n1 vb bb p2 n2)
    (hp1 : ∀ j, p1.Avail j → p.Avail j) (hx : jumps x = false) :
    Delivers A code p s (start + (bb.length + 6)) (read A · (tempName (.int r)))
      (evalIn A s.store b) := by
  have htail := hpd.tail.right
  have haway := htail.tail.tail
  have hon := hsk code s va.display (labelName n) _ (hpc ▸ hpd.get)
    (target?_of_nodup hnd haway.get rfl)
  rw [hrd, hx, if_neg Bool.false_ne_true] at hon
  have h1 : Passes A code p s _ s.next := .goto hon
  refine ((hb.delivers hpd.tail.left hnd (congrArg (· + 1) hpc)).after h1 hp1).before
    fun s2 h2 => ?_
  have h3 := h2.trans (.mov hr h2.pc_eq htail.get)
  have hdn := haway.tail.tail.get
  have h4 := h3.trans (.jump h3.pc_eq htail.tail.get (target?_of_nodup hnd hdn rfl))
  have h5 := h4.trans (.label h4.pc_eq hdn (labelName_ne_end (n + 1)))
  exact ⟨_, h5.cast_pc (by omega), read_write_temp hr0 _ _⟩

end LogicalTail

lemma Codes.logical {op : Op} {jumps : V → Bool} {d : String} {w0 : V} (hp : p.Kept)
    (hvs : b.Plain) (hop : op ≠ .label) (hsk : Skips A op jumps)
    (hd : ∀ store, read A store d = w0)
    (heval : ∀ store, evalIn A store e =
      (evalIn A store a).bind fun x => if jumps x then .ok w0 else evalIn A store b)
    (ha : Codes A a p.get.2 (n + 2) va ba p1 n1) (hb : Codes A b (p1.giveBack va) n1 vb bb p2 n2) :
    Codes A e p n (.temp p.get.1)
      (ba ++ logicalTail op va vb d (tempName (.int p.get.1)) n bb) (p2.giveBack vb) n2 := by
  have havail : ∀ j, (p2.giveBack vb).Avail j ↔ p.Avail j ∧ j ≠ p.get.1 := by
    intro j
    rw [hb.avail_giveBack, ha.avail_giveBack, hp.avail_get]
  have hr : 0 ≤ p.get.1 := hp.avail_nonneg p.avail_get_self
  have hsub : ∀ j, p.get.2.Avail j → p.Avail j := fun j hj => (hp.avail_get.1 hj).1
  refine .of_temp hp hb.kept_giveBack p.avail_get_self havail ?_
    fun {code start s} hpd hnd hpc => ?_
  · have hlabs := (ha.labels.append hb.labels).pair
    refine hlabs.of_perm ?_
    rw [labelsOf_append, logicalTail, labelsOf_cons_of_none (by simp [labelOf?, Instr.of, hop]),
      labelsOf_append, ← append_assoc]
    exact perm_append_comm
  · have hlen : start + (ba ++ logicalTail op va vb d (tempName (.int p.get.1)) n bb).length =
        start + ba.length + (bb.length + 6) := by
      simp [logicalTail]
      omega
    rw [heval, hlen]
    refine ((ha.delivers hpd.left hnd hpc).after (.refl p s) hsub).andThen fun s1 h1 => ?_
    cases hjumps : jumps (read A s1.store va.display) with
    | true =>
      exact logicalTail_decided p.avail_get_self hr hsk hpd.right hnd h1.pc_eq rfl hd hjumps
    | false =>
      rw [if_neg Bool.false_ne_true, ← eval_of_frame hp h1.frame hvs]
      exact logicalTail_undecided p.avail_get_self hr hsk hpd.right hnd h1.pc_eq rfl hb
        (fun j hj => hsub j ((ha.avail_giveBack j).1 hj)) hjumps

/-- The code behind the condition of a question. -/
def questionTail (vc va vb : Value) (r : String) (n : Nat) (ba bb : List Instr) : List Instr :=
  .of .ifz vc.operand .none (.text (labelName n)) ::
    (ba ++
      .of .mov va.operand .none (.text r) :: .of .jump (.text (labelName (n + 1))) .none .none ::
        .of .label (.text (labelName n)) .none .none ::
          (bb ++
            [.of .mov vb.operand .none (.text r),
              .of .label (.text (labelName (n + 1))) .none .none]))

section QuestionTail

variable {r : Int} {q : Temps} (hr : p.Avail r) (hr0 : 0 ≤ r) (hq : ∀ j, q.Avail j → p.Avail j)
  (hpd : Placed code (questionTail vc va vb (tempName (.int r)) n ba bb) start)
  (hnd : (labelsOf code).Nodup) (hpc : s.pc = start)

include hr hr0 hq hpd hnd hpc

lemma questionTail_true (ha : Codes A a q n1 va ba p2 n2)
    (hrd : read A s.store vc.display ≠ A.zero) :
    Delivers A code p s (start + (ba.length + bb.length + 6)) (read A · (tempName (.int r)))
      (evalIn A s.store a) := by
  subst hpc
  have hmov := hpd.tail.right
  have h1 : Passes A code p s (s.pc + 1) s.next := .goto (step_ifz_ne hpd.get hrd)
  refine ((ha.delivers hpd.tail.left hnd h1.pc_eq).after h1 hq).before fun s2 h2 => ?_
  have h3 := h2.trans (.mov hr h2.pc_eq hmov.get)
  have hdn := hmov.tail.tail.tail.right.tail.get
  have h4 := h3.trans (.jump h3.pc_eq hmov.tail.get (target?_of_nodup hnd hdn rfl))
  have h5 := h4.trans (.label h4.pc_eq hdn (labelName_ne_end (n + 1)))
  exact ⟨_, h5.cast_pc (by omega), read_write_temp hr0 _ _⟩

lemma questionTail_false (hb : Codes A b q n1 vb bb p2 n2)
    (hrd : read A s.store vc.display = A.zero) :
    Delivers A code p s (start + (ba.length + bb.length + 6)) (read A · (tempName (.int r)))
      (evalIn A s.store b) := by
  subst hpc
  have hoth := hpd.tail.right.tail.tail
  have hend := hoth.tail.right
  have h1 : Passes A code p s _ _ :=
    .goto (step_ifz_zero hpd.get (target?_of_nodup hnd hoth.get rfl) hrd)
  have h2 := h1.trans (.label h1.pc_eq hoth.get (labelName_ne_end n))
  refine ((hb.delivers hoth.tail.left hnd h2.pc_eq).after h2 hq).before fun s3 h3 => ?_
  have h4 := h3.trans (.mov hr h3.pc_eq hend.get)
  have h5 := h4.trans (.label h4.pc_eq hend.tail.get (labelName_ne_end (n + 1)))
  exact ⟨_, h5.cast_pc (by omega), read_write_temp hr0 _ _⟩

end QuestionTail

lemma Codes.question (hp : p.Kept) (ha' : a.Plain) (hb' : b.Plain)
    (hc : Codes A c p n vc bc p1 n1) (ha : Codes A a (p1.giveBack vc) (n1 + 2) va ba p2 n2)
    (hb : Codes A b (p2.get.2.giveBack va) n2 vb bb p3 n3) :
    Codes A (.question c a b) p n (.temp p2.get.1)
      (bc ++ questionTail vc va vb (tempName (.int p2.get.1)) n1 ba bb) (p3.giveBack vb) n3 := by
  have havail : ∀ j, (p3.giveBack vb).Avail j ↔ p.Avail j ∧ j ≠ p2.get.1 := by
    intro j
    rw [hb.avail_giveBack, ha.avail_result, hc.avail_giveBack]
  have hr : p.Avail p2.get.1 := (hc.avail_giveBack _).1 (ha.avail_of_avail p2.avail_get_self)
  have hr0 : 0 ≤ p2.get.1 := hp.avail_nonneg hr
  have hsuba : ∀ j, (p1.giveBack vc).Avail j → p.Avail j := fun j hj => (hc.avail_giveBack j).1 hj
  have hsubb : ∀ j, (p2.get.2.giveBack va).Avail j → p.Avail j :=
    fun j hj => hsuba j ((ha.avail_result j).1 hj).1
  refine .of_temp hp hb.kept_giveBack hr havail ?_ fun {code start s} hpd hnd hpc => ?_
  · refine (hc.labels.append (ha.labels.append hb.labels).pair).of_perm ?_
    rw [labelsOf_append]
    refine Perm.append_left _ ?_
    rw [questionTail, labelsOf_cons_of_none rfl, labelsOf_append]
    refine perm_middle.trans (.cons _ ?_)
    rw [filterMap_append, ← append_assoc]
    exact perm_append_singleton _ _
  · have hlen : start + (bc ++ questionTail vc va vb (tempName (.int p2.get.1)) n1 ba bb).length =
        start + bc.length + (ba.length + bb.length + 6) := by
      simp [questionTail]
      omega
    rw [evalIn_question, hlen]
    refine (hc.delivers hpd.left hnd hpc).andThen fun s1 h1 => ?_
    by_cases hz : read A s1.store vc.display = A.zero
    · rw [if_pos hz, ← eval_of_frame hp h1.frame hb']
      exact questionTail_false hr hr0 hsubb hpd.right hnd h1.pc_eq hb hz
    · rw [if_neg hz, ← eval_of_frame hp h1.frame ha']
      exact questionTail_true hr hr0 hsuba hpd.right hnd h1.pc_eq ha hz

end Codes

end Compiscript.Core
