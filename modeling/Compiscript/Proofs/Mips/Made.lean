import Compiscript.Proofs.Mips.Layout

/-!
# What Lowering Is Made Of

Every step of lowering is put together from a handful of small ones: lines are
added, a variable is given a register, a string is given a label, a mark is set or
asked for, and the operands that wait are looked at, added to or forgotten. Nothing
ever looks at the lines that are there already.

`Made` says so, once for all of lowering, so that what holds of the small steps and
carries over from two steps to one after the other holds of lowering as a whole, by
induction on how a step is made. It also says which strings of the program a step
loads, given the operands that wait.
-/

namespace Compiscript.Mips

open List hiding get
open Lower

/-- What a step of lowering may do besides adding lines. -/
structure Powers where
  /-- It may have to do with the operands that wait for a call. -/
  waits : Prop
  /-- It may mark variables that hold strings. -/
  marks : Prop
  /-- It may forget which variables are in registers. -/
  forgets : Prop
  /-- The variables it may ask for a register of. -/
  names : Option String → Prop

/-- All that there is. -/
def Powers.all : Powers := ⟨True, True, True, fun _ => True⟩

/-- Strings, given the operands that wait. -/
abbrev Wanted := List (Option String) → List String

/-- The labels that lines load. -/
def loadedLabels (lines : List Asm) : List String :=
  lines.filterMap fun | .la _ l => some l | _ => none

/-- What stands between the quotes of an operand, if it is a string. -/
def stringsOf (a : Option String) : List String :=
  a.elim [] fun x => if isQuoted x then [unquoted x] else []

/-- The strings among the arguments of a function. -/
def argumentStrings (name : String) (waiting : List (Option String)) : List String :=
  (if isConstructor name then stringsOf waiting.head?.join else []) ++
    (waiting.take 4).flatMap stringsOf

/-- The strings that a call loads, of those that wait for it. -/
def callStrings (name : String) : Wanted :=
  if name = "printString" ∨ name = "printInteger" then (stringsOf ·.head?.join)
  else if name = "toString" then fun _ => []
  else argumentStrings name

/-- A step of lowering that is made of small ones. It loads at least the strings `w`, in
    this order, where `w` may depend on the operands that wait. -/
inductive Made (p : Powers) : Wanted → {α : Type} → Lower α → Prop where
  | pure {α : Type} (a : α) : Made p (fun _ => []) (Pure.pure a)
  | both {w : Wanted} {w' : List String} {α β : Type} {m : Lower α} {k : α → Lower β}
      (hm : Made p w m) (hk : ∀ a, Made p (fun _ => w') (k a)) :
      Made p (fun q => w q ++ w') (m >>= k)
  | less {w : Wanted} {α : Type} {m : Lower α} (h : Made p w m) : Made p (fun _ => []) m
  /-- The only string that lines load by themselves is the empty one. -/
  | emitAll {as : List Asm} (h : loadedLabels as ⊆ [Strings.label 0]) :
      Made p (fun _ => []) (emitAll as)
  | registerOf {x : Option String} (hx : p.names x) : Made p (fun _ => []) (registerOf x)
  | loadString {a : String} (ha : isQuoted a = true) (code : String → List Asm)
      (h : ∀ l, loadedLabels (code l) = [l]) :
      Made p (fun _ => [unquoted a]) (do Lower.emitAll (code (← stringLabel a)))
  | holdsString (x : Option String) : Made p (fun _ => []) (holdsString x)
  | markString (hM : p.marks) (x : Option String) : Made p (fun _ => []) (markString x)
  /-- What follows may depend on the operands that wait, and on nothing else of the
      state. -/
  | waiting (hW : p.waits) {w : Wanted} {β : Type} {k : Lowering → Lower β}
      (hk : ∀ s, (∀ a ∈ s.pending, IsVariable a → p.names a) →
        Made p (fun _ => w s.pending) (k s))
      (h : ∀ s s' : Lowering, s.pending = s'.pending → k s = k s') : Made p w (get >>= k)
  | param (hW : p.waits) {x : Option String} (hx : IsVariable x → p.names x) :
      Made p (fun _ => []) (param x)
  | clearPending (hW : p.waits) : Made p (fun _ => []) clearPending
  | forget (hW : p.waits) (hM : p.marks) (hF : p.forgets) : Made p (fun _ => []) forget

namespace Made

variable {p : Powers} {a a1 a2 res : Option String} {w : Wanted}

/-- Nothing is loaded behind a step. -/
lemma bind {α β : Type} {m : Lower α} {k : α → Lower β} (hm : Made p w m)
    (hk : ∀ a, Made p (fun _ => []) (k a)) : Made p w (m >>= k) := by
  simpa only [append_nil] using hm.both hk

lemma lines {as : List Asm} (h : loadedLabels as = []) : Made p (fun _ => []) (Lower.emitAll as) :=
  emitAll (by simp [h])

lemma emit {a : Asm} (h : loadedLabels [a] = []) : Made p (fun _ => []) (emit a) := lines h

lemma lift {m : Lower Unit} (h : Made p w m) :
    Made p w (liftM m : ExceptT LowerFault Lower Unit).run :=
  h.bind fun _ => pure _

lemma seq {m k : ExceptT LowerFault Lower Unit} (hm : Made p w m.run)
    (hk : Made p (fun _ => []) k.run) : Made p w (do m; k : ExceptT LowerFault Lower Unit).run := by
  rw [ExceptT.run_bind]
  refine hm.bind fun r => ?_
  cases r with
  | ok => exact hk
  | error e => exact pure _

lemma stringsOf_of_isLiteral {x : String} (h : isLiteral (some x) = true) :
    stringsOf (some x) = [] := by
  have hquo : isQuoted x = false := by
    rw [isQuoted]
    rw [isLiteral, Option.map_some] at h
    cases hcs : x.toList with
    | nil => rfl
    | cons c cs =>
      have hc : c ≠ '"' := by
        rintro rfl
        simp [hcs, Text.isNumeral, show Text.isDigit '"' = false by decide] at h
      simp [hc]
  exact if_neg (Bool.eq_false_iff.1 hquo)

lemma ensure (ha : IsVariable a → p.names a) : Made p (fun _ => stringsOf a) (ensure a) := by
  unfold Lower.ensure
  split
  · exact (emit rfl).bind fun _ => pure _
  iterate 4 exact pure _
  rename_i name h1 h2 h3 h4
  split
  · rename_i hlit
    rw [stringsOf_of_isLiteral hlit]
    exact (emit rfl).bind fun _ => pure _
  rename_i hlit
  rw [stringsOf, Option.elim_some]
  split
  · rename_i hquo
    exact (loadString hquo (fun l => [.la .scratch l]) fun _ => rfl).bind fun _ => pure _
  rename_i hquo
  split
  · exact (emitAll (Subset.refl _)).bind fun _ => pure _
  rename_i hlog
  split
  · exact pure _
  rename_i hpar
  refine registerOf (ha ⟨?_, Bool.eq_false_iff.2 hlit, Bool.eq_false_iff.2 hquo, hpar⟩)
  intro x hx hmem
  obtain rfl : name = x := Option.some.inj hx
  simp only [reserved, mem_cons, not_mem_nil, or_false] at hmem
  rcases hmem with h | h | h | h | h
  · exact h1 h
  · exact h2 h
  · exact h3 h
  · exact h4 h
  · exact hlog h

lemma isString (a : Option String) : Made p (fun _ => []) (isString a) :=
  (holdsString a).bind fun _ => pure _

lemma branch {line : Reg → Asm} (hline : ∀ r, loadedLabels [line r] = [])
    (ha : IsVariable a → p.names a) :
    Made p (fun _ => stringsOf a) (do Lower.emit (line (← Lower.ensure a))) :=
  (ensure ha).bind fun _ => emit (hline _)

lemma print (ha : IsVariable a → p.names a) : Made p (fun _ => stringsOf a) (print a) := by
  unfold Lower.print
  split
  · exact emit rfl
  split
  · rename_i hquo
    rw [stringsOf, Option.elim_some, if_pos hquo]
    exact loadString hquo (fun l => .la (.arg 0) l :: systemCall 4) fun _ => rfl
  · exact (holdsString _).both fun _ => (ensure ha).bind fun _ => lines rfl

lemma unary {code : Reg → Reg → List Asm} (hcode : ∀ rd r, loadedLabels (code rd r) = [])
    (ha : IsVariable a → p.names a) (hres : p.names res) :
    Made p (fun _ => stringsOf a) (unary code a res) :=
  (ensure ha).bind fun _ => (registerOf hres).bind fun _ => lines (hcode _ _)

section Binary

variable (ha1 : IsVariable a1 → p.names a1) (ha2 : IsVariable a2 → p.names a2)

include ha1 ha2

lemma binary {code : Reg → Reg → Reg → List Asm}
    (hcode : ∀ rd r1 r2, loadedLabels (code rd r1 r2) = []) (hres : p.names res) :
    Made p (fun _ => stringsOf a1 ++ stringsOf a2) (binary code a1 a2 res) :=
  (ensure ha1).both fun _ => (ensure ha2).bind fun _ => (registerOf hres).bind fun _ =>
    lines (hcode _ _ _)

lemma setField (field : Option String) :
    Made p (fun _ => stringsOf a1 ++ stringsOf a2) (setField a1 a2 field) :=
  (ensure ha1).both fun _ => (ensure ha2).bind fun _ => lines rfl

end Binary

lemma printAny (ha : IsVariable a → p.names a) : Made p (fun _ => stringsOf a) (printAny a) := by
  cases a with
  | none => exact pure _
  | some => exact print ha

lemma newObject (c : Option String) (hres : p.names res) : Made p (fun _ => []) (newObject c res) :=
  (registerOf hres).bind fun _ => lines rfl

lemma ret (ha : IsVariable a → p.names a) : Made p (fun _ => stringsOf a) (ret a) := by
  have hend : Made p (fun _ => []) (do Lower.leave; Lower.emit (.jr .link)) :=
    (lines rfl).bind fun _ => emit rfl
  cases a with
  | none => exact hend
  | some => exact (ensure ha).bind fun _ => (emit rfl).bind fun _ => hend

lemma passArguments (i : Nat) {args : List (Option String)}
    (h : ∀ a ∈ args, IsVariable a → p.names a) :
    Made p (fun _ => args.flatMap stringsOf) (passArguments i args) := by
  induction args generalizing i with
  | nil => exact pure _
  | cons arg rest ih =>
    obtain ⟨harg, hr⟩ := forall_mem_cons.1 h
    cases arg with
    | none => exact ih (i + 1) hr
    | some arg => exact (ensure harg).both fun _ => (emit rfl).both fun _ => ih (i + 1) hr

/-! ### Steps that mark variables -/

section Marks

variable (hM : p.marks)

include hM

/-- A variable takes over that it holds a string. -/
lemma markIf (a x : Option String) :
    Made p (fun _ => []) (do if ← Lower.holdsString a then Lower.markString x) := by
  refine (holdsString a).bind fun b => ?_
  split
  · exact markString hM x
  · exact pure _

lemma move (ha : IsVariable a → p.names a) (hres : ∀ x, res = some x → p.names res) :
    Made p (fun _ => if res.isSome then stringsOf a else []) (move a res) := by
  have hcopy : p.names res → Made p (fun _ => stringsOf a) (do
      let rs ← Lower.ensure a
      Lower.emit (.move (← Lower.registerOf res) rs)
      if ← Lower.holdsString a then Lower.markString res) := fun hres =>
    (ensure ha).bind fun _ => (registerOf hres).bind fun _ => (emit rfl).bind fun _ => markIf hM _ _
  unfold Lower.move
  cases res with
  | none => exact emit rfl
  | some x =>
    have hres := hres _ rfl
    rw [Option.isSome_some, if_pos rfl]
    split
    · cases ‹some x = none›
    · split
      · rename_i hlit
        rw [stringsOf_of_isLiteral hlit]
        exact (registerOf hres).bind fun _ => emit rfl
      split
      · rename_i hquo
        rw [stringsOf, Option.elim_some, if_pos hquo]
        exact (registerOf hres).both fun rd => (loadString hquo (fun l => [.la rd l])
          fun _ => rfl).bind fun _ => markString hM _
      · exact hcopy hres
    · exact hcopy hres

lemma emptyString (hres : ∀ x, res = some x → p.names res) :
    Made p (fun _ => []) (emptyString res) := by
  unfold Lower.emptyString
  cases res with
  | none => exact pure _
  | some x =>
    exact (registerOf (hres x rfl)).bind fun _ =>
      (emitAll (Subset.refl _)).bind fun _ => markString hM _

lemma add (ha1 : IsVariable a1 → p.names a1) (ha2 : IsVariable a2 → p.names a2)
    (hres : p.names res) : Made p (fun _ => stringsOf a1 ++ stringsOf a2) (add a1 a2 res) := by
  refine (isString a1).both fun b => (isString a2).both fun c => ?_
  split
  · exact (printAny ha1).both fun _ => (printAny ha2).bind fun _ => emptyString hM fun _ _ => hres
  · exact binary ha1 ha2 (fun _ _ _ => rfl) hres

lemma getField (field : Option String) (ha : IsVariable a → p.names a) (hres : p.names res) :
    Made p (fun _ => stringsOf a) (getField a field res) := by
  refine (ensure ha).bind fun _ => (registerOf hres).bind fun _ => (lines rfl).bind fun _ => ?_
  split
  · exact markString hM res
  · exact pure _

variable (hres : ∀ x, res = some x → p.names res)

include hres

lemma callResult (name : String) : Made p (fun _ => []) (callResult name res) := by
  unfold Lower.callResult
  cases res with
  | none => exact pure _
  | some x =>
    refine (registerOf (hres x rfl)).bind fun rd => ?_
    split
    · exact emit rfl
    · refine (emit rfl).bind fun _ => ?_
      split
      · exact markString hM _
      · exact pure _

variable (hW : p.waits)

include hW

lemma printCall (number : Nat) (isString : Bool) :
    Made p (stringsOf ·.head?.join) (printCall number isString res) := by
  unfold Lower.printCall
  refine waiting hW (fun s hpen => ?_) fun s s' h => by rw [h]
  cases harg : s.pending.head?.join with
  | none => exact pure _
  | some arg =>
    have hmem : some arg ∈ s.pending := mem_of_head? (Option.join_eq_some_iff.1 harg)
    refine (ensure (hpen _ hmem)).bind fun _ => (lines rfl).bind fun _ => ?_
    cases res with
    | none => exact pure _
    | some x =>
      refine (registerOf (hres x rfl)).bind fun rd => (emit rfl).bind fun _ => ?_
      split
      · exact markString hM _
      · exact pure _

lemma callFunction (label name : String) :
    Made p (argumentStrings name) (callFunction label name res) := by
  unfold Lower.callFunction
  refine waiting hW (fun s hpen => ?_) fun s s' h => by rw [h]
  have hla : Made p (fun _ => (s.pending.take 4).flatMap stringsOf) (do
      Lower.passArguments 0 (s.pending.take 4);
      Lower.emit (.jal label); Lower.callResult name res) :=
    (passArguments 0 fun a ha => hpen a (mem_of_mem_take ha)).bind fun _ =>
      (emit rfl).bind fun _ => callResult hM hres name
  dsimp only [argumentStrings]
  cases hargs : s.pending with
  | cons object rest =>
    rw [hargs] at hpen hla
    dsimp only
    split
    · exact (ensure (hpen _ (.head _))).both fun _ => (emit rfl).both fun _ => hla
    · exact hla
  | nil =>
    rw [hargs] at hla
    rw [show (if isConstructor name then stringsOf [].head?.join else []) = [] from ite_self _]
    exact hla

lemma call (label : String) : Made p (callStrings (nameOfLabel label)) (call label res) := by
  unfold Lower.call
  dsimp only
  split
  · rename_i hnm
    rw [callStrings, if_pos (.inl hnm)]
    exact (printCall hM hres hW 4 true).bind fun _ => clearPending hW
  · rename_i hnm
    rw [callStrings, if_pos (.inr hnm)]
    exact (printCall hM hres hW 1 false).bind fun _ => clearPending hW
  · rename_i hnm
    rw [callStrings, hnm, if_neg (by decide), if_pos rfl]
    exact (emptyString hM hres).bind fun _ => clearPending hW
  · rename_i hstr hint hto
    rw [callStrings, if_neg (not_or.2 ⟨hstr, hint⟩), if_neg hto]
    exact (callFunction hM hres hW _ _).bind fun _ => clearPending hW

omit hres in
lemma label (hF : p.forgets) (name : Option String) : Made p (fun _ => []) (label name).run := by
  unfold Lower.label
  refine seq (lift (emit rfl)) ?_
  cases name with
  | none => exact pure _
  | some name =>
    have hexit : Made p (fun _ => []) (if name = "program_end" then
        liftM (Lower.emitAll ([Asm.blank, .heading "Exit program"] ++ Lower.systemCall 10))
        else Pure.pure () : ExceptT LowerFault Lower Unit).run := by
      split
      · exact lift (lines rfl)
      · exact pure _
    dsimp only
    split
    · exact seq (lift (forget hW hM hF)) hexit
    · exact hexit

lemma callLabel (label : Option String) :
    Made p (label.elim (fun _ => []) (callStrings ∘ nameOfLabel)) (callLabel label res).run := by
  cases label with
  | none => exact pure _
  | some l => exact lift (call hM hres hW l)

end Marks

lemma enterFunction (size : Option String) : Made p (fun _ => []) (enterFunction size).run := by
  have hent : Made p (fun _ => []) (liftM enter : ExceptT LowerFault Lower Unit).run :=
    lift (lines rfl)
  cases size with
  | none => exact hent
  | some size =>
    unfold Lower.enterFunction
    dsimp only
    split
    · exact seq (pure _) hent
    · exact hent

end Made

/-- The operands that an instruction brings into registers. -/
def readsOf (i : Instr) : List (Option String) :=
  match i.op with
  | .ifz | .ifnz | .neg | .not | .mov | .print | .ret | .param | .getp => [operandText i.a1]
  | .add | .sub | .mul | .div | .mod | .cmp _ | .movp =>
    [operandText i.a1, operandText i.a2]
  | _ => []

/-- The names that an instruction writes. A move and a call need none. -/
def writesOf (i : Instr) : List (Option String) :=
  match i.op with
  | .mov | .call => (operandText i.res).toList.map some
  | .add | .sub | .mul | .div | .mod | .cmp _ | .neg | .not | .new | .getp =>
    [operandText i.res]
  | _ => []

/-- The strings that an instruction loads, in order. -/
def stringsIn (i : Instr) : Wanted :=
  match i.op with
  | .param => fun _ => []
  | .mov => fun _ => if (operandText i.res).isSome then stringsOf (operandText i.a1) else []
  | .call => (operandText i.a1).elim (fun _ => []) (callStrings ∘ nameOfLabel)
  | .ifz | .ifnz | .neg | .not | .print | .ret | .getp => fun _ => stringsOf (operandText i.a1)
  | .add | .sub | .mul | .div | .mod | .cmp _ | .movp =>
    fun _ => stringsOf (operandText i.a1) ++ stringsOf (operandText i.a2)
  | _ => fun _ => []

/-- The operations that have to do with the operands that wait. -/
def waitOps : List Op := [.label, .param, .call]

/-- The operations that have to do with marks. -/
def markOps : List Op := [.label, .add, .mov, .getp, .call]

variable {p : Powers}

/-- Lowering an instruction is made of small steps. -/
lemma made_instruction {i : Instr} (hM : i.op ∈ markOps → p.marks)
    (hW : i.op ∈ waitOps → p.waits) (hF : i.op = .label → p.forgets)
    (hrs : ∀ a ∈ readsOf i, IsVariable a → p.names a) (hwri : ∀ a ∈ writesOf i, p.names a) :
    Made p (stringsIn i) (Lower.instruction i).run := by
  obtain ⟨op, a1, a2, res, c⟩ := i
  dsimp only at hM hW hF
  -- What is known of the operands, in the form in which the single steps ask for it.
  have hf : ∀ {as : List (Option String)}, Lower.operandText a1 :: as =
      readsOf ⟨op, a1, a2, res, c⟩ → IsVariable (Lower.operandText a1) →
        p.names (Lower.operandText a1) :=
    fun heq => hrs _ (heq ▸ mem_cons_self)
  have hsnd : ∀ {as : List (Option String)}, Lower.operandText a1 :: Lower.operandText a2 :: as =
      readsOf ⟨op, a1, a2, res, c⟩ → IsVariable (Lower.operandText a2) →
        p.names (Lower.operandText a2) :=
    fun heq => hrs _ (heq ▸ mem_cons_of_mem _ (.head _))
  have hres : [Lower.operandText res] = writesOf ⟨op, a1, a2, res, c⟩ →
      p.names (Lower.operandText res) :=
    fun heq => hwri _ (heq ▸ mem_cons_self)
  have hany : (Lower.operandText res).toList.map some = writesOf ⟨op, a1, a2, res, c⟩ →
      ∀ x, Lower.operandText res = some x → p.names (Lower.operandText res) := by
    intro heq x hx
    refine hwri _ (heq ▸ mem_map.2 ⟨x, ?_, hx.symm⟩)
    rw [hx]
    exact mem_singleton_self x
  cases op with
  | label => exact .label (hM (by decide)) (hW (by decide)) (hF rfl) _
  | jump | index | methodBegin | other => exact .lift (.emit rfl)
  | ifz | ifnz => exact .lift (.branch (fun _ => rfl) (hf rfl))
  | add => exact .lift (.add (hM (by decide)) (hf rfl) (hsnd rfl) (hres rfl))
  | sub | mul | div | mod =>
    exact .lift (.binary (hf rfl) (hsnd rfl) (fun _ _ _ => rfl) (hres rfl))
  | cmp r =>
    exact .lift (.binary (hf rfl) (hsnd rfl) (fun _ _ _ => by cases r <;> rfl) (hres rfl))
  | neg | not => exact .lift (.unary (fun _ _ => rfl) (hf rfl) (hres rfl))
  | mov => exact .lift (.move (hM (by decide)) (hf rfl) (hany rfl))
  | print => exact .lift (.print (hf rfl))
  | enter => exact .enterFunction _
  | leave => exact .pure _
  | ret => exact .lift (.ret (hf rfl))
  | param => exact .lift (.param (hW (by decide)) (hf rfl))
  | call => exact .callLabel (hM (by decide)) (hany rfl) (hW (by decide)) _
  | new => exact .lift (.newObject _ (hres rfl))
  | getp => exact .lift (.getField (hM (by decide)) _ (hf rfl) (hres rfl))
  | movp => exact .lift (.setField (hf rfl) (hsnd rfl) _)

lemma made_lower (hM : p.marks) (hW : p.waits) {code : List Instr}
    (hF : ∀ i ∈ code, i.op = .label → p.forgets)
    (hrs : ∀ i ∈ code, ∀ a ∈ readsOf i, IsVariable a → p.names a)
    (hwri : ∀ i ∈ code, ∀ a ∈ writesOf i, p.names a) : Made p (fun _ => []) (lower code).run := by
  induction code with
  | nil => exact .pure _
  | cons i rest ih =>
    obtain ⟨hlab, hlabs⟩ := forall_mem_cons.1 hF
    obtain ⟨hi, hr⟩ := forall_mem_cons.1 hrs
    obtain ⟨hi', hrest'⟩ := forall_mem_cons.1 hwri
    exact .seq (.less (made_instruction (fun _ => hM) (fun _ => hW) hlab hi hi'))
      (ih hlabs hr hrest')

lemma made_all (code : List Instr) : Made .all (fun _ => []) (lower code).run :=
  made_lower trivial trivial (fun _ _ _ => trivial) (fun _ _ _ _ _ => trivial)
    fun _ _ _ _ => trivial

end Compiscript.Mips
