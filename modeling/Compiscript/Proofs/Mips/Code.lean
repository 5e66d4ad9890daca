import Compiscript.Proofs.Mips.Operands
import Compiscript.Proofs.Mips.Registers
import Mathlib.Data.Finset.Dedup

/-!
# Code for a Given Choice of Registers

Lowering chooses registers while it goes along. Where there are enough of them,
no choice is ever taken back, so the code can also be written down from the
choice that it ends with: each instruction becomes some lines that depend on
nothing but the instruction and the register of each variable.
-/

namespace Compiscript.Mips

open List Lower

/-- Labels that are numbered. -/
def isLocalLabel (l : String) : Bool :=
  match l.toList with
  | 'L' :: cs => (decimal? cs).isSome
  | _ => false

variable {l : String}

lemma exists_of_isLocalLabel (h : isLocalLabel l = true) : ∃ cs, l.toList = 'L' :: cs := by
  unfold isLocalLabel at h
  split at h
  · rename_i cs heq
    exact ⟨cs, heq⟩
  · cases h

lemma ne_of_isLocalLabel {w : String} (h : isLocalLabel l = true)
    (hw : w.toList.head? ≠ some 'L') : l ≠ w := by
  obtain ⟨cs, hcs⟩ := exists_of_isLocalLabel h
  rintro rfl
  rw [hcs] at hw
  exact hw rfl

/-- Instructions on integers. -/
inductive Plain : Instr → Prop where
  | label {l c : String} (hl : isLocalLabel l = true) : Plain ⟨.label, .text l, .none, .none, c⟩
  | jump {l c : String} : Plain ⟨.jump, .text l, .none, .none, c⟩
  | ifz {a l c : String} (ha : IsOperand a) : Plain ⟨.ifz, .text a, .none, .text l, c⟩
  | ifnz {a l c : String} (ha : IsOperand a) : Plain ⟨.ifnz, .text a, .none, .text l, c⟩
  | mov {a x c : String} (ha : IsOperand a) (hx : IsName x) :
      Plain ⟨.mov, .text a, .none, .text x, c⟩
  | print {a c : String} (ha : IsOperand a) : Plain ⟨.print, .text a, .none, .none, c⟩
  | neg {a x c : String} (ha : IsOperand a) (hx : IsName x) :
      Plain ⟨.neg, .text a, .none, .text x, c⟩
  | not {a x c : String} (ha : IsOperand a) (hx : IsName x) :
      Plain ⟨.not, .text a, .none, .text x, c⟩
  | binary (op : Binary) {a b x c : String} (ha : IsOperand a) (hb : IsOperand b) (hx : IsName x)
      (hone : IsName a ∨ IsName b) : Plain ⟨op.op, .text a, .text b, .text x, c⟩

/-- The label that an instruction may jump to. -/
def jumpOf? (i : Instr) : Option String :=
  match i.op, i.a1, i.res with
  | .jump, .text l, _ => some l
  | .ifz, _, .text l => some l
  | .ifnz, _, .text l => some l
  | _, _, _ => none

/-- The variable that an operand is, if it is one. -/
def variableOf : Operand → List String
  | .text s => if isLiteral (some s) then [] else [s]
  | _ => []

/-- The variables of an instruction. -/
def variablesOf (i : Instr) : List String :=
  match i.op with
  | .label | .jump => []
  | .ifz | .ifnz => variableOf i.a1
  | _ => variableOf i.a1 ++ (variableOf i.a2 ++ variableOf i.res)

section Code

variable (ρ : String → Reg)

/-- The lines that bring an operand into a register. -/
def loadCode (a : String) : List Asm :=
  if isLiteral (some a) then [.li .scratch a] else []

/-- The register that an operand is in then. -/
def placeOf (a : String) : Reg := if isLiteral (some a) then .scratch else ρ a

/-- The lines of an operation on two numbers. -/
def binaryCode (op : Binary) (rd r1 r2 : Reg) : List Asm :=
  match op with
  | .add => [.addu rd r1 r2]
  | .sub => [.subu rd r1 r2]
  | .mul => [.mul rd r1 r2]
  | .div => [.div r1 r2, .mflo rd]
  | .mod => [.div r1 r2, .mfhi rd]
  | .compare r => compareCode r rd r1 r2

/-- The lines of a label. -/
def labelCode (l : String) : List Asm :=
  if l = "program_end" then
    [.label l, .blank, .heading "Exit program"] ++ systemCall 10
  else [.label l]

/-- The lines of an instruction on integers, with each variable `x` in register
    `ρ x`. -/
def codeOf (i : Instr) : List Asm :=
  match i.op, i.a1, i.a2, i.res with
  | .label, .text l, _, _ => labelCode l
  | .jump, .text l, _, _ => [.j l]
  | .ifz, .text a, _, .text l => loadCode a ++ [.beq (placeOf ρ a) .zero l]
  | .ifnz, .text a, _, .text l => loadCode a ++ [.bne (placeOf ρ a) .zero l]
  | .mov, .text a, _, .text x =>
    if isLiteral (some a) then [.li (ρ x) a] else [.move (ρ x) (ρ a)]
  | .print, .text a, _, _ => loadCode a ++ (.move (.arg 0) (placeOf ρ a) :: systemCall 1)
  | .neg, .text a, _, .text x => loadCode a ++ [.subu (ρ x) .zero (placeOf ρ a)]
  | .not, .text a, _, .text x => loadCode a ++ [.sltiu (ρ x) (placeOf ρ a) 1]
  | op, .text a, .text b, .text x =>
    match op.binary? with
    | some f => loadCode a ++ (loadCode b ++ binaryCode f (ρ x) (placeOf ρ a) (placeOf ρ b))
    | none => []
  | _, _, _, _ => []

lemma codeOf_binary (op : Binary) (a b x c : String) :
    codeOf ρ ⟨op.op, .text a, .text b, .text x, c⟩ =
      loadCode a ++ (loadCode b ++ binaryCode op (ρ x) (placeOf ρ a) (placeOf ρ b)) := by
  cases op <;> rfl

end Code

/-- The table puts its variables where `ρ` does. -/
def Registers.Agrees (rs : Registers) (ρ : String → Reg) : Prop :=
  ∀ x r, rs.ofVariable.get? (some x) = some r → ρ x = r

/-- A step of lowering whose result and lines can be said from the final choice of registers. -/
def Lowers {α : Type} (names : Finset String) (used : List String) (m : Lower α)
    (result : (String → Reg) → α) (code : (String → Reg) → List Asm) : Prop :=
  ∀ s : Lowering, s.registers.Within names → s.stringVars = [] →
    ∃ rs : Registers, rs.Within names ∧ s.registers.Extends rs ∧
      (∀ x ∈ used, (rs.ofVariable.get? (some x)).isSome = true) ∧
      ∀ ρ, rs.Agrees ρ →
        m.run s = (result ρ, { s with asm := s.asm ++ code ρ, registers := rs })

/-- A choice that agrees with a table. -/
def Registers.choice (rs : Registers) (x : String) : Reg :=
  (rs.ofVariable.get? (some x)).getD .zero

lemma Registers.agrees_choice (rs : Registers) : rs.Agrees rs.choice := by
  intro x r h
  rw [choice, h]
  rfl

lemma Registers.Agrees.of_extends {rs rs' : Registers} {ρ : String → Reg} (h : rs'.Agrees ρ)
    (hext : rs.Extends rs') : rs.Agrees ρ :=
  fun x r hx => h x r (hext x r hx)

namespace Lowers

variable {α β : Type} {names : Finset String} {used used' : List String} {m : Lower α}
  {f : (String → Reg) → α} {c : (String → Reg) → List Asm}

variable {k : α → Lower β} {g : α → (String → Reg) → β} {d : α → (String → Reg) → List Asm}

lemma bind_of
    (hm : Lowers names used m f c) (hk : ∀ ρ, Lowers names used' (k (f ρ)) (g (f ρ)) (d (f ρ))) :
    Lowers names (used ++ used') (m >>= k) (fun ρ => g (f ρ) ρ) (fun ρ => c ρ ++ d (f ρ) ρ) := by
  intro s hin hstrs
  obtain ⟨rs, hrs, hext, hused, hrun⟩ := hm s hin hstrs
  -- The result does not depend on which of the agreeing choices is looked at.
  obtain ⟨rs', hrs', hext', hused', hrun'⟩ :=
    hk rs.choice { s with asm := s.asm ++ c rs.choice, registers := rs } hrs hstrs
  refine ⟨rs', hrs', hext.trans hext', ?_, ?_⟩
  · intro x hx
    rcases mem_append.1 hx with hx | hx
    · obtain ⟨r, hr⟩ := Option.isSome_iff_exists.1 (hused x hx)
      rw [hext' x r hr]
      rfl
    · exact hused' x hx
  · intro ρ hρ
    have hfst := hrun ρ (hρ.of_extends hext')
    have hsm := hrun rs.choice rs.agrees_choice
    rw [hfst] at hsm
    have hf : f ρ = f rs.choice := congrArg Prod.fst hsm
    have hc : s.asm ++ c ρ = s.asm ++ c rs.choice :=
      congrArg (fun p : α × Lowering => p.2.asm) hsm
    have hsnd := hrun' ρ hρ
    rw [← hf, ← hc] at hsnd
    rw [StateT.run_bind, hfst]
    change (k (f ρ)).run _ = _
    rw [hsnd, append_assoc]

lemma bind (hm : Lowers names used m f c) (hk : ∀ a, Lowers names used' (k a) (g a) (d a)) :
    Lowers names (used ++ used') (m >>= k) (fun ρ => g (f ρ) ρ) (fun ρ => c ρ ++ d (f ρ) ρ) :=
  hm.bind_of fun ρ => hk (f ρ)

lemma pure (a : α) : Lowers names [] (Pure.pure a) (fun _ => a) fun _ => [] := by
  intro s hin _
  refine ⟨s.registers, hin, .refl _, by simp, ?_⟩
  intro ρ _
  rw [append_nil]
  rfl

lemma emitAll (as : List Asm) : Lowers names [] (emitAll as) (fun _ => ()) fun _ => as := by
  intro s hin _
  exact ⟨s.registers, hin, .refl _, by simp, fun ρ _ => rfl⟩

lemma emit (a : Asm) : Lowers names [] (emit a) (fun _ => ()) fun _ => [a] :=
  emitAll [a]

/-- No variable is known to hold a string. -/
lemma holdsString {k : Bool → Lower α} (x : Option String)
    (h : Lowers names used (k false) f c) : Lowers names used (holdsString x >>= k) f c := by
  intro s hin hstrs
  have hfalse : (Lower.holdsString x).run s = (false, s) := by
    change (s.stringVars.contains x, s) = (false, s)
    rw [hstrs]
    rfl
  obtain ⟨rs, hrs, hext, hused, hrun⟩ := h s hin hstrs
  refine ⟨rs, hrs, hext, hused, ?_⟩
  intro ρ hρ
  rw [StateT.run_bind, hfalse]
  exact hrun ρ hρ

lemma registerOf (hcr : names.card ≤ 16) {x : String} (hx : x ∈ names) :
    Lowers names [x] (registerOf (some x)) (fun ρ => ρ x) fun _ => [] := by
  intro s hin _
  obtain ⟨hrs, hext, hget⟩ := hin.take hcr hx
  refine ⟨_, hrs, hext, ?_, ?_⟩
  · intro y hy
    rw [mem_singleton.1 hy, hget]
    rfl
  · intro ρ hρ
    change _ = (ρ x, { s with asm := s.asm ++ [], registers := _ })
    rw [hρ x _ hget, append_nil]
    rfl

lemma lift {m : Lower Unit} (h : Lowers names used m (fun _ => ()) c) :
    Lowers names used (liftM m : ExceptT LowerFault Lower Unit).run (fun _ => .ok ()) c := by
  intro s hin hstrs
  obtain ⟨rs, hrs, hext, hused, hrun⟩ := h s hin hstrs
  refine ⟨rs, hrs, hext, hused, ?_⟩
  intro ρ hρ
  change ((Except.ok <$> m : Lower (Except LowerFault Unit)).run s) = _
  rw [StateT.run_map, hrun ρ hρ]
  rfl

lemma seq {m k : ExceptT LowerFault Lower Unit} {d : (String → Reg) → List Asm}
    (hm : Lowers names used m.run (fun _ => .ok ()) c)
    (hk : Lowers names used' k.run (fun _ => .ok ()) d) :
    Lowers names (used ++ used') (do m; k : ExceptT LowerFault Lower Unit).run (fun _ => .ok ())
      (fun ρ => c ρ ++ d ρ) := by
  rw [ExceptT.run_bind]
  refine bind_of (g := fun _ _ => Except.ok ()) (d := fun _ => d) hm ?_
  intro _
  exact hk

end Lowers

/-- An operand that is a variable to lowering. -/
structure IsVariable (a : Option String) : Prop where
  unreserved : ∀ x ∈ a, x ∉ reserved
  noLiteral : isLiteral a = false
  noString : isStringLiteral a = false
  noParameter : a.bind parameter? = none

variable {x : String}

lemma ensure_of_isVariable (h : IsVariable (some x)) : ensure (some x) = registerOf (some x) := by
  have hne : ∀ {w}, some x = some w → w ∉ reserved := fun heq => h.unreserved _ heq
  have hquo : isQuoted x = false := h.noString
  have hpar : parameter? x = none := h.noParameter
  unfold ensure
  split
  · rename_i heq
    cases heq
  iterate 4
    · rename_i heq
      exact absurd (by decide) (hne heq)
  · rename_i heq
    cases heq
    have hlog : x ≠ "log" := fun heq => absurd (by decide) (hne (congrArg some heq))
    simp [h.noLiteral, hquo, hlog, hpar]

lemma ensure_of_isName (h : IsName x) : ensure (some x) = registerOf (some x) :=
  ensure_of_isVariable ⟨fun _ hx => Option.some.inj hx ▸ h.unreserved, h.isLiteral, h.isQuoted,
    h.parameter?_eq_none⟩

lemma ensure_of_isNumber {s : String} (h : IsNumber s) :
    ensure (some s) = (do emit (.li .scratch s); return .scratch) := by
  unfold ensure
  split
  · rename_i heq
    cases heq
  iterate 4
    · rename_i heq
      exact absurd (Option.some.inj heq) (h.ne (by decide))
  · rename_i heq
    cases heq
    rw [if_pos h.isLiteral]

/-- An operand whose variable is among the names. -/
structure IsOperandOf (names : Finset String) (a : String) : Prop where
  isOperand : IsOperand a
  mem : ∀ y ∈ variableOf (.text a), y ∈ names

section Instructions

variable {names : Finset String} (hcr : names.card ≤ 16) {a b x : String}

include hcr

lemma lowers_ensure (ha : IsOperandOf names a) :
    Lowers names (variableOf (.text a)) (ensure (some a)) (fun ρ => placeOf ρ a)
      (fun _ => loadCode a) := by
  obtain ⟨ha | ha, hmem⟩ := ha
  · have hvar : variableOf (.text a) = [a] := if_neg (by rw [ha.isLiteral]; decide)
    have hpla : (fun ρ => placeOf ρ a) = fun ρ : String → Reg => ρ a :=
      funext fun ρ => if_neg (by rw [ha.isLiteral]; decide)
    have hload : loadCode a = [] := if_neg (by rw [ha.isLiteral]; decide)
    rw [hvar] at hmem ⊢
    rw [hpla, hload, ensure_of_isName ha]
    exact .registerOf hcr (hmem a (.head _))
  · have hvar : variableOf (.text a) = [] := if_pos ha.isLiteral
    have hpla : (fun ρ => placeOf ρ a) = fun _ => Reg.scratch :=
      funext fun ρ => if_pos ha.isLiteral
    have hload : loadCode a = [.li .scratch a] := if_pos ha.isLiteral
    rw [hvar, hpla, hload, ensure_of_isNumber ha]
    exact (Lowers.emit _).bind fun _ => .pure _

lemma lowers_unary (code : Reg → Reg → List Asm) (ha : IsOperandOf names a) (hx : x ∈ names) :
    Lowers names (variableOf (.text a) ++ [x]) (unary code (some a) (some x)) (fun _ => ())
      (fun ρ => loadCode a ++ code (ρ x) (placeOf ρ a)) := by
  have h := (lowers_ensure hcr ha).bind fun r =>
    (Lowers.registerOf hcr hx).bind fun rd => .emitAll (code rd r)
  simpa [unary] using h

lemma lowers_binary (code : Reg → Reg → Reg → List Asm) (ha : IsOperandOf names a)
    (hb : IsOperandOf names b) (hx : x ∈ names) :
    Lowers names (variableOf (.text a) ++ (variableOf (.text b) ++ [x]))
      (binary code (some a) (some b) (some x)) (fun _ => ())
      (fun ρ => loadCode a ++ (loadCode b ++ code (ρ x) (placeOf ρ a) (placeOf ρ b))) := by
  have h := (lowers_ensure hcr ha).bind fun r1 =>
    (lowers_ensure hcr hb).bind fun r2 =>
      (Lowers.registerOf hcr hx).bind fun rd => .emitAll (code rd r1 r2)
  simpa [binary] using h

lemma lowers_branch (branch : Reg → Asm) (ha : IsOperandOf names a) :
    Lowers names (variableOf (.text a)) (do emit (branch (← ensure (some a))))
      (fun _ => ()) (fun ρ => loadCode a ++ [branch (placeOf ρ a)]) := by
  have h := (lowers_ensure hcr ha).bind fun r => .emit (branch r)
  simpa using h

lemma lowers_print (ha : IsOperandOf names a) :
    Lowers names (variableOf (.text a)) (print (some a)) (fun _ => ())
      (fun ρ => loadCode a ++ (.move (.arg 0) (placeOf ρ a) :: systemCall 1)) := by
  have hquo : isQuoted a = false := ha.isOperand.elim IsName.isQuoted IsNumber.isQuoted
  have h := (lowers_ensure hcr ha).bind fun r =>
    .emitAll (.move (.arg 0) r :: systemCall 1)
  rw [append_nil] at h
  rw [print, if_neg (by rw [hquo]; decide)]
  exact .holdsString (some a) h

lemma lowers_move (ha : IsOperandOf names a) (hx : x ∈ names) :
    Lowers names (variableOf (.text a) ++ [x]) (move (some a) (some x)) (fun _ => ())
      (fun ρ => if isLiteral (some a) then [.li (ρ x) a] else [.move (ρ x) (ρ a)]) := by
  obtain ⟨ha | ha, hmem⟩ := ha
  · have hvar : variableOf (.text a) = [a] := if_neg (by rw [ha.isLiteral]; decide)
    rw [hvar] at hmem ⊢
    have h := (Lowers.registerOf hcr (hmem a (.head _))).bind fun rs =>
      (Lowers.registerOf hcr hx).bind fun rd => (Lowers.emit (.move rd rs)).bind fun _ =>
        .holdsString (some a) (k := fun b => if b then markString (some x) else pure ())
          (.pure ())
    simpa [move, ha.isLiteral, ha.isQuoted, ensure_of_isName ha] using h
  · have hvar : variableOf (.text a) = [] := if_pos ha.isLiteral
    rw [hvar]
    have h := (Lowers.registerOf hcr hx).bind fun rd => .emit (.li rd a)
    simpa [move, ha.isLiteral] using h

lemma lowers_add (ha : IsOperandOf names a) (hb : IsOperandOf names b) (hx : x ∈ names) :
    Lowers names (variableOf (.text a) ++ (variableOf (.text b) ++ [x]))
      (add (some a) (some b) (some x)) (fun _ => ()) (fun ρ => loadCode a ++
        (loadCode b ++ binaryCode .add (ρ x) (placeOf ρ a) (placeOf ρ b))) := by
  have hquo : ∀ {w : String}, IsOperandOf names w → isStringLiteral (some w) = false :=
    fun hw => hw.isOperand.elim IsName.isQuoted IsNumber.isQuoted
  unfold add isString
  simp only [hquo ha, hquo hb, Option.isSome_some, Bool.true_and, Bool.false_or, bind_assoc,
    pure_bind]
  exact .holdsString (some a) (.holdsString (some b)
    (lowers_binary hcr (binaryCode .add) ha hb hx))

lemma lowers_operation (op : Binary) {c : String} (ha : IsOperandOf names a)
    (hb : IsOperandOf names b) (hx : x ∈ names) :
    Lowers names (variableOf (.text a) ++ (variableOf (.text b) ++ [x]))
      (instruction ⟨op.op, .text a, .text b, .text x, c⟩).run (fun _ => .ok ())
      (fun ρ => loadCode a ++ (loadCode b ++ binaryCode op (ρ x) (placeOf ρ a) (placeOf ρ b))) := by
  have h := lowers_binary hcr (binaryCode op) ha hb hx
  cases op with
  | add => exact .lift (lowers_add hcr ha hb hx)
  | sub => exact .lift h
  | mul => exact .lift h
  | div => exact .lift h
  | mod => exact .lift h
  | compare r => exact .lift h

omit hcr in
lemma lowers_label (hl : isLocalLabel l = true) :
    Lowers names [] (label (some l)).run (fun _ => .ok ()) (fun _ => labelCode l) := by
  obtain ⟨cs, hcs⟩ := exists_of_isLocalLabel hl
  have hend : l ≠ "program_end" := ne_of_isLocalLabel hl (by decide)
  have hafr : startsAfresh l = false := by
    rw [startsAfresh, decide_eq_false (ne_of_isLocalLabel hl (by decide)), Bool.false_or,
      Text.startsWith, hcs]
    rfl
  intro s hin _
  refine ⟨s.registers, hin, .refl _, by simp, ?_⟩
  intro ρ _
  rw [labelCode, if_neg hend]
  unfold label
  simp only [hafr, hend]
  rfl

lemma lowers_instruction {i : Instr} (h : Plain i) (hjump : ∀ l, jumpOf? i = some l → l ≠ "")
    (hmem : ∀ y ∈ variablesOf i, y ∈ names) :
    Lowers names (variablesOf i) (instruction i).run (fun _ => .ok ()) (fun ρ => codeOf ρ i) := by
  -- The variable that is written is the last one.
  have hres : ∀ {x : String}, IsName x → variableOf (.text x) = [x] :=
    fun hx => if_neg (by rw [hx.isLiteral]; decide)
  have hunary : ∀ {a x α} {f : Lower α} {r code}, IsOperand a → IsName x →
      (∀ y ∈ variableOf (.text a) ++ ([] ++ variableOf (.text x)), y ∈ names) →
      (IsOperandOf names a → x ∈ names → Lowers names (variableOf (.text a) ++ [x]) f r code) →
      Lowers names (variableOf (.text a) ++ ([] ++ variableOf (.text x))) f r code := by
    intro a x α f r code ha hx hmem h
    rw [hres hx] at hmem ⊢
    exact h ⟨ha, fun y hy => hmem y (by simp [hy])⟩ (hmem x (by simp))
  cases h with
  | label hl => exact lowers_label hl
  | @jump l c =>
    have hl := hjump l rfl
    have hlab : orElseText (some l) none = some l := by
      unfold orElseText
      split
      · rename_i heq
        exact absurd (Option.some.inj heq) hl
      · rename_i heq
        exact heq.symm
      · rename_i heq
        cases heq
    change Lowers names [] (liftM (jump (orElseText (some l) none)) :
      ExceptT LowerFault Lower Unit).run _ _
    rw [hlab]
    exact .lift (.emit (.j l))
  | @ifz a l c ha => exact .lift (lowers_branch hcr (.beq · .zero l) ⟨ha, hmem⟩)
  | @ifnz a l c ha => exact .lift (lowers_branch hcr (.bne · .zero l) ⟨ha, hmem⟩)
  | mov ha hx =>
    refine hunary ha hx hmem fun ha hx => ?_
    exact .lift (lowers_move hcr ha hx)
  | @print a c ha =>
    change ∀ y ∈ variableOf (.text a) ++ ([] ++ []), y ∈ names at hmem
    change Lowers names (variableOf (.text a) ++ ([] ++ [])) _ _ _
    rw [append_nil, append_nil] at hmem ⊢
    exact .lift (lowers_print hcr ⟨ha, hmem⟩)
  | neg ha hx | not ha hx =>
    refine hunary ha hx hmem fun ha hx => ?_
    exact .lift (lowers_unary hcr _ ha hx)
  | @binary op a b x c ha hb hx hone =>
    have hvs : variablesOf ⟨op.op, .text a, .text b, .text x, c⟩ =
        variableOf (.text a) ++ (variableOf (.text b) ++ [x]) := by
      rw [← hres hx]
      cases op <;> rfl
    rw [hvs] at hmem ⊢
    rw [funext fun ρ => codeOf_binary ρ op a b x c]
    exact lowers_operation hcr op ⟨ha, fun y hy => hmem y (by simp [hy])⟩
      ⟨hb, fun y hy => hmem y (by simp [hy])⟩ (hmem x (by simp))

/-- Instructions on integers become their lines. -/
lemma lowers_all {code : List Instr} (h : ∀ i ∈ code, Plain i)
    (hjump : ∀ i ∈ code, ∀ l, jumpOf? i = some l → l ≠ "")
    (hmem : ∀ i ∈ code, ∀ y ∈ variablesOf i, y ∈ names) :
    Lowers names (code.flatMap variablesOf) (lower code).run (fun _ => .ok ())
      (fun ρ => code.flatMap (codeOf ρ)) := by
  induction code with
  | nil => exact .pure _
  | cons i rest ih =>
    have hfst := lowers_instruction hcr (h i (by simp)) (hjump i (by simp)) (hmem i (by simp))
    have hrest := ih (fun j hj => h j (by simp [hj])) (fun j hj => hjump j (by simp [hj]))
      fun j hj => hmem j (by simp [hj])
    exact hfst.seq hrest

end Instructions

end Compiscript.Mips
