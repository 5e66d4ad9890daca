import Compiscript.Proofs.Mips.Fresh

/-!
# Variables Are Read Where They Were Written

Between two labels at which lowering starts afresh, a variable stays in one register as
long as there are registers for all.

An instruction writes its result through the table of registers, and reads its operands
through special cases that come before the table: some names stand for fixed registers.
For a variable that is none of them, both ways lead to the same register.

## Theorems

* `Mips.read_where_written`: A variable is read from where it was written.
-/

namespace Compiscript.Mips

open List Lower

/-! ### Registers stay -/

/-- What a step may do in code without labels that uses some names. -/
def Powers.using (names : Finset String) : Powers :=
  ⟨True, True, False, fun a => ∃ x ∈ names, a = some x⟩

/-- Operands of code that uses some names, and literals. -/
def Known (names : Finset String) (as : List (Option String)) : Prop :=
  ∀ a ∈ as, IsVariable a → ∃ x ∈ names, a = some x

section Within

variable {names : Finset String} (hcard : names.card ≤ 16)

include hcard in
/-- With a register for every name, a step takes no register away from a variable. -/
lemma Made.within {α : Type} {m : Lower α} {w : Wanted} (h : Made (.using names) w m) {s : Lowering}
    (hs : s.registers.Within names) (hpen : Known names s.pending) :
    (m.run s).2.registers.Within names ∧ Known names (m.run s).2.pending ∧
      s.registers.Extends (m.run s).2.registers := by
  induction h generalizing s with
  | both _ _ ihm ihk =>
    obtain ⟨hs1, hpending1, hext1⟩ := ihm hs hpen
    obtain ⟨hs2, hpending2, hext2⟩ := ihk _ hs1 hpending1
    exact ⟨hs2, hpending2, hext1.trans hext2⟩
  | less _ ih => exact ih hs hpen
  | registerOf hx =>
    obtain ⟨x, hx, rfl⟩ := hx
    obtain ⟨hs1, hext, -⟩ := hs.take hcard hx
    exact ⟨hs1, hpen, hext⟩
  | waiting _ _ _ ih => exact ih s hpen hs hpen
  | param _ hx =>
    exact ⟨hs, forall_mem_append.2 ⟨hpen, forall_mem_singleton.2 hx⟩, .refl _⟩
  | clearPending => exact ⟨hs, nofun, .refl _⟩
  | forget _ _ hF => exact hF.elim
  | _ => exact ⟨hs, hpen, .refl _⟩

end Within

/-! ### Writing a variable -/

/-- The register that a line writes. -/
def destination? : Asm → Option Reg
  | .li rd _ | .la rd _ | .move rd _ | .addu rd _ _ | .subu rd _ _ | .mul rd _ _ | .slt rd _ _
  | .sltu rd _ _ | .xor rd _ _ | .sltiu rd _ _ | .addi rd _ _ | .mflo rd | .mfhi rd | .lw rd _ _ =>
    some rd
  | _ => none

/-- A step of lowering writes a variable in its register, from a state on. No line after that
    one writes a register. -/
def Stores {α : Type} (s : Lowering) (m : Lower α) (x : String) : Prop :=
  ∃ r lines line rest, (m.run s).2.asm = s.asm ++ (lines ++ line :: rest) ∧
    (m.run s).2.registers.ofVariable.get? (some x) = some r ∧ destination? line = some r ∧
    ∀ l ∈ rest, destination? l = none

namespace Stores

variable {α β : Type} {x : String} {s : Lowering}

variable {m : Lower α} {k : α → Lower β} {w : Wanted}

lemma after (hm : Made .all w m) (hk : ∀ a s, Stores s (k a) x) : Stores s (m >>= k) x := by
  obtain ⟨lines1, hlines1⟩ := hm.exists_lines s
  obtain ⟨r, lines, line, rest, hasm, h⟩ := hk (m.run s).1 (m.run s).2
  refine ⟨r, lines1 ++ lines, line, rest, ?_, h⟩
  rw [StateT.run_bind]
  change ((k (m.run s).1).run (m.run s).2).2.asm = _
  rw [hasm, hlines1]
  simp only [append_assoc]

/-- A step that adds no line and leaves the registers alone may follow. -/
lemma before (hm : Stores s m x)
    (hk : ∀ a s, ((k a).run s).2.asm = s.asm ∧ ((k a).run s).2.registers = s.registers) :
    Stores s (m >>= k) x := by
  obtain ⟨r, lines, line, rest, hlines, hget, hline⟩ := hm
  obtain ⟨hasm, hreg⟩ := hk (m.run s).1 (m.run s).2
  exact ⟨r, lines, line, rest, hasm.trans hlines,
    (congrArg (·.ofVariable.get? (some x)) hreg).trans hget, hline⟩

/-- What follows the choice of a register writes it, whichever it is. -/
lemma registerOf {k : Reg → Lower α} (h : ∀ rd s, ∃ lines line rest,
    ((k rd).run s).2.asm = s.asm ++ (lines ++ line :: rest) ∧
      ((k rd).run s).2.registers = s.registers ∧ destination? line = some rd ∧
      ∀ l ∈ rest, destination? l = none) : Stores s (registerOf (some x) >>= k) x := by
  obtain ⟨lines, line, rest, hasm, hreg, hline⟩ := h (s.registers.take (some x)).1
    { s with registers := (s.registers.take (some x)).2 }
  exact ⟨(s.registers.take (some x)).1, lines, line, rest, hasm,
    (congrArg (·.ofVariable.get? (some x)) hreg).trans (s.registers.get?_take (some x)),
    hline⟩

lemma unary {code : Reg → Reg → List Asm} (a : Option String)
    (hcode : ∀ rd r, ∃ lines line, code rd r = lines ++ [line] ∧ destination? line = some rd) :
    Stores s (unary code a (some x)) x := by
  refine after (.ensure fun _ => trivial) fun r _ => registerOf fun rd s => ?_
  obtain ⟨lines, line, heq, hline⟩ := hcode rd r
  exact ⟨lines, line, [], congrArg (s.asm ++ ·) heq, rfl, hline, forall_mem_nil _⟩

lemma binary {code : Reg → Reg → Reg → List Asm} (a b : Option String)
    (hcode : ∀ rd r1 r2, ∃ lines line, code rd r1 r2 = lines ++ [line] ∧
      destination? line = some rd) : Stores s (binary code a b (some x)) x :=
  after (.ensure fun _ => trivial) fun r1 _ => unary b fun rd => hcode rd r1

lemma compare (r : Relation) (a b : Option String) : Stores s (compare r a b (some x)) x :=
  binary a b fun rd r1 r2 => by
    cases r with
    | lt | gt => exact ⟨[], _, rfl, rfl⟩
    | eq | ne | le | ge => exact ⟨[_], _, rfl, rfl⟩

lemma emptyString (x : String) : Stores s (emptyString (some x)) x := by
  unfold Lower.emptyString
  exact registerOf fun rd s => ⟨[_], _, [], rfl, rfl, rfl, forall_mem_nil _⟩

lemma add (a b : Option String) : Stores s (add a b (some x)) x := by
  refine after (.isString a) fun _ _ => after (.isString b) fun _ _ => ?_
  split
  · exact after (.printAny fun _ => trivial) fun _ _ =>
      after (.printAny fun _ => trivial) fun _ _ => emptyString x
  · exact binary a b fun rd r1 r2 => ⟨[], _, rfl, rfl⟩

lemma move (value : Option String) : Stores s (move value (some x)) x := by
  have hother : Stores s (do
      let rs ← ensure value
      Lower.emit (.move (← Lower.registerOf (some x)) rs)
      if ← holdsString value then markString (some x)) x := by
    refine after (.ensure fun _ => trivial) fun rs _ => registerOf fun rd s => ?_
    refine ⟨[], .move rd rs, [], ?_⟩
    have hrun : (emit (.move rd rs) >>= fun _ => holdsString value >>= fun b =>
        if b then markString (some x) else pure () : Lower Unit).run s =
        (if s.stringVars.contains value then markString (some x) else pure () : Lower Unit).run
          { s with asm := s.asm ++ [.move rd rs] } := rfl
    rw [hrun]
    split <;> exact ⟨rfl, rfl, rfl, forall_mem_nil _⟩
  cases value with
  | none => exact hother
  | some a =>
    unfold Lower.move
    dsimp only
    split
    · exact registerOf fun rd s => ⟨[], .li rd a, [], rfl, rfl, rfl, forall_mem_nil _⟩
    split
    · exact registerOf fun rd s => ⟨[], _, [], rfl, rfl, rfl, forall_mem_nil _⟩
    · exact hother

lemma getField (object field : Option String) : Stores s (getField object field (some x)) x := by
  refine after (.ensure fun _ => trivial) fun base _ => registerOf fun rd s => ?_
  dsimp only
  split <;> exact ⟨[_], _, [], rfl, rfl, rfl, forall_mem_nil _⟩

lemma printCall {number : Nat} {isString : Bool} {arg : String}
    (h : s.pending.head?.join = some arg) : Stores s (printCall number isString (some x)) x := by
  have hla : Stores s (do
      let r ← ensure (some arg)
      emitAll (.move (.arg 0) r :: systemCall number)
      Lower.emit (.move (← Lower.registerOf (some x)) (.arg 0))
      if isString then markString (some x)) x := by
    refine after (.ensure fun _ => trivial) fun r _ => after (.lines rfl) fun _ _ =>
      registerOf fun rd s => ?_
    cases isString <;> exact ⟨[], _, [], rfl, rfl, rfl, forall_mem_nil _⟩
  unfold Lower.printCall
  unfold Stores
  rw [run_get_bind, h]
  exact hla

lemma callResult (name : String) : Stores s (callResult name (some x)) x := by
  unfold Lower.callResult
  refine registerOf fun rd s => ?_
  split
  · exact ⟨[], _, [], rfl, rfl, rfl, forall_mem_nil _⟩
  · split <;> exact ⟨[], _, [], rfl, rfl, rfl, forall_mem_nil _⟩

lemma callFunction (label name : String) : Stores s (callFunction label name (some x)) x := by
  have hpass : Made .all _ (passArguments 0 (s.pending.take 4)) :=
    .passArguments 0 fun _ _ _ => trivial
  have hla : ∀ s', Stores s' (do
      passArguments 0 (s.pending.take 4)
      emit (.jal label)
      Lower.callResult name (some x)) x :=
    fun _ => after hpass fun _ _ => after (.emit rfl) fun _ _ => callResult name
  unfold Lower.callFunction Stores
  rw [run_get_bind]
  dsimp only
  split
  · rename_i hargs
    rw [hargs] at hla ⊢
    split
    · exact after (.ensure fun _ => trivial) fun r _ =>
        after (.emit (a := .move .this r) rfl) fun _ => hla
    · exact hla s
  · rename_i hargs
    rw [hargs] at hla ⊢
    exact hla s

lemma call {label : String}
    (h : ¬ ((nameOfLabel label = "printString" ∨ nameOfLabel label = "printInteger") ∧
      s.pending.head?.join = none)) : Stores s (call label (some x)) x := by
  have hclear : ∀ {m : Lower Unit}, Stores s m x → Stores s (do m; clearPending) x :=
    fun hm => hm.before fun _ _ => ⟨rfl, rfl⟩
  unfold Lower.call
  dsimp only
  split
  · rename_i heq
    obtain ⟨arg, harg⟩ := Option.ne_none_iff_exists'.1 fun hno => h ⟨.inl heq, hno⟩
    exact hclear (printCall harg)
  · rename_i heq
    obtain ⟨arg, harg⟩ := Option.ne_none_iff_exists'.1 fun hno => h ⟨.inr heq, hno⟩
    exact hclear (printCall harg)
  · exact hclear (emptyString x)
  · exact hclear (callFunction label _)

lemma lift {m : Lower Unit} (h : Stores s m x) :
    Stores s (liftM m : ExceptT LowerFault Lower Unit).run x :=
  h.before (k := fun a => Pure.pure (Except.ok a)) fun _ _ => ⟨rfl, rfl⟩

end Stores

/-- The variable that an instruction writes, from a state of lowering on. A call that prints writes
    only what it has printed. -/
def written? (s : Lowering) (i : Instr) : Option String :=
  match i.op with
  | .mov | .add | .sub | .mul | .div | .mod | .cmp _ | .neg | .not | .getp =>
    operandText i.res
  | .call =>
    match operandText i.a1 with
    | none => none
    | some l =>
      if (nameOfLabel l = "printString" ∨ nameOfLabel l = "printInteger") ∧
        s.pending.head?.join = none then none else operandText i.res
  | _ => none

lemma stores_instruction {s : Lowering} {i : Instr} {x : String} (h : written? s i = some x) :
    Stores s (instruction i).run x := by
  obtain ⟨op, a1, a2, res, c⟩ := i
  have hlift : ∀ {m : Option String → Lower Unit}, operandText res = some x →
      Stores s (m (some x)) x → Stores s (liftM (m (operandText res)) :
        ExceptT LowerFault Lower Unit).run x := by
    intro m hres hm
    rw [hres]
    exact hm.lift
  cases op with
  | mov => exact hlift (m := move _) h (.move _)
  | add => exact hlift (m := add _ _) h (.add _ _)
  | sub => exact hlift (m := sub _ _) h (.binary _ _ fun _ _ _ => ⟨[], _, rfl, rfl⟩)
  | mul => exact hlift (m := mul _ _) h (.binary _ _ fun _ _ _ => ⟨[], _, rfl, rfl⟩)
  | div => exact hlift (m := div _ _) h (.binary _ _ fun _ _ _ => ⟨[_], _, rfl, rfl⟩)
  | mod => exact hlift (m := mod _ _) h (.binary _ _ fun _ _ _ => ⟨[_], _, rfl, rfl⟩)
  | cmp r => exact hlift (m := compare r _ _) h (.compare r _ _)
  | neg => exact hlift (m := neg _) h (.unary _ fun _ _ => ⟨[], _, rfl, rfl⟩)
  | not => exact hlift (m := not _) h (.unary _ fun _ _ => ⟨[], _, rfl, rfl⟩)
  | getp => exact hlift (m := getField _ _) h (.getField _ _)
  | call =>
    change Stores s (callLabel (operandText a1) (operandText res)).run x
    unfold written? at h
    cases ha : operandText a1 with
    | none => simp [ha] at h
    | some l =>
      simp only [ha] at h
      split at h
      · cases h
      · rename_i hpri
        exact hlift (m := call l) h (.call hpri)
  | _ => cases h

/-- Code without labels that uses no other names than some. -/
def Uses (code : List Instr) (names : Finset String) : Prop :=
  ∀ i ∈ code, i.op ≠ .label ∧ Known names (readsOf i) ∧ ∀ a ∈ writesOf i, ∃ x ∈ names, a = some x

lemma made_ensures {names : Finset String} {as : List (Option String)} (h : Known names as) :
    Made (.using names) (fun _ => []) (as.mapM ensure) := by
  induction as with
  | nil => exact .pure _
  | cons a as ih =>
    obtain ⟨ha, has⟩ := forall_mem_cons.1 h
    rw [mapM_cons]
    exact .less ((Made.ensure ha).bind fun _ => (ih has).bind fun _ => .pure _)

/-- Behind the label of a function or of the start of the program, in code with at most sixteen
    names, a variable is read from the register in which an instruction has written it, also after
    other operands have been brought into registers. Names that stand for fixed registers are no
    variables. -/
theorem read_where_written {before code₁ code₂ : List Instr} {start i : Instr} {l v : String}
    (hop : start.op = .label) (hname : labelName? start = some l)
    (hl : l = "program_start" ∨ ∃ f, l = "func_" ++ f) {names : Finset String}
    (hcard : names.card ≤ 16) (huses : Uses (code₁ ++ i :: code₂) names) {s₀ s₁ s : Lowering}
    (hrun₀ : (lower (before ++ start :: code₁)).run.run .start = (.ok (), s₀))
    (hrun₁ : (Lower.instruction i).run.run s₀ = (.ok (), s₁))
    (hrun : (lower code₂).run.run s₁ = (.ok (), s)) (hv : IsVariable (some v))
    (hi : written? s₀ i = some v) :
    ∃ r lines line rest, s₁.asm = s₀.asm ++ (lines ++ line :: rest) ∧ destination? line = some r ∧
      (∀ l ∈ rest, destination? l = none) ∧
      ∀ as, Known names as → ∀ s', s' = ((as.mapM Lower.ensure).run s).2 →
        (Lower.ensure (some v)).run s' = (r, s') := by
  obtain ⟨b, hreg, hpen, -, hfrom⟩ := exists_afresh hop hname hl hrun₀
  rw [hfrom] at hrun₀
  have hmade : ∀ code, (∀ j ∈ code, j ∈ code₁ ++ i :: code₂) →
      Made (.using names) _ (lower code).run :=
    fun code hmem => made_lower trivial trivial (fun j hj => (huses j (hmem j hj)).1)
      (fun j hj => (huses j (hmem j hj)).2.1) fun j hj => (huses j (hmem j hj)).2.2
  -- All the registers that are given out are still there afterwards.
  have hwithin₀ := (hmade code₁ fun j hj => by simp [hj]).within hcard (s := b)
    (hreg ▸ Registers.within_empty names) (by rw [hpen]; exact nofun)
  rw [hrun₀] at hwithin₀
  have hwithin₁ := (hmade [i] fun j hj => by simp_all).within hcard (s := s₀) hwithin₀.1
    hwithin₀.2.1
  rw [lower_singleton, hrun₁] at hwithin₁
  have hin := (hmade code₂ fun j hj => by simp [hj]).within hcard (s := s₁) hwithin₁.1
    hwithin₁.2.1
  rw [hrun] at hin
  obtain ⟨r, lines, line, rest, hasm, hget, hline, hr⟩ := stores_instruction hi
  rw [hrun₁] at hasm hget
  refine ⟨r, lines, line, rest, hasm, hline, hr, fun as has s' hs' => ?_⟩
  have hrd : s'.registers.ofVariable.get? (some v) = some r := by
    have hens := (made_ensures has).within hcard (s := s) hin.1 hin.2.1
    rw [← hs'] at hens
    exact hens.2.2 v r (hin.2.2 v r hget)
  rw [ensure_of_isVariable hv]
  change ((s'.registers.take (some v)).1,
    { s' with registers := (s'.registers.take (some v)).2 }) = _
  rw [Registers.take, hrd]

/-- A variable that is read after another one has been written. -/
theorem read_where_written_two : ∃ s₀ s₁ s : Lowering,
      (lower ([] ++ .of .label (.text "program_start") .none .none :: [])).run.run .start =
        (.ok (), s₀) ∧
      (Lower.instruction (.of .mov (.text "5") .none (.text "x"))).run.run s₀ = (.ok (), s₁) ∧
      (lower [.of .mov (.text "6") .none (.text "y")]).run.run s₁ = (.ok (), s) ∧
      ∃ r lines line rest, s₁.asm = s₀.asm ++ (lines ++ line :: rest) ∧ destination? line = some r ∧
        (∀ l ∈ rest, destination? l = none) ∧
        ∀ as, Known {"x", "y"} as → ∀ s', s' = ((as.mapM Lower.ensure).run s).2 →
          (Lower.ensure (some "x")).run s' = (r, s') := by
  have huses : Uses ([] ++ [.of .mov (.text "5") .none (.text "x"),
      .of .mov (.text "6") .none (.text "y")]) {"x", "y"} := by
    refine List.forall_mem_cons.2 ⟨⟨nofun, ?_, ?_⟩, List.forall_mem_singleton.2 ⟨nofun, ?_, ?_⟩⟩
    · exact List.forall_mem_singleton.2 fun h => absurd h.noLiteral (by decide)
    · exact List.forall_mem_singleton.2 ⟨"x", by decide, rfl⟩
    · exact List.forall_mem_singleton.2 fun h => absurd h.noLiteral (by decide)
    · exact List.forall_mem_singleton.2 ⟨"y", by decide, rfl⟩
  obtain ⟨s₀, hrun₀⟩ : ∃ s₀, (lower ([] ++ .of .label (.text "program_start") .none .none ::
      [])).run.run .start = (.ok (), s₀) := ⟨_, rfl⟩
  obtain ⟨s₁, hrun₁⟩ : ∃ s₁, (Lower.instruction (.of .mov (.text "5") .none
      (.text "x"))).run.run s₀ = (.ok (), s₁) := ⟨_, rfl⟩
  obtain ⟨s, hrun⟩ : ∃ s, (lower [.of .mov (.text "6") .none
      (.text "y")]).run.run s₁ = (.ok (), s) := ⟨_, rfl⟩
  exact ⟨s₀, s₁, s, hrun₀, hrun₁, hrun, read_where_written (by rfl) (by rfl) (.inl rfl) (by decide)
    huses hrun₀ hrun₁ hrun ⟨by decide, by decide, by decide, by decide⟩ (by rfl)⟩

end Compiscript.Mips
