import Compiscript.Proofs.Mips.Fresh

/-!
# Variables that Count as Strings

How a variable is printed.

Lowering marks a variable when it stores a string in it, and prints a marked variable as a
string. A mark is never taken back before the next function begins: storing a number in the
variable leaves it.

## Theorems

* `Mips.printed_as_string_once_stored`: A variable is printed as a string if any instruction since
  then stored a string in it, be it the last one that wrote it or not.
-/

namespace Compiscript.Mips

open List Lower

/-- The result of a function is known to be a string. Printing a string gives it back, if there is
    one. -/
def StringResult (pending : List (Option String)) (name : String) : Prop :=
  match name with
  | "printString" => pending.head?.join.isSome = true
  | "printInteger" => False
  | "toString" => True
  | name => isConstructor name = false ∧ stringFunctions.contains name = true

lemma stringResult_of_ne {pending : List (Option String)} {name : String}
    (hstr : name ≠ "printString") (hint : name ≠ "printInteger") (hto : name ≠ "toString") :
    StringResult pending name ↔
      isConstructor name = false ∧ stringFunctions.contains name = true := by
  unfold StringResult
  split
  · exact (hstr rfl).elim
  · exact (hint rfl).elim
  · exact (hto rfl).elim
  · rfl

/-- An operand is a string, or one of the variables that hold one. -/
def IsStringIn (marks : List (Option String)) (a : Option String) : Prop :=
  isStringLiteral a = true ∨ a ∈ marks

/-- An instruction stores a string in a variable. What it moves, adds or calls is a string going by
    the state before it. -/
def StoresString (s : Lowering) (i : Instr) (x : String) : Prop :=
  operandText i.res = some x ∧
    match i.op with
    | .mov => isLiteral (operandText i.a1) = false ∧
        IsStringIn s.stringVars (operandText i.a1)
    | .add => ∃ a ∈ readsOf i, a ≠ none ∧ IsStringIn s.stringVars a
    | .getp => fieldOffset (operandText i.a2) ∈ [0, 8]
    | .call => ∃ l, operandText i.a1 = some l ∧ StringResult s.pending (nameOfLabel l)
    | _ => False

/-- Steps that leave alone the marks and what waits. -/
def Powers.still : Powers := ⟨False, False, False, fun _ => True⟩

lemma Made.unmarked {α : Type} {m : Lower α} {w : Wanted} (h : Made .still w m) (s : Lowering) :
    (m.run s).2.stringVars = s.stringVars := by
  induction h generalizing s with
  | both _ _ ihm ihk =>
    rw [StateT.run_bind]
    exact (ihk _ _).trans (ihm s)
  | less _ ih => exact ih s
  | markString h | waiting h | param h | clearPending h | forget h => exact h.elim
  | _ => rfl

/-- A step marks these variables, given those that were marked before. -/
def Marks {α : Type} (m : Lower α) (f : List (Option String) → String → Prop) : Prop :=
  ∀ s x, some x ∈ (m.run s).2.stringVars ↔ some x ∈ s.stringVars ∨ f s.stringVars x

namespace Marks

variable {α β : Type} {m : Lower α} {f : List (Option String) → String → Prop}
  {a a1 a2 res : Option String} {w : Wanted}

lemma of_still (h : Made .still w m) (hf : ∀ l x, ¬ f l x) : Marks m f := by
  intro s x
  rw [h.unmarked]
  exact (or_iff_left (hf _ _)).symm

lemma after {k : α → Lower β} (hm : Made .still w m) (hk : ∀ a, Marks (k a) f) :
    Marks (m >>= k) f := by
  intro s x
  have hla := hk (m.run s).1 (m.run s).2 x
  rw [hm.unmarked] at hla
  exact hla

lemma imp {g : List (Option String) → String → Prop} (h : Marks m f)
    (hfg : ∀ l x, f l x ↔ g l x) : Marks m g :=
  fun s x => (h s x).trans (or_congr_right (hfg _ _))

lemma markString (y : Option String) : Marks (markString y) fun _ x => y = some x := by
  intro s x
  change some x ∈ (if s.stringVars.contains y then s.stringVars else s.stringVars ++ [y]) ↔ _
  split
  · rename_i hy
    rw [contains_iff_mem] at hy
    exact ⟨.inl, fun h => h.elim id fun hx => hx ▸ hy⟩
  · rw [mem_append, mem_singleton, eq_comm (a := some x)]

lemma markIf (a y : Option String) : Marks (do if ← Lower.holdsString a then Lower.markString y)
    fun l x => a ∈ l ∧ y = some x := by
  intro s x
  change some x ∈ ((if s.stringVars.contains a = true then Lower.markString y else pure ()).run s
    : Unit × Lowering).2.stringVars ↔ _
  split
  · rename_i ha
    exact (markString y s x).trans
      (or_congr_right (and_iff_right (contains_iff_mem.1 ha)).symm)
  · rename_i ha
    rw [contains_iff_mem] at ha
    exact (or_iff_left fun h => ha h.1).symm

lemma still_ensure (a : Option String) : Made .still (fun _ => stringsOf a) (ensure a) :=
  .ensure fun _ => trivial

lemma move (a res : Option String) : Marks (move a res) fun l x =>
    res = some x ∧ isLiteral a = false ∧ IsStringIn l a := by
  have hpl : ∀ y, isStringLiteral a = false → isLiteral a = false → Marks (do
        let rs ← ensure a
        emit (.move (← registerOf (some y)) rs)
        if ← Lower.holdsString a then Lower.markString (some y)) fun l x =>
          some y = some x ∧ isLiteral a = false ∧ IsStringIn l a := by
    intro y hno hlit
    refine (after (still_ensure a) fun rs => after (.registerOf trivial) fun rd =>
      after (.emit rfl) fun _ => markIf a (some y)).imp fun l x => ?_
    rw [IsStringIn, hno, hlit]
    simp [and_comm]
  unfold Lower.move
  cases res with
  | none => exact of_still (.emit rfl) fun l x h => nomatch h.1
  | some y =>
    cases a with
    | none => exact hpl y rfl rfl
    | some v =>
      dsimp only
      by_cases hlit : isLiteral (some v) = true
      · rw [if_pos hlit]
        refine of_still ((Made.registerOf trivial).bind fun _ => .emit rfl) fun l x h => ?_
        exact Bool.false_ne_true (h.2.1.symm.trans hlit)
      rw [if_neg hlit]
      by_cases hquoted : isQuoted v = true
      · rw [if_pos hquoted]
        refine (after (.registerOf trivial) fun rd => after (.loadString hquoted
          (fun l => [.la rd l]) fun _ => rfl) fun _ => markString (some y)).imp fun l x => ?_
        exact (and_iff_left ⟨Bool.eq_false_iff.2 hlit, .inl hquoted⟩).symm
      · rw [if_neg hquoted]
        exact hpl y (Bool.eq_false_iff.2 hquoted) (Bool.eq_false_iff.2 hlit)

lemma emptyString (res : Option String) : Marks (emptyString res) fun _ x => res = some x := by
  unfold Lower.emptyString
  cases res with
  | none => exact of_still (.pure _) fun l x h => nomatch h
  | some y => exact after (.registerOf trivial) fun rd => after (.emitAll (Subset.refl _)) fun _ =>
    markString _

lemma add (a1 a2 res : Option String) : Marks (add a1 a2 res) fun l x =>
    res = some x ∧ ∃ a ∈ [a1, a2], a ≠ none ∧ IsStringIn l a := by
  intro s x
  -- Whether an operand is a string is asked for before anything else is done.
  let isString (a : Option String) : Bool :=
    a.isSome && (isStringLiteral a || s.stringVars.contains a)
  have hstr : ∀ a, isString a = true ↔ a ≠ none ∧ IsStringIn s.stringVars a := by
    intro a
    simp [isString, IsStringIn, Option.isSome_iff_ne_none]
  have hany : (isString a1 || isString a2) = true ↔
      ∃ a ∈ [a1, a2], a ≠ none ∧ IsStringIn s.stringVars a := by
    rw [Bool.or_eq_true, hstr, hstr]
    simp
  change some x ∈ ((if (isString a1 || isString a2) = true then _ else _ : Lower Unit).run s
    : Unit × Lowering).2.stringVars ↔ _
  beta_reduce
  rw [← hany]
  split
  · rename_i hyes
    have hmks := after (.printAny (a := a1) fun _ => trivial) fun _ =>
      after (.printAny (a := a2) fun _ => trivial) fun _ => emptyString res
    exact (hmks s x).trans (or_congr_right (and_iff_left hyes).symm)
  · rename_i hno
    have hmks : Marks (binary (fun rd r1 r2 => [.addu rd r1 r2]) a1 a2 res) fun _ _ => False :=
      of_still (.binary (fun _ => trivial) (fun _ => trivial) (fun _ _ _ => rfl) trivial)
        fun _ _ h => h
    exact (hmks s x).trans (or_congr_right ⟨False.elim, fun h => hno h.2⟩)

lemma getField (object field res : Option String) : Marks (getField object field res)
    fun _ x => res = some x ∧ fieldOffset field ∈ [0, 8] := by
  refine after (still_ensure object) fun _ => after (.registerOf trivial) fun _ =>
    after (.lines rfl) fun _ => ?_
  split
  · rename_i h
    refine (markString res).imp fun l x => (and_iff_left ?_).symm
    simpa using h
  · rename_i h
    refine of_still (.pure _) fun l x hx => h ?_
    simpa using hx.2

lemma callResult (name : String) (res : Option String) : Marks (callResult name res)
    fun _ x => res = some x ∧ isConstructor name = false ∧
      stringFunctions.contains name = true := by
  unfold Lower.callResult
  cases res with
  | none => exact of_still (.pure _) fun l x h => nomatch h.1
  | some y =>
    refine after (.registerOf trivial) fun rd => ?_
    split
    · rename_i h
      exact of_still (.emit rfl) fun l x hx => Bool.false_ne_true (hx.2.1.symm.trans h)
    · rename_i hcon
      refine after (.emit rfl) fun _ => ?_
      split
      · rename_i h
        exact (markString _).imp fun l x =>
          (and_iff_left ⟨Bool.eq_false_iff.2 hcon, h⟩).symm
      · rename_i h
        exact of_still (.pure _) fun l x hx => h hx.2.2

/-- A call that prints marks its result if that is a string and there is an argument. -/
lemma printCall (number : Nat) (isString : Bool) (res : Option String) (s : Lowering)
    (x : String) : some x ∈ ((printCall number isString res).run s).2.stringVars ↔
      some x ∈ s.stringVars ∨
        (res = some x ∧ isString = true ∧ s.pending.head?.join.isSome = true) := by
  unfold Lower.printCall
  rw [run_get_bind]
  cases s.pending.head?.join with
  | none => exact (or_iff_left fun h => nomatch h.2.2).symm
  | some arg =>
    refine after (f := fun _ x => res = some x ∧ isString = true ∧ _) (still_ensure _)
      (fun r => after (.lines rfl) fun _ => ?_) s x
    cases res with
    | none => exact of_still (.pure _) fun l x h => nomatch h.1
    | some y =>
      refine after (.registerOf trivial) fun rd => after (.emit rfl) fun _ => ?_
      cases isString with
      | false => exact of_still (.pure _) fun l x h => nomatch h.2.1
      | true => exact (markString _).imp fun l x => (and_iff_left ⟨rfl, rfl⟩).symm

lemma callFunction (label name : String) (res : Option String) :
    Marks (callFunction label name res) fun _ x => res = some x ∧
      isConstructor name = false ∧ stringFunctions.contains name = true := by
  intro s x
  have hpass : Made .still _ (passArguments 0 (s.pending.take 4)) :=
    .passArguments 0 fun _ _ _ => trivial
  have hla := after hpass fun _ =>
    after (.emit (a := .jal label) rfl) fun _ => callResult name res
  unfold Lower.callFunction
  rw [run_get_bind]
  dsimp only
  split
  · rename_i hargs
    rw [hargs] at hla ⊢
    split
    · exact (after (still_ensure _) fun r =>
        after (.emit (a := .move .this r) rfl) fun _ => hla) s x
    · exact hla s x
  · rename_i hargs
    rw [hargs] at hla ⊢
    exact hla s x

lemma call (label : String) (res : Option String) (s : Lowering) (x : String) :
    some x ∈ ((call label res).run s).2.stringVars ↔ some x ∈ s.stringVars ∨
      (res = some x ∧ StringResult s.pending (nameOfLabel label)) := by
  unfold Lower.call
  dsimp only
  generalize nameOfLabel label = name
  split
  · exact (printCall 4 true res s x).trans (by simp [StringResult])
  · exact (printCall 1 false res s x).trans (by simp [StringResult])
  · exact (emptyString res s x).trans (by simp [StringResult])
  · rename_i hstr hint hto
    exact (callFunction label name res s x).trans
      (or_congr_right (and_congr_right fun _ => (stringResult_of_ne hstr hint hto).symm))

end Marks

variable {s s' : Lowering}

lemma mem_stringVars {i : Instr}
    (h : (instruction i).run.run s = (.ok (), s')) (hop : i.op ≠ .label) (x : String) :
    some x ∈ s'.stringVars ↔ some x ∈ s.stringVars ∨ StoresString s i x := by
  have hs' : ((instruction i).run.run s).2 = s' := congrArg Prod.snd h
  have hstill : i.op ∉ markOps → i.op ∉ waitOps → s'.stringVars = s.stringVars := by
    intro hM hW
    have hmade : Made .still _ (instruction i).run :=
      made_instruction hM hW hop (fun _ _ _ => trivial) fun _ _ => trivial
    rw [← hs', hmade.unmarked]
  unfold StoresString
  obtain ⟨op, a1, a2, res, c⟩ := i
  cases op with
  | label => exact absurd rfl hop
  | mov => exact hs' ▸ Marks.move _ _ s x
  | add => exact hs' ▸ Marks.add _ _ _ s x
  | getp => exact hs' ▸ Marks.getField _ _ _ s x
  | param => exact hs' ▸ (or_iff_left fun h => h.2).symm
  | call =>
    cases hl : operandText a1 with
    | none =>
      have hrun : instruction ⟨.call, a1, a2, res, c⟩ = throw .noLabel := by
        change callLabel (operandText a1) _ = _
        rw [hl]
        rfl
      rw [hrun] at h
      cases h
    | some l =>
      have hrun : instruction ⟨.call, a1, a2, res, c⟩ = liftM (call l (operandText res)) := by
        change callLabel (operandText a1) _ = _
        rw [hl]
        rfl
      rw [← hs', hrun, run_lift]
      refine (Marks.call l _ s x).trans (or_congr_right (and_congr_right fun _ => ?_))
      exact ⟨fun h => ⟨l, rfl, h⟩, fun ⟨l', hl', h⟩ => Option.some.inj hl' ▸ h⟩
  | _ =>
    rw [hstill (by simp [markOps]) (by simp [waitOps])]
    exact (or_iff_left fun h => h.2).symm

lemma mem_stringVars_lower {code : List Instr} (hs : s.stringVars = [])
    (h : (lower code).run.run s = (.ok (), s')) (hcode : ∀ i ∈ code, i.op ≠ .label) (x : String) :
    some x ∈ s'.stringVars ↔ ∃ before i after s1, code = before ++ i :: after ∧
      (lower before).run.run s = (.ok (), s1) ∧ StoresString s1 i x := by
  induction code using reverseRecOn generalizing s' with
  | nil =>
    cases h
    rw [hs]
    simp
  | append_singleton code i ih =>
    obtain ⟨s1, hfst, hla⟩ := exists_of_lower_append h
    rw [lower_singleton] at hla
    have hlab : i.op ≠ .label := hcode i (by simp)
    rw [mem_stringVars hla hlab, ih hfst fun j hj => hcode j (mem_append_left _ hj)]
    constructor
    · rintro (⟨before, j, after, s2, rfl, hbef, hsto⟩ | hsto)
      · exact ⟨before, j, after ++ [i], s2, by simp, hbef, hsto⟩
      · exact ⟨code, i, [], s1, rfl, hfst, hsto⟩
    · rintro ⟨before, j, after, s2, heq, hbef, hsto⟩
      rcases eq_nil_or_concat after with rfl | ⟨after, k, rfl⟩
      · obtain ⟨rfl, hji⟩ := append_inj' heq rfl
        obtain rfl : i = j := head_eq_of_cons_eq hji
        obtain rfl : s1 = s2 := congrArg Prod.snd (hfst.symm.trans hbef)
        exact .inr hsto
      · rw [concat_eq_append, ← cons_append, ← append_assoc] at heq
        obtain ⟨rfl, -⟩ := append_inj' heq rfl
        exact .inl ⟨before, j, after, s2, rfl, hbef, hsto⟩

lemma run_print {v : String} (hv : isQuoted v = false) (a2 res : Operand) (c : String)
    (s : Lowering) : ∃ r lines s', (instruction ⟨.print, .text v, a2, res, c⟩).run.run s =
      (.ok (), s') ∧ s'.asm = s.asm ++ lines ++ .move (.arg 0) r ::
        systemCall (if s.stringVars.contains (some v) then 4 else 1) := by
  obtain ⟨lines, hlines⟩ := Made.exists_lines (.ensure (a := some v) fun _ => trivial) s
  have hrun : print (some v) = (do
      let call := if ← holdsString (some v) then 4 else 1
      emitAll (.move (.arg 0) (← ensure (some v)) :: systemCall call)) :=
    if_neg (Bool.eq_false_iff.1 hv)
  refine ⟨((ensure (some v)).run s).1, lines, _, run_lift (print (some v)) s, ?_⟩
  rw [hrun, ← hlines]
  rfl

/-- Behind the label of a function or of the start of the program, a variable is printed as a string
    exactly if some instruction since then has stored a string in it. It need not be the last one
    that wrote the variable. -/
theorem printed_as_string_once_stored {before code : List Instr} {start print : Instr}
    {l v : String} (hop : start.op = .label) (hname : labelName? start = some l)
    (hl : l = "program_start" ∨ ∃ f, l = "func_" ++ f) (hcode : ∀ i ∈ code, i.op ≠ .label)
    {s : Lowering} (hrun : (lower (before ++ start :: code)).run.run .start = (.ok (), s))
    (hprint : print.op = .print) (hv : print.a1 = .text v) (hquoted : isQuoted v = false) :
    ∃ r lines s' number, (Lower.instruction print).run.run s = (.ok (), s') ∧
      s'.asm = s.asm ++ lines ++ .move (.arg 0) r :: Lower.systemCall number ∧
      (number = 4 ∨ number = 1) ∧ (number = 4 ↔ ∃ code₁ i code₂ s₁, code = code₁ ++ i :: code₂ ∧
        (lower (before ++ start :: code₁)).run.run .start = (.ok (), s₁) ∧
        StoresString s₁ i v) := by
  obtain ⟨op, a1, a2, res, c⟩ := print
  obtain rfl : op = .print := hprint
  obtain rfl : a1 = .text v := hv
  -- The label leaves nothing marked.
  obtain ⟨b, -, -, hb, hfrom⟩ := exists_afresh hop hname hl hrun
  rw [hfrom] at hrun
  obtain ⟨r, lines, s', hla, hasm⟩ := run_print hquoted a2 res c s
  refine ⟨r, lines, s', _, hla, hasm, ?_, ?_⟩
  · split
    · exact .inl rfl
    · exact .inr rfl
  · simp only [hfrom]
    rw [← mem_stringVars_lower hb hrun hcode v, ← List.contains_iff_mem]
    cases s.stringVars.contains (some v) <;> simp

/-- A variable that holds a number, and held a string before. -/
def overwritten : List Instr :=
  [.of .mov (.text "\"a\"") .none (.text "x"), .of .mov (.text "5") .none (.text "x")]

theorem printed_as_string_once_stored_overwritten :
    ∃ s, (lower ([] ++ .of .label (.text "program_start") .none .none :: overwritten)).run.run
        .start = (.ok (), s) ∧
      ∃ r lines s' number, (Lower.instruction (.of .print (.text "x") .none .none)).run.run s =
          (.ok (), s') ∧ s'.asm = s.asm ++ lines ++ .move (.arg 0) r :: Lower.systemCall number ∧
        (number = 4 ∨ number = 1) ∧
        (number = 4 ↔ ∃ code₁ i code₂ s₁, overwritten = code₁ ++ i :: code₂ ∧
          (lower ([] ++ .of .label (.text "program_start") .none .none :: code₁)).run.run .start =
            (.ok (), s₁) ∧ StoresString s₁ i "x") :=
  ⟨_, rfl, printed_as_string_once_stored rfl rfl (.inl rfl) (by decide) rfl rfl rfl (by decide)⟩

end Compiscript.Mips
