import Compiscript.Proofs.Mips.Fresh
import Mathlib.Data.List.Forall2

/-!
# String Constants Reach the Data Section

Strings are given labels while instructions are lowered, in whatever order they come,
and some lines load the empty string without asking for it. Tables of strings only
grow, so what a label stands for never changes, and it is enough to see this step by
step.

## Theorems

* `Mips.strings_reach_data`: Every string that is loaded stands in the data section, once,
  under the label that is loaded, and as it was in the program.
-/

namespace Compiscript.Mips

open List hiding get
open Lower

/-- A string without its backslashes. There is none if a backslash stands before anything
    that is not written with one, or if a quote stands alone. -/
def unescape : List Char → Option (List Char)
  | [] => some []
  | '\\' :: '\\' :: rest => (unescape rest).map ('\\' :: ·)
  | '\\' :: '"' :: rest => (unescape rest).map ('"' :: ·)
  | '\\' :: 'n' :: rest => (unescape rest).map ('\n' :: ·)
  | c :: rest => if c = '\\' ∨ c = '"' then none else (unescape rest).map (c :: ·)

/-- A single line that puts a string into memory, under a label. -/
def DataLine (line : String) (entry : String × String) : Prop :=
  '\n' ∉ line.toList ∧ ∃ written, line = entry.1 ++ ": .asciiz \"" ++ written ++ "\"" ∧
    unescape written.toList = some entry.2.toList

/-- The labels of strings, with the strings. -/
def Strings.entries (d : Strings) : List (String × String) :=
  d.contents.zipIdx.map fun c => (label c.2, c.1)

lemma unescape_escapeChar (c : Char) (rest : List Char) :
    unescape (Strings.escapeChar c ++ rest) = (unescape rest).map (c :: ·) := by
  unfold Strings.escapeChar
  split_ifs with hslash hqt hnewl
  · rw [hslash]
    rfl
  · rw [hqt]
    rfl
  · rw [hnewl]
    rfl
  · rw [singleton_append, unescape]
    · rw [if_neg (not_or.2 ⟨hslash, hqt⟩)]
    all_goals exact fun _ h => absurd h hslash

/-- Writing a string with backslashes is undone. -/
lemma unescape_escape (cs : List Char) : unescape (cs.flatMap Strings.escapeChar) = some cs := by
  induction cs with
  | nil => rfl
  | cons c cs ih => rw [flatMap_cons, unescape_escapeChar, ih, Option.map_some]

lemma newline_not_mem_escape (cs : List Char) : '\n' ∉ cs.flatMap Strings.escapeChar := by
  rw [mem_flatMap]
  rintro ⟨c, -, hc⟩
  unfold Strings.escapeChar at hc
  split_ifs at hc with hslash hqt hnewl
  iterate 3 exact absurd hc (by decide)
  exact hnewl (mem_singleton.1 hc).symm

lemma newline_not_mem_label (n : Nat) : '\n' ∉ (Strings.label n).toList := by
  rw [Strings.label, String.toList_append, mem_append, Nat.toString_eq_repr, Nat.toList_repr]
  rintro (h | h)
  · exact absurd h (by decide)
  · exact absurd (Nat.isDigit_of_mem_toDigits (by omega) (by omega) h) (by decide)

lemma dataLine_line (n : Nat) (content : String) :
    DataLine (Strings.line n content) (Strings.label n, content) := by
  refine ⟨?_, Strings.escape content, rfl, ?_⟩
  · simp only [Strings.line, Strings.escape, String.toList_append, String.toList_ofList, mem_append]
    rintro (((h | h) | h) | h)
    · exact newline_not_mem_label n h
    · exact absurd h (by decide)
    · exact newline_not_mem_escape _ h
    · exact absurd h (by decide)
  · rw [Strings.escape, String.toList_ofList, unescape_escape]

namespace Strings

variable {d d' : Strings}

lemma mem_entries {n : Nat} {content : String} (h : d.contents[n]? = some content) :
    (label n, content) ∈ d.entries :=
  mem_map.2 ⟨(content, n), mem_zipIdx_iff_getElem?.2 h, rfl⟩

/-- No two strings have the same label. -/
lemma nodup_labels (d : Strings) : (d.entries.map Prod.fst).Nodup := by
  have heq : d.entries.map Prod.fst = (d.contents.zipIdx.map Prod.snd).map label := by
    rw [entries, map_map, map_map]
    rfl
  rw [heq, zipIdx_map_snd]
  refine Nodup.map (fun m n h => ?_) nodup_range'
  exact toString_nat_injective ((String.append_right_inj "str_").1 h)

/-- Storing a string keeps those that are there, and gives it a label. -/
lemma intern_spec (d : Strings) (content : String) : d.entries ⊆ (d.intern content).2.entries ∧
      (label (d.intern content).1, content) ∈ (d.intern content).2.entries := by
  unfold intern
  cases hidx : d.contents.idxOf? content with
  | some n =>
    obtain ⟨hlt, hget, -⟩ := idxOf?_eq_some_iff.1 hidx
    exact ⟨Subset.refl _, mem_entries (List.getElem?_eq_some_iff.2 ⟨hlt, hget⟩)⟩
  | none =>
    refine ⟨?_, mem_entries getElem?_concat_length⟩
    rw [entries, entries, zipIdx_append, map_append]
    exact subset_append_left _ _

end Strings

/-- From one state to the next, strings are kept, and lines are added that load strings of the
    table, among them those that are wanted. -/
def Loads (s s' : Lowering) (wanted : List String) : Prop :=
  s.strings.entries ⊆ s'.strings.entries ∧ ∃ lines labels, s'.asm = s.asm ++ lines ∧
    (∀ l ∈ loadedLabels lines, l ∈ s'.strings.entries.map Prod.fst) ∧
    labels <+ loadedLabels lines ∧
    Forall₂ (fun l content => (l, content) ∈ s'.strings.entries) labels wanted

namespace Loads

variable {s s' s'' : Lowering} {w w' : List String}

lemma trans (h : Loads s s' w) (h' : Loads s' s'' w') : Loads s s'' (w ++ w') := by
  obtain ⟨hkept, lines, labels, hasm, hkn, hsub, hall⟩ := h
  obtain ⟨hkept', lines', labels', hasm', hknown', hsub', hall'⟩ := h'
  refine ⟨fun _ h => hkept' (hkept h), lines ++ lines', labels ++ labels', ?_, ?_, ?_, ?_⟩
  · rw [hasm', hasm, append_assoc]
  · rw [loadedLabels, filterMap_append]
    exact forall_mem_append.2 ⟨fun l hl => map_subset _ hkept' (hkn l hl), hknown'⟩
  · rw [loadedLabels, filterMap_append]
    exact hsub.append hsub'
  · exact rel_append (hall.imp fun _ _ h => hkept' h) hall'

/-- Lines are added that load no string but the empty one. -/
lemma of_lines (hemp : (Strings.label 0, "") ∈ s.strings.entries)
    (hstrs : s'.strings = s.strings) {lines : List Asm} (hasm : s'.asm = s.asm ++ lines)
    (h : loadedLabels lines ⊆ [Strings.label 0]) : Loads s s' [] := by
  refine ⟨hstrs ▸ Subset.refl _, lines, [], hasm, fun l hl => ?_, nil_sublist _, .nil⟩
  rw [mem_singleton.1 (h hl), hstrs]
  exact mem_map_of_mem hemp

end Loads

/-- A step loads the strings it is made to load. -/
lemma Made.loads {w : Wanted} {α : Type} {m : Lower α} (h : Made .all w m) {s : Lowering}
    (hs : (Strings.label 0, "") ∈ s.strings.entries) : Loads s (m.run s).2 (w s.pending) := by
  induction h generalizing s with
  | both _ _ ihm ihk => exact (ihm hs).trans (ihk _ ((ihm hs).1 hs))
  | less _ ih =>
    obtain ⟨hkept, lines, -, hasm, hkn, -⟩ := ih hs
    exact ⟨hkept, lines, [], hasm, hkn, nil_sublist _, .nil⟩
  | emitAll h => exact .of_lines hs rfl rfl h
  | @loadString a ha code h =>
    have hrun : (do Lower.emitAll (code (← stringLabel a)) : Lower Unit).run s = ((), { s with
        strings := (s.strings.add a).2, asm := s.asm ++ code (s.strings.add a).1 }) := rfl
    rw [hrun, Strings.add, if_pos ha]
    obtain ⟨hkept, hmem⟩ := s.strings.intern_spec (unquoted a)
    refine ⟨hkept, _, [_], rfl, ?_, ?_, .cons hmem .nil⟩
    · rw [h]
      exact forall_mem_singleton.2 (mem_map_of_mem hmem)
    · rw [h]
  | waiting _ _ _ ih => exact ih s (fun _ _ _ => trivial) hs
  | _ => exact .of_lines hs rfl (append_nil _).symm (nil_subset _)

/-- String constants reach the data section as they are: each of them has one line, from which it
    can be read back, no two lines have the same label, every label that is loaded is that of
    exactly one line, and the strings among the operands that an instruction loads or prints are
    loaded, in order, under the labels that they have there. -/
theorem strings_reach_data {code : List Instr} {text : String} (h : program code = .ok text) :
    ∃ (s : Lowering) (lines : List String), (lower code).run.run .start = (.ok (), s) ∧
      text = "\n".intercalate (".data" :: lines ++ "" :: header code ++ s.asm.map Asm.line) ∧
      Forall₂ DataLine lines s.strings.entries ∧ (s.strings.entries.map Prod.fst).Nodup ∧
      (∀ l ∈ loadedLabels s.asm, (s.strings.entries.map Prod.fst).count l = 1) ∧
      ∀ before i after, code = before ++ i :: after → ∃ (t t' : Lowering) (new rest : List Asm)
        (labels : List String), (lower before).run.run .start = (.ok (), t) ∧
          (instruction i).run.run t = (.ok (), t') ∧ t'.asm = t.asm ++ new ∧
          s.asm = t'.asm ++ rest ∧ labels <+ loadedLabels new ∧
          Forall₂ (fun l content => (l, content) ∈ s.strings.entries) labels
            (stringsIn i t.pending) := by
  obtain ⟨s, hrun, rfl⟩ : ∃ s, (lower code).run.run .start = (.ok (), s) ∧
      text = "\n".intercalate (s.strings.lines ++ header code ++ s.asm.map Asm.line) := by
    unfold program at h
    split at h
    · cases h
    · rename_i s hrun
      cases h
      exact ⟨s, hrun, rfl⟩
  have hloads : ∀ {code : List Instr} {t t' : Lowering},
      (lower code).run.run t = (.ok (), t') → (Strings.label 0, "") ∈ t.strings.entries →
      Loads t t' [] := by
    intro code t t' hrun ht
    have hloads := (made_all code).loads ht
    rwa [hrun] at hloads
  have hst : (Strings.label 0, "") ∈ Lowering.start.strings.entries := .head _
  refine ⟨s, s.strings.contents.mapIdx Strings.line, hrun, ?_, ?_, s.strings.nodup_labels, ?_, ?_⟩
  · rw [Strings.lines, append_assoc _ [""]]
    rfl
  · rw [mapIdx_eq_zipIdx_map, Strings.entries, forall₂_map_left_iff, forall₂_map_right_iff]
    exact forall₂_same.2 fun c _ => dataLine_line c.2 c.1
  · obtain ⟨-, lines, -, hasm, hkn, -⟩ := hloads hrun hst
    obtain rfl : s.asm = lines := hasm
    exact fun l hl => count_eq_one_of_mem s.strings.nodup_labels (hkn l hl)
  · rintro before i after rfl
    obtain ⟨t, ht, hr⟩ := exists_of_lower_append hrun
    obtain ⟨t', ht', hafter⟩ := exists_of_lower_append (a := [i]) hr
    have hemp := (hloads ht hst).1 hst
    have hf := (made_instruction (p := .all) (i := i) (fun _ => trivial) (fun _ => trivial)
      (fun _ => trivial) (fun _ _ _ => trivial) fun _ _ => trivial).loads hemp
    rw [lower_singleton] at ht'
    rw [ht'] at hf
    obtain ⟨hkept, new, labels, hnew, -, hsub, hall⟩ := hf
    obtain ⟨hkept', rest, -, hasm, -⟩ := hloads hafter (hkept hemp)
    exact ⟨t, t', new, rest, labels, ht, ht', hnew, hasm, hsub, hall.imp fun _ _ h => hkept' h⟩

/-- A program with strings that have to be escaped, one of them twice, and a sum that leaves the
    empty string behind. -/
def quoting : List Instr :=
  [.of .print (.text "\"a \"b\" \\n\"") .none .none,
    .of .mov (.text "\"two\nlines\"") .none (.text "x"),
    .of .add (.text "x") (.text "\"a \"b\" \\n\"") (.text "t0")]

theorem strings_reach_data_quoting : ∃ (s : Lowering) (lines : List String),
    (lower quoting).run.run .start = (.ok (), s) ∧ Forall₂ DataLine lines s.strings.entries ∧
      s.strings.entries = [("str_0", ""), ("str_1", "a \"b\" \\n"), ("str_2", "two\nlines")] := by
  obtain ⟨s, lines, hrun, -, hlines, -⟩ := @strings_reach_data quoting _ rfl
  exact ⟨s, lines, hrun, hlines, by cases hrun; rfl⟩

end Compiscript.Mips
