import Compiscript.Proofs.Codegen.Resolver

/-!
# Closed Code

Code is closed if no label stands in two places and every instruction that leads
elsewhere leads to a label that is there.

The labels of a program are of two sorts. Those that were made up are in order
whatever the program is. The others are the labels of functions, which are made of
the names of functions and classes.

## Theorems

* `Gen.code_is_closed`: The code is closed if the functions are in order.
-/

namespace Compiscript

open List

namespace Tac

/-- The operand that names the label an instruction leads to. -/
def leadsTo? (i : Instr) : Option Operand :=
  match i.op with
  | .jump | .call => some i.a1
  | .ifz | .ifnz => some i.res
  | _ => none

/-- Code whose labels stand in one place each, and that leads to no others. -/
structure Closed (code : List Instr) : Prop where
  text : ∀ i ∈ code, i.op = .label → ∃ l, i.a1 = .text l
  nodup : (labelsOf code).Nodup
  target : ∀ i ∈ code, ∀ o, leadsTo? i = some o →
    ∃ l, o = .text l ∧ (labelsOf code).count l = 1

lemma closed_of_marks {k : Nat} {code : List Instr} (horder : InOrder k code)
    (hnd : (marks code).Nodup) {L : Set String} (hL : ∀ l ∈ L, l ∈ marks code)
    (hlds : ∀ i ∈ code, Leads L i) : Closed code where
  text := horder.text
  nodup := by
    rw [nodup_iff_count_le_one]
    intro l
    cases hl : isLabelName l with
    | true =>
      by_cases hmem : l ∈ labelsOf code
      · obtain ⟨j, hj, rfl⟩ := horder.only l hmem hl
        exact (horder.count j hj).le
      · rw [count_eq_zero.2 hmem]
        exact Nat.zero_le 1
    | false =>
      have hcount : (marks code).count l = (labelsOf code).count l :=
        count_filter (by rw [hl]; rfl)
      rw [← hcount]
      exact nodup_iff_count_le_one.1 hnd l
  target i hi o ho := by
    -- A mark is there once, and so is a label that was made up.
    have hmk : ∀ l ∈ L, (labelsOf code).count l = 1 := by
      intro l hl
      obtain ⟨-, hnm⟩ := mem_filter.1 (hL l hl)
      rw [← count_filter (p := fun l => !isLabelName l) hnm]
      exact count_eq_one_of_mem hnd (hL l hl)
    have hlds := hlds i hi
    rw [leadsTo?] at ho
    split at ho
    · rename_i hop
      cases ho
      rcases horder.jump i hi hop with ⟨j, hj, ha⟩ | ⟨f, ha⟩
      · exact ⟨_, ha, horder.count j hj⟩
      · rcases hlds.jump hop with ⟨n, hn⟩ | ⟨l, hl, ha'⟩
        · rw [ha, Operand.text.injEq] at hn
          have hno := Gen.isLabelName_append_exit f
          rw [hn, isLabelName_labelName] at hno
          cases hno
        · exact ⟨l, ha', hmk l hl⟩
    · rename_i hop
      cases ho
      obtain ⟨l, hl, ha⟩ := hlds.call hop
      exact ⟨l, ha, hmk l hl⟩
    · rename_i hop
      cases ho
      obtain ⟨j, hj, ha⟩ := horder.branch i hi (.inl hop)
      exact ⟨_, ha, horder.count j hj⟩
    · rename_i hop
      cases ho
      obtain ⟨j, hj, ha⟩ := horder.branch i hi (.inr hop)
      exact ⟨_, ha, horder.count j hj⟩
    · cases ho

end Tac

namespace Gen

open Tac

lemma placesIn_forms (c : Option String) (t : Tree) :
    ∀ l ∈ placesIn c t, (∃ x, l = "func_" ++ x) ∨ ∃ x, l = x ++ "_exit" := by
  intro l hl
  have hcs : ∀ c', l ∈ t.children.flatMap (placesIn c') →
      (∃ x, l = "func_" ++ x) ∨ ∃ x, l = x ++ "_exit" := by
    intro c' hl
    obtain ⟨d, hd, hld⟩ := mem_flatMap.1 hl
    exact placesIn_forms c' d l hld
  cases hfun : t.isOf .functionDeclaration with
  | true =>
    rw [placesIn_of_function hfun, mem_append] at hl
    rcases hl with hl | hl
    · cases hx : t.tokenText? .identifier with
      | none => rw [hx] at hl; cases hl
      | some x =>
        obtain ⟨⟨y, hy⟩, ⟨z, hz⟩⟩ := functionLabels_forms c x
        rw [hx, placesOf, hy, hz] at hl
        rcases mem_pair.1 hl with rfl | rfl
        · exact .inl ⟨y, rfl⟩
        · exact .inr ⟨z, rfl⟩
    · exact hcs c hl
  | false =>
    cases hcl : t.isOf .classDeclaration with
    | true =>
      rw [placesIn_of_class hcl] at hl
      exact hcs _ hl
    | false =>
      rw [placesIn_of_other hfun hcl] at hl
      exact hcs _ hl
termination_by sizeOf t
decreasing_by exact Tree.sizeOf_child_lt hd

lemma nodup_marks {c : Option String} {t : Tree} (h : (placesIn c t).Nodup) :
    ("program_start" :: "program_end" :: placesIn c t).Nodup := by
  have hnot : ∀ l ∈ ["program_start", "program_end"], l ∉ placesIn c t := by
    intro l hl hmem
    rcases placesIn_forms c t l hmem with ⟨x, hx⟩ | ⟨x, hx⟩
    · have hfirst : l.toList.head? = some 'f' := by
        rw [hx, String.toList_append]
        rfl
      clear hx hmem
      revert l
      decide
    · have hlast : l.toList.reverse.take 3 = ['t', 'i', 'x'] := by
        rw [hx, String.toList_append, reverse_append]
        rfl
      clear hx hmem
      revert l
      decide
  refine nodup_cons.2 ⟨?_, nodup_cons.2 ⟨hnot _ (by simp), h⟩⟩
  rw [mem_cons, not_or]
  exact ⟨by decide, hnot _ (by simp)⟩

/-- The code of a program is closed, if the labels of its functions are different and
    if its functions, returns and calls are in order. -/
theorem code_is_closed (source : String) (hparse : (parse source).errors = [])
    (hplaced : WellPlaced (parse source).tree) :
    ∃ v g, Generator.run (parse source).tree (.start none) = (.ok v, g) ∧ Closed g.code := by
  obtain ⟨v, g, hrun, hsea⟩ := sealed_run none hparse
  have hst : At ⟨none, none⟩ (.start none) := ⟨rfl, rfl, rfl⟩
  obtain ⟨code, a, g', hgv, hcode, -, hmks, hlds, -⟩ :=
    lays_program (derives_of_parse hparse) hplaced.tidy _ hst
  obtain ⟨-, rfl⟩ := hgv.unique hrun
  obtain rfl : g'.code = code := hcode.trans (List.nil_append code)
  refine ⟨v, g', hrun, closed_of_marks hsea.inOrder ?_ (fun l hl => ?_) hlds⟩
  · exact hmks.nodup_iff.2 (nodup_marks hplaced.nodup)
  · exact hmks.mem_iff.2 (List.mem_cons_of_mem _ (List.mem_cons_of_mem _ hl))

theorem code_is_closed_adding : (parse adding).errors = [] ∧ WellPlaced (parse adding).tree ∧
      ∃ v g, Generator.run (parse adding).tree (.start none) = (.ok v, g) ∧ Closed g.code := by
  obtain ⟨hparse, -, -, hplaced⟩ := adding_evaluated
  exact ⟨hparse, hplaced, code_is_closed adding hparse hplaced⟩

end Gen

end Compiscript
