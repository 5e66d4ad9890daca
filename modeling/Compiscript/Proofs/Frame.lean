import Compiscript.Frame
import Mathlib.Tactic.Linarith

/-!
# Slots of a Frame

Parameters tile the bytes from offset 8 on, provided that their names differ. A local variable
always goes below all that have been placed, so names may be repeated: the frame then forgets
the older slot.

## Theorems

* `Frame.slots_do_not_overlap`: In what order ever all these are placed, no two slots overlap.
-/

namespace Compiscript

open List hiding set

namespace Table

variable {κ α : Type} [DecidableEq κ] {R : α → α → Prop} {t : Table κ α} {k : κ} {a : α}

lemma mem_values_set {b : α} (h : b ∈ (t.set k a).values) : b = a ∨ b ∈ t.values := by
  obtain ⟨es⟩ := t
  simp only [values, set] at *
  induction es with
  | nil => simpa [set.go] using h
  | cons e es ih =>
    unfold set.go at h
    split at h <;> simp only [map_cons, mem_cons] at h ⊢
    · exact h.imp_right .inr
    · exact h.elim (fun h => .inr (.inl h)) fun h => (ih h).imp_right .inr

/-- Values that are related pairwise stay so if the new one is related to all of them. -/
lemma pairwise_set (hR : ∀ b ∈ t.values, R a b ∧ R b a) (h : t.values.Pairwise R) :
    (t.set k a).values.Pairwise R := by
  obtain ⟨es⟩ := t
  induction es with
  | nil => exact pairwise_singleton R a
  | cons e es ih =>
    obtain ⟨he, hes⟩ := forall_mem_cons.1 hR
    obtain ⟨hfst, hr⟩ := pairwise_cons.1 h
    change ((set.go k a (e :: es)).map (·.2)).Pairwise R
    unfold set.go
    split
    · exact pairwise_cons.2 ⟨fun b hb => (hes b hb).1, hr⟩
    · refine pairwise_cons.2 ⟨fun b hb => ?_, ih hes hr⟩
      rcases mem_values_set (t := ⟨es⟩) hb with rfl | hb
      · exact he.2
      · exact hfst b hb

end Table

namespace Slot

/-- Two slots have no byte in common. -/
def Apart (s t : Slot) : Prop := s.offset + s.size ≤ t.offset ∨ t.offset + t.size ≤ s.offset

/-- Slots that lie one behind the other and fill the bytes from `low` up to `high`. -/
def Tile (low : Int) : List Slot → (high : Int) → Prop
  | [], high => low = high
  | s :: rest, high => s.offset = low ∧ Tile (low + s.size) rest high

variable {slots : List Slot} {low high : Int}

lemma Tile.snoc {s : Slot} (h : Tile low slots high) (hs : s.offset = high) :
    Tile low (slots ++ [s]) (high + s.size) := by
  induction slots generalizing low with
  | nil => exact ⟨hs.trans h.symm, congrArg (· + s.size) h⟩
  | cons t slots ih => exact ⟨h.1, ih h.2⟩

/-- Slots that fill the bytes above `low` lie above it and do not overlap. -/
lemma Tile.apart (h : Tile low slots high) (hwide : ∀ s ∈ slots, 0 < s.size) :
    (∀ s ∈ slots, low ≤ s.offset) ∧ slots.Pairwise Apart := by
  induction slots generalizing low with
  | nil => exact ⟨forall_mem_nil _, .nil⟩
  | cons t slots ih =>
    obtain ⟨ht, hslots⟩ := forall_mem_cons.1 hwide
    obtain ⟨habove, happ⟩ := ih h.2 hslots
    refine ⟨forall_mem_cons.2 ⟨h.1.ge, fun s hs => ?_⟩,
      pairwise_cons.2 ⟨fun s hs => .inl ?_, happ⟩⟩
    · linarith [habove s hs]
    · rw [h.1]
      exact habove s hs

end Slot

namespace Frame

/-- Something to be placed in a frame. -/
inductive Entry where
  | param (sym : Symbol)
  | local (sym : Symbol)

namespace Entry

def symbol : Entry → Symbol
  | param sym | .local sym => sym

/-- The symbol of a parameter. -/
def param? : Entry → Option Symbol
  | param sym => some sym
  | .local _ => none

end Entry

/-- Place an entry in a frame. -/
def place (f : Frame) : Entry → Frame
  | .param sym => (f.addParam sym).1
  | .local sym => (f.addLocal sym).1

/-- The frame in which entries have been placed one after the other. -/
def ofEntries (function : String) (es : List Entry) : Frame :=
  (es.foldl place (.empty function)).finalize

/-- What holds of a frame after every entry. -/
structure Laid (f : Frame) (params : List Symbol) : Prop where
  keys : f.params.keys = params.map (·.name)
  sizes : f.params.values.map (·.size) = params.map widthOf
  tile : Slot.Tile 8 f.params.values (8 + total f.params.values)
  wide : ∀ s ∈ f.params.values ++ f.locals.values, 0 < s.size
  below : 0 ≤ f.localsSize ∧ ∀ s ∈ f.locals.values, -f.localsSize ≤ s.offset ∧ s.offset + s.size ≤ 0
  apart : f.locals.values.Pairwise Slot.Apart

lemma total_append (a b : List Slot) : total (a ++ b) = total a + total b := by
  induction a with
  | nil => simp [total]
  | cons s a ih =>
    simp only [total, cons_append, map_cons, foldr_cons] at *
    omega

variable {f : Frame} {params : List Symbol} {sym : Symbol}

lemma Laid.addParam (h : f.Laid params) (hnm : sym.name ∉ params.map (·.name))
    (hwide : 0 < widthOf sym) : (f.addParam sym).1.Laid (params ++ [sym]) := by
  rw [← h.keys] at hnm
  have hval : (f.addParam sym).1.params.values =
      f.params.values ++ [⟨widthOf sym, 8 + total f.params.values⟩] := by
    simp [Frame.addParam, Table.values, Table.entries_set_of_not_mem _ hnm]
  constructor
  case keys => simp [Frame.addParam, Table.keys_set_of_not_mem _ hnm, h.keys]
  case sizes => simp [hval, h.sizes]
  case tile =>
    rw [hval, total_append, ← Int.add_assoc]
    convert h.tile.snoc (s := ⟨widthOf sym, 8 + total f.params.values⟩) rfl using 2
    simp [total]
  case wide =>
    intro s hs
    rw [hval, append_assoc, mem_append] at hs
    rcases hs with hs | hs
    · exact h.wide s (mem_append_left _ hs)
    · rcases mem_cons.1 hs with rfl | hs
      · exact hwide
      · exact h.wide s (mem_append_right _ hs)
  case below => exact h.below
  case apart => exact h.apart

lemma Laid.addLocal (h : f.Laid params) (hwide : 0 < widthOf sym) :
    (f.addLocal sym).1.Laid params := by
  obtain ⟨hsize, hbelow⟩ := h.below
  constructor
  case keys => exact h.keys
  case sizes => exact h.sizes
  case tile => exact h.tile
  case wide =>
    intro s hs
    rcases mem_append.1 hs with hs | hs
    · exact h.wide s (mem_append_left _ hs)
    · rcases Table.mem_values_set hs with rfl | hs
      · exact hwide
      · exact h.wide s (mem_append_right _ hs)
  case below =>
    refine ⟨show 0 ≤ f.localsSize + widthOf sym by omega, fun s hs => ?_⟩
    change -(f.localsSize + widthOf sym) ≤ s.offset ∧ _
    rcases Table.mem_values_set hs with rfl | hs
    · exact ⟨Int.le_refl _, show -(f.localsSize + widthOf sym) + widthOf sym ≤ 0 by omega⟩
    · have := hbelow s hs
      omega
  case apart =>
    -- The new slot ends where the frame ended so far.
    refine Table.pairwise_set (fun s hs => ?_) h.apart
    have := hbelow s hs
    have hend : -(f.localsSize + widthOf sym) + widthOf sym ≤ s.offset := by omega
    exact ⟨.inl hend, .inr hend⟩

/-- Frames are laid out after any sequence of entries. -/
lemma laid_foldl (es : List Entry) (h : f.Laid params) (hwide : ∀ e ∈ es, 0 < widthOf e.symbol)
    (hnames : ((params ++ es.filterMap Entry.param?).map (·.name)).Nodup) :
    (es.foldl place f).Laid (params ++ es.filterMap Entry.param?) := by
  induction es generalizing f params with
  | nil => simpa using h
  | cons e es ih =>
    obtain ⟨he, hes⟩ := forall_mem_cons.1 hwide
    cases e with
    | param sym =>
      have hspl : params ++ (Entry.param sym :: es).filterMap Entry.param? =
          (params ++ [sym]) ++ es.filterMap Entry.param? := by
        simp [Entry.param?]
      rw [hspl] at hnames ⊢
      refine ih (h.addParam (fun hmem => ?_) he) hes hnames
      rw [map_append, map_append] at hnames
      exact (nodup_append.1 (nodup_append.1 hnames).1).2.2 _ hmem _ (by simp) rfl
    | «local» sym => exact ih (h.addLocal he) hes hnames

lemma least_multiple (n : Int) : 8 ∣ (alignTo? n 8).getD 0 ∧ n ≤ (alignTo? n 8).getD 0 ∧
      ∀ m, 8 ∣ m → n ≤ m → (alignTo? n 8).getD 0 ≤ m := by
  have hmod : n.fmod 8 = n % 8 := Int.fmod_eq_emod_of_nonneg n (by decide)
  simp only [alignTo?, hmod, if_neg (show ¬(8 : Int) = 0 by decide), Option.getD_some]
  split <;> refine ⟨by omega, by omega, fun m hm hn => by omega⟩

/-- The parameters fill the bytes from offset 8 on in the order in which they were placed, the local
    variables that are recorded lie in the frame below offset 0, no two slots overlap, and the frame
    takes up the least multiple of eight bytes that has room for the locals and two words. -/
theorem slots_do_not_overlap (function : String) (es : List Entry)
    (hwide : ∀ e ∈ es, 0 < widthOf e.symbol)
    (hnames : ((es.filterMap Entry.param?).map (·.name)).Nodup) (f : Frame)
    (hf : f = ofEntries function es) :
    f.params.keys = (es.filterMap Entry.param?).map (·.name) ∧
      f.params.values.map (·.size) = (es.filterMap Entry.param?).map widthOf ∧
      Slot.Tile 8 f.params.values (8 + f.paramsSize) ∧
      (∀ s ∈ f.locals.values, -f.localsSize ≤ s.offset ∧ s.offset + s.size ≤ 0) ∧
      (f.params.values ++ f.locals.values).Pairwise Slot.Apart ∧
      (8 ∣ f.frameSize ∧ f.localsSize + 8 ≤ f.frameSize ∧
        ∀ m, 8 ∣ m → f.localsSize + 8 ≤ m → f.frameSize ≤ m) := by
  subst hf
  have hst : (Frame.empty function).Laid [] :=
    ⟨rfl, rfl, rfl, List.forall_mem_nil _, ⟨Int.le_refl 0, List.forall_mem_nil _⟩, .nil⟩
  have hlaid := laid_foldl es hst hwide hnames
  rw [List.nil_append] at hlaid
  obtain ⟨habove, happ⟩ := hlaid.tile.apart fun s hs => hlaid.wide s (List.mem_append_left _ hs)
  refine ⟨hlaid.keys, hlaid.sizes, hlaid.tile, hlaid.below.2,
    List.pairwise_append.2 ⟨happ, hlaid.apart, fun s hs t ht => .inr ?_⟩, least_multiple _⟩
  have := habove s hs
  have := (hlaid.below.2 t ht).2
  omega

/-- A local variable that is declared a second time between two parameters. -/
def interleaved : List Entry :=
  [.local (.ofVariable "x" .integer false true), .param (.ofParameter "a" .integer),
    .local ⟨"x", .string, ⟨none, some 8, none, none⟩, .variable false false true (-1)⟩,
    .param (.ofParameter "b" .boolean)]

theorem slots_do_not_overlap_interleaved :
    (ofEntries "f" interleaved).locals.values = [⟨8, -12⟩] ∧
      Slot.Tile 8 (ofEntries "f" interleaved).params.values 16 ∧
      ((ofEntries "f" interleaved).params.values ++
        (ofEntries "f" interleaved).locals.values).Pairwise Slot.Apart :=
  have h := slots_do_not_overlap "f" interleaved (by decide) (by decide) _ rfl
  ⟨by decide, h.2.2.1, h.2.2.2.2.1⟩

end Frame

end Compiscript
