import FrontEnd.Code.Basic
import Mathlib.Data.List.Range

/-!
# Code in single-assignment form

The slots of a function are its parameters, and then one slot for each instruction that has
an output, in order.  So every slot is written once, and every operand is written before it is
read.

`SingleAssignment` says this of finished code.  `Numbered` says it of code in the making, one
instruction at a time, with the number of the next slot.

## Main definitions

* `SingleAssignment n code`: code of a function with `n` parameters.
* `Numbered n code next`: code that has used the slots up to `next`.

## Main statements

* `Numbered.singleAssignment`: numbered code that ends in a return is in single-assignment form.
-/

namespace FrontEnd.Code

/-- The slot that an instruction writes. -/
def Instr.output? : Instr → Option Nat
  | .move _ output | .load _ output | .binary _ _ _ output => some output
  | .call _ _ output => output
  | .ret _ => none

/-- The operands that an instruction reads. -/
def Instr.operands : Instr → List Operand
  | .move value _ => [value]
  | .load _ _ => []
  | .binary _ lhs rhs _ => [lhs, rhs]
  | .call _ arguments _ => arguments
  | .ret value => value.toList

/-- A slot is a parameter, or an instruction before place `i` writes it. -/
def WrittenBefore (n : Nat) (code : List Instr) (i slot : Nat) : Prop :=
  slot < n ∨ ∃ (j : Nat) (earlier : Instr), j < i ∧ code[j]? = some earlier ∧
    earlier.output? = some slot

/-- Code of a function with `n` parameters in which every slot is written once, in order, and
before it is read. -/
structure SingleAssignment (n : Nat) (code : List Instr) : Prop where
  /-- The outputs are the slots after the parameters, one after the other. -/
  outputs : code.filterMap Instr.output? =
    List.range' n (code.filterMap Instr.output?).length
  /-- A slot that is read is a parameter or an earlier output. -/
  reads : ∀ {i : Nat} {instr : Instr} {slot : Nat}, code[i]? = some instr →
    .slot slot ∈ instr.operands → WrittenBefore n code i slot
  /-- No function is an operand. -/
  values : ∀ instr ∈ code, ∀ index, Operand.function index ∉ instr.operands
  /-- The last instruction is a return. -/
  returns : ∃ value, code.getLast? = some (.ret value)

/-- A slot is still written before a place when more code follows. -/
theorem WrittenBefore.append {n i slot : Nat} {code : List Instr} (h : WrittenBefore n code i slot)
    (hi : i ≤ code.length) (more : List Instr) : WrittenBefore n (code ++ more) i slot := by
  refine h.imp id fun ⟨j, earlier, hj, hearlier, hout⟩ => ⟨j, earlier, hj, ?_, hout⟩
  rw [List.getElem?_append_left (Nat.lt_of_lt_of_le hj hi), hearlier]

/-! ## Code in the making -/

/-- An operand may be read where the slots before `next` are written. -/
def Operand.Available (next : Nat) : Operand → Prop
  | .slot index => index < next
  | .const _ | .void => True
  | .function _ => False

theorem Operand.Available.mono {next next' : Nat} {op : Operand} (h : op.Available next)
    (hle : next ≤ next') : op.Available next' := by
  cases op with
  | slot index => exact Nat.lt_of_lt_of_le h hle
  | const value => trivial
  | function index => exact h
  | void => trivial

/-- An instruction takes the next slot for its output, if it has one. -/
def Instr.Takes (instr : Instr) (next next' : Nat) : Prop :=
  instr.output? = some next ∧ next' = next + 1 ∨ instr.output? = none ∧ next' = next

/-- Code that has used the slots from `n` on up to `next`. -/
inductive Numbered (n : Nat) : List Instr → Nat → Prop
  | nil : Numbered n [] n
  | snoc {code next next' instr} : Numbered n code next →
      (∀ op ∈ instr.operands, op.Available next) → instr.Takes next next' →
      Numbered n (code ++ [instr]) next'

namespace Numbered

variable {n next : Nat} {code : List Instr}

/-- The outputs are the slots that are used, in order. -/
theorem filterMap_output? (h : Numbered n code next) :
    code.filterMap Instr.output? = List.range' n (next - n) ∧ n ≤ next := by
  induction h with
  | nil => simp
  | @snoc code next next' instr _ _ htakes ih =>
    obtain ⟨houtputs, hle⟩ := ih
    rcases htakes with ⟨hout, rfl⟩ | ⟨hout, rfl⟩
    · refine ⟨?_, Nat.le_succ_of_le hle⟩
      have hlength : next + 1 - n = (next - n) + 1 := by omega
      have hlast : n + (next - n) = next := by omega
      rw [List.filterMap_append, houtputs, hlength, List.range'_1_concat, hlast]
      simp [hout]
    · rw [List.filterMap_append, houtputs]
      simp [hout, hle]

/-- Every slot that is used is written. -/
theorem writtenBefore (h : Numbered n code next) {slot : Nat} (hslot : slot < next) :
    WrittenBefore n code code.length slot := by
  by_cases hparameter : slot < n
  · exact .inl hparameter
  · right
    have hmem : slot ∈ code.filterMap Instr.output? := by
      rw [h.filterMap_output?.1, List.mem_range'_1]
      omega
    obtain ⟨earlier, hearlier, hout⟩ := List.mem_filterMap.mp hmem
    obtain ⟨j, hj, hget⟩ := List.getElem_of_mem hearlier
    exact ⟨j, earlier, hj, by rw [List.getElem?_eq_getElem hj, hget], hout⟩

/-- What an instruction reads is written before it. -/
theorem reads (h : Numbered n code next) {i slot : Nat} {instr : Instr}
    (hget : code[i]? = some instr) (hread : .slot slot ∈ instr.operands) :
    WrittenBefore n code i slot := by
  induction h generalizing i instr with
  | nil => simp at hget
  | @snoc code next next' new hcode havailable _ ih =>
    by_cases hi : i < code.length
    · rw [List.getElem?_append_left hi] at hget
      exact (ih hget hread).append (Nat.le_of_lt hi) [new]
    · have hlength := (List.getElem?_eq_some_iff.mp hget).1
      rw [List.length_append, List.length_singleton] at hlength
      obtain rfl : i = code.length := by omega
      rw [List.getElem?_concat_length] at hget
      obtain rfl := Option.some.inj hget
      exact (hcode.writtenBefore (havailable _ hread)).append (Nat.le_refl _) [new]

theorem function_not_mem (h : Numbered n code next) :
    ∀ instr ∈ code, ∀ index, Operand.function index ∉ instr.operands := by
  induction h with
  | nil => simp
  | snoc _ havailable _ ih =>
    intro instr hmem index hread
    rcases List.mem_append.mp hmem with hmem | hmem
    · exact ih instr hmem index hread
    · rw [List.mem_singleton.mp hmem] at hread
      exact havailable _ hread

/-- Numbered code that ends in a return is in single-assignment form. -/
theorem singleAssignment (h : Numbered n code next)
    (hreturn : ∃ value, code.getLast? = some (.ret value)) : SingleAssignment n code where
  outputs := by
    rw [h.filterMap_output?.1, List.length_range']
  reads := h.reads
  values := h.function_not_mem
  returns := hreturn

theorem append {code' : List Instr} {next' : Nat} (h : Numbered n code next)
    (h' : Numbered next code' next') : Numbered n (code ++ code') next' := by
  induction h' with
  | nil => simpa using h
  | snoc _ havailable htakes ih =>
    rw [← List.append_assoc]
    exact ih.snoc havailable htakes

/-- A return may be appended. -/
theorem ret (h : Numbered n code next) : Numbered n (code ++ [.ret none]) next :=
  h.snoc (by simp [Instr.operands]) (.inr ⟨rfl, rfl⟩)

end Numbered

end FrontEnd.Code
