import Mathlib.Data.List.Forall2
import Ossim.Loader.Printing

set_option autoImplicit false

/-! # What `load` accepts

Whatever is in a process file: if `load` comes to its end, no instruction is one of the four with a long
name, for the buffer of `load` never holds such a name. All other programs can be loaded. -/

namespace Ossim

open Scanf

/-- The operands fit their type. -/
def Inst.InRange (ins : Inst) : Prop := ∀ a ∈ [ins.arg0, ins.arg1, ins.arg2, ins.arg3], a < 2 ^ 64

instance (ins : Inst) : Decidable ins.InRange := inferInstanceAs (Decidable (∀ a ∈ _, _))

theorem Inst.InRange.operands {ins : Inst} (h : ins.InRange) : ∀ a ∈ ins.operands, a < 2 ^ 64 :=
  fun a ha => h a (List.mem_of_mem_take ha)

namespace Loader

/-- Memory `load` can start with: there is a string in its buffer, and the numbers have the ranges of
    their types. -/
structure LoadMem.Ok (mem : LoadMem) : Prop where
  opcode : mem.opcode.length + 1 ≤ opcodeSz
  priority : mem.priority < 2 ^ 32
  size : mem.size < 2 ^ 32
  text : ∀ i, (mem.text i).InRange

theorem zeroMem_ok : zeroMem.Ok :=
  ⟨by decide, by decide, by decide, fun _ => (by decide : Inst.InRange ⟨.calc, 0, 0, 0, 0⟩)⟩

/-- What a process file says, as far as `load` can read it back. -/
structure ProcText where
  priority : ℕ
  insts : List Inst
  priority_lt : priority < 2 ^ 32
  length_lt : insts.length < 2 ^ 32
  operands_lt : ∀ ins ∈ insts, ∀ a ∈ ins.operands, a < 2 ^ 64
  short : ∀ ins ∈ insts, ¬ LongName ins.opcode

/-- The file of a process. -/
def ProcText.print (p : ProcText) : Text := printProc p.priority p.insts

/-! ## Instructions -/

section Instruction

variable {slot ins : Inst} {s s' : Loading}

theorem or_of_ite_eq_some {p : Prop} [Decidable p] {a b : InsOpcode} {x : Option InsOpcode}
    (h : (if p then some a else x) = some b) : (p ∧ a = b) ∨ x = some b := by
  split at h
  · exact Or.inl ⟨‹p›, Option.some.inj h⟩
  · exact Or.inr h

theorem optName_of_getOpcode {opt : Text} {op : InsOpcode} (h : getOpcode opt = some op) :
    opt = optName op := by
  unfold getOpcode at h
  repeat
    obtain ⟨hopt, rfl⟩ | h := or_of_ite_eq_some h
    · exact hopt
  exact absurd h (by simp)

/-- The word in the buffer fits it. -/
theorem scanOpcode_ok (h : scanOpcode s = .ok s') (hs : s.opcode.length + 1 ≤ opcodeSz) :
    s'.opcode.length + 1 ≤ opcodeSz := by
  unfold scanOpcode at h
  split at h
  · obtain rfl := Except.ok.inj h
    exact hs
  · split at h
    · obtain rfl := Except.ok.inj h
      assumption
    · exact absurd h (by simp)

theorem setArgs_inRange (hslot : slot.InRange) {vs : List ℕ} (hvs : ∀ v ∈ vs, v < 2 ^ 64) :
    (setArgs slot vs).InRange := by
  have harg : ∀ (k : ℕ) {a : ℕ}, a < 2 ^ 64 → vs[k]?.getD a < 2 ^ 64 :=
    fun k _ => getElem?_getD_of_forall hvs k
  obtain ⟨h₀, h⟩ := List.forall_mem_cons.1 hslot
  obtain ⟨h₁, h⟩ := List.forall_mem_cons.1 h
  obtain ⟨h₂, h⟩ := List.forall_mem_cons.1 h
  have h₃ := List.forall_mem_singleton.1 h
  exact List.forall_mem_cons.2 ⟨harg 0 h₀, List.forall_mem_cons.2 ⟨harg 1 h₁,
    List.forall_mem_cons.2 ⟨harg 2 h₂, List.forall_mem_singleton.2 (harg 3 h₃)⟩⟩⟩

/-- The operands are read into a slot: its opcode and the word in the buffer stay. -/
structure Filled (slot : Inst) (s : Loading) (r : Inst × Loading) : Prop where
  opcode : r.1.opcode = slot.opcode
  inRange : r.1.InRange
  buffer : r.2.opcode = s.opcode

theorem scanFields_ok {k : ℕ} {r : Inst × Loading} (h : scanFields k slot s = .ok r)
    (hslot : slot.InRange) : Filled slot s r := by
  have hfields : ∀ (k b : ℕ), .unsigned b ∈ fields 64 k → b = 64 := by
    intro k b hb
    induction k with
    | zero => exact absurd hb List.not_mem_nil
    | succ k ih => simpa [fields, or_iff_left_of_imp ih] using hb
  unfold scanFields at h
  split at h
  · exact absurd h (by simp)
  · next vs file hscan =>
      obtain rfl := Except.ok.inj h
      exact ⟨rfl, setArgs_inRange hslot (scanf_lt (hfields k) hscan), rfl⟩

theorem scanLine_ok {r : Inst × Loading} (h : scanLine slot s = .ok r) (hslot : slot.InRange) :
    Filled slot s r := by
  unfold scanLine at h
  dsimp only at h
  split at h
  · exact absurd h (by simp)
  · next vs file hscan =>
      obtain rfl := Except.ok.inj h
      refine ⟨rfl, setArgs_inRange hslot (scanf_lt (fun b hb => by simpa [numbers] using hb) hscan), ?_⟩
      dsimp only
      split <;> rfl

theorem scanOperands_ok {op : InsOpcode} {r : Inst × Loading} (h : scanOperands op slot s = .ok r)
    (hslot : slot.InRange) : Filled slot s r := by
  cases op with
  | «calc» =>
      obtain rfl := Except.ok.inj h
      exact ⟨rfl, hslot, rfl⟩
  | alloc | kmalloc | kmemCacheAlloc => exact scanFields_ok h hslot
  | free => exact scanFields_ok h hslot
  | read | write | kmemCacheCreate => exact scanFields_ok h hslot
  | copyFromUser | copyToUser | syscall => exact scanLine_ok h hslot

/-- The body of the loop: the name of the opcode went through the buffer. -/
theorem loadInst_ok {r : Inst × Loading} (h : loadInst slot s = .ok r) (hslot : slot.InRange)
    (hs : s.opcode.length + 1 ≤ opcodeSz) :
    ¬ LongName r.1.opcode ∧ r.1.InRange ∧ r.2.opcode.length + 1 ≤ opcodeSz := by
  obtain ⟨s₁, hscan, h⟩ := bind_eq_ok_iff.1 h
  have hs₁ := scanOpcode_ok hscan hs
  cases hop : getOpcode s₁.opcode with
  | none =>
      rw [hop] at h
      exact absurd h (by simp)
  | some op =>
      rw [hop] at h
      have hfilled : Filled { slot with opcode := op } s₁ r := scanOperands_ok h hslot
      have hopcode : r.1.opcode = op := hfilled.opcode
      rw [hopcode, hfilled.buffer]
      refine ⟨?_, hfilled.inRange, hs₁⟩
      rw [optName_of_getOpcode hop] at hs₁
      exact (length_optName_le_iff op).1 hs₁

end Instruction

/-! ## Files -/

section File

variable {mem : LoadMem}

theorem loadLoop_ok (hmem : mem.Ok) {n i : ℕ} {s : Loading} {r : List Inst × Loading}
    (h : loadLoop mem n i s = .ok r) (hs : s.opcode.length + 1 ≤ opcodeSz) :
    r.1.length = n ∧ ∀ ins ∈ r.1, ¬ LongName ins.opcode ∧ ins.InRange := by
  induction n generalizing i s r with
  | zero =>
      obtain rfl := Except.ok.inj h
      exact ⟨rfl, fun _ hins => absurd hins List.not_mem_nil⟩
  | succ n ih =>
      obtain ⟨⟨ins, s₁⟩, hinst, h⟩ := bind_eq_ok_iff.1 h
      obtain ⟨⟨code, s₂⟩, hrest, h⟩ := bind_eq_ok_iff.1 h
      obtain rfl := Except.ok.inj h
      obtain ⟨hshort, hrange, hs₁⟩ := loadInst_ok hinst (hmem.text i) hs
      obtain ⟨hlen, hall⟩ := ih hrest hs₁
      exact ⟨by rw [List.length_cons, hlen], List.forall_mem_cons.2 ⟨⟨hshort, hrange⟩, hall⟩⟩

/-- What `load` has read is a program it can read back. -/
theorem load_ok (hmem : mem.Ok) {file : Option Text} {r : Loaded} (h : load mem file = .ok r) :
    r.priority < 2 ^ 32 ∧ r.code.length < 2 ^ 32 ∧ ∀ ins ∈ r.code, ¬ LongName ins.opcode ∧ ins.InRange := by
  unfold load at h
  split at h
  · exact absurd h (by simp)
  · split at h
    · exact absurd h (by simp)
    · next vs t hscan =>
        have hvs : ∀ v ∈ vs, v < 2 ^ 32 := scanf_lt (fun b hb => by simpa using hb) hscan
        have hnum : ∀ (k : ℕ) {d : ℕ}, d < 2 ^ 32 → vs[k]?.getD d < 2 ^ 32 :=
          fun k _ => getElem?_getD_of_forall hvs k
        obtain ⟨⟨code, s⟩, hloop, h⟩ := bind_eq_ok_iff.1 h
        obtain rfl := Except.ok.inj h
        obtain ⟨hlen, hall⟩ := loadLoop_ok hmem hloop hmem.opcode
        exact ⟨hnum 0 hmem.priority, hlen ▸ hnum 1 hmem.size, hall⟩

theorem load_print (mem : LoadMem) (p : ProcText) :
    ∃ r, load mem (some p.print) = .ok r ∧ r.priority = p.priority ∧
      List.Forall₂ Inst.Same p.insts r.code := by
  have hfile : skipSpace ('\n' :: printCode p.insts) = skipSpace (printCode p.insts) :=
    skipSpace_cons_newline _
  obtain ⟨⟨code, s⟩, hloop, hcode, -⟩ := loadLoop_of_short mem p.operands_lt p.short 0
    (s := ⟨'\n' :: printCode p.insts, mem.opcode, mem.buf, []⟩) hfile
    (fun _ h => absurd h List.not_mem_nil)
  refine ⟨⟨p.priority, code, s.scanned⟩, ?_, rfl, hcode⟩
  rw [load, ProcText.print, printProc, scanf_header p.priority_lt, if_pos p.length_lt]
  simp only [List.getElem?_cons_zero, List.getElem?_cons_succ, Option.getD_some, hloop]
  rfl

/-- **Loadable programs.** Some file loads as a program exactly if none of its instructions is one of the
    four with a long name, and its numbers have the ranges of their types. -/
theorem load_accepts_iff (hmem : mem.Ok) (priority : ℕ) (insts : List Inst) :
    (∃ file r, load mem (some file) = .ok r ∧ r.priority = priority ∧
      List.Forall₂ Inst.Same insts r.code) ↔
    priority < 2 ^ 32 ∧ insts.length < 2 ^ 32 ∧
      ∀ ins ∈ insts, ¬ LongName ins.opcode ∧ ∀ a ∈ ins.operands, a < 2 ^ 64 := by
  constructor
  · rintro ⟨file, r, h, rfl, hcode⟩
    obtain ⟨hprio, hlen, hall⟩ := load_ok hmem h
    refine ⟨hprio, hcode.length_eq ▸ hlen, fun ins hins => ?_⟩
    obtain ⟨k, hk, rfl⟩ := List.getElem_of_mem hins
    have hk' : k < r.code.length := hcode.length_eq ▸ hk
    obtain ⟨hop, hargs⟩ := hcode.get hk hk'
    obtain ⟨hshort, hrange⟩ := hall _ (List.getElem_mem hk')
    simp only [List.get_eq_getElem] at hop hargs
    rw [← hop, ← hargs]
    exact ⟨hshort, hrange.operands⟩
  · rintro ⟨hprio, hlen, hall⟩
    obtain ⟨r, hload, hsame⟩ := load_print mem ⟨priority, insts, hprio, hlen,
      fun ins hins => (hall ins hins).2, fun ins hins => (hall ins hins).1⟩
    exact ⟨_, r, hload, hsame⟩

/-- `input/proc/m2s` is not one of them, and no other file loads as it either. -/
theorem load_accepts_iff_m2s : ¬ ∃ file r, load zeroMem (some file) = .ok r ∧ r.priority = 1 ∧
    List.Forall₂ Inst.Same m2s r.code := by
  rw [load_accepts_iff zeroMem_ok]
  rintro ⟨-, -, hall⟩
  exact (hall ⟨.kmemCacheCreate, 300, 10, 1, 0⟩ (by decide)).1 (Or.inl rfl)

end File

end Loader

end Ossim
