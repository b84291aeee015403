import Mathlib.Data.List.Basic
import Ossim.Cpu
import Ossim.Loader

set_option autoImplicit false

/-! # Loading what was printed

A process printed the way the files under `input/proc` are written: the priority and the number of
instructions on the first line, and every instruction on a line of its own, the name of its opcode and
the operands it takes. `load` reads it back as long as the names of the opcodes fit the buffer for
them, which has room for nine characters; four of the names are longer. Where a scan leaves the text is
known up to white space, which the scan of the next opcode skips. -/

namespace Ossim

/-- The number of operands an opcode takes. -/
def InsOpcode.arity : InsOpcode → ℕ
  | .calc => 0
  | .free => 1
  | .alloc | .kmalloc | .kmemCacheAlloc => 2
  | .read | .write | .kmemCacheCreate => 3
  | .copyFromUser | .copyToUser | .syscall => 4

/-- The operands of an instruction, those its opcode takes. -/
def Inst.operands (ins : Inst) : List ℕ :=
  [ins.arg0, ins.arg1, ins.arg2, ins.arg3].take ins.opcode.arity

/-- The same opcode with the same operands: what an opcode does not take is not part of it. -/
structure Inst.Same (ins ins' : Inst) : Prop where
  opcode : ins'.opcode = ins.opcode
  operands : ins'.operands = ins.operands

theorem Inst.length_operands (ins : Inst) : ins.operands.length = ins.opcode.arity := by
  rw [operands, List.length_take]
  cases ins.opcode <;> rfl

/-- What an instruction does depends on its operands only. -/
theorem execInst_congr (host : Host) (c : Caller) {ins ins' : Inst} (h : ins.Same ins') :
    execInst host c ins' = execInst host c ins := by
  obtain ⟨op, a, b, d, e⟩ := ins
  obtain ⟨op', a', b', d', e'⟩ := ins'
  obtain ⟨hop, hargs⟩ := h
  simp only at hop
  subst hop
  cases op' <;> simp_all [Inst.operands, InsOpcode.arity, execInst]

namespace Loader

open Scanf

/-! ## Printing -/

/-- The name of an opcode. -/
def optName : InsOpcode → Text
  | .calc => optCalc
  | .alloc => optAlloc
  | .free => optFree
  | .read => optRead
  | .write => optWrite
  | .kmalloc => optKmalloc
  | .kmemCacheCreate => optKmemCacheCreate
  | .kmemCacheAlloc => optKmemCacheAlloc
  | .copyFromUser => optCopyFromUser
  | .copyToUser => optCopyToUser
  | .syscall => optSyscall

/-- The name is too long for the buffer of `load`. -/
def LongName (op : InsOpcode) : Prop :=
  op = .kmemCacheCreate ∨ op = .kmemCacheAlloc ∨ op = .copyFromUser ∨ op = .copyToUser

def printInst (ins : Inst) : Text := optName ins.opcode ++ (spaced ins.operands ++ ['\n'])

def printCode (insts : List Inst) : Text := insts.flatMap printInst

/-- The process file. -/
def printProc (priority : ℕ) (insts : List Inst) : Text :=
  decimal priority ++ (spaced [insts.length] ++ '\n' :: printCode insts)

/-- All words and lines fit the buffers they were read into. -/
def Fits (scanned : List (ℕ × ℕ)) : Prop := ∀ p ∈ scanned, p.2 ≤ p.1

/-- `load` has read the process back, through buffers that what it read fits into. -/
structure Loaded.ReadsBack (r : Loaded) (priority : ℕ) (insts : List Inst) : Prop where
  priority : r.priority = priority
  code : List.Forall₂ Inst.Same insts r.code
  fits : Fits r.scanned

/-! ## Names -/

theorem getOpcode_optName (op : InsOpcode) : getOpcode (optName op) = some op := by
  cases op <;> rfl

theorem optName_ne_nil (op : InsOpcode) : optName op ≠ [] := by cases op <;> decide

theorem isSpace_optName (op : InsOpcode) : ∀ c ∈ optName op, isSpace c = false := by
  have hall : (optName op).all (fun c => !isSpace c) = true := by cases op <;> rfl
  simpa using hall

theorem length_optName_le_iff (op : InsOpcode) :
    (optName op).length + 1 ≤ opcodeSz ↔ ¬ LongName op := by
  unfold LongName
  cases op <;> decide

theorem isBytes_optName (op : InsOpcode) : IsBytes (optName op) := by
  have hall : (optName op).all (fun c => decide (0 < c.toNat ∧ c.toNat < 2 ^ 8)) = true := by
    cases op <;> rfl
  intro c hc
  exact of_decide_eq_true (List.all_eq_true.1 hall c hc)

/-- What is printed is a file. -/
theorem isBytes_printProc (priority : ℕ) (insts : List Inst) : IsBytes (printProc priority insts) := by
  have hcode : IsBytes (printCode insts) := by
    refine isBytes_flatMap fun ins _ => ?_
    rw [printInst, isBytes_append, isBytes_append, isBytes_cons_newline]
    exact ⟨isBytes_optName _, isBytes_spaced _, isBytes_nil⟩
  rw [printProc, isBytes_append, isBytes_append, isBytes_cons_newline]
  exact ⟨isBytes_decimal _, isBytes_spaced _, hcode⟩

/-! ## One instruction -/

section Instruction

variable {ins slot : Inst} {s : Loading} {t : Text}

/-- The next word of a printed instruction is the name of its opcode. -/
theorem scanWord_print {file : Text} (hfile : skipSpace file = skipSpace (printInst ins ++ t)) :
    scanWord file = (some (optName ins.opcode), spaced ins.operands ++ '\n' :: t) := by
  rw [← scanWord_skipSpace, hfile, scanWord_skipSpace, printInst, List.append_assoc,
    List.append_assoc, List.singleton_append]
  exact scanWord_append (optName_ne_nil _) (isSpace_optName _)
    (spaceAhead_spaced _ ⟨'\n', t, rfl, by decide⟩)

/-- An opcode whose name fits. -/
theorem scanOpcode_of_short (hfile : skipSpace s.file = skipSpace (printInst ins ++ t))
    (hshort : ¬ LongName ins.opcode) :
    scanOpcode s = .ok { s with
      file := spaced ins.operands ++ '\n' :: t
      opcode := optName ins.opcode
      scanned := (opcodeSz, (optName ins.opcode).length + 1) :: s.scanned } := by
  rw [scanOpcode, scanWord_print hfile]
  simp only
  rw [if_pos ((length_optName_le_iff _).2 hshort)]

/-- One that is too long goes beyond the buffer. -/
theorem scanOpcode_of_long (hfile : skipSpace s.file = skipSpace (printInst ins ++ t))
    (hlong : LongName ins.opcode) : scanOpcode s = .error .undefined := by
  rw [scanOpcode, scanWord_print hfile]
  simp only
  rw [if_neg (mt (length_optName_le_iff _).1 (not_not_intro hlong))]

/-- The operands of a printed instruction have been read. -/
structure OperandsRead (ins : Inst) (t : Text) (r : Inst × Loading) : Prop where
  same : ins.Same r.1
  file : skipSpace r.2.file = skipSpace t
  fits : Fits r.2.scanned

theorem setArgs_same (hop : slot.opcode = ins.opcode) : ins.Same (setArgs slot ins.operands) := by
  obtain ⟨op, a, b, d, e⟩ := ins
  simp only at hop
  refine ⟨hop, ?_⟩
  rw [Inst.operands, show (setArgs slot _).opcode = op from hop]
  cases op <;> rfl

theorem scanFields_print (hop : slot.opcode = ins.opcode)
    (hargs : ∀ a ∈ ins.operands, a < 2 ^ 64) {k : ℕ} (hk : ins.opcode.arity = k + 1)
    (hfile : s.file = spaced ins.operands ++ '\n' :: t) (hfits : Fits s.scanned) :
    ∃ r, scanFields (k + 1) slot s = .ok r ∧ OperandsRead ins t r := by
  have hahead : SpaceAhead ('\n' :: t) := ⟨'\n', t, rfl, by decide⟩
  have hscan : scanf (fields 64 (k + 1)) s.file = some (ins.operands, skipSpace t) := by
    have hread := scanf_fields hargs hahead
    rw [ins.length_operands, hk, fields, scanf_unsigned_skipSpace, skipSpace_cons_newline] at hread
    rw [hfile, fields, hread]
  refine ⟨(setArgs slot ins.operands, { s with file := skipSpace t }), ?_, setArgs_same hop, ?_, hfits⟩
  · rw [scanFields, hscan]
  · exact skipSpace_skipSpace t

theorem scanLine_print (hop : slot.opcode = ins.opcode)
    (hargs : ∀ a ∈ ins.operands, a < 2 ^ 64) (hfour : ins.opcode.arity = 4)
    (hfile : s.file = spaced ins.operands ++ '\n' :: t) (hfits : Fits s.scanned) :
    ∃ r, scanLine slot s = .ok r ∧ OperandsRead ins t r := by
  -- four numbers of at most 20 digits, each behind a space
  have hshort : (spaced ins.operands).length ≤ 84 := by
    have hlen := length_spaced_le (k := 20) (by decide)
      (fun a ha => Nat.lt_trans (hargs a ha) (by decide))
    rw [ins.length_operands, hfour] at hlen
    exact hlen
  have hnl := newline_not_mem_spaced ins.operands
  have hline : takeLine (bufSz - 1) s.file = (spaced ins.operands ++ ['\n'], t) := by
    rw [hfile]
    exact takeLine_append hnl (by unfold bufSz; omega) t
  have hwhole : line s.file = spaced ins.operands ++ ['\n'] := by
    rw [hfile]
    exact line_append hnl t
  have hahead : SpaceAhead ['\n'] := ⟨'\n', [], rfl, by decide⟩
  have hscan : scanf (numbers 64 4) (spaced ins.operands ++ ['\n']) = some (ins.operands, ['\n']) := by
    have hread := scanf_numbers hargs hahead
    rwa [ins.length_operands, hfour] at hread
  refine ⟨(setArgs slot ins.operands, { s with
    file := t
    buf := spaced ins.operands ++ ['\n']
    scanned := (bufSz, (spaced ins.operands ++ ['\n']).length + 1) :: s.scanned }), ?_,
    setArgs_same hop, rfl, ?_⟩
  · rw [scanLine, hline, hwhole]
    simp only [List.append_eq_nil_iff, List.cons_ne_self, and_false, if_false, hscan]
  · refine List.forall_mem_cons.2 ⟨?_, hfits⟩
    simp only [List.length_append, List.length_singleton, bufSz]
    omega

theorem scanOperands_print (hop : slot.opcode = ins.opcode)
    (hargs : ∀ a ∈ ins.operands, a < 2 ^ 64)
    (hfile : s.file = spaced ins.operands ++ '\n' :: t) (hfits : Fits s.scanned) :
    ∃ r, scanOperands ins.opcode slot s = .ok r ∧ OperandsRead ins t r := by
  cases hcase : ins.opcode with
  | «calc» =>
      have hnone : ins.operands = [] := by simp [Inst.operands, hcase, InsOpcode.arity]
      have hsame := setArgs_same hop
      rw [hnone] at hsame
      refine ⟨(slot, s), rfl, hsame, ?_, hfits⟩
      rw [hfile, hnone, spaced_nil, List.nil_append, skipSpace_cons_newline]
  | free => exact scanFields_print hop hargs (by rw [hcase]; rfl) hfile hfits
  | alloc | kmalloc | kmemCacheAlloc =>
      exact scanFields_print hop hargs (by rw [hcase]; rfl) hfile hfits
  | read | write | kmemCacheCreate =>
      exact scanFields_print hop hargs (by rw [hcase]; rfl) hfile hfits
  | copyFromUser | copyToUser | syscall =>
      exact scanLine_print hop hargs (by rw [hcase]; rfl) hfile hfits

theorem loadInst_of_short (slot : Inst) (hargs : ∀ a ∈ ins.operands, a < 2 ^ 64)
    (hfile : skipSpace s.file = skipSpace (printInst ins ++ t)) (hfits : Fits s.scanned)
    (hshort : ¬ LongName ins.opcode) :
    ∃ r, loadInst slot s = .ok r ∧ OperandsRead ins t r := by
  rw [loadInst, scanOpcode_of_short hfile hshort]
  simp only [bind, Except.bind, getOpcode_optName]
  have hop : ({ slot with opcode := ins.opcode } : Inst).opcode = ins.opcode := rfl
  exact scanOperands_print hop hargs rfl
    (List.forall_mem_cons.2 ⟨(length_optName_le_iff _).2 hshort, hfits⟩)

theorem loadInst_of_long (slot : Inst) (hfile : skipSpace s.file = skipSpace (printInst ins ++ t))
    (hlong : LongName ins.opcode) : loadInst slot s = .error .undefined := by
  rw [loadInst, scanOpcode_of_long hfile hlong]
  rfl

end Instruction

/-! ## The loop -/

section Loop

variable (mem : LoadMem)

theorem loadLoop_of_short {insts : List Inst} (hargs : ∀ ins ∈ insts, ∀ a ∈ ins.operands, a < 2 ^ 64)
    (hshort : ∀ ins ∈ insts, ¬ LongName ins.opcode) (i : ℕ) {s : Loading}
    (hfile : skipSpace s.file = skipSpace (printCode insts)) (hfits : Fits s.scanned) :
    ∃ r, loadLoop mem insts.length i s = .ok r ∧ List.Forall₂ Inst.Same insts r.1 ∧
      Fits r.2.scanned := by
  induction insts generalizing i s with
  | nil => exact ⟨([], s), rfl, List.Forall₂.nil, hfits⟩
  | cons ins insts ih =>
      obtain ⟨hargs₁, hargs⟩ := List.forall_mem_cons.1 hargs
      obtain ⟨hshort₁, hshort⟩ := List.forall_mem_cons.1 hshort
      obtain ⟨⟨ins', s'⟩, hload, hread⟩ := loadInst_of_short (mem.text i) hargs₁ hfile hfits hshort₁
      obtain ⟨⟨code, s''⟩, hloop, hcode, hfits'⟩ := ih hargs hshort (i + 1) hread.file hread.fits
      refine ⟨(ins' :: code, s''), ?_, List.Forall₂.cons hread.same hcode, hfits'⟩
      rw [List.length_cons, loadLoop, hload]
      simp only [bind, Except.bind, hloop]

/-- The loop gets to the first name that is too long. -/
theorem loadLoop_of_long {insts : List Inst} (hargs : ∀ ins ∈ insts, ∀ a ∈ ins.operands, a < 2 ^ 64)
    (hlong : ∃ ins ∈ insts, LongName ins.opcode) (i : ℕ) {s : Loading}
    (hfile : skipSpace s.file = skipSpace (printCode insts)) (hfits : Fits s.scanned) :
    loadLoop mem insts.length i s = .error .undefined := by
  induction insts generalizing i s with
  | nil =>
      obtain ⟨ins, hmem, -⟩ := hlong
      exact absurd hmem List.not_mem_nil
  | cons ins insts ih =>
      obtain ⟨hargs₁, hargs⟩ := List.forall_mem_cons.1 hargs
      rw [List.length_cons, loadLoop]
      by_cases hlong₁ : LongName ins.opcode
      · rw [loadInst_of_long (mem.text i) hfile hlong₁]
        rfl
      · have hlong' : ∃ ins ∈ insts, LongName ins.opcode :=
          (List.or_exists_of_exists_mem_cons hlong).resolve_left hlong₁
        obtain ⟨⟨ins', s'⟩, hload, hread⟩ := loadInst_of_short (mem.text i) hargs₁ hfile hfits hlong₁
        rw [hload]
        simp only [bind, Except.bind, ih hargs hlong' (i + 1) hread.file hread.fits]

end Loop

/-! ## The file -/

/-- The first line: a number of instructions that does not fit `code->size` is undefined. -/
theorem scanf_header {priority : ℕ} (hprio : priority < 2 ^ 32) (n : ℕ) (t : Text) :
    scanf [.unsigned 32, .space, .unsigned 32] (decimal priority ++ (spaced [n] ++ '\n' :: t)) =
      if n < 2 ^ 32 then some ([priority, n], '\n' :: t) else none := by
  have hahead : SpaceAhead ('\n' :: t) := ⟨'\n', t, rfl, by decide⟩
  have hfirst := scanUnsigned_decimal 32 priority (spaceAhead_head (spaceAhead_spaced [n] hahead))
  have hsecond := scanUnsigned_decimal 32 n (spaceAhead_head hahead)
  rw [if_pos hprio] at hfirst
  rw [scanf, hfirst]
  simp only
  rw [scanf, scanf_unsigned_skipSpace, scanf, ← scanUnsigned_skipSpace, spaced_cons, spaced_nil,
    List.append_nil, List.cons_append, skipSpace_cons_space, scanUnsigned_skipSpace, hsecond]
  by_cases hn : n < 2 ^ 32
  · simp only [if_pos hn, scanf, Option.map_some]
  · simp only [if_neg hn, Option.map_none]

/-- **Loading undoes printing** exactly if no instruction has one of the four long names and their
    number fits `code->size`. -/
theorem load_printProc_iff (mem : LoadMem) {priority : ℕ} (hprio : priority < 2 ^ 32)
    {insts : List Inst} (hargs : ∀ ins ∈ insts, ∀ a ∈ ins.operands, a < 2 ^ 64) :
    (∃ r, load mem (some (printProc priority insts)) = .ok r ∧ r.ReadsBack priority insts) ↔
      insts.length < 2 ^ 32 ∧ ∀ ins ∈ insts, ¬ LongName ins.opcode := by
  rw [load, printProc, scanf_header hprio]
  by_cases hlen : insts.length < 2 ^ 32
  · rw [if_pos hlen]
    simp only [List.getElem?_cons_zero, List.getElem?_cons_succ, Option.getD_some, hlen, true_and]
    have hfile : skipSpace ('\n' :: printCode insts) = skipSpace (printCode insts) :=
      skipSpace_cons_newline _
    constructor
    · rintro ⟨r, hload, -⟩ ins hmem hlong
      rw [loadLoop_of_long mem hargs ⟨ins, hmem, hlong⟩ 0 hfile
        (fun _ h => absurd h List.not_mem_nil)] at hload
      exact absurd hload (by simp [bind, Except.bind])
    · intro hshort
      obtain ⟨⟨code, s⟩, hloop, hcode, hfits⟩ := loadLoop_of_short mem hargs hshort 0
        (s := ⟨'\n' :: printCode insts, mem.opcode, mem.buf, []⟩) hfile
        (fun _ h => absurd h List.not_mem_nil)
      refine ⟨⟨priority, code, s.scanned⟩, ?_, rfl, hcode, hfits⟩
      rw [hloop]
      rfl
  · rw [if_neg hlen]
    refine iff_of_false ?_ fun h => hlen h.1
    rintro ⟨r, hload, -⟩
    exact absurd hload (by simp)

/-- `input/proc/m2s` -/
def m2s : List Inst :=
  [⟨.alloc, 300, 0, 0, 0⟩, ⟨.alloc, 100, 1, 0, 0⟩, ⟨.free, 0, 0, 0, 0⟩, ⟨.kmalloc, 200, 2, 0, 0⟩,
    ⟨.kmemCacheCreate, 300, 10, 1, 0⟩, ⟨.kmemCacheAlloc, 3, 1, 0, 0⟩, ⟨.copyFromUser, 1, 4, 0, 3⟩,
    ⟨.kmalloc, 200, 4, 0, 0⟩, ⟨.copyToUser, 3, 4, 0, 3⟩, ⟨.free, 2, 0, 0, 0⟩, ⟨.free, 1, 0, 0, 0⟩,
    ⟨.free, 3, 0, 0, 0⟩]

def zeroMem : LoadMem := ⟨[], [], 0, 0, fun _ => ⟨.calc, 0, 0, 0, 0⟩⟩

/-- It does not come through `load`: the name of its fifth instruction does not fit. -/
theorem load_m2s_undefined :
    ¬ ∃ r, load zeroMem (some (printProc 1 m2s)) = .ok r ∧ r.ReadsBack 1 m2s := by
  have hload : load zeroMem (some (printProc 1 m2s)) = .error .undefined := by rfl
  rintro ⟨r, hok, -⟩
  exact absurd (hload.symm.trans hok) (by simp)

/-- Its instructions with short names do. -/
theorem load_short_m2s :
    ∃ r, load zeroMem (some (printProc 1 (m2s.take 4 ++ m2s.drop 9))) = .ok r ∧
      r.ReadsBack 1 (m2s.take 4 ++ m2s.drop 9) :=
  (load_printProc_iff zeroMem (by decide) (by decide)).2
    ⟨by decide, by unfold LongName; decide⟩

end Loader

end Ossim
