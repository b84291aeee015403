import Ossim.Caller
import Ossim.Lib.Scanf

set_option autoImplicit false

/-! # Process files (`loader.c`)

`load` reads the priority of a process and the number of its instructions, and then one instruction
after the other: the opcode as a word, and the operands with the format of the opcode or out of a line.
Words and lines go through buffers on the stack. Of files that are not `IsBytes` nothing is said. The
process that `load` makes of a file is `Ossim.load`. -/

namespace Ossim.Loader

open Scanf

/-! ## Opcodes -/

def optCalc : Text := "calc".toList
def optAlloc : Text := "alloc".toList
def optFree : Text := "free".toList
def optRead : Text := "read".toList
def optWrite : Text := "write".toList
def optSyscall : Text := "syscall".toList
def optKmalloc : Text := "kmalloc".toList
def optKmemCacheCreate : Text := "kmem_cache_create".toList
def optKmemCacheAlloc : Text := "kmem_cache_alloc".toList
def optCopyFromUser : Text := "copy_from_user".toList
def optCopyToUser : Text := "copy_to_user".toList

/-- `get_opcode`; `none` is its `exit(1)`. -/
def getOpcode (opt : Text) : Option InsOpcode :=
  if opt = optCalc then some .calc
  else if opt = optAlloc then some .alloc
  else if opt = optFree then some .free
  else if opt = optRead then some .read
  else if opt = optWrite then some .write
  else if opt = optKmalloc then some .kmalloc
  else if opt = optKmemCacheCreate then some .kmemCacheCreate
  else if opt = optKmemCacheAlloc then some .kmemCacheAlloc
  else if opt = optCopyFromUser then some .copyFromUser
  else if opt = optCopyToUser then some .copyToUser
  else if opt = optSyscall then some .syscall
  else none

/-! ## Memory -/

/-- `char opcode[10]` -/
def opcodeSz : ℕ := 10

/-- `char buf[200]` -/
def bufSz : ℕ := 200

/-- What the memory of `load` holds before it is set: the buffers, as strings, and what it gets from
    `malloc`. -/
structure LoadMem where
  opcode : Text
  buf : Text
  priority : ℕ
  size : ℕ
  text : ℕ → Inst

/-- How `load` can end without a process: with `exit(1)`, or beyond defined behaviour. -/
inductive LoadEnd where
  | exit
  | undefined
  deriving DecidableEq

theorem bind_eq_ok_iff {ε α β : Type*} {x : Except ε α} {f : α → Except ε β} {b : β} :
    x.bind f = .ok b ↔ ∃ a, x = .ok a ∧ f a = .ok b := by
  cases x with
  | error e => simp [Except.bind]
  | ok a => simp [Except.bind]

/-- The state of `load` while it reads instructions. -/
structure Loading where
  /-- what is left of the file -/
  file : Text
  opcode : Text
  buf : Text
  /-- For each word and line read, the latest first: the size of its buffer, and the size it has with
      its terminator. -/
  scanned : List (ℕ × ℕ)

/-! ## Instructions -/

/-- `fscanf(file, "%s", opcode)`. At the end of the file the buffer keeps what it has; a word that is
    too long for it is stored beyond it. -/
def scanOpcode (s : Loading) : Except LoadEnd Loading :=
  match scanWord s.file with
  | (none, file) => .ok { s with file := file }
  | (some w, file) =>
    if w.length + 1 ≤ opcodeSz then
      .ok { s with file := file, opcode := w, scanned := (opcodeSz, w.length + 1) :: s.scanned }
    else .error .undefined

/-- The numbers a scan has read go to `arg_0`, `arg_1` and so on. -/
def setArgs (slot : Inst) (vs : List ℕ) : Inst :=
  { slot with
    arg0 := vs[0]?.getD slot.arg0
    arg1 := vs[1]?.getD slot.arg1
    arg2 := vs[2]?.getD slot.arg2
    arg3 := vs[3]?.getD slot.arg3 }

/-- `fscanf` with `k` numbers, white space behind each. -/
def scanFields (k : ℕ) (slot : Inst) (s : Loading) : Except LoadEnd (Inst × Loading) :=
  match scanf (fields 64 k) s.file with
  | none => .error .undefined
  | some (vs, file) => .ok (setArgs slot vs, { s with file := file })

/-- `fgets(buf, sizeof(buf), file)` and the `sscanf` of four numbers. At the end of the file the buffer
    keeps what it has. -/
def scanLine (slot : Inst) (s : Loading) : Except LoadEnd (Inst × Loading) :=
  let r := takeLine (bufSz - 1) s.file
  let s := if r.1 = [] then s else { s with
    file := r.2
    buf := r.1
    scanned := (bufSz, (line s.file).length + 1) :: s.scanned }
  match scanf (numbers 64 4) s.buf with
  | none => .error .undefined
  | some (vs, _) => .ok (setArgs slot vs, s)

/-- The `switch` of `load`. -/
def scanOperands (op : InsOpcode) (slot : Inst) (s : Loading) : Except LoadEnd (Inst × Loading) :=
  match op with
  | .calc => .ok (slot, s)
  | .kmemCacheAlloc | .kmalloc | .alloc => scanFields 2 slot s
  | .free => scanFields 1 slot s
  | .kmemCacheCreate | .read | .write => scanFields 3 slot s
  | .copyFromUser | .copyToUser | .syscall => scanLine slot s

/-- The body of the loop, for the slot of `text` it fills. -/
def loadInst (slot : Inst) (s : Loading) : Except LoadEnd (Inst × Loading) := do
  let s ← scanOpcode s
  match getOpcode s.opcode with
  | none => .error .exit
  | some op => scanOperands op { slot with opcode := op } s

/-- The loop, from slot `i` on, `n` instructions left. -/
def loadLoop (mem : LoadMem) : (n i : ℕ) → Loading → Except LoadEnd (List Inst × Loading)
  | 0, _, s => .ok ([], s)
  | n + 1, i, s => do
    let (ins, s) ← loadInst (mem.text i) s
    let (code, s) ← loadLoop mem n (i + 1) s
    .ok (ins :: code, s)

/-- What `load` has read: `proc->priority` and `proc->code`, and what went through its buffers. -/
structure Loaded where
  priority : ℕ
  code : List Inst
  scanned : List (ℕ × ℕ)

/-- `load`, on the file that `fopen` opens. -/
def load (mem : LoadMem) (file : Option Text) : Except LoadEnd Loaded :=
  match file with
  | none => .error .exit
  | some file =>
    match scanf [.unsigned 32, .space, .unsigned 32] file with
    | none => .error .undefined
    | some (vs, file) => do
      let (code, s) ← loadLoop mem (vs[1]?.getD mem.size) 0 ⟨file, mem.opcode, mem.buf, []⟩
      .ok ⟨vs[0]?.getD mem.priority, code, s.scanned⟩

end Ossim.Loader
