import Mathlib.Data.Nat.Bitwise
import Mathlib.Tactic.Common
import Ossim.Lib.Radix

set_option autoImplicit false

/-! # Configuration constants and C integers

The constants of `os-cfg.h`, `os-mm.h`, `mm.h`, `mm64.h`, `common.h` and `queue.h`, for the
configuration the repository builds: `MLQ_SCHED`, `MM_PAGING` and `MM64` defined.

Addresses, sizes, page and frame numbers (`addr_t`, `arg_t`, `uint32_t`) are natural numbers; where
the C code can wrap or narrow, the conversion is written out with the functions below. -/

namespace Ossim

/-! ## Constants -/

/-- `PAGING_PAGESZ`, the page size of the 32-bit layout. -/
def pagingPagesz : ℕ := 256

/-- `PAGING64_PAGESZ`, the page size of the 64-bit layout. -/
def paging64Pagesz : ℕ := 4096

/-- `PAGING64_DIR_ENTRIES`, the slots of a page directory. -/
def paging64DirEntries : ℕ := 512

/-- `PAGING_MAX_PGN`, the pages of the 32-bit layout: a 22-bit bus in pages of 256 bytes. -/
def pagingMaxPgn : ℕ := 2 ^ 22 / pagingPagesz

def pagingMaxSymtblSz : ℕ := 30

def pagingMaxKcachePools : ℕ := 100

def maxPrio : ℕ := 140

def maxQueueSize : ℕ := 50

/-- `PID_MAX`, the number of slots of `proc_table`. -/
def pidMax : ℕ := 255

/-- The number of general registers of a process (`regs[10]`). -/
def numRegs : ℕ := 10

/-! ## Integers -/

/-- `BYTE`, a C `char`. -/
abbrev Byte := BitVec 8

/-- Arithmetic on `addr_t` wraps at 64 bits. -/
def addrT (n : ℕ) : ℕ := n % 2 ^ 64

/-- `(uint32_t)n` -/
def uint32 (n : ℕ) : ℕ := n % 2 ^ 32

/-- `(int)n` -/
def cInt (n : ℕ) : ℤ := (BitVec.ofNat 32 n).toInt

/-- `(addr_t)(int)n`: narrowed to an `int`, then sign-extended. -/
def addrOfInt (n : ℕ) : ℕ := ((BitVec.ofNat 32 n).signExtend 64).toNat

/-- `(addr_t)(BYTE)b`, sign-extended as `char` is signed. -/
def addrOfByte (b : Byte) : ℕ := (b.signExtend 64).toNat

/-- `(BYTE)n` -/
def byteOfAddr (n : ℕ) : Byte := BitVec.ofNat 8 n

theorem addrT_of_lt {n : ℕ} (h : n < 2 ^ 64) : addrT n = n := Nat.mod_eq_of_lt h

theorem uint32_of_lt {n : ℕ} (h : n < 2 ^ 32) : uint32 n = n := Nat.mod_eq_of_lt h

theorem uint32_lt (n : ℕ) : uint32 n < 2 ^ 32 := Nat.mod_lt _ (by decide)

theorem msb_ofNat_of_lt {n : ℕ} (h : n < 2 ^ 31) : (BitVec.ofNat 32 n).msb = false := by
  rw [BitVec.msb_eq_decide, BitVec.toNat_ofNat, Nat.mod_eq_of_lt (by omega)]
  simpa using h

theorem addrOfInt_of_lt {n : ℕ} (h : n < 2 ^ 31) : addrOfInt n = n := by
  rw [addrOfInt, BitVec.signExtend_eq_setWidth_of_msb_false (msb_ofNat_of_lt h),
    BitVec.toNat_setWidth, BitVec.toNat_ofNat]
  omega

theorem cInt_of_lt {n : ℕ} (h : n < 2 ^ 31) : cInt n = n := by
  rw [cInt, BitVec.toInt_eq_toNat_of_msb (msb_ofNat_of_lt h), BitVec.toNat_ofNat,
    Nat.mod_eq_of_lt (by omega)]

theorem cInt_bounds (n : ℕ) : -2 ^ 31 ≤ cInt n ∧ cInt n < 2 ^ 31 := by
  have hle := BitVec.le_toInt (BitVec.ofNat 32 n)
  have hlt := BitVec.toInt_lt (x := BitVec.ofNat 32 n)
  unfold cInt
  omega

theorem cInt_eq (n : ℕ) :
    cInt n = if n % 2 ^ 32 < 2 ^ 31 then ((n % 2 ^ 32 : ℕ) : ℤ) else ((n % 2 ^ 32 : ℕ) : ℤ) - 2 ^ 32 := by
  rw [cInt, BitVec.toInt_eq_toNat_cond, BitVec.toNat_ofNat]
  split <;> split <;> omega

/-- Sign extension keeps the value, modulo the width of an address. -/
theorem addrOfInt_coe (n : ℕ) : (addrOfInt n : ℤ) = cInt n % 2 ^ 64 := by
  have hext : ((BitVec.ofNat 32 n).signExtend 64).toInt = cInt n :=
    BitVec.toInt_signExtend_of_le (by omega)
  have hlt := ((BitVec.ofNat 32 n).signExtend 64).isLt
  rw [addrOfInt, ← hext, BitVec.toInt_eq_toNat_bmod, Int.bmod_def]
  split <;> omega

theorem byteOfAddr_addrOfByte (b : Byte) : byteOfAddr (addrOfByte b) = b := by
  revert b; decide

/-! ## What the host decides -/

/-- A page-table slot: one directory index per level, `pgd`, `p4d`, `pud`, `pmd`, `pt`. -/
abbrev PageIx := Radix.Path (Fin 512) 4

/-- The choices the C program leaves to its host: the outcome of allocations and the contents of
    uninitialised variables. -/
structure Host where
  /-- Whether `calloc` grants a page directory, by the number of table writes the address space has
      seen; the counter moves at every attempt, so the outcomes of two attempts are independent. -/
  calloc : ℕ → Bool
  /-- Whether `malloc` grants the `n`-th list node of one `alloc_pages_range`. -/
  malloc : ℕ → Bool
  /-- The indices `get_pte_ptr` holds before they are set. -/
  stale : PageIx
  /-- The byte `libread` holds before it is set. -/
  data : Byte

/-- `malloc` and `calloc` always succeed. -/
def Host.Generous (host : Host) : Prop :=
  (∀ n, host.calloc n = true) ∧ ∀ n, host.malloc n = true

/-- The host whose memory never runs out and reads as zero where nothing was written. -/
def generousHost : Host where
  calloc := fun _ => true
  malloc := fun _ => true
  stale := (0, 0, 0, 0, (0 : Fin 512))
  data := 0

theorem generousHost_generous : generousHost.Generous := ⟨fun _ => rfl, fun _ => rfl⟩

end Ossim
