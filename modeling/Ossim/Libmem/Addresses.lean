import Ossim.Libmem.Proofs

set_option autoImplicit false

/-! # Addresses on their way to the page-table walk

Six functions access a byte of a region. Each adds the offset to the start of the region, compares the
sum with the end, and splits it into a page number for the walk and an offset in the page. The sum wraps
at 64 bits; `pg_getval` and `pg_setval` take it as an `int`, and `__read_user_mem` and
`__write_user_mem` keep its page number in one. -/

namespace Ossim

/-! ## Page numbers -/

theorem pgnOfIntAddr_coe (addr : ℕ) : (pgnOfIntAddr addr : ℤ) = cInt addr / 4096 % 2 ^ 64 := by
  have hshift : (((BitVec.ofNat 32 addr).sshiftRight 12).signExtend 64).toInt = cInt addr / 4096 := by
    rw [BitVec.toInt_signExtend_of_le (by omega), BitVec.toInt_sshiftRight, Int.shiftRight_eq_div_pow]
    rfl
  have hlt := (((BitVec.ofNat 32 addr).sshiftRight 12).signExtend 64).isLt
  rw [pgnOfIntAddr, ← hshift, BitVec.toInt_eq_toNat_bmod, Int.bmod_def]
  split <;> omega

/-- The page number of an address narrowed to an `int` is right for addresses an `int` can hold. -/
theorem pgnOfIntAddr_eq_iff {a : ℕ} (h : a < 2 ^ 64) : pgnOfIntAddr a = a / 4096 ↔ a < 2 ^ 31 := by
  have hpgn := pgnOfIntAddr_coe a
  rw [cInt_eq] at hpgn
  split at hpgn <;> omega

/-- A page number narrowed to an `int` is right if the number is one an `int` can hold. -/
theorem addrOfInt_shift_eq_iff {a : ℕ} (h : a < 2 ^ 64) :
    addrOfInt (a >>> 12) = a / 4096 ↔ a < 2 ^ 43 := by
  have hpgn := addrOfInt_coe (a >>> 12)
  rw [cInt_eq, Nat.shiftRight_eq_div_pow] at hpgn
  rw [Nat.shiftRight_eq_div_pow]
  split at hpgn <;> omega

theorem pgnOfIntAddr_eq {vaddr : ℕ} (h : vaddr < 2 ^ 31) : pgnOfIntAddr vaddr = vaddr / 4096 :=
  (pgnOfIntAddr_eq_iff (by omega)).2 h

theorem addrOfInt_shift {vaddr : ℕ} (h : vaddr < 2 ^ 31) : addrOfInt (vaddr >>> 12) = vaddr / 4096 :=
  (addrOfInt_shift_eq_iff (by omega)).2 (by omega)

/-- The two ways to narrow agree if the bits from the sign bit of the address up to the sign bit of the
    page number are all equal. -/
theorem pgnOfIntAddr_eq_addrOfInt_iff (a : ℕ) :
    pgnOfIntAddr a = addrOfInt (a >>> 12) ↔
      a / 2 ^ 31 % 2 ^ 13 = 0 ∨ a / 2 ^ 31 % 2 ^ 13 = 2 ^ 13 - 1 := by
  have hpgn := pgnOfIntAddr_coe a
  have haddr := addrOfInt_coe (a >>> 12)
  rw [cInt_eq, Nat.shiftRight_eq_div_pow] at haddr
  rw [cInt_eq] at hpgn
  rw [Nat.shiftRight_eq_div_pow]
  split at hpgn <;> split at haddr <;> omega

/-- The walk shifts the page number up, and its upper bits out. -/
theorem pageIx_mod (host : Host) (pgn : ℕ) : pageIx host (pgn % 2 ^ 52) = pageIx host pgn := by
  have haddr : BitVec.ofNat 64 (pgn % 2 ^ 52) <<< 12 = BitVec.ofNat 64 pgn <<< 12 := by
    apply BitVec.eq_of_toNat_eq
    simp only [BitVec.toNat_shiftLeft, BitVec.toNat_ofNat, Nat.shiftLeft_eq]
    omega
  rw [pageIx, pageIx, getPdFromPagenum, getPdFromPagenum, haddr]

/-- Page numbers that an `int` keeps apart have different slots. -/
theorem pageIx_addrOfInt_inj (host : Host) {m n : ℕ}
    (h : pageIx host (addrOfInt m) = pageIx host (addrOfInt n)) : m % 2 ^ 32 = n % 2 ^ 32 := by
  have hm := addrOfInt_coe m
  have hn := addrOfInt_coe n
  rw [cInt_eq] at hm hn
  rw [← pageIx_mod host (addrOfInt m), ← pageIx_mod host (addrOfInt n)] at h
  have hmod := mod_eq_of_pageIx_eq host
    (by unfold CanonicalPgn; split at hm <;> omega) (by unfold CanonicalPgn; split at hn <;> omega) h
  split at hm <;> split at hn <;> omega

/-! ## The six accesses -/

/-- The functions that access a byte of a region. -/
inductive MemAccess where
  | read
  | write
  | readUserMem
  | writeUserMem
  | readKernelMem
  | writeKernelMem

/-- What an access works out from its region and offset: the address, and the page number and the offset
    for the walk. -/
structure PageWalk where
  addr : ℕ
  pgn : ℕ
  off : ℕ
  deriving DecidableEq

namespace MemAccess

/-- The address space whose symbol table is used. -/
def space : MemAccess → Caller → Mm
  | readKernelMem, c | writeKernelMem, c => c.krnl.mm
  | _, c => c.mm

/-- The page number of an address, in the types of the function. -/
def pgn : MemAccess → ℕ → ℕ
  | read, a | write, a => pgnOfIntAddr a
  | readUserMem, a | writeUserMem, a => addrOfInt (a >>> 12)
  | readKernelMem, a | writeKernelMem, a => a >>> 12

/-- What the walk is given, `none` if the access is refused. -/
def walk (op : MemAccess) (c : Caller) (rgid offset : ℕ) : Option PageWalk :=
  ((op.space c).resolve rgid offset).map fun a => ⟨a, op.pgn a, a % 4096⟩

/-- The walk to a page: user pages are made resident. -/
def frame (host : Host) : MemAccess → Caller → (pgn : ℕ) → Option ℕ × Caller
  | readKernelMem, c, pgn | writeKernelMem, c, pgn =>
    let r := pteGetEntry host c.krnl.mm pgn
    (if pagingPagePresent r.1 then some (pagingFpn r.1) else none,
      { c with krnl := { c.krnl with mm := r.2 } })
  | _, c, pgn => pgGetpage host c pgn

/-- The status of a read, of which the model gives the byte in `*data`. -/
def readStatus : Option Byte → ℤ
  | none => -1
  | some _ => 0

/-- The transfer of the byte at a physical address. -/
def transfer (host : Host) : MemAccess → Caller → (phyaddr : ℕ) → Byte → ℤ × Option Byte × Caller
  | read, c, phyaddr, _ => (0, none, (syscall host c 17 ⟨4, phyaddr, 0⟩).2.2)
  | write, c, phyaddr, value => (0, none, (syscall host c 17 ⟨5, phyaddr, addrOfByte value⟩).2.2)
  | readUserMem, c, phyaddr, _ | readKernelMem, c, phyaddr, _ =>
    let r := memphyRead c.krnl.mram phyaddr
    (readStatus r.1, r.1, c.setMram r.2)
  | writeUserMem, c, phyaddr, value | writeKernelMem, c, phyaddr, value =>
    let r := memphyWrite c.krnl.mram phyaddr value
    (if r.1 ≠ 0 then -1 else 0, none, c.setMram r.2)

/-- The function behind an access, with its status and the byte in `*data`. -/
def exec (host : Host) : MemAccess → Caller → (rgid offset : ℕ) → Byte → ℤ × Option Byte × Caller
  | read, c, rgid, offset, _ => ((Ossim.read host c rgid offset).1, none, (Ossim.read host c rgid offset).2)
  | write, c, rgid, offset, value =>
    ((Ossim.write host c rgid offset value).1, none, (Ossim.write host c rgid offset value).2)
  | readUserMem, c, rgid, offset, _ =>
    let r := Ossim.readUserMem host c rgid offset
    (readStatus r.1, r)
  | writeUserMem, c, rgid, offset, value =>
    ((Ossim.writeUserMem host c rgid offset value).1, none,
      (Ossim.writeUserMem host c rgid offset value).2)
  | readKernelMem, c, rgid, offset, _ =>
    let r := Ossim.readKernelMem host c rgid offset
    (readStatus r.1, r)
  | writeKernelMem, c, rgid, offset, value =>
    ((Ossim.writeKernelMem host c rgid offset value).1, none,
      (Ossim.writeKernelMem host c rgid offset value).2)

/-- Every access is its checks, the walk with the page number, and the transfer at the offset in the
    frame the walk comes back with. -/
theorem exec_eq (host : Host) (op : MemAccess) (c : Caller) (rgid offset : ℕ) (value : Byte) :
    op.exec host c rgid offset value =
      match op.walk c rgid offset with
      | none => (-1, none, c)
      | some w =>
        match op.frame host c w.pgn with
        | (none, c') => (-1, none, c')
        | (some fpn, c') => op.transfer host c' (phyaddr fpn w.off) value := by
  cases op with
  | read =>
      simp only [exec, walk, space, Ossim.read]
      cases c.mm.resolve rgid offset with
      | none => rfl
      | some a =>
          simp only [Option.map_some, frame, pgn, pgGetval]
          rcases pgGetpage host c (pgnOfIntAddr a) with ⟨_ | fpn, c'⟩ <;> rfl
  | write =>
      simp only [exec, walk, space, Ossim.write]
      cases c.mm.resolve rgid offset with
      | none => rfl
      | some a =>
          simp only [Option.map_some, frame, pgn, pgSetval]
          rcases pgGetpage host c (pgnOfIntAddr a) with ⟨_ | fpn, c'⟩ <;> rfl
  | readUserMem =>
      simp only [exec, walk, space, Ossim.readUserMem]
      cases c.mm.resolve rgid offset with
      | none => rfl
      | some a =>
          simp only [Option.map_some, frame, pgn]
          rcases pgGetpage host c (addrOfInt (a >>> 12)) with ⟨_ | fpn, c'⟩ <;> rfl
  | writeUserMem =>
      simp only [exec, walk, space, Ossim.writeUserMem]
      cases c.mm.resolve rgid offset with
      | none => rfl
      | some a =>
          simp only [Option.map_some, frame, pgn]
          rcases pgGetpage host c (addrOfInt (a >>> 12)) with ⟨_ | fpn, c'⟩ <;> rfl
  | readKernelMem =>
      simp only [exec, walk, space, Ossim.readKernelMem]
      cases c.krnl.mm.resolve rgid offset with
      | none => rfl
      | some a =>
          simp only [Option.map_some, frame, pgn, kernelFrame]
          split_ifs <;> rfl
  | writeKernelMem =>
      simp only [exec, walk, space, Ossim.writeKernelMem]
      cases c.krnl.mm.resolve rgid offset with
      | none => rfl
      | some a =>
          simp only [Option.map_some, frame, pgn, kernelFrame]
          split_ifs <;> rfl

/-- The addresses whose page number the function can represent. -/
def Represents : MemAccess → (addr : ℕ) → Prop
  | read, a | write, a => a < 2 ^ 31
  | readUserMem, a | writeUserMem, a => a < 2 ^ 43
  | readKernelMem, _ | writeKernelMem, _ => True

theorem pgn_eq_iff (op : MemAccess) {a : ℕ} (h : a < 2 ^ 64) : op.pgn a = a / 4096 ↔ op.Represents a := by
  cases op with
  | read => exact pgnOfIntAddr_eq_iff h
  | write => exact pgnOfIntAddr_eq_iff h
  | readUserMem => exact addrOfInt_shift_eq_iff h
  | writeUserMem => exact addrOfInt_shift_eq_iff h
  | readKernelMem => exact iff_of_true (Nat.shiftRight_eq_div_pow a 12) trivial
  | writeKernelMem => exact iff_of_true (Nat.shiftRight_eq_div_pow a 12) trivial

/-- An accepted address is the wrapped sum, below the end of the region. -/
theorem walk_eq_some {op : MemAccess} {c : Caller} {rgid offset : ℕ} {w : PageWalk}
    (h : op.walk c rgid offset = some w) :
    w = ⟨addrT (((op.space c).symrgtbl rgid).rgStart + offset),
        op.pgn (addrT (((op.space c).symrgtbl rgid).rgStart + offset)),
        addrT (((op.space c).symrgtbl rgid).rgStart + offset) % 4096⟩ ∧
      addrT (((op.space c).symrgtbl rgid).rgStart + offset) < ((op.space c).symrgtbl rgid).rgEnd := by
  obtain ⟨a, hres, rfl⟩ := Option.map_eq_some_iff.1 h
  rw [Mm.resolve] at hres
  split at hres
  · exact absurd hres (by simp)
  · rw [VmRg.resolve] at hres
    split_ifs at hres with hnull hend
    cases hres
    exact ⟨rfl, Nat.lt_of_not_le hend⟩

/-- **Accepted offsets.** An accepted access is to an address of its region, with the page number and
    the offset of that address, exactly if the sum does not wrap and the function can represent the page
    number. -/
theorem walk_exact_iff (op : MemAccess) (c : Caller) {rgid offset : ℕ} {w : PageWalk}
    (hstart : ((op.space c).symrgtbl rgid).rgStart < 2 ^ 64) (hoff : offset < 2 ^ 64)
    (hacc : op.walk c rgid offset = some w) :
    (((op.space c).symrgtbl rgid).rgStart ≤ w.addr ∧ w.addr < ((op.space c).symrgtbl rgid).rgEnd ∧
      w.pgn = w.addr / 4096 ∧ w.off = w.addr % 4096) ↔
    ((op.space c).symrgtbl rgid).rgStart + offset < 2 ^ 64 ∧
      op.Represents (((op.space c).symrgtbl rgid).rgStart + offset) := by
  obtain ⟨rfl, hend⟩ := walk_eq_some hacc
  generalize ((op.space c).symrgtbl rgid).rgStart = s at hstart hend ⊢
  simp only [hend, true_and, and_true]
  constructor
  · rintro ⟨hle, hpgn⟩
    have hlt : s + offset < 2 ^ 64 := by
      -- a sum that wraps is below the start of the region
      by_contra hwrap
      rw [addrT] at hle
      omega
    rw [addrT_of_lt hlt] at hpgn
    exact ⟨hlt, (op.pgn_eq_iff hlt).1 hpgn⟩
  · rintro ⟨hlt, hrep⟩
    rw [addrT_of_lt hlt]
    exact ⟨Nat.le_add_right .., (op.pgn_eq_iff hlt).2 hrep⟩

end MemAccess

/-- A process whose region 1 is `[s, e)`. -/
def regionCaller (s e : ℕ) : Caller :=
  (freshCaller 1 1).setMm (initMm.setSymrg 1 ⟨s, e⟩)

theorem walk_exact_iff_first :
    MemAccess.write.walk (regionCaller 300 600) 1 0 = some ⟨300, 0, 300⟩ ∧
      300 ≤ 300 ∧ 300 < 600 ∧ 0 = 300 / 4096 ∧ 300 = 300 % 4096 := by
  have hacc : MemAccess.write.walk (regionCaller 300 600) 1 0 = some ⟨300, 0, 300⟩ := by
    decide +kernel
  exact ⟨hacc, (@MemAccess.walk_exact_iff .write (regionCaller 300 600) 1 0 _
    (by decide) (by decide) hacc).2 ⟨by decide, show 300 + 0 < 2 ^ 31 by decide⟩⟩

/-- The offset -300 takes region 1, `[300, 600)`, to address 0. -/
theorem not_walk_exact_wrap :
    ∃ w, MemAccess.write.walk (regionCaller 300 600) 1 (2 ^ 64 - 300) = some w ∧
      ¬ (300 ≤ w.addr ∧ w.addr < 600 ∧ w.pgn = w.addr / 4096 ∧ w.off = w.addr % 4096) :=
  ⟨⟨0, 0, 0⟩, by decide +kernel, fun h => absurd h.1 (by decide)⟩

end Ossim
