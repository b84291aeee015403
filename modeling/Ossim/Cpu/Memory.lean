import Ossim.Cpu.Proofs
import Ossim.Paging.Kernel

set_option autoImplicit false

/-! # Instructions refine the pager

Every instruction, a raw memory system call of three kinds excepted, is a run of the pager that
touches the bytes it writes and the kernel pages it names, and nothing else. -/

namespace Ossim

open Pager

/-- The addresses of its process an instruction writes. -/
def Caller.written (host : Host) (c : Caller) (ins : Inst) : Set ℕ :=
  match ins.opcode with
  | .write =>
    {a | (libwrite host c (byteOfAddr ins.arg0) (uint32 ins.arg1) ins.arg2).1 = 0 ∧
      c.mm.resolve (uint32 ins.arg1) ins.arg2 = some a}
  | .copyFromUser | .copyToUser =>
    copiedAddrs host (uint32 ins.arg0) (uint32 ins.arg1) (uint32 ins.arg2) (uint32 ins.arg3) 0 c
  | _ => ∅

/-- The bytes of the kernel pages an instruction names. -/
def Inst.kernelBytes (host : Host) (ins : Inst) : Set ByteKey :=
  match ins.opcode with
  | .kmalloc => Ossim.kernelBytes host (uint32 ins.arg1) (kmallocNumPages (uint32 ins.arg0))
  | .kmemCacheCreate => Ossim.kernelBytes host (uint32 ins.arg2) (kmallocNumPages (uint32 ins.arg0))
  | _ => ∅

/-- The memory operations of the system call that act on page tables or frames the caller names by
    their numbers. -/
def rawMemops : List ℤ := [sysmemMapOp, sysmemSwpOp, sysmemIoWrite]

/-- An instruction in the range in which the code's `int` sizes are exact, and not one of the raw
    memory system calls. -/
structure Inst.Tame (ins : Inst) : Prop where
  alloc_size : ins.opcode = .alloc → ins.arg0 < 2 ^ 31
  memop : ins.opcode = .syscall → uint32 ins.arg0 = 17 → cInt ins.arg1 ∉ rawMemops

/-- The instructions that change the regions of their process. -/
def Inst.OnHeap (ins : Inst) : Prop :=
  ins.opcode = .alloc ∨ ins.opcode = .free ∨ ins.opcode = .syscall

/-- What a tame instruction does to memory. -/
structure InstEffect (host : Host) (exact : Prop) (R S : Set ℕ) (pid : ℕ)
    (others : ℕ → PageIx → Residence) (ins : Inst) (c c' : Caller) : Prop where
  inv : MemInv host exact R S pid others c'
  run : Run exact (userBytes host pid (c.written host ins) ∪ ins.kernelBytes host)
    (c.pager pid others) (c'.pager pid others)
  krnl_entry : ∀ p, (∀ j, ((.krnl, p), j) ∉ ins.kernelBytes host) →
    c'.krnl.mm.entry p = c.krnl.mm.entry p
  krnl_symrgtbl : ∀ i, ¬ (ins.opcode = .kmemCacheAlloc ∧ i = uint32 ins.arg1) →
    c'.krnl.mm.symrgtbl i = c.krnl.mm.symrgtbl i
  regions : ¬ ins.OnHeap → c'.mm.mmap = c.mm.mmap ∧ c'.mm.symrgtbl = c.mm.symrgtbl

section Effect

variable {host : Host} {exact : Prop} {R S : Set ℕ} {pid : ℕ} {others : ℕ → PageIx → Residence}
variable {c : Caller} {ins : Inst}

theorem MemInv.congr (h : MemInv host exact R S pid others c) (c' : Caller) (hk : c'.krnl = c.krnl)
    (hmm : c'.mm = c.mm) (hreg : c'.proc.registered = c.proc.registered) :
    MemInv host exact R S pid others c' ∧ c'.pager pid others = c.pager pid others := by
  have hpager : c'.pager pid others = c.pager pid others := by
    simp only [Caller.pager, hk, hmm]
  refine ⟨⟨hpager ▸ h.wf, hpager ▸ h.within, ?_, ?_, ?_, ?_⟩, hpager⟩
  · obtain ⟨h1, h2, h3, h4, h5⟩ := h.devices
    exact ⟨hk ▸ h1, hk ▸ h2, hreg ▸ h3, hk ▸ h4, hk ▸ h5⟩
  · rw [hmm, hreg]
    exact h.pages
  · rw [hmm, hreg]
    exact h.regions
  · rw [hk]
    exact h.pinned

theorem InstEffect.of_access {c' : Caller} (hinv : MemInv host exact R S pid others c')
    (honly : PagingOnly c c')
    (hrun : Run exact (userBytes host pid (c.written host ins)) (c.pager pid others)
      (c'.pager pid others)) : InstEffect host exact R S pid others ins c c' where
  inv := hinv
  run := hrun.mono Set.subset_union_left
  krnl_entry := fun p _ => by rw [honly.same.krnl_entry]
  krnl_symrgtbl := fun i _ => by rw [honly.same.krnl_mm]
  regions := fun _ => ⟨honly.mmap, honly.symrgtbl⟩

theorem InstEffect.of_heap (hop : ins.OnHeap) {c₁ : Caller} (hinv : MemInv host exact R S pid others c₁)
    (hsame : SameButUser c c₁) (hrun : Run exact ∅ (c.pager pid others) (c₁.pager pid others))
    (regs : ℕ → ℕ) :
    InstEffect host exact R S pid others ins c
      { c₁ with proc := { c₁.proc with regs := regs } } := by
  obtain ⟨h₂, hpager⟩ := hinv.congr { c₁ with proc := { c₁.proc with regs := regs } } rfl rfl rfl
  refine ⟨h₂, ?_, fun p _ => congrFun hsame.krnl_entry p, fun i _ => ?_, fun hnot => absurd hop hnot⟩
  · rw [hpager]
    exact hrun.mono (Set.empty_subset _)
  · change c₁.krnl.mm.symrgtbl i = _
    rw [hsame.krnl_mm]

theorem InstEffect.of_kmalloc {c' : Caller} {rgid n : ℕ}
    (hnamed : ins.kernelBytes host = Ossim.kernelBytes host rgid n)
    (hinv : MemInv host exact R S pid others c') (hproc : c'.proc = c.proc)
    (honly : KmallocOnly host rgid n c.krnl c'.krnl)
    (hrun : Run exact (Ossim.kernelBytes host rgid n) (c.pager pid others) (c'.pager pid others)) :
    InstEffect host exact R S pid others ins c c' where
  inv := hinv
  run := by
    rw [hnamed]
    exact hrun.mono Set.subset_union_right
  krnl_entry := fun p hp => honly.entry p fun i hi he => by
    rw [hnamed] at hp
    exact hp 0 ⟨i, hi, by rw [he]⟩
  krnl_symrgtbl := fun i _ => by rw [honly.symrgtbl]
  regions := fun _ => by
    rw [Caller.mm, hproc]
    exact ⟨rfl, rfl⟩

/-- A memory system call that is not raw grows the caller's area, or reads. -/
theorem syscall_spec (hg : host.Generous) (hp : PoolsOk R S) (h : MemInv host exact R S pid others c)
    {nr a1 a2 a3 : ℕ} (hop : nr = 17 → cInt a1 ∉ rawMemops)
    (hend : c.proc.registered = true → (syscall host c nr ⟨a1, a2, a3⟩).2.2.mm.mmap.vmEnd < 2 ^ 31) :
    let c' := (syscall host c nr ⟨a1, a2, a3⟩).2.2
    MemInv host exact R S pid others c' ∧
    Run exact ∅ (c.pager pid others) (c'.pager pid others) := by
  rw [syscall] at hend ⊢
  split
  · next hnr =>
      have hop := hop hnr
      simp only [rawMemops, List.mem_cons, List.not_mem_nil, or_false, not_or] at hop
      obtain ⟨hmap, hswp, hwrite⟩ := hop
      simp only [if_pos hnr, sysMemmap] at hend ⊢
      cases hreg : c.proc.registered with
      | false =>
          simp only [Bool.not_false, if_true]
          exact ⟨h, .refl _⟩
      | true =>
          simp only [hreg, Bool.not_true, Bool.false_eq_true, if_false, if_neg hmap, if_neg hswp,
            if_neg hwrite, forall_const] at hend ⊢
          split_ifs at hend ⊢
          · exact incVmaLimit_spec hg hp h hreg hend
          · simp only [memphyRead_snd]
            exact ⟨h, .refl _⟩
          · exact ⟨h, .refl _⟩
  · exact ⟨h, .refl _⟩

/-- **Instructions.** A tame instruction keeps the invariant of memory, and its effect is limited to
    the bytes it writes and the kernel pages it names. -/
theorem execInst_effect (hg : host.Generous) (hp : PoolsOk R S)
    (h : MemInv host exact R S pid others c) (htame : ins.Tame) {st : ℤ} {c' : Caller}
    (hstep : execInst host c ins = some (st, c'))
    (hend : ins.OnHeap → c.proc.registered = true → c'.mm.mmap.vmEnd < 2 ^ 31) :
    InstEffect host exact R S pid others ins c c' := by
  have hwritten : ∀ {A : Set ℕ}, c.written host ins = A → ∀ {d : Caller},
      MemInv host exact R S pid others d → PagingOnly c d →
      Run exact (userBytes host pid A) (c.pager pid others) (d.pager pid others) →
      InstEffect host exact R S pid others ins c d := by
    rintro A rfl d hinv honly hrun
    exact .of_access hinv honly hrun
  have hres : ∀ {r : ℤ × Caller}, some r = some (st, c') → c' = r.2 :=
    fun heq => (congrArg Prod.snd (Option.some.inj heq)).symm
  rw [execInst] at hstep
  split at hstep
  · -- CALC
    cases hstep
    exact .of_access h (.refl c) (.refl _)
  · -- ALLOC
    next hop =>
      obtain ⟨regs, rfl⟩ := liballoc_eq_some _ _ hstep
      obtain ⟨h₁, hrun₁⟩ := alloc_spec hg hp h (htame.alloc_size hop) (hend (.inl hop))
      exact .of_heap (.inl hop) h₁ (alloc_same ..) hrun₁ regs
  · -- KMALLOC
    next hop =>
      obtain rfl := hres hstep
      rw [libkmemMalloc_snd]
      obtain ⟨h₁, hproc, honly, hrun⟩ := kmalloc_spec hg.1 hp h (uint32 ins.arg1) (uint32 ins.arg0)
      exact .of_kmalloc (by rw [Inst.kernelBytes, hop]) h₁ hproc honly hrun
  · -- KMEM_CACHE_CREATE
    next hop =>
      obtain rfl := hres hstep
      obtain ⟨h₁, hproc, honly, hrun⟩ := libkmemCachePoolCreate_spec hg.1 hp h (uint32 ins.arg0)
        (uint32 ins.arg1) (uint32 ins.arg2)
      exact .of_kmalloc (by rw [Inst.kernelBytes, hop]) h₁ hproc honly hrun
  · -- KMEM_CACHE_ALLOC: no page moves, one region of the kernel is set
    next hop =>
      obtain ⟨⟨st', c₁⟩, halloc, heq⟩ := Option.map_eq_some_iff.1 hstep
      obtain ⟨-, rfl⟩ := Prod.mk.inj heq
      obtain ⟨h₁, hproc, hentry, hpager, hsym⟩ := kmemCacheAlloc_spec h halloc
      refine ⟨h₁, ?_, fun p _ => congrFun hentry p, fun i hi => hsym i fun he => hi ⟨hop, he⟩,
        fun _ => ?_⟩
      · rw [hpager]
        exact .refl _
      · rw [Caller.mm, hproc]
        exact ⟨rfl, rfl⟩
  · -- COPY_FROM_USER, which copies from the kernel as well
    next hop =>
      obtain rfl := hres hstep
      obtain ⟨h₁, honly, hrun⟩ := libkmemCopy_spec hg.1 hp h (uint32 ins.arg0) (uint32 ins.arg1)
        (uint32 ins.arg2) (uint32 ins.arg3)
      exact hwritten (by rw [Caller.written, hop]) h₁ honly hrun
  · -- COPY_TO_USER
    next hop =>
      obtain rfl := hres hstep
      obtain ⟨h₁, honly, hrun⟩ := libkmemCopy_spec hg.1 hp h (uint32 ins.arg0) (uint32 ins.arg1)
        (uint32 ins.arg2) (uint32 ins.arg3)
      exact hwritten (by rw [Caller.written, hop]) h₁ honly hrun
  · -- FREE
    next hop =>
      obtain ⟨regs, rfl⟩ := libfree_eq_some _ hstep
      obtain ⟨h₁, hpager₁⟩ := free_spec h (uint32 ins.arg0)
      refine .of_heap (.inr (.inl hop)) h₁ (free_same ..) ?_ regs
      rw [hpager₁]
      exact .refl _
  · -- READ
    obtain rfl := hres hstep
    obtain ⟨h₁, honly, hrun⟩ := read_spec hg.1 hp h (uint32 ins.arg0) ins.arg1
    exact .of_access h₁ honly (hrun.mono (Set.empty_subset _))
  · -- WRITE
    next hop =>
      obtain rfl := hres hstep
      obtain ⟨h₁, honly, hrun, -⟩ :=
        write_spec hg.1 hp h (uint32 ins.arg1) ins.arg2 (byteOfAddr ins.arg0)
      exact hwritten (by rw [Caller.written, hop]; rfl) h₁ honly hrun
  · -- SYSCALL
    next hop =>
      obtain rfl := hres hstep
      obtain ⟨h₁, hrun⟩ := syscall_spec hg hp h (htame.memop hop) (hend (.inr (.inr hop)))
      exact .of_heap (.inr (.inr hop)) h₁ (syscall_same ..) hrun _

end Effect

end Ossim
