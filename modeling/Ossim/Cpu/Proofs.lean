import Ossim.Cpu
import Ossim.Libmem.Proofs

set_option autoImplicit false

/-! # What an instruction leaves alone

Whatever its operands, an instruction changes of its process only the registers and the address
space, and nothing of the other processes. Only the four kernel instructions change more of the
kernel's address space than its counters. -/

namespace Ossim

/-! ## Accesses -/

section Same

variable (host : Host) (c : Caller)

theorem read_same (rgid offset : ℕ) : SameButPages c (read host c rgid offset).2 := by
  rw [read]
  split
  · exact .refl c
  · next vaddr _ =>
      have hpage := pgGetpage_same host c (pgnOfIntAddr vaddr)
      rw [pgGetval]
      generalize pgGetpage host c (pgnOfIntAddr vaddr) = r at *
      obtain ⟨f, c₁⟩ := r
      cases f with
      | none => exact hpage
      | some f => exact hpage.trans (syscall_ioRead_same host c₁ _ _)

theorem write_same (rgid offset : ℕ) (value : Byte) :
    SameButPages c (write host c rgid offset value).2 := by
  rw [write]
  split
  · exact .refl c
  · next vaddr _ =>
      have hpage := pgGetpage_same host c (pgnOfIntAddr vaddr)
      rw [pgSetval]
      generalize pgGetpage host c (pgnOfIntAddr vaddr) = r at *
      obtain ⟨f, c₁⟩ := r
      cases f with
      | none => exact hpage
      | some f => exact hpage.trans (syscall_ioWrite_same host c₁ _ _)

theorem writeUserMem_same (rgid offset : ℕ) (value : Byte) :
    SameButPages c (writeUserMem host c rgid offset value).2 := by
  rw [writeUserMem]
  split
  · exact .refl c
  · next vaddr _ =>
      have hpage := pgGetpage_same host c (addrOfInt (vaddr >>> 12))
      generalize pgGetpage host c (addrOfInt (vaddr >>> 12)) = r at *
      obtain ⟨f, c₁⟩ := r
      cases f with
      | none => exact hpage
      | some f => exact hpage.trans (.setMram c₁ _)

theorem readKernelMem_same (rgid offset : ℕ) :
    SameButPages c (readKernelMem host c rgid offset).2 := by
  rw [readKernelMem]
  split
  · exact .refl c
  · next vaddr _ =>
      have hsnd := pteGetEntry_snd host c.krnl.mm (vaddr >>> 12)
      simp only [kernelFrame]
      split
      · next heq =>
          obtain ⟨-, rfl⟩ := Prod.mk.inj heq
          exact ⟨⟨rfl, hsnd⟩, rfl, rfl⟩
      · next heq =>
          obtain ⟨-, rfl⟩ := Prod.mk.inj heq
          exact ⟨⟨rfl, hsnd⟩, rfl, rfl⟩

theorem copyLoop_same (source destination offset n i : ℕ) :
    SameButPages c (copyLoop host source destination offset n i c).2 := by
  induction n generalizing c i with
  | zero => exact .refl c
  | succ n ih =>
      have hread := readKernelMem_same host c source (uint32 (offset + i))
      rw [copyLoop]
      generalize readKernelMem host c source (uint32 (offset + i)) = r at *
      obtain ⟨b, c₁⟩ := r
      cases b with
      | none => exact hread
      | some b =>
          have hwrite := writeUserMem_same host c₁ destination (uint32 (offset + i)) b
          simp only
          generalize writeUserMem host c₁ destination (uint32 (offset + i)) b = r at *
          obtain ⟨st, c₂⟩ := r
          split
          · next heq =>
              cases heq
              exact (hread.trans hwrite).trans (ih c₂ (i + 1))
          · next heq =>
              cases heq
              exact hread.trans hwrite

theorem libkmemCopy_same (source destination offset size : ℕ) :
    SameButPages c (libkmemCopy host c source destination offset size).2 := by
  rw [libkmemCopy]
  split
  · exact .refl c
  · exact copyLoop_same host c source destination offset size 0

/-! ## Kernel memory -/

theorem kmalloc_proc (rgid size : ℕ) : (kmalloc host c rgid size).2.proc = c.proc := by
  rw [kmalloc]
  split <;> rfl

theorem libkmemMalloc_proc (size regIndex : ℕ) :
    (libkmemMalloc host c size regIndex).2.proc = c.proc := by
  have hk := kmalloc_proc host c regIndex size
  rw [libkmemMalloc]
  split
  · rfl
  · split <;> next heq => rw [heq] at hk; exact hk

theorem libkmemCachePoolCreate_proc (size align cachePoolId : ℕ) :
    (libkmemCachePoolCreate host c size align cachePoolId).2.proc = c.proc := by
  have hk := kmalloc_proc host { c with krnl := c.krnl.withKcpooltbl } cachePoolId size
  rw [libkmemCachePoolCreate]
  split
  · rfl
  · simp only
    split
    · rfl
    · split <;> next heq => rw [heq] at hk; exact hk

theorem libkmemCacheAlloc_proc {cachePoolId regIndex : ℕ} {r : ℤ × Caller}
    (h : libkmemCacheAlloc c cachePoolId regIndex = some r) : r.2.proc = c.proc := by
  obtain ⟨⟨st, c'⟩, halloc, rfl⟩ := Option.map_eq_some_iff.1 h
  rw [kmemCacheAlloc] at halloc
  split at halloc
  · cases halloc
    rfl
  · split at halloc
    · exact absurd halloc (by simp)
    · simp only at halloc
      split_ifs at halloc <;> cases halloc <;> rfl

end Same

/-! ## Instructions -/

/-- An instruction changes of its process the registers and the address space. -/
theorem execInst_proc {host : Host} {c : Caller} {ins : Inst} {r : ℤ × Caller}
    (h : execInst host c ins = some r) :
    r.2.proc = { c.proc with regs := r.2.proc.regs, mm := r.2.proc.mm } := by
  have hsame : ∀ {d : Caller}, SameButUser c d →
      d.proc = { c.proc with regs := d.proc.regs, mm := d.proc.mm } := by
    intro d hd
    rw [hd.proc]
  have hproc : ∀ {d : Caller}, d.proc = c.proc →
      d.proc = { c.proc with regs := d.proc.regs, mm := d.proc.mm } := by
    intro d hd
    rw [hd]
  rw [execInst] at h
  split at h
  · obtain rfl := Option.some.inj h; exact hproc rfl
  · obtain ⟨regs, hc'⟩ := liballoc_eq_some _ _ h
    rw [hc']
    simp only
    rw [(alloc_same host c (uint32 ins.arg1) ins.arg0).proc]
  · obtain rfl := Option.some.inj h; exact hproc (libkmemMalloc_proc ..)
  · obtain rfl := Option.some.inj h; exact hproc (libkmemCachePoolCreate_proc ..)
  · exact hproc (libkmemCacheAlloc_proc c h)
  · obtain rfl := Option.some.inj h; exact hsame (libkmemCopy_same ..).toSameButUser
  · obtain rfl := Option.some.inj h; exact hsame (libkmemCopy_same ..).toSameButUser
  · obtain ⟨regs, hc'⟩ := libfree_eq_some _ h
    rw [hc']
    simp only
    rw [(free_same c (uint32 ins.arg0)).proc]
  · obtain rfl := Option.some.inj h; exact hsame (read_same ..).toSameButUser
  · obtain rfl := Option.some.inj h; exact hsame (write_same ..).toSameButUser
  · obtain rfl := Option.some.inj h; exact hsame (syscall_same ..)

end Ossim
