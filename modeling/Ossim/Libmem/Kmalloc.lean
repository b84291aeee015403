import Ossim.Libmem.Proofs

set_option autoImplicit false

/-! # What a failed kernel allocation leaves behind

`__kmalloc` takes and maps one frame per page and returns from the middle of its loop when it cannot
go on. No exit gives a frame back: the frames of the pages it got to stay with the kernel, so a failed
call leaves RAM as it was only if it took no frame at all. A pool descriptor is written after the
allocation has succeeded. -/

namespace Ossim

variable (host : Host)

/-! ## The loop -/

/-- The kernel after frames have been taken off the head of the free list, in their order; the rest of
    RAM, the pools and the regions of the kernel are as they were. -/
structure Krnl.Took (krnl : Krnl) (k : ℕ) (krnl' : Krnl) : Prop where
  mram : krnl'.mram = { krnl.mram with
    freeFpList := krnl.mram.freeFpList.drop k
    usedFpList := (krnl.mram.freeFpList.take k).reverse ++ krnl.mram.usedFpList }
  symrgtbl : krnl'.mm.symrgtbl = krnl.mm.symrgtbl
  kcpooltbl : krnl'.mm.kcpooltbl = krnl.mm.kcpooltbl

theorem Krnl.Took.zero (krnl : Krnl) : krnl.Took 0 krnl := ⟨rfl, rfl, rfl⟩

theorem Krnl.Took.one {krnl : Krnl} {f : ℕ} {rest : List ℕ} (hfree : krnl.mram.freeFpList = f :: rest)
    {mm : Mm} (hsym : mm.symrgtbl = krnl.mm.symrgtbl) (hpool : mm.kcpooltbl = krnl.mm.kcpooltbl) :
    krnl.Took 1 { krnl with
      mram := { krnl.mram with freeFpList := rest, usedFpList := f :: krnl.mram.usedFpList }
      mm := mm } :=
  ⟨by simp [hfree], hsym, hpool⟩

theorem Krnl.Took.cons {krnl krnl₁ krnl₂ : Krnl} {k : ℕ} (hne : krnl.mram.freeFpList ≠ [])
    (h : krnl.Took 1 krnl₁) (h' : krnl₁.Took k krnl₂) : krnl.Took (k + 1) krnl₂ where
  mram := by
    obtain ⟨f, rest, hfree⟩ := List.exists_cons_of_ne_nil hne
    rw [h'.mram, h.mram]
    simp [hfree]
  symrgtbl := h'.symrgtbl.trans h.symrgtbl
  kcpooltbl := h'.kcpooltbl.trans h.kcpooltbl

/-- One iteration: no frame left and nothing done, or a frame taken and either the end or the page
    mapped to it and the next iteration. -/
theorem kmallocLoop_step (rgid n i : ℕ) (krnl : Krnl) :
    krnl.mram.freeFpList = [] ∧ kmallocLoop host rgid (n + 1) i krnl = (-1, krnl) ∨
    ∃ f rest krnl₁, krnl.mram.freeFpList = f :: rest ∧ krnl.Took 1 krnl₁ ∧
      (kmallocLoop host rgid (n + 1) i krnl = (-1, krnl₁) ∨
        krnl₁.mm.entry = Function.update krnl.mm.entry (pageIx host (kmallocPgn rgid i))
          (pteFpnWord (krnl.mm.entry (pageIx host (kmallocPgn rgid i))) f) ∧
        kmallocLoop host rgid (n + 1) i krnl = kmallocLoop host rgid n (i + 1) krnl₁) := by
  cases hget : memphyGetFreefp krnl.mram with
  | none =>
      rw [kmallocLoop, hget]
      exact Or.inl ⟨memphyGetFreefp_eq_none.1 hget, rfl⟩
  | some r =>
      obtain ⟨f, mram⟩ := r
      obtain ⟨mm, hsym, hpool, hnext⟩ := @kmallocLoop_some host rgid n i _ _ _ hget
      obtain ⟨rest, hcons, rfl⟩ := memphyGetFreefp_eq_some hget
      right
      refine ⟨f, rest, _, hcons, .one hcons hsym hpool, ?_⟩
      rcases hnext with ⟨-, heq⟩ | hmapped
      · exact Or.inl heq
      · exact Or.inr hmapped

/-- The loop takes at most one frame per page, and at least one if it has a page to map and a frame
    for it. -/
theorem kmallocLoop_took (rgid n i : ℕ) (krnl : Krnl) :
    ∃ k ≤ n, krnl.Took k (kmallocLoop host rgid n i krnl).2 ∧
      (n ≠ 0 → krnl.mram.freeFpList ≠ [] → k ≠ 0) := by
  induction n generalizing i krnl with
  | zero => exact ⟨0, Nat.le_refl 0, .zero krnl, fun h => absurd rfl h⟩
  | succ n ih =>
      rcases kmallocLoop_step host rgid n i krnl with
        ⟨hnil, heq⟩ | ⟨f, rest, krnl₁, hfree, htook₁, heq | ⟨-, heq⟩⟩
      · rw [heq]
        exact ⟨0, Nat.zero_le _, .zero krnl, fun _ h => absurd hnil h⟩
      · rw [heq]
        exact ⟨1, by omega, htook₁, fun _ _ => by simp⟩
      · obtain ⟨k, hk, htook, -⟩ := ih (i + 1) krnl₁
        rw [heq]
        exact ⟨k + 1, by omega, .cons (by simp [hfree]) htook₁ htook, fun _ _ => by simp⟩

/-! ## A failed call -/

/-- The frames of RAM and the entries of the kernel's page table are those of an earlier state, the
    lists in any order. -/
structure Krnl.MemoryAsIn (krnl' krnl : Krnl) : Prop where
  free : krnl'.mram.freeFpList.Perm krnl.mram.freeFpList
  used : krnl'.mram.usedFpList.Perm krnl.mram.usedFpList
  entry : ∀ p, krnl'.mm.entry p = krnl.mm.entry p

theorem Krnl.MemoryAsIn.refl (krnl : Krnl) : krnl.MemoryAsIn krnl := ⟨.refl _, .refl _, fun _ => rfl⟩

/-- A frame taken is missed. -/
theorem Krnl.Took.eq_zero {krnl krnl' : Krnl} {k : ℕ} (h : krnl.Took k krnl')
    (hsame : krnl'.MemoryAsIn krnl) (hne : krnl.mram.freeFpList ≠ []) : k = 0 := by
  have hlen := hsame.free.length_eq
  rw [h.mram, List.length_drop] at hlen
  have hpos := List.length_pos_of_ne_nil hne
  omega

/-- A failed `__kmalloc` leaves memory as it was exactly when it took no frame: for a request of no
    bytes, or with no frame to take. -/
theorem kmalloc_memoryAsIn_iff (c : Caller) (rgid size : ℕ)
    (hfail : (kmalloc host c rgid size).1 = -1) :
    (kmalloc host c rgid size).2.krnl.MemoryAsIn c.krnl ↔
      size = 0 ∨ c.krnl.mram.freeFpList = [] := by
  rw [kmalloc] at hfail ⊢
  split at hfail
  · next hsize =>
      rw [if_pos hsize]
      exact iff_of_true (.refl _) (Or.inl hsize)
  · next hsize =>
      rw [if_neg hsize]
      -- it has taken some `k` frames from the front of the list, and gives none of them back
      obtain ⟨k, -, htook, hpos⟩ :=
        kmallocLoop_took host rgid (kmallocNumPages size) 0 c.krnl
      simp only at hfail ⊢
      cases hpages : kmallocNumPages size with
      | zero =>
          rw [hpages, kmallocLoop] at hfail
          exact absurd hfail (by simp)
      | succ n =>
          rw [hpages] at hfail htook hpos
          constructor
          · intro hsame
            by_contra hcond
            obtain ⟨-, hne⟩ := not_or.1 hcond
            exact hpos (by simp) hne (htook.eq_zero hsame hne)
          · intro hcond
            have hnil := hcond.resolve_left hsize
            rcases kmallocLoop_step host rgid n 0 c.krnl with ⟨-, heq⟩ | ⟨f, rest, krnl₁, hfree, -⟩
            · rw [heq]
              exact .refl _
            · exact absurd (hnil.symm.trans hfree) (by simp)

/-- `__kmalloc` writes no pool descriptor and no region. -/
theorem kmalloc_tables (c : Caller) (rgid size : ℕ) :
    (kmalloc host c rgid size).2.krnl.mm.kcpooltbl = c.krnl.mm.kcpooltbl ∧
    (kmalloc host c rgid size).2.krnl.mm.symrgtbl = c.krnl.mm.symrgtbl := by
  rw [kmalloc]
  split
  · exact ⟨rfl, rfl⟩
  · obtain ⟨k, -, htook, -⟩ := kmallocLoop_took host rgid (kmallocNumPages size) 0 c.krnl
    exact ⟨htook.kcpooltbl, htook.symrgtbl⟩

/-! ## Creating a pool -/

/-- A pool descriptor; a table that is not there yet reads as one nothing was written to. -/
def Krnl.pool (krnl : Krnl) : ℕ → KcachePool := krnl.mm.kcpooltbl.getD fun _ => zeroPool

theorem kmallocVaddr_lt (rgid : ℕ) : kmallocVaddr rgid < 2 ^ 64 := by
  unfold kmallocVaddr addrT
  omega

/-- The descriptor of a pool as it is created. -/
def freshPool (size align id : ℕ) : KcachePool where
  size := cInt size
  align := cInt align
  storage := kmallocVaddr id
  storage_lt := kmallocVaddr_lt id

/-- `libkmem_cache_pool_create`: refused at once, or the table is there and a granted storage is
    described in it. -/
theorem libkmemCachePoolCreate_cases (c : Caller) (size align id : ℕ) :
    (size = 0 ∨ align = 0 ∨ size < align) ∧
      libkmemCachePoolCreate host c size align id = (-1, c) ∨
    ∃ st c', libkmemCachePoolCreate host c size align id = (st, c') ∧
      (0 < align ∧ align ≤ size) ∧ c'.krnl.mm.symrgtbl = c.krnl.mm.symrgtbl ∧
      (st = -1 ∧ c'.krnl.mm.kcpooltbl = some c.krnl.pool ∨
        st = 0 ∧ id < pagingMaxKcachePools ∧
          c'.krnl.mm.kcpooltbl = some (Function.update c.krnl.pool id (freshPool size align id))) := by
  rw [libkmemCachePoolCreate]
  split
  · next hargs => exact Or.inl ⟨hargs, rfl⟩
  · next hargs =>
      right
      have hvalid : 0 < align ∧ align ≤ size := by omega
      simp only
      split
      · exact ⟨_, _, rfl, hvalid, rfl, Or.inl ⟨rfl, rfl⟩⟩
      · next hid =>
          obtain ⟨hpool, hsym⟩ :=
            kmalloc_tables host { c with krnl := c.krnl.withKcpooltbl } id size
          generalize kmalloc host { c with krnl := c.krnl.withKcpooltbl } id size = r at *
          obtain ⟨st, c'⟩ := r
          split
          · next heq =>
              cases heq
              refine ⟨_, _, rfl, hvalid, hsym, Or.inr ⟨rfl, by omega, ?_⟩⟩
              exact congrArg (Option.map _) hpool
          · next heq =>
              cases heq
              exact ⟨_, _, rfl, hvalid, hsym, Or.inl ⟨rfl, hpool⟩⟩

theorem libkmemCachePoolCreate_pool_of_fail {c : Caller} {size align id : ℕ}
    (hfail : (libkmemCachePoolCreate host c size align id).1 = -1) :
    (libkmemCachePoolCreate host c size align id).2.krnl.pool = c.krnl.pool := by
  rcases libkmemCachePoolCreate_cases host c size align id with
    ⟨-, heq⟩ | ⟨st, c', heq, -, -, ⟨-, hpool⟩ | ⟨rfl, -⟩⟩
  · rw [heq]
  · rw [heq, Krnl.pool, hpool]
    rfl
  · rw [heq] at hfail
    exact absurd hfail (by simp)

/-- What a failed kernel allocation leaves behind: RAM and the kernel's page table are as they were
    exactly when the request was for no bytes or no frame was free, and a failed pool creation always
    leaves the pools as they were. -/
theorem kmalloc_failure_leak_free_iff (c : Caller) :
    (∀ rgid size, (kmalloc host c rgid size).1 = -1 →
      ((kmalloc host c rgid size).2.krnl.MemoryAsIn c.krnl ↔
        size = 0 ∨ c.krnl.mram.freeFpList = [])) ∧
    ∀ size align id, (libkmemCachePoolCreate host c size align id).1 = -1 →
      ∀ k, (libkmemCachePoolCreate host c size align id).2.krnl.pool k = c.krnl.pool k :=
  ⟨fun rgid size hfail => kmalloc_memoryAsIn_iff host c rgid size hfail,
    fun _ _ _ hfail k => congrFun (libkmemCachePoolCreate_pool_of_fail host hfail) k⟩

/-- With one frame of RAM left, a request for two pages takes it and fails. -/
theorem not_kmalloc_failure_leak_free_twoPages :
    (kmalloc generousHost (freshCaller 1 1) 0 4097).1 = -1 ∧
    ¬ (kmalloc generousHost (freshCaller 1 1) 0 4097).2.krnl.MemoryAsIn (freshCaller 1 1).krnl := by
  refine ⟨by decide +kernel, fun hsame => ?_⟩
  have hlen := hsame.free.length_eq
  have hnil : (kmalloc generousHost (freshCaller 1 1) 0 4097).2.krnl.mram.freeFpList = [] := by
    decide +kernel
  rw [hnil] at hlen
  exact absurd hlen (by decide)

end Ossim
