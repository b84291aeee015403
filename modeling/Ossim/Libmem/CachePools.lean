import Ossim.Lib.Intervals
import Ossim.Libmem.Kmalloc

set_option autoImplicit false

/-! # Cache pools

A cache pool is a range of kernel addresses that slots of one width are cut off the front of. A call
for a register that has no region takes its slot back, so what is left of a pool says how many slots
were recorded; the last slots of a pool are those that still fit into its size. `libkmem_cache_alloc`
takes the 0 its helper returns on success for a failure, and nothing tests whether there is a pool
table. -/

namespace Ossim

open Intervals

/-! ## One call -/

/-- No slot is left, or the pool was never created. -/
def KcachePool.Exhausted (pool : KcachePool) : Prop := pool.align = 0 ∨ pool.size < pool.align

/-- A slot cut off and taken back leaves no trace. -/
theorem KcachePool.bump_neg (pool : KcachePool) (n : ℤ) : (pool.bump n).bump (-n) = pool := by
  have hlt := pool.storage_lt
  ext1
  · simp [KcachePool.bump]
  · rfl
  · change addrAddInt (addrAddInt pool.storage n) (-n) = pool.storage
    unfold addrAddInt
    omega

/-- Writing back the descriptor a table has. -/
theorem Mm.setPool_self {mm : Mm} {tbl : ℕ → KcachePool} (htbl : mm.kcpooltbl = some tbl) (id : ℕ) :
    mm.setPool id (tbl id) = mm := by
  simp only [Mm.setPool, htbl, Option.map_some, Function.update_eq_self]
  rw [← htbl]

theorem Krnl.pool_of_table {krnl : Krnl} {tbl : ℕ → KcachePool} (htbl : krnl.mm.kcpooltbl = some tbl) :
    krnl.pool = tbl := by
  rw [Krnl.pool, htbl, Option.getD_some]

/-- A slot was cut off a pool, and the register stands for it. -/
structure Carved (c : Caller) (rgid id : ℕ) (c' : Caller) : Prop where
  align : (c.krnl.pool id).align ≠ 0
  pools : c'.krnl.mm.kcpooltbl =
    some (Function.update c.krnl.pool id ((c.krnl.pool id).bump (c.krnl.pool id).align))
  regions : c'.krnl.mm.symrgtbl = Function.update c.krnl.mm.symrgtbl rgid
    ⟨(c.krnl.pool id).storage, addrAddInt (c.krnl.pool id).storage (c.krnl.pool id).align⟩

section Call

variable {c : Caller} {rgid id : ℕ}

/-- What is bumped is another pool. -/
theorem KcachePool.bump_ne {pool : KcachePool} (h : pool.align ≠ 0) : pool.bump pool.align ≠ pool := by
  intro heq
  have hsize := congrArg KcachePool.size heq
  simp only [KcachePool.bump] at hsize
  omega

theorem Carved.table_ne {c' : Caller} (h : Carved c rgid id c') :
    c'.krnl.mm.kcpooltbl ≠ c.krnl.mm.kcpooltbl := by
  intro hsame
  have hpool : c'.krnl.pool id = c.krnl.pool id := by rw [Krnl.pool, hsame, ← Krnl.pool]
  rw [Krnl.pool_of_table h.pools, Function.update_self] at hpool
  exact KcachePool.bump_ne h.align hpool

/-- A call that is refused, at once or after its slot was taken back, changes nothing. -/
theorem kmemCacheAlloc_refused (h : pagingMaxKcachePools ≤ id ∨ c.krnl.mm.kcpooltbl.isSome ∧
      ((c.krnl.pool id).Exhausted ∨ pagingMaxSymtblSz ≤ rgid)) :
    kmemCacheAlloc c rgid id = some (-1, c) := by
  rw [kmemCacheAlloc]
  split
  · rfl
  · next hid =>
      obtain ⟨htable, hslot⟩ := h.resolve_left hid
      obtain ⟨tbl, htbl⟩ := Option.isSome_iff_exists.1 htable
      rw [Krnl.pool_of_table htbl] at hslot
      simp only [htbl]
      split
      · rfl
      · next havail =>
          have hreg : ¬ rgid < pagingMaxSymtblSz := Nat.not_lt.2 (hslot.resolve_left havail)
          rw [if_neg hreg, show ((tbl id).bump (tbl id).align).align = (tbl id).align from rfl,
            KcachePool.bump_neg, Mm.setPool_self htbl]

theorem kmemCacheAlloc_carved (htable : c.krnl.mm.kcpooltbl.isSome)
    (hid : id < pagingMaxKcachePools) (hslot : ¬ (c.krnl.pool id).Exhausted)
    (hreg : rgid < pagingMaxSymtblSz) :
    ∃ c', kmemCacheAlloc c rgid id = some (0, c') ∧ Carved c rgid id c' := by
  obtain ⟨tbl, htbl⟩ := Option.isSome_iff_exists.1 htable
  have hpool := Krnl.pool_of_table htbl
  have halign : (c.krnl.pool id).align ≠ 0 := fun h0 => hslot (Or.inl h0)
  rw [hpool, KcachePool.Exhausted] at hslot
  rw [kmemCacheAlloc, if_neg (Nat.not_le.2 hid), htbl]
  simp only
  rw [if_neg hslot, if_pos hreg]
  refine ⟨_, rfl, halign, ?_, ?_⟩
  · simp [Mm.setSymrg, Mm.setPool, htbl, hpool]
  · rw [hpool]
    rfl

/-- With a table, a call is refused or carves a slot. -/
theorem kmemCacheAlloc_cases (htable : c.krnl.mm.kcpooltbl.isSome) (rgid id : ℕ) :
    (pagingMaxKcachePools ≤ id ∨ (c.krnl.pool id).Exhausted ∨ pagingMaxSymtblSz ≤ rgid) ∧
      kmemCacheAlloc c rgid id = some (-1, c) ∨
    (id < pagingMaxKcachePools ∧ ¬ (c.krnl.pool id).Exhausted ∧ rgid < pagingMaxSymtblSz) ∧
      ∃ c', kmemCacheAlloc c rgid id = some (0, c') ∧ Carved c rgid id c' := by
  by_cases hbad : pagingMaxKcachePools ≤ id ∨ (c.krnl.pool id).Exhausted ∨ pagingMaxSymtblSz ≤ rgid
  · exact Or.inl ⟨hbad, kmemCacheAlloc_refused (hbad.imp_right fun hslot => ⟨htable, hslot⟩)⟩
  · obtain ⟨hid, hserved⟩ := not_or.1 hbad
    obtain ⟨hslot, hreg⟩ := not_or.1 hserved
    rw [Nat.not_le] at hid hreg
    exact Or.inr ⟨⟨hid, hslot, hreg⟩, kmemCacheAlloc_carved htable hid hslot hreg⟩

/-- Without a table the descriptor it looks at is not there. -/
theorem kmemCacheAlloc_undefined (hid : id < pagingMaxKcachePools)
    (htable : c.krnl.mm.kcpooltbl = none) : kmemCacheAlloc c rgid id = none := by
  rw [kmemCacheAlloc, if_neg (Nat.not_le.2 hid), htable]

end Call

/-! ## Sequences of calls -/

/-- A call of `__kmem_cache_alloc`: what it returned, and the region its register has then. -/
structure CacheCall where
  rgid : ℕ
  id : ℕ
  status : ℤ
  slot : VmRg

/-- The calls for slots of a pool by registers that have regions. -/
def requests (id : ℕ) (log : List CacheCall) : List CacheCall :=
  log.filter fun call => call.id = id ∧ call.rgid < pagingMaxSymtblSz

/-- The slots that were recorded for the calls on a pool that succeeded, in order. -/
def recordedSlots (id : ℕ) (log : List CacheCall) : List VmRg :=
  ((log.filter fun call => call.id = id ∧ call.status = 0).map (·.slot)).reverse

/-- Any sequence of calls on all pools, other pools than `id` being created at any time, with the calls
    made, the latest first. -/
inductive CacheRun (host : Host) (id : ℕ) (c₀ : Caller) : List CacheCall → Caller → Prop where
  | start : CacheRun host id c₀ [] c₀
  | alloc {log : List CacheCall} {c c' : Caller} {rgid other : ℕ} {st : ℤ}
      (h : CacheRun host id c₀ log c) (hcall : kmemCacheAlloc c rgid other = some (st, c')) :
      CacheRun host id c₀ (⟨rgid, other, st, c'.krnl.mm.symrgtbl rgid⟩ :: log) c'
  | create {log : List CacheCall} {c : Caller} (h : CacheRun host id c₀ log c)
      {size align other : ℕ} (hother : other ≠ id) :
      CacheRun host id c₀ log (libkmemCachePoolCreate host c size align other).2

section Log

variable (id : ℕ) (log : List CacheCall) (call : CacheCall)

theorem requests_cons : requests id (call :: log) =
    if call.id = id ∧ call.rgid < pagingMaxSymtblSz then call :: requests id log
    else requests id log := by
  simp [requests, List.filter_cons]

theorem recordedSlots_cons : recordedSlots id (call :: log) =
    if call.id = id ∧ call.status = 0 then recordedSlots id log ++ [call.slot]
    else recordedSlots id log := by
  simp only [recordedSlots, List.filter_cons, decide_eq_true_eq]
  split <;> simp

end Log

/-- The two ends of a region. -/
def VmRg.bounds (rg : VmRg) : ℕ × ℕ := (rg.rgStart, rg.rgEnd)

/-- The descriptor of a pool of `n` bytes at `base` that `k` slots of width `w` were cut off. -/
structure KcachePool.CutOff (pool : KcachePool) (base n w k : ℕ) : Prop where
  align : pool.align = w
  size : pool.size = (n : ℤ) - (k * w : ℕ)
  storage : pool.storage = base + k * w

/-- What a sequence of calls keeps, for a pool of `n` bytes at `base` with slots of width `w`. -/
structure CacheInv (id base n w : ℕ) (log : List CacheCall) (c : Caller) : Prop where
  table : c.krnl.mm.kcpooltbl.isSome
  pool : (c.krnl.pool id).CutOff base n w (min (requests id log).length (n / w))
  recorded : (recordedSlots id log).map VmRg.bounds =
    slots base w (min (requests id log).length (n / w))

section Slots

variable {base n w k : ℕ} {pool : KcachePool}

/-- The pool has a slot left as long as fewer were cut off than fit. -/
theorem KcachePool.CutOff.exhausted_iff (h : pool.CutOff base n w k) (hw : 0 < w) :
    pool.Exhausted ↔ n / w ≤ k := by
  rw [← Nat.not_lt, ← slot_fits_iff hw, KcachePool.Exhausted, h.align, h.size, Nat.succ_mul]
  omega

/-- One slot more. -/
theorem KcachePool.CutOff.bump (h : pool.CutOff base n w k) (hwrap : base + (k + 1) * w < 2 ^ 64) :
    (pool.bump pool.align).CutOff base n w (k + 1) where
  align := h.align
  size := by
    simp only [KcachePool.bump, h.align, h.size, Nat.succ_mul]
    omega
  storage := by
    simp only [KcachePool.bump, h.align, h.storage, addrAddInt, Nat.succ_mul] at hwrap ⊢
    omega

/-- The region recorded for the next slot. -/
theorem KcachePool.CutOff.bounds (h : pool.CutOff base n w k) (hwrap : base + (k + 1) * w < 2 ^ 64) :
    VmRg.bounds ⟨pool.storage, addrAddInt pool.storage pool.align⟩ =
      (base + k * w, base + (k + 1) * w) := by
  refine Prod.ext h.storage ?_
  exact (h.bump hwrap).storage

end Slots

theorem kmallocVaddr_of_lt {rgid : ℕ} (h : rgid < 2 ^ 31) : kmallocVaddr rgid = rgid * 4096000 := by
  rw [kmallocVaddr, addrOfInt_of_lt h, paging64Pagesz, addrT_of_lt (by omega)]
  ring

section Run

variable {host : Host} {id n w : ℕ} {c₀ c : Caller} {log : List CacheCall}

/-- A pool that was created. -/
theorem libkmemCachePoolCreate_granted
    (hcreate : libkmemCachePoolCreate host c n w id = (0, c₀)) :
    (0 < w ∧ w ≤ n ∧ id < pagingMaxKcachePools) ∧
      c₀.krnl.mm.kcpooltbl = some (Function.update c.krnl.pool id (freshPool n w id)) := by
  rcases libkmemCachePoolCreate_cases host c n w id with
    ⟨-, heq⟩ | ⟨st, c', heq, ⟨hpos, hle⟩, -, ⟨rfl, -⟩ | ⟨-, hid, htable⟩⟩
  · rw [heq] at hcreate
    exact absurd (congrArg Prod.fst hcreate) (by simp)
  · rw [heq] at hcreate
    exact absurd (congrArg Prod.fst hcreate) (by simp)
  · rw [heq] at hcreate
    obtain rfl : c' = c₀ := congrArg Prod.snd hcreate
    exact ⟨⟨hpos, hle, hid⟩, htable⟩

theorem CacheInv.start (hn : n < 2 ^ 31)
    (hcreate : libkmemCachePoolCreate host c n w id = (0, c₀)) :
    CacheInv id (kmallocVaddr id) n w [] c₀ := by
  obtain ⟨⟨-, hle, -⟩, htable⟩ := libkmemCachePoolCreate_granted hcreate
  refine ⟨by rw [htable]; rfl, ?_, by simp [recordedSlots, requests]⟩
  rw [Krnl.pool_of_table htable, Function.update_self]
  refine ⟨cInt_of_lt (Nat.lt_of_le_of_lt hle hn), ?_, ?_⟩
  · simp [freshPool, requests, cInt_of_lt hn]
  · simp [freshPool, requests]

/-- Nothing was recorded for the pool, and its descriptor is as it was. -/
theorem CacheInv.congr {base : ℕ} {c' : Caller} {log' : List CacheCall}
    (h : CacheInv id base n w log c) (htable : c'.krnl.mm.kcpooltbl.isSome)
    (hpool : c'.krnl.pool id = c.krnl.pool id)
    (hrec : recordedSlots id log' = recordedSlots id log)
    (hreq : min (requests id log').length (n / w) = min (requests id log).length (n / w)) :
    CacheInv id base n w log' c' :=
  ⟨htable, by rw [hpool, hreq]; exact h.pool, by rw [hrec, hreq]; exact h.recorded⟩

/-- A call that carves a slot of the pool. -/
theorem CacheInv.carved {base : ℕ} {c' : Caller} {rgid : ℕ} (hw : 0 < w) (hwrap : base + n < 2 ^ 64)
    (h : CacheInv id base n w log c) (hslot : ¬ (c.krnl.pool id).Exhausted)
    (hreg : rgid < pagingMaxSymtblSz) (hcarved : Carved c rgid id c') :
    CacheInv id base n w (⟨rgid, id, 0, c'.krnl.mm.symrgtbl rgid⟩ :: log) c' := by
  have hroom := mt (h.pool.exhausted_iff hw).2 hslot
  have hlt : (requests id log).length < n / w := by omega
  have hmin : min (requests id log).length (n / w) = (requests id log).length :=
    Nat.min_eq_left (Nat.le_of_lt hlt)
  have hpool := h.pool
  have hrec := h.recorded
  rw [hmin] at hpool hrec
  have hfit : base + ((requests id log).length + 1) * w < 2 ^ 64 :=
    Nat.lt_of_le_of_lt (Nat.add_le_add_left ((slot_fits_iff hw).2 hlt) base) hwrap
  have hreq : min (requests id (⟨rgid, id, 0, c'.krnl.mm.symrgtbl rgid⟩ :: log)).length (n / w) =
      (requests id log).length + 1 := by
    rw [requests_cons, if_pos ⟨rfl, hreg⟩, List.length_cons]
    exact Nat.min_eq_left hlt
  refine ⟨by rw [hcarved.pools]; rfl, ?_, ?_⟩
  · rw [hreq, Krnl.pool_of_table hcarved.pools, Function.update_self]
    exact hpool.bump hfit
  · rw [hreq, recordedSlots_cons, if_pos ⟨rfl, rfl⟩, List.map_append, hrec, slots_succ,
      hcarved.regions, Function.update_self, List.map_singleton, hpool.bounds hfit]

/-- A call keeps the invariant. -/
theorem CacheInv.alloc {base : ℕ} {c' : Caller} {rgid other : ℕ} {st : ℤ}
    (hid : id < pagingMaxKcachePools) (hw : 0 < w) (hwrap : base + n < 2 ^ 64)
    (h : CacheInv id base n w log c) (hcall : kmemCacheAlloc c rgid other = some (st, c')) :
    CacheInv id base n w (⟨rgid, other, st, c'.krnl.mm.symrgtbl rgid⟩ :: log) c' := by
  rcases kmemCacheAlloc_cases h.table rgid other with
    ⟨hbad, heq⟩ | ⟨⟨-, hslot, hreg⟩, c₁, heq, hcarved⟩
  · rw [heq] at hcall
    cases hcall
    refine h.congr h.table rfl (by simp [recordedSlots_cons]) ?_
    rw [requests_cons]
    split
    · next hreq =>
        -- a call by a register with a region is refused when as many were served as slots fit
        obtain ⟨rfl, hreg⟩ := hreq
        have hfull := (h.pool.exhausted_iff hw).1 ((hbad.resolve_left (Nat.not_le.2 hid)).resolve_right
          (Nat.not_le.2 hreg))
        rw [List.length_cons]
        omega
    · rfl
  · rw [heq] at hcall
    cases hcall
    by_cases hsame : other = id
    · subst hsame
      exact h.carved hw hwrap hslot hreg hcarved
    · refine h.congr (by rw [hcarved.pools]; rfl) ?_ ?_ ?_
      · rw [Krnl.pool_of_table hcarved.pools, Function.update_of_ne (Ne.symm hsame)]
      · simp [recordedSlots_cons, hsame]
      · simp [requests_cons, hsame]

/-- Creating another pool leaves this one as it is. -/
theorem CacheInv.create {base size align other : ℕ} (hother : other ≠ id)
    (h : CacheInv id base n w log c) :
    CacheInv id base n w log (libkmemCachePoolCreate host c size align other).2 := by
  rcases libkmemCachePoolCreate_cases host c size align other with
    ⟨-, heq⟩ | ⟨st, c', heq, -, -, ⟨-, htable⟩ | ⟨-, -, htable⟩⟩
  · rw [heq]
    exact h
  · rw [heq]
    exact h.congr (by rw [htable]; rfl) (by rw [Krnl.pool_of_table htable]) rfl rfl
  · rw [heq]
    refine h.congr (by rw [htable]; rfl) ?_ rfl rfl
    rw [Krnl.pool_of_table htable, Function.update_of_ne (Ne.symm hother)]

/-- The storage of a pool ends far below the end of the address space. -/
theorem kmallocVaddr_add_lt (hid : id < pagingMaxKcachePools) (hn : n < 2 ^ 31) :
    kmallocVaddr id + n < 2 ^ 64 := by
  unfold pagingMaxKcachePools at hid
  rw [kmallocVaddr_of_lt (by omega)]
  omega

theorem CacheRun.inv (hn : n < 2 ^ 31) (hcreate : libkmemCachePoolCreate host c n w id = (0, c₀))
    {c' : Caller} (h : CacheRun host id c₀ log c') :
    CacheInv id (kmallocVaddr id) n w log c' := by
  obtain ⟨⟨hw, -, hid⟩, -⟩ := libkmemCachePoolCreate_granted hcreate
  induction h with
  | start => exact .start hn hcreate
  | alloc _ hcall ih => exact ih.alloc hid hw (kmallocVaddr_add_lt hid hn) hcall
  | create _ hother ih => exact ih.create hother

/-- What the slots of a pool of `n` bytes at `base` are after a sequence of calls, and what the next
    call does. -/
structure SlotsExact (id base n w : ℕ) (log : List CacheCall) (c : Caller) : Prop where
  recorded : (recordedSlots id log).map VmRg.bounds =
    slots base w (min (requests id log).length (n / w))
  inside : ∀ rg ∈ recordedSlots id log, base ≤ rg.rgStart ∧ rg.rgEnd ≤ base + n
  disjoint : (recordedSlots id log).Pairwise fun a b => a.rgEnd ≤ b.rgStart
  exhausted : (c.krnl.pool id).Exhausted ↔ (recordedSlots id log).length = n / w
  next : ∀ rgid other, ∃ st c', kmemCacheAlloc c rgid other = some (st, c') ∧
    (st = 0 ∨ st = -1 ∧ c'.krnl.mm.kcpooltbl = c.krnl.mm.kcpooltbl) ∧
    (st = -1 ↔ pagingMaxSymtblSz ≤ rgid ∨ pagingMaxKcachePools ≤ other ∨
      (c.krnl.pool other).Exhausted)

theorem CacheInv.slotsExact {base : ℕ} (hw : 0 < w) (h : CacheInv id base n w log c) :
    SlotsExact id base n w log c := by
  have hlen : (recordedSlots id log).length = min (requests id log).length (n / w) := by
    rw [← @List.length_map _ _ (recordedSlots id log) VmRg.bounds, h.recorded, length_slots]
  refine ⟨h.recorded, fun rg hrg => ?_, ?_, ?_, fun rgid other => ?_⟩
  · have hmem := List.mem_map_of_mem (f := VmRg.bounds) hrg
    rw [h.recorded] at hmem
    obtain ⟨hlo, -, hhi⟩ := mem_slots_inside hw (Nat.min_le_right ..) hmem
    exact ⟨hlo, hhi⟩
  · have hpair := pairwise_slots base w (min (requests id log).length (n / w))
    rw [← h.recorded] at hpair
    exact List.pairwise_map.1 hpair
  · rw [h.pool.exhausted_iff hw, hlen]
    omega
  · rcases kmemCacheAlloc_cases h.table rgid other with
      ⟨hbad, heq⟩ | ⟨⟨hother, hslot, hreg⟩, c', heq, -⟩
    · exact ⟨-1, c, heq, Or.inr ⟨rfl, rfl⟩, iff_of_true rfl (by tauto)⟩
    · refine ⟨0, c', heq, Or.inl rfl, iff_of_false (by simp) ?_⟩
      rw [← Nat.not_le] at hother hreg
      tauto

/-- **Slots.** Whatever the calls on a created pool and on other pools were, its recorded slots follow
    one another from its base, as many as there were calls by registers with regions, up to those that
    fit; a call that has no slot to record fails and leaves all pools as they were. -/
theorem cacheRun_slotsExact (hn : n < 2 ^ 31)
    (hcreate : libkmemCachePoolCreate host c n w id = (0, c₀)) {c' : Caller}
    (h : CacheRun host id c₀ log c') :
    SlotsExact id (c₀.krnl.pool id).storage n w log c' := by
  obtain ⟨⟨hw, -, -⟩, htable⟩ := libkmemCachePoolCreate_granted hcreate
  rw [Krnl.pool_of_table htable, Function.update_self]
  exact (h.inv hn hcreate).slotsExact hw

end Run

/-- A pool of two slots, right after it was created. -/
def twoSlotPool : Caller := (libkmemCachePoolCreate generousHost (freshCaller 2 1) 300 128 0).2

theorem twoSlotPool_created :
    libkmemCachePoolCreate generousHost (freshCaller 2 1) 300 128 0 = (0, twoSlotPool) :=
  Prod.ext (by decide +kernel) rfl

/-- The caller after a call of `__kmem_cache_alloc`. -/
def Caller.slotCall (c : Caller) (rgid id : ℕ) : Caller :=
  ((kmemCacheAlloc c rgid id).map Prod.snd).getD c

theorem kmemCacheAlloc_slotCall {c : Caller} {rgid id : ℕ} {st : ℤ}
    (h : (kmemCacheAlloc c rgid id).map Prod.fst = some st) :
    kmemCacheAlloc c rgid id = some (st, c.slotCall rgid id) := by
  obtain ⟨r, hr, rfl⟩ := Option.map_eq_some_iff.1 h
  rw [Caller.slotCall, hr]
  rfl

/-- Both slots are handed out, with a call on another pool and one for a register without a region in
    between; a third is refused. -/
theorem cacheRun_slotsExact_fiveCalls :
    let c₁ := twoSlotPool.slotCall 1 0
    let c₂ := (libkmemCachePoolCreate generousHost c₁ 200 100 1).2
    let c₃ := c₂.slotCall 2 1
    let c₄ := c₃.slotCall 30 0
    let c₅ := c₄.slotCall 3 0
    let c₆ := c₅.slotCall 4 0
    let base := (twoSlotPool.krnl.pool 0).storage
    let log : List CacheCall := [⟨4, 0, -1, c₆.krnl.mm.symrgtbl 4⟩, ⟨3, 0, 0, c₅.krnl.mm.symrgtbl 3⟩,
      ⟨30, 0, -1, c₄.krnl.mm.symrgtbl 30⟩, ⟨2, 1, 0, c₃.krnl.mm.symrgtbl 2⟩,
      ⟨1, 0, 0, c₁.krnl.mm.symrgtbl 1⟩]
    (recordedSlots 0 log).map VmRg.bounds = [(base, base + 128), (base + 128, base + 256)] ∧
      SlotsExact 0 base 300 128 log c₆ := by
  intro c₁ c₂ c₃ c₄ c₅ c₆ base log
  have hcalls : (kmemCacheAlloc twoSlotPool 1 0).map Prod.fst = some 0 ∧
      (kmemCacheAlloc c₂ 2 1).map Prod.fst = some 0 ∧ (kmemCacheAlloc c₃ 30 0).map Prod.fst = some (-1) ∧
      (kmemCacheAlloc c₄ 3 0).map Prod.fst = some 0 ∧
      (kmemCacheAlloc c₅ 4 0).map Prod.fst = some (-1) := by decide +kernel
  obtain ⟨hcall₁, hcall₂, hcall₃, hcall₄, hcall₅⟩ := hcalls
  have h₁ : CacheRun generousHost 0 twoSlotPool _ c₁ := .alloc .start (kmemCacheAlloc_slotCall hcall₁)
  have h₂ : CacheRun generousHost 0 twoSlotPool _ c₂ := h₁.create Nat.one_ne_zero
  have h₃ := h₂.alloc (kmemCacheAlloc_slotCall hcall₂)
  have h₄ := h₃.alloc (kmemCacheAlloc_slotCall hcall₃)
  have h₅ := h₄.alloc (kmemCacheAlloc_slotCall hcall₄)
  have h := h₅.alloc (kmemCacheAlloc_slotCall hcall₅)
  exact ⟨by decide +kernel, cacheRun_slotsExact (by decide) twoSlotPool_created h⟩

/-! ## What is reported -/

/-- `libkmem_cache_alloc` returns 0 exactly if it carved a slot, and -1 otherwise, with the pools and
    regions of the kernel as they were. Undefined behaviour is no report. -/
def ReportsCarving (c : Caller) (id regIndex : ℕ) : Prop :=
  ∃ st c', libkmemCacheAlloc c id regIndex = some (st, c') ∧
    (st = 0 ↔ Carved c regIndex id c') ∧
    (st ≠ 0 → st = -1 ∧ c'.krnl.mm.kcpooltbl = c.krnl.mm.kcpooltbl ∧
      c'.krnl.mm.symrgtbl = c.krnl.mm.symrgtbl)

/-- It reports what it did exactly if it had no slot to carve and a table to look into, or a pool number
    out of range. -/
theorem reportsCarving_iff (c : Caller) (id regIndex : ℕ) :
    ReportsCarving c id regIndex ↔ pagingMaxKcachePools ≤ id ∨
      c.krnl.mm.kcpooltbl.isSome ∧ ((c.krnl.pool id).Exhausted ∨ pagingMaxSymtblSz ≤ regIndex) := by
  constructor
  · rintro ⟨st, c', heq, hiff, hkeep⟩
    by_contra hbad
    obtain ⟨hid, hserved⟩ := not_or.1 hbad
    rw [Nat.not_le] at hid
    cases htable : c.krnl.mm.kcpooltbl with
    | none =>
        rw [libkmemCacheAlloc, kmemCacheAlloc_undefined hid htable] at heq
        exact absurd heq (by simp)
    | some tbl =>
        have hsome : c.krnl.mm.kcpooltbl.isSome := by rw [htable]; rfl
        obtain ⟨-, c₁, hcall, hcarved⟩ := (kmemCacheAlloc_cases hsome regIndex id).resolve_left
          fun hrefused => hserved ⟨hsome, hrefused.1.resolve_left (Nat.not_le.2 hid)⟩
        -- the helper's 0 comes back as -1
        rw [libkmemCacheAlloc, hcall] at heq
        cases heq
        exact absurd (hiff.2 hcarved) (by simp)
  · intro hbad
    refine ⟨-1, c, ?_, iff_of_false (by simp) fun hcarved => ?_, fun _ => ⟨rfl, rfl, rfl⟩⟩
    · rw [libkmemCacheAlloc, kmemCacheAlloc_refused hbad]
      rfl
    · exact hcarved.table_ne rfl

end Ossim
