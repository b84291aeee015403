import Ossim.System

set_option autoImplicit false

/-! # Where kernel requests are placed

`__kmalloc` places a request by its number alone: number `n` starts 1000 pages after number `n - 1`.
The numbers are registers for KMALLOC and pools for KMEM_CACHE_CREATE, in one address space, and
nobody looks how many pages a request takes or whether they are mapped. Requests are disjoint as long
as their numbers are different and the one with the lower number ends before the other. -/

namespace Ossim

/-! ## Requests -/

/-- A request for kernel memory that gets to `__kmalloc`. -/
structure KRequest where
  rgid : ℕ
  size : ℕ

namespace KRequest

/-- The pages it takes. -/
def pages (r : KRequest) : ℕ := kmallocNumPages r.size

/-- The page it has in iteration `i`. -/
def page (host : Host) (r : KRequest) (i : ℕ) : PageIx := pageIx host (kmallocPgn r.rgid i)

/-- The address of its byte `k`. -/
def addr (r : KRequest) (k : ℕ) : ℕ := addrT (kmallocVaddr r.rgid + k)

/-- The ranges of two requests have no address in common. -/
def Disjoint (r r' : KRequest) : Prop := ∀ k < r.size, ∀ k' < r'.size, r.addr k ≠ r'.addr k'

/-- The pages the kernel has frames for. -/
def reach (r : KRequest) (krnl : Krnl) : ℕ := min r.pages krnl.mram.freeFpList.length

/-- An earlier request ends before a new one that gets to `n` pages, or the new one before it. -/
def Apart (r : KRequest) (n : ℕ) (new : KRequest) : Prop :=
  n = 0 ∨ cInt r.rgid < cInt new.rgid ∧ (r.pages : ℤ) ≤ 1000 * (cInt new.rgid - cInt r.rgid) ∨
    cInt new.rgid < cInt r.rgid ∧ (n : ℤ) ≤ 1000 * (cInt r.rgid - cInt new.rgid)

end KRequest

/-- The three instructions. -/
def InsOpcode.OnKernel : InsOpcode → Prop
  | .kmalloc | .kmemCacheCreate | .kmemCacheAlloc => True
  | _ => False

/-- The request an instruction makes. KMEM_CACHE_CREATE tests its operands first. -/
def Inst.request (ins : Inst) : Option KRequest :=
  match ins.opcode with
  | .kmalloc => some ⟨uint32 ins.arg1, uint32 ins.arg0⟩
  | .kmemCacheCreate =>
    if uint32 ins.arg0 = 0 ∨ uint32 ins.arg1 = 0 ∨ uint32 ins.arg0 < uint32 ins.arg1 then none
    else if pagingMaxKcachePools ≤ uint32 ins.arg2 then none
    else some ⟨uint32 ins.arg2, uint32 ins.arg0⟩
  | _ => none

/-- A granted request, with the page table of the kernel right after it. -/
abbrev Grant := KRequest × (PageIx → BitVec 64)

/-- The request an instruction was granted, if it returned 0. -/
def Inst.grants (ins : Inst) (st : ℤ) (krnl : Krnl) : List Grant :=
  if st = 0 then ins.request.toList.map fun r => (r, krnl.mm.entry) else []

/-- Any sequence of the three instructions by any processes, each under a condition, with the requests
    granted so far, the latest first. -/
inductive KmemRun (ok : Krnl → List Grant → Inst → Prop) (host : Host) (s₀ : System) :
    List Grant → System → Prop where
  | start : KmemRun ok host s₀ [] s₀
  | step {gs : List Grant} {s : System} (h : KmemRun ok host s₀ gs s) {pid : ℕ} {c c' : Caller}
      {ins : Inst} {st : ℤ} (hc : s.caller pid = some c) (hop : ins.opcode.OnKernel)
      (hok : ok s.krnl gs ins) (hexec : execInst host c ins = some (st, c')) :
      KmemRun ok host s₀ (ins.grants st c'.krnl ++ gs) (s.put pid c')

/-- The ranges of the requests granted are disjoint, and the entries of their pages are as they were
    when they were granted. -/
structure GrantsKept (host : Host) (gs : List Grant) (krnl : Krnl) : Prop where
  disjoint : gs.Pairwise fun g g' => g.1.Disjoint g'.1
  kept : ∀ g ∈ gs, ∀ i < g.1.pages, krnl.mm.entry (g.1.page host i) = g.2 (g.1.page host i)

/-- The new request is apart from those granted, and the offsets of the pages it can get to fit an
    `int`. -/
def RequestOk (krnl : Krnl) (gs : List Grant) (ins : Inst) : Prop :=
  ∀ r ∈ ins.request, r.reach krnl ≤ 2 ^ 19 ∧ ∀ g ∈ gs, g.1.Apart (r.reach krnl) r

/-! ## Pages and addresses -/

theorem kmallocVaddr_coe (rgid : ℕ) : (kmallocVaddr rgid : ℤ) = cInt rgid * 4096000 % 2 ^ 64 := by
  have hint := addrOfInt_coe rgid
  unfold kmallocVaddr addrT paging64Pagesz
  omega

/-- The pages of number `rgid` start at `rgid * 1000`. -/
theorem kmallocPgn_coe (rgid : ℕ) {i : ℕ} (hi : i < 2 ^ 19) :
    (kmallocPgn rgid i : ℤ) = (cInt rgid * 1000 + i) % 2 ^ 52 := by
  have haddr := kmallocVaddr_coe rgid
  have hoff : addrOfInt (i * 4096) = i * 4096 := addrOfInt_of_lt (by omega)
  unfold kmallocPgn addrT paging64Pagesz
  rw [hoff, Nat.shiftRight_eq_div_pow]
  omega

/-- The numbers are 32-bit, so the pages are near the two ends of the address space. -/
theorem kmallocPgn_canonical {rgid i : ℕ} (hi : i < 2 ^ 19) : CanonicalPgn (kmallocPgn rgid i) := by
  have hint := cInt_bounds rgid
  have hpgn := kmallocPgn_coe rgid hi
  unfold CanonicalPgn
  rcases le_or_gt 0 (cInt rgid * 1000 + i) with hpos | hneg
  · rw [Int.emod_eq_of_lt hpos (by omega)] at hpgn
    omega
  · rw [← Int.add_emod_right, Int.emod_eq_of_lt (by omega) (by omega)] at hpgn
    omega

/-- Pages of requests are the same only if they are the same number of pages from the start. -/
theorem kmallocPgn_inj {host : Host} {a b i j : ℕ} (hi : i < 2 ^ 19) (hj : j < 2 ^ 19)
    (h : pageIx host (kmallocPgn a i) = pageIx host (kmallocPgn b j)) :
    cInt a * 1000 + i = cInt b * 1000 + j := by
  have ha := cInt_bounds a
  have hb := cInt_bounds b
  have hpa := kmallocPgn_coe a hi
  have hpb := kmallocPgn_coe b hj
  have hmod := mod_eq_of_pageIx_eq host (kmallocPgn_canonical hi) (kmallocPgn_canonical hj) h
  omega

theorem KRequest.size_le {r : KRequest} (hsize : r.size < 2 ^ 32) : r.size ≤ 4096 * r.pages := by
  rw [KRequest.pages, kmallocNumPages_of_lt hsize]
  omega

/-- A request that ends before the number of another. -/
theorem KRequest.addr_ne {r r' : KRequest} (hsize : r.size < 2 ^ 32) (hsize' : r'.size < 2 ^ 32)
    (hlt : cInt r.rgid < cInt r'.rgid)
    (hle : (r.pages : ℤ) ≤ 1000 * (cInt r'.rgid - cInt r.rgid)) {k k' : ℕ} (hk : k < r.size)
    (hk' : k' < r'.size) : r.addr k ≠ r'.addr k' := by
  have hend := KRequest.size_le hsize
  have ha := kmallocVaddr_coe r.rgid
  have hb := kmallocVaddr_coe r'.rgid
  have hba := cInt_bounds r.rgid
  have hbb := cInt_bounds r'.rgid
  unfold KRequest.addr addrT
  omega

/-! ## What a request changes -/

section Loop

variable (host : Host) (rgid : ℕ)

/-- One iteration of `__kmalloc` uses up a frame, and changes at most the entry of its page. -/
theorem kmallocLoop_cases (n i : ℕ) (krnl : Krnl) :
    (kmallocLoop host rgid (n + 1) i krnl).1 = -1 ∧
      (∀ q, (krnl.mram.freeFpList = [] ∨ q ≠ pageIx host (kmallocPgn rgid i)) →
        (kmallocLoop host rgid (n + 1) i krnl).2.mm.entry q = krnl.mm.entry q) ∨
    ∃ f krnl₁, krnl.mram.freeFpList = f :: krnl₁.mram.freeFpList ∧
      (∀ q, q ≠ pageIx host (kmallocPgn rgid i) → krnl₁.mm.entry q = krnl.mm.entry q) ∧
      kmallocLoop host rgid (n + 1) i krnl = kmallocLoop host rgid n (i + 1) krnl₁ := by
  rw [kmallocLoop]
  cases hget : memphyGetFreefp krnl.mram with
  | none => exact Or.inl ⟨rfl, fun _ _ => rfl⟩
  | some x =>
      obtain ⟨f, mram⟩ := x
      obtain ⟨rest, hcons, hmram⟩ := memphyGetFreefp_eq_some hget
      have hfree : krnl.mram.freeFpList = f :: mram.freeFpList := by rw [hcons, hmram]
      have hptr := fun q => getPtePtr_entry host krnl.mm (kmallocPgn rgid i) true q
      have hsome := fun p => getPtePtr_some host krnl.mm (kmallocPgn rgid i) true (p := p)
      simp only
      generalize getPtePtr host krnl.mm (kmallocPgn rgid i) true = x at *
      obtain ⟨ptr, mm₁⟩ := x
      -- the loop is left if no table can be had; the frame is gone then
      cases ptr with
      | none => exact Or.inl ⟨rfl, fun q _ => hptr q⟩
      | some p =>
          obtain ⟨rfl, -⟩ := hsome p rfl
          have hset := fun q (hq : q ≠ pageIx host (kmallocPgn rgid i)) =>
            (pteUpdate_entry_of_ne host mm₁ _ (fun pte => pteFpnWord pte f) hq).trans (hptr q)
          simp only [pteSetFpn]
          generalize pteUpdate host mm₁ (kmallocPgn rgid i) (fun pte => pteFpnWord pte f) = x at *
          obtain ⟨st, mm₂⟩ := x
          split
          · next heq =>
              cases heq
              refine Or.inr ⟨f, _, hfree, fun q hq => ?_, rfl⟩
              exact (Radix.Tree.lookup_write_of_ne 0 mm₂.pgd _ hq).trans (hset q hq)
          · next heq =>
              cases heq
              refine Or.inl ⟨rfl, fun q hq => ?_⟩
              exact hset q (hq.resolve_left (by simp [hfree]))

/-- `__kmalloc` changes the entries of the pages it has frames for only, and on success it has frames
    for all. -/
theorem kmallocLoop_only (n i : ℕ) (krnl : Krnl) :
    (∀ q, (∀ j < min n krnl.mram.freeFpList.length, q ≠ pageIx host (kmallocPgn rgid (i + j))) →
      (kmallocLoop host rgid n i krnl).2.mm.entry q = krnl.mm.entry q) ∧
    ((kmallocLoop host rgid n i krnl).1 = 0 → n ≤ krnl.mram.freeFpList.length) := by
  induction n generalizing i krnl with
  | zero => exact ⟨fun _ _ => rfl, fun _ => Nat.zero_le _⟩
  | succ n ih =>
      rcases kmallocLoop_cases host rgid n i krnl with
        ⟨hst, hkeep⟩ | ⟨f, krnl₁, hfree, hkeep, heq⟩
      · refine ⟨fun q hq => hkeep q ?_, fun h0 => absurd (hst.symm.trans h0) (by simp)⟩
        cases hlen : krnl.mram.freeFpList with
        | nil => exact Or.inl rfl
        | cons f rest => exact Or.inr (hq 0 (by simp [hlen]))
      · obtain ⟨hrest, hlen⟩ := ih (i + 1) krnl₁
        rw [heq, hfree, List.length_cons]
        refine ⟨fun q hq => ?_, fun h0 => Nat.succ_le_succ (hlen h0)⟩
        rw [hrest q fun j hj => ?_, hkeep q (hq 0 (by omega))]
        have hne := hq (j + 1) (by omega)
        rwa [show i + (j + 1) = i + 1 + j by omega] at hne

end Loop

/-- What a call for memory of the kernel does: it changes the pages it can get to only, and on success
    it gets to all. -/
structure KRequest.Served (host : Host) (r : KRequest) (krnl : Krnl) (st : ℤ) (krnl' : Krnl) : Prop where
  only : ∀ q, (∀ i < r.reach krnl, q ≠ r.page host i) → krnl'.mm.entry q = krnl.mm.entry q
  frames : st = 0 → r.pages ≤ krnl.mram.freeFpList.length

section Served

variable (host : Host) (c : Caller)

theorem kmalloc_served (rgid size : ℕ) :
    KRequest.Served host ⟨rgid, size⟩ c.krnl (kmalloc host c rgid size).1
      (kmalloc host c rgid size).2.krnl := by
  rw [kmalloc]
  split
  · exact ⟨fun _ _ => rfl, fun h => absurd h (by simp)⟩
  · obtain ⟨honly, hframes⟩ := kmallocLoop_only host rgid (kmallocNumPages size) 0 c.krnl
    refine ⟨fun q hq => honly q fun j hj => ?_, hframes⟩
    rw [Nat.zero_add]
    exact hq j hj

theorem libkmemMalloc_served (size regIndex : ℕ) :
    KRequest.Served host ⟨regIndex, size⟩ c.krnl (libkmemMalloc host c size regIndex).1
      (libkmemMalloc host c size regIndex).2.krnl := by
  have hserved := kmalloc_served host c regIndex size
  rw [libkmemMalloc]
  split
  · exact ⟨fun _ _ => rfl, fun h => absurd h (by simp)⟩
  · generalize kmalloc host c regIndex size = x at *
    split
    · exact hserved
    · exact ⟨hserved.only, fun h => absurd h (by simp)⟩

/-- The table of pools is not a page. -/
theorem libkmemCachePoolCreate_served (size align cachePoolId : ℕ) :
    KRequest.Served host ⟨cachePoolId, size⟩ c.krnl
      (libkmemCachePoolCreate host c size align cachePoolId).1
      (libkmemCachePoolCreate host c size align cachePoolId).2.krnl := by
  have hserved := kmalloc_served host { c with krnl := c.krnl.withKcpooltbl } cachePoolId size
  rw [libkmemCachePoolCreate]
  split
  · exact ⟨fun _ _ => rfl, fun h => absurd h (by simp)⟩
  · simp only
    split
    · exact ⟨fun _ _ => rfl, fun h => absurd h (by simp)⟩
    · generalize kmalloc host { c with krnl := c.krnl.withKcpooltbl } cachePoolId size = x at *
      split
      · exact ⟨hserved.only, hserved.frames⟩
      · exact ⟨hserved.only, fun h => absurd h (by simp)⟩

/-- KMEM_CACHE_CREATE with operands that do not get to `__kmalloc` maps nothing. -/
theorem libkmemCachePoolCreate_refused (size align cachePoolId : ℕ)
    (h : (size = 0 ∨ align = 0 ∨ size < align) ∨ pagingMaxKcachePools ≤ cachePoolId) :
    (libkmemCachePoolCreate host c size align cachePoolId).2.krnl.mm.entry = c.krnl.mm.entry := by
  rw [libkmemCachePoolCreate]
  split
  · rfl
  · next hno =>
      simp only [if_pos (h.resolve_left hno)]
      rfl

theorem kmemCacheAlloc_entry {c' : Caller} {rgid cachePoolId : ℕ} {st : ℤ}
    (h : kmemCacheAlloc c rgid cachePoolId = some (st, c')) :
    c'.krnl.mm.entry = c.krnl.mm.entry := by
  rw [kmemCacheAlloc] at h
  split at h
  · cases h; rfl
  · split at h
    · cases h
    · simp only at h
      split_ifs at h <;> cases h <;> rfl

end Served

/-- The pages a kernel instruction can change are those of its request. -/
theorem execInst_served {host : Host} {c c' : Caller} {ins : Inst} {st : ℤ}
    (hop : ins.opcode.OnKernel) (h : execInst host c ins = some (st, c')) :
    (∀ r ∈ ins.request, r.Served host c.krnl st c'.krnl) ∧
      (ins.request = none → c'.krnl.mm.entry = c.krnl.mm.entry) := by
  rw [execInst] at h
  rw [Inst.request]
  cases hins : ins.opcode with
  | kmalloc =>
      simp only [hins, Option.some.injEq] at h
      refine ⟨?_, fun hnone => absurd hnone (by simp)⟩
      rintro r ⟨rfl⟩
      have hserved := libkmemMalloc_served host c (uint32 ins.arg0) (uint32 ins.arg1)
      rwa [h] at hserved
  | kmemCacheCreate =>
      simp only [hins, Option.some.injEq] at h
      have hserved := libkmemCachePoolCreate_served host c (uint32 ins.arg0) (uint32 ins.arg1)
        (uint32 ins.arg2)
      have hrefused := libkmemCachePoolCreate_refused host c (uint32 ins.arg0) (uint32 ins.arg1)
        (uint32 ins.arg2)
      rw [h] at hserved hrefused
      simp only
      -- refused before the request is made
      split_ifs with hsize hpool
      · exact ⟨fun _ hr => absurd hr (by simp), fun _ => hrefused (Or.inl hsize)⟩
      · exact ⟨fun _ hr => absurd hr (by simp), fun _ => hrefused (Or.inr hpool)⟩
      · refine ⟨?_, fun hnone => absurd hnone (by simp)⟩
        rintro r ⟨rfl⟩
        exact hserved
  | kmemCacheAlloc =>
      simp only [hins] at h
      obtain ⟨⟨st', c₁⟩, halloc, heq⟩ := Option.map_eq_some_iff.1 h
      obtain ⟨-, rfl⟩ := Prod.mk.inj heq
      exact ⟨fun _ hr => absurd hr (by simp), fun _ => kmemCacheAlloc_entry c halloc⟩
  | _ => exact absurd hop (by simp [InsOpcode.OnKernel, hins])

/-! ## Runs -/

/-- What a run keeps: with the ranges and entries, that granted requests are of the size the code can
    place. -/
structure GrantInv (host : Host) (gs : List Grant) (krnl : Krnl) : Prop where
  kept : GrantsKept host gs krnl
  pages_le : ∀ g ∈ gs, g.1.pages ≤ 2 ^ 19
  size_lt : ∀ g ∈ gs, g.1.size < 2 ^ 32

theorem Inst.request_size_lt {ins : Inst} {r : KRequest} (h : ins.request = some r) :
    r.size < 2 ^ 32 := by
  have hlt : uint32 ins.arg0 < 2 ^ 32 := Nat.mod_lt _ (by decide)
  rw [Inst.request] at h
  split at h
  · cases h; exact hlt
  · split_ifs at h
    cases h
    exact hlt
  · cases h

/-- A request keeps the entries of an earlier one it is apart from. -/
theorem KRequest.Apart.page_ne {host : Host} {r new : KRequest} {n i j : ℕ} (h : r.Apart n new)
    (hr : r.pages ≤ 2 ^ 19) (hn : n ≤ 2 ^ 19) (hi : i < r.pages) (hj : j < n) :
    r.page host i ≠ new.page host j := by
  intro heq
  have hsame := kmallocPgn_inj (Nat.lt_of_lt_of_le hi hr) (Nat.lt_of_lt_of_le hj hn) heq
  unfold KRequest.Apart at h
  omega

/-- A request that gets to all its pages is disjoint from an earlier one it is apart from. -/
theorem KRequest.Apart.disjoint {r new : KRequest} (h : r.Apart new.pages new)
    (hsize : r.size < 2 ^ 32) (hsize' : new.size < 2 ^ 32) : new.Disjoint r := by
  intro k hk k' hk'
  rcases h with hzero | ⟨hlt, hle⟩ | ⟨hlt, hle⟩
  · have hend := KRequest.size_le hsize'
    omega
  · exact (KRequest.addr_ne hsize hsize' hlt hle hk' hk).symm
  · exact KRequest.addr_ne hsize' hsize hlt hle hk hk'

/-- One step: an instruction on the kernel keeps the entries of what was granted. -/
theorem GrantInv.kept_step {host : Host} {gs : List Grant} {c c' : Caller} {ins : Inst} {st : ℤ}
    (hinv : GrantInv host gs c.krnl) (hop : ins.opcode.OnKernel) (hok : RequestOk c.krnl gs ins)
    (hexec : execInst host c ins = some (st, c')) {g : Grant} (hg : g ∈ gs) {i : ℕ}
    (hi : i < g.1.pages) :
    c'.krnl.mm.entry (g.1.page host i) = g.2 (g.1.page host i) := by
  rw [← hinv.kept.kept g hg i hi]
  obtain ⟨hserved, hnone⟩ := execInst_served hop hexec
  cases hr : ins.request with
  | none => rw [hnone hr]
  | some r =>
      obtain ⟨hreach, hapart⟩ := hok r hr
      refine (hserved r hr).only _ fun j hj => ?_
      exact (hapart g hg).page_ne (hinv.pages_le g hg) hreach hi hj

theorem GrantInv.step {host : Host} {gs : List Grant} {c c' : Caller} {ins : Inst} {st : ℤ}
    (hinv : GrantInv host gs c.krnl) (hop : ins.opcode.OnKernel) (hok : RequestOk c.krnl gs ins)
    (hexec : execInst host c ins = some (st, c')) :
    GrantInv host (ins.grants st c'.krnl ++ gs) c'.krnl := by
  have hkept := fun g hg i hi => hinv.kept_step hop hok hexec (g := g) hg (i := i) hi
  rw [Inst.grants]
  split
  · next hst =>
      cases hr : ins.request with
      | none => exact ⟨⟨hinv.kept.disjoint, hkept⟩, hinv.pages_le, hinv.size_lt⟩
      | some r =>
          obtain ⟨hreach, hapart⟩ := hok r hr
          have hframes := ((execInst_served hop hexec).1 r hr).frames hst
          have hall : r.reach c.krnl = r.pages := Nat.min_eq_left hframes
          rw [hall] at hreach hapart
          have hsize := Inst.request_size_lt hr
          refine ⟨⟨List.Pairwise.cons ?_ hinv.kept.disjoint, ?_⟩, ?_, ?_⟩
          · exact fun g hg => (hapart g hg).disjoint (hinv.size_lt g hg) hsize
          · exact List.forall_mem_cons.2 ⟨fun _ _ => rfl, hkept⟩
          · exact List.forall_mem_cons.2 ⟨hreach, hinv.pages_le⟩
          · exact List.forall_mem_cons.2 ⟨hsize, hinv.size_lt⟩
  · exact ⟨⟨hinv.kept.disjoint, hkept⟩, hinv.pages_le, hinv.size_lt⟩

theorem KmemRun.grantInv {host : Host} {s₀ s : System} {gs : List Grant}
    (h : KmemRun RequestOk host s₀ gs s) : GrantInv host gs s.krnl := by
  induction h with
  | start =>
      exact ⟨⟨List.Pairwise.nil, fun _ h => absurd h List.not_mem_nil⟩,
        fun _ h => absurd h List.not_mem_nil, fun _ h => absurd h List.not_mem_nil⟩
  | step _ hc hop hok hexec ih =>
      rw [(System.caller_eq_some hc).2] at ih hok
      exact ih.step hop hok hexec

/-- The caller an instruction leaves. -/
def Caller.exec (host : Host) (c : Caller) (ins : Inst) : Caller :=
  ((execInst host c ins).map Prod.snd).getD c

theorem KmemRun.exec {ok : Krnl → List Grant → Inst → Prop} {host : Host} {s₀ s : System}
    {gs : List Grant} (h : KmemRun ok host s₀ gs s) (pid : ℕ) (c : Caller) (ins : Inst) (st : ℤ)
    (hc : s.caller pid = some c) (hop : ins.opcode.OnKernel) (hok : ok s.krnl gs ins)
    (hst : (execInst host c ins).map Prod.fst = some st) :
    KmemRun ok host s₀ (ins.grants st (c.exec host ins).krnl ++ gs) (s.put pid (c.exec host ins)) := by
  obtain ⟨⟨st', c'⟩, hexec, rfl⟩ := Option.map_eq_some_iff.1 hst
  have hc' : c.exec host ins = c' := by simp [Caller.exec, hexec]
  rw [hc']
  exact .step h hc hop hok hexec

/-- **Kernel requests are disjoint, as long as their numbers leave room.** In every run whose requests
    are each apart from those granted before, the ranges granted are disjoint and no entry of a page of
    theirs has changed since. -/
theorem grants_kept_of_apart {host : Host} {s₀ s : System} {gs : List Grant}
    (h : KmemRun RequestOk host s₀ gs s) : GrantsKept host gs s.krnl :=
  h.grantInv.kept

/-- Two processes that ask for memory of the kernel under different numbers. -/
theorem grants_kept_of_apart_two :
    ∃ gs s, KmemRun RequestOk generousHost (twoProcs 4 1 fun _ => []) gs s ∧
      gs.map Prod.fst = [⟨1, 5000⟩, ⟨0, 100⟩] ∧ GrantsKept generousHost gs s.krnl := by
  let s₀ := twoProcs 4 1 fun _ => []
  let ins₁ : Inst := ⟨.kmalloc, 100, 0, 0, 0⟩
  let ins₂ : Inst := ⟨.kmalloc, 5000, 1, 0, 0⟩
  let c₁ : Caller := ⟨freshProc [] 0, s₀.krnl⟩
  let c₂ : Caller := ⟨freshProc [] 0, (c₁.exec generousHost ins₁).krnl⟩
  have hstart : KmemRun RequestOk generousHost s₀ [] s₀ := .start
  have hok₁ : RequestOk s₀.krnl [] ins₁ := by
    rintro r ⟨rfl⟩
    exact ⟨by decide, fun _ hg => absurd hg List.not_mem_nil⟩
  have h₁ := hstart.exec 1 c₁ ins₁ 0 rfl trivial hok₁ (by decide +kernel)
  have hok₂ : RequestOk c₂.krnl (ins₁.grants 0 c₂.krnl) ins₂ := by
    rintro r ⟨rfl⟩
    refine ⟨by decide +kernel, fun g hg => ?_⟩
    obtain rfl := List.mem_singleton.1 hg
    exact Or.inr (Or.inl ⟨by decide, by decide⟩)
  have h₂ := h₁.exec 2 c₂ ins₂ 0 rfl trivial hok₂ (by decide +kernel)
  exact ⟨_, _, h₂, rfl, grants_kept_of_apart h₂⟩

/-- **Kernel requests overlap.** A register of KMALLOC and a pool of KMEM_CACHE_CREATE with the same
    number have the same address. -/
theorem not_grants_kept_samePlace :
    ¬ ∀ (s₀ s : System) (gs : List Grant), Booted s₀ →
      KmemRun (fun _ _ _ => True) generousHost s₀ gs s → GrantsKept generousHost gs s.krnl := by
  intro h
  let s₀ := twoProcs 4 1 fun _ => []
  let ins₁ : Inst := ⟨.kmalloc, 100, 1, 0, 0⟩
  let ins₂ : Inst := ⟨.kmemCacheCreate, 100, 10, 1, 0⟩
  let c₁ : Caller := ⟨freshProc [] 0, s₀.krnl⟩
  let c₂ : Caller := ⟨freshProc [] 0, (c₁.exec generousHost ins₁).krnl⟩
  have hstart : KmemRun (fun _ _ _ => True) generousHost s₀ [] s₀ := .start
  have h₁ := hstart.exec 1 c₁ ins₁ 0 rfl trivial trivial (by decide +kernel)
  have h₂ := h₁.exec 2 c₂ ins₂ 0 rfl trivial trivial (by decide +kernel)
  have hdisj := (h s₀ _ _ (twoProcs_booted (by decide) (by decide) _) h₂).disjoint
  exact (List.pairwise_cons.1 hdisj).1 _ (List.mem_singleton.2 rfl) 0 (by decide) 0 (by decide) rfl

end Ossim
