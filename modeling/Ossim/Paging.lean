import Ossim.Lib.Pager
import Ossim.Libmem.Regions
import Ossim.Memphy.Proofs

set_option autoImplicit false

/-! # The memory of the system as a pager

The page tables of all processes and of the kernel, the two devices and their frame lists are one
`Pager.State`: a page is a slot of somebody's page table, and its entry says where it is. This module
defines that view of a caller (`Caller.pager`) and the invariant that goes with it (`MemInv`).

The code runs on behalf of one process, number `pid`; the pages of the other processes are given by
`others`. `R` and `S` are the frames the devices started with, and `exact` says that copies between
the devices are to be faithful, which needs more of the devices. -/

namespace Ossim

open Pager

/-! ## Entries -/

/-- Where an entry says its page is. -/
def residence (pte : BitVec 64) : Residence :=
  let e := pte.setWidth 32
  if pagingPagePresent e then .ram (pagingFpn e)
  else if pagingPageSwapped e then .swap (pagingSwp e)
  else .none

@[simp]
theorem residence_zero : residence 0 = .none := by decide

theorem residence_pteFpnWord (v : BitVec 64) {f : ℕ} (hf : f < 2 ^ 13) :
    residence (pteFpnWord v f) = .ram f := by
  simp [residence, fpn_pteFpnWord v f hf]

theorem residence_pteSwapWord (v : BitVec 64) (swptyp : ℕ) {s : ℕ} (hs : s < 2 ^ 21) :
    residence (pteSwapWord v swptyp s) = .swap s := by
  simp [residence, swp_pteSwapWord v swptyp s hs]

theorem residence_eq_ram {pte : BitVec 64} (h : pagingPagePresent (pte.setWidth 32) = true) :
    residence pte = .ram (pagingFpn (pte.setWidth 32)) := if_pos h

theorem residence_eq_swap {pte : BitVec 64} (h : pagingPagePresent (pte.setWidth 32) = false)
    (hs : pagingPageSwapped (pte.setWidth 32) = true) :
    residence pte = .swap (pagingSwp (pte.setWidth 32)) := by
  simp [residence, h, hs]

theorem residence_eq_none {pte : BitVec 64} (h : pagingPagePresent (pte.setWidth 32) = false)
    (hs : pagingPageSwapped (pte.setWidth 32) = false) : residence pte = .none := by
  simp [residence, h, hs]

/-- A page is resident once its entry is set, whatever the number of its frame. -/
theorem residence_pteFpnWord_ram (v : BitVec 64) (f : ℕ) :
    ∃ g, residence (pteFpnWord v f) = .ram g := ⟨_, residence_eq_ram (present_pteFpnWord v f)⟩

/-- A resident page is one whose entry is marked present. -/
theorem present_of_residence {pte : BitVec 64} {f : ℕ} (h : residence pte = .ram f) :
    pagingPagePresent (pte.setWidth 32) = true ∧ pagingFpn (pte.setWidth 32) = f := by
  simp only [residence] at h
  split_ifs at h with hp
  · exact ⟨hp, by simpa using h⟩

/-- A page on the swap device is one whose entry is marked swapped. -/
theorem swapped_of_residence {pte : BitVec 64} {t : ℕ} (h : residence pte = .swap t) :
    pagingPageSwapped (pte.setWidth 32) = true := by
  simp only [residence] at h
  split_ifs at h with hp hs
  exact hs

/-- A page that is nowhere has neither mark. -/
theorem absent_of_residence {pte : BitVec 64} (h : residence pte = .none) :
    pagingPagePresent (pte.setWidth 32) = false ∧ pagingPageSwapped (pte.setWidth 32) = false := by
  simp only [residence] at h
  split_ifs at h with hp hs
  exact ⟨by simpa using hp, by simpa using hs⟩

/-- An entry does not carry both marks. -/
def Unambiguous (pte : BitVec 64) : Prop :=
  pagingPageSwapped (pte.setWidth 32) = true → pagingPagePresent (pte.setWidth 32) = false

theorem unambiguous_zero : Unambiguous 0 := by
  unfold Unambiguous
  decide

theorem unambiguous_pteFpnWord (v : BitVec 64) (f : ℕ) : Unambiguous (pteFpnWord v f) := by
  simp [Unambiguous]

theorem unambiguous_pteSwapWord (v : BitVec 64) (swptyp s : ℕ) :
    Unambiguous (pteSwapWord v swptyp s) := by
  simp [Unambiguous]

/-! ## The pager of a caller -/

/-- What is left of a free list once its first frame is taken. -/
theorem mem_tail_iff {f g : ℕ} {rest : List ℕ} (hnot : f ∉ rest) :
    g ∈ rest ↔ (g = f ∨ g ∈ rest) ∧ ¬ g = f := by
  constructor
  · intro hg
    exact ⟨Or.inr hg, fun he => hnot (he ▸ hg)⟩
  · intro hg
    exact hg.1.resolve_left hg.2

/-- Whose page table a page is in. -/
inductive Owner where
  | krnl
  | proc (pid : ℕ)
  deriving DecidableEq

/-- A page of the system. -/
abbrev PageKey := Owner × PageIx

/-- A byte of a page of the system. -/
abbrev ByteKey := PageKey × Fin 4096

def Caller.pager (c : Caller) (pid : ℕ) (others : ℕ → PageIx → Residence) :
    State PageKey (Fin 4096) Byte where
  res := fun k => match k.1 with
    | .krnl => residence (c.krnl.mm.entry k.2)
    | .proc q => if q = pid then residence (c.mm.entry k.2) else others q k.2
  ramFree := {f | f ∈ c.krnl.mram.freeFpList}
  swapFree := {t | t ∈ c.krnl.activeMswp.freeFpList}
  ram := c.krnl.mram.page
  swap := c.krnl.activeMswp.page

section Pager

variable (c : Caller) (pid : ℕ) (others : ℕ → PageIx → Residence)

@[simp]
theorem pager_res_krnl (p : PageIx) :
    (c.pager pid others).res (.krnl, p) = residence (c.krnl.mm.entry p) := rfl

@[simp]
theorem pager_res_self (p : PageIx) :
    (c.pager pid others).res (.proc pid, p) = residence (c.mm.entry p) := if_pos rfl

theorem pager_res_other {q : ℕ} (hq : q ≠ pid) (p : PageIx) :
    (c.pager pid others).res (.proc q, p) = others q p := if_neg hq

variable {c pid others}

/-- The pages after one entry of the process changed. -/
theorem pager_res_update {c' : Caller} {p : PageIx} {w : BitVec 64}
    (hmm : c'.mm.entry = Function.update c.mm.entry p w) (hk : c'.krnl.mm.entry = c.krnl.mm.entry) :
    (c'.pager pid others).res =
      Function.update (c.pager pid others).res (.proc pid, p) (residence w) := by
  funext ⟨o, q⟩
  cases o with
  | krnl => rw [Function.update_of_ne (by simp), pager_res_krnl, pager_res_krnl, hk]
  | proc n =>
      by_cases hn : n = pid
      · subst hn
        rw [pager_res_self, hmm]
        by_cases hq : q = p
        · rw [hq, Function.update_self, Function.update_self]
        · rw [Function.update_of_ne hq, Function.update_of_ne (by simpa using hq), pager_res_self]
      · rw [Function.update_of_ne (by simp [hn]), pager_res_other _ _ _ hn, pager_res_other _ _ _ hn]

/-- The pages depend on the entries only. -/
theorem pager_res_congr {c' : Caller} (hmm : c'.mm.entry = c.mm.entry)
    (hk : c'.krnl.mm.entry = c.krnl.mm.entry) :
    (c'.pager pid others).res = (c.pager pid others).res := by
  funext ⟨o, q⟩
  cases o with
  | krnl => rw [pager_res_krnl, pager_res_krnl, hk]
  | proc n =>
      simp only [Caller.pager]
      rw [hmm]

end Pager

/-! ## Invariants -/

/-- The paging data of an address space: the FIFO list names resident pages, each once, and nothing
    is mapped beyond the end of the area of a registered process. -/
structure PagesOk (host : Host) (registered : Bool) (mm : Mm) : Prop where
  marks : ∀ p, Unambiguous (mm.entry p)
  fifo_nodup : mm.fifoPgn.Nodup
  fifo_lt : ∀ pgn ∈ mm.fifoPgn, pgn < 2 ^ 45
  fifo_ram : ∀ pgn ∈ mm.fifoPgn, ∃ f, residence (mm.entry (pageIx host pgn)) = .ram f
  fresh : registered = true → ∀ pgn < 2 ^ 45, mm.mmap.vmEnd ≤ pgn * 4096 →
    residence (mm.entry (pageIx host pgn)) = .none

/-- The addresses a process can name are below this: its break, or, while nobody can raise that for
    it, the range of an `int`. -/
def heapEnd (registered : Bool) (mm : Mm) : ℕ := if registered then mm.mmap.sbrk else 2 ^ 31

/-- The regions of an address space end below `heapEnd`. -/
structure RegionsOk (registered : Bool) (mm : Mm) : Prop where
  mem : ∀ r ∈ mm.regions, r.rgStart ≤ r.rgEnd ∧ r.rgEnd ≤ heapEnd registered mm
  brk : registered = true → mm.mmap.sbrk ≤ mm.mmap.vmEnd ∧ 4096 ∣ mm.mmap.vmEnd ∧
    mm.mmap.vmEnd < 2 ^ 31
  brk_zero : registered = false → mm.mmap.sbrk = 0

theorem RegionsOk.heapEnd_le {registered : Bool} {mm : Mm} (h : RegionsOk registered mm) :
    heapEnd registered mm ≤ 2 ^ 31 := by
  unfold heapEnd
  split
  · next hr =>
      have hbrk := h.brk hr
      omega
  · exact Nat.le_refl _

/-- The devices and lists behind the pager. -/
structure DevicesOk (exact : Prop) (R S : Set ℕ) (c : Caller) : Prop where
  ram_nodup : c.krnl.mram.freeFpList.Nodup
  swap_nodup : c.krnl.activeMswp.freeFpList.Nodup
  registered : exact → c.proc.registered = true
  ram_holds : exact → ∀ f ∈ R, c.krnl.mram.Holds f
  swap_holds : exact → ∀ t ∈ S, c.krnl.activeMswp.Holds t

/-- The pools of frames fit the fields of an entry. -/
structure PoolsOk (R S : Set ℕ) : Prop where
  ram_lt : ∀ f ∈ R, f < 2 ^ 13
  swap_lt : ∀ t ∈ S, t < 2 ^ 21

/-- The invariant of the memory as a caller sees it. -/
structure MemInv (host : Host) (exact : Prop) (R S : Set ℕ) (pid : ℕ)
    (others : ℕ → PageIx → Residence) (c : Caller) : Prop where
  wf : (c.pager pid others).Wf
  within : (c.pager pid others).Within R S
  devices : DevicesOk exact R S c
  pages : PagesOk host c.proc.registered c.mm
  regions : RegionsOk c.proc.registered c.mm
  /-- pages of the kernel are never swapped out -/
  pinned : ∀ p, pagingPageSwapped ((c.krnl.mm.entry p).setWidth 32) = false

/-- The FIFO list names resident pages, each once. -/
structure FifoOk (host : Host) (mm : Mm) : Prop where
  nodup : (mm.fifoPgn.map (pageIx host)).Nodup
  ram : ∀ pgn ∈ mm.fifoPgn, ∃ f, residence (mm.entry (pageIx host pgn)) = .ram f

/-- The part of the invariant that paging rests on, wherever the process has its regions: frames have
    one owner, the devices hold them, and the FIFO list is in order. -/
structure FrameInv (host : Host) (exact : Prop) (R S : Set ℕ) (pid : ℕ)
    (others : ℕ → PageIx → Residence) (c : Caller) : Prop where
  wf : (c.pager pid others).Wf
  within : (c.pager pid others).Within R S
  devices : DevicesOk exact R S c
  fifo : FifoOk host c.mm

theorem PagesOk.fifoOk {host : Host} {registered : Bool} {mm : Mm} (h : PagesOk host registered mm) :
    FifoOk host mm where
  nodup := List.Nodup.map_on
    (fun _ hp _ hq he => pageIx_inj host (h.fifo_lt _ hp) (h.fifo_lt _ hq) he) h.fifo_nodup
  ram := h.fifo_ram

theorem MemInv.frameInv {host : Host} {exact : Prop} {R S : Set ℕ} {pid : ℕ}
    {others : ℕ → PageIx → Residence} {c : Caller} (h : MemInv host exact R S pid others c) :
    FrameInv host exact R S pid others c :=
  ⟨h.wf, h.within, h.devices, h.pages.fifoOk⟩

end Ossim
