import Ossim.Libmem.Addresses
import Ossim.Paging.Map

set_option autoImplicit false

/-! # Accesses to user memory refine the pager

A read or a write of user memory resolves an address of the process, asks for its page, and accesses
one byte of the frame. A write touches the byte of its address and no other. -/

namespace Ossim

open Pager

/-- The byte behind an address of a process. -/
def userByte (host : Host) (pid vaddr : ℕ) : ByteKey :=
  ((.proc pid, pageIx host (vaddr / 4096)), Fin.ofNat 4096 vaddr)

/-- The bytes behind a set of addresses of a process. -/
def userBytes (host : Host) (pid : ℕ) (A : Set ℕ) : Set ByteKey :=
  {b | ∃ a ∈ A, b = userByte host pid a}

theorem userByte_inj (host : Host) {pid qid a b : ℕ} (ha : a < 2 ^ 57) (hb : b < 2 ^ 57)
    (h : userByte host pid a = userByte host qid b) : pid = qid ∧ a = b := by
  simp only [userByte, Prod.mk.injEq, Owner.proc.injEq] at h
  obtain ⟨⟨hpid, hpage⟩, hoff⟩ := h
  have hdiv := pageIx_inj host (by omega) (by omega) hpage
  have hmod : a % 4096 = b % 4096 := congrArg Fin.val hoff
  exact ⟨hpid, by omega⟩

/-- The byte `__read_user_mem` and `__write_user_mem` find behind an address: they keep its page number
    in an `int`. -/
def accessByte (host : Host) (pid vaddr : ℕ) : ByteKey :=
  ((.proc pid, pageIx host (addrOfInt (vaddr >>> 12))), Fin.ofNat 4096 vaddr)

def accessBytes (host : Host) (pid : ℕ) (A : Set ℕ) : Set ByteKey :=
  {b | ∃ a ∈ A, b = accessByte host pid a}

theorem accessByte_eq (host : Host) (pid : ℕ) {vaddr : ℕ} (h : vaddr < 2 ^ 31) :
    accessByte host pid vaddr = userByte host pid vaddr := by
  rw [accessByte, addrOfInt_shift h, userByte]

theorem accessBytes_subset (host : Host) (pid : ℕ) {A : Set ℕ} (h : ∀ a ∈ A, a < 2 ^ 31) :
    accessBytes host pid A ⊆ userBytes host pid A := by
  rintro _ ⟨a, ha, rfl⟩
  exact ⟨a, ha, accessByte_eq host pid (h a ha)⟩

/-! ## Addresses -/

theorem resolve_lt {registered : Bool} {mm : Mm} (h : RegionsOk registered mm) {rgid off vaddr : ℕ}
    (hres : mm.resolve rgid off = some vaddr) : vaddr < heapEnd registered mm := by
  rw [Mm.resolve] at hres
  split at hres
  · exact absurd hres (by simp)
  · next hid =>
      rw [VmRg.resolve] at hres
      split_ifs at hres with hnull hend
      cases hres
      have hle := (h.mem _ (symrgtbl_mem_regions mm (Nat.lt_of_not_le hid))).2
      omega

theorem phyaddr_eq (f vaddr : ℕ) : phyaddr f (vaddr % 4096) = f * 4096 + (Fin.ofNat 4096 vaddr).val := by
  rw [phyaddr, Nat.shiftLeft_eq]
  rfl

/-- The pages an access to user memory can ask for. -/
def Mm.accessPgns (mm : Mm) : Set ℕ :=
  {pgn | ∃ rgid off a, mm.resolve rgid off = some a ∧ pgn = addrOfInt (a >>> 12)}

/-- What accesses to user memory do to a process whose regions may be anywhere; `B` are the bytes they
    touch. -/
structure Paged (host : Host) (exact : Prop) (R S : Set ℕ) (pid : ℕ)
    (others : ℕ → PageIx → Residence) (B : Set ByteKey) (c c' : Caller) : Prop where
  inv : FrameInv host exact R S pid others c'
  only : PagingOnly c c'
  moves : PageMoves host c.mm.accessPgns c.mm c'.mm
  run : Run exact B (c.pager pid others) (c'.pager pid others)

section Access

variable {host : Host} {exact : Prop} {R S : Set ℕ} {pid : ℕ} {others : ℕ → PageIx → Residence}
variable {c : Caller}

/-- Addresses of a process are below the range of an `int`. -/
theorem resolve_lt_int (h : MemInv host exact R S pid others c) {rgid off a : ℕ}
    (ha : c.mm.resolve rgid off = some a) : a < 2 ^ 31 :=
  Nat.lt_of_lt_of_le (resolve_lt h.regions ha) h.regions.heapEnd_le

theorem PagingOnly.resolve {c' : Caller} (h : PagingOnly c c') (rgid off : ℕ) :
    c'.mm.resolve rgid off = c.mm.resolve rgid off := by
  rw [Mm.resolve, Mm.resolve, h.symrgtbl]

theorem PagingOnly.accessPgns {c' : Caller} (h : PagingOnly c c') :
    c'.mm.accessPgns = c.mm.accessPgns := by
  simp only [Mm.accessPgns, h.resolve]

theorem Paged.refl (h : FrameInv host exact R S pid others c) (B : Set ByteKey) :
    Paged host exact R S pid others B c c := ⟨h, .refl c, .refl, .refl _⟩

theorem Paged.trans {c' c'' : Caller} {B : Set ByteKey} (h : Paged host exact R S pid others B c c')
    (h' : Paged host exact R S pid others B c' c'') : Paged host exact R S pid others B c c'' where
  inv := h'.inv
  only := h.only.trans h'.only
  moves := h.moves.trans (h.only.accessPgns ▸ h'.moves)
  run := h.run.trans h'.run

theorem Paged.mono {c' : Caller} {B B' : Set ByteKey} (h : Paged host exact R S pid others B c c')
    (hB : B ⊆ B') : Paged host exact R S pid others B' c c' :=
  ⟨h.inv, h.only, h.moves, h.run.mono hB⟩

/-- For a process with its regions below its break, all of the invariant is kept. -/
theorem Paged.memInv {c' : Caller} {B : Set ByteKey} (h : Paged host exact R S pid others B c c')
    (hm : MemInv host exact R S pid others c) : MemInv host exact R S pid others c' := by
  refine ⟨h.inv.wf, h.inv.within, h.inv.devices, ?_, h.only.regionsOk hm.regions, ?_⟩
  · rw [h.only.registered]
    refine hm.pages.moves ?_ h.moves
    rintro _ ⟨rgid, off, a, ha, rfl⟩
    have hlt := resolve_lt hm.regions ha
    have hle := hm.regions.heapEnd_le
    rw [addrOfInt_shift (by omega)]
    refine ⟨by omega, fun hreg => ?_⟩
    have hbrk := (hm.regions.brk hreg).1
    rw [heapEnd, if_pos hreg] at hlt
    omega
  · rw [h.only.same.krnl_entry]
    exact hm.pinned

/-- `pg_getpage` for an address of the process. -/
theorem pgGetpage_addr (hc : ∀ n, host.calloc n = true) (hp : PoolsOk R S)
    (h : MemInv host exact R S pid others c) {vaddr : ℕ}
    (hv : vaddr < heapEnd c.proc.registered c.mm) :
    let r := pgGetpage host c (vaddr / 4096)
    MemInv host exact R S pid others r.2 ∧ PagingOnly c r.2 ∧
    Run exact ∅ (c.pager pid others) (r.2.pager pid others) ∧
    ∀ f, r.1 = some f → residence (r.2.mm.entry (pageIx host (vaddr / 4096))) = .ram f := by
  have hle := h.regions.heapEnd_le
  refine pgGetpage_spec hc hp h (by omega) fun hreg => ?_
  have hbrk := (h.regions.brk hreg).1
  rw [heapEnd, if_pos hreg] at hv
  omega

/-! ## Bytes -/

/-- A byte written to the frame of a page of the process. -/
theorem FrameInv.write (h : FrameInv host exact R S pid others c) {p : PageIx} {f : ℕ}
    (hres : residence (c.mm.entry p) = .ram f) (j : Fin 4096) (v : Byte) :
    let c' := c.setMram (memphyWrite c.krnl.mram (f * 4096 + j) v).2
    Paged host exact R S pid others {((.proc pid, p), j)} c c' ∧
    (exact → (c'.pager pid others).content (.proc pid, p) j = some v) := by
  intro c'
  obtain ⟨b, hpage, hb⟩ := memphyWrite_page c.krnl.mram f j v
  have hpres : (c.pager pid others).res (.proc pid, p) = .ram f := by rw [pager_res_self, hres]
  have honly : PagingOnly c c' := .setMram c (memphyWrite_rdmflg ..) (memphyWrite_storageSz ..)
  have hlist : c'.krnl.mram.freeFpList = c.krnl.mram.freeFpList := memphyWrite_freeFpList ..
  have hrun : Run exact {((.proc pid, p), j)} (c.pager pid others) (c'.pager pid others) := by
    refine .single (U := {((.proc pid, p), j)}) ?_ (Set.Subset.refl _)
    convert Step.write b hpres using 1
    refine State.ext rfl ?_ rfl hpage rfl
    change {g | g ∈ c'.krnl.mram.freeFpList} = _
    rw [hlist]
    rfl
  refine ⟨⟨⟨hrun.wf h.wf, hrun.within h.within, ?_, h.fifo⟩, honly, .refl, hrun⟩, ?_⟩
  · exact honly.devicesOk h.devices (hlist ▸ h.devices.ram_nodup) h.devices.swap_nodup
  · intro he
    have hf := h.devices.ram_holds he f (h.within.ram_mem hpres)
    have hself : (c'.pager pid others).ram f j = b := by
      change c'.krnl.mram.page f j = b
      rw [show c'.krnl.mram.page = _ from hpage, Function.update_self, Function.update_self]
    have hres' : (c'.pager pid others).res (.proc pid, p) = .ram f := hpres
    simp only [State.content, hres', hself, hb hf]

theorem MemInv.write (h : MemInv host exact R S pid others c) {p : PageIx} {f : ℕ}
    (hres : residence (c.mm.entry p) = .ram f) (j : Fin 4096) (v : Byte) :
    let c' := c.setMram (memphyWrite c.krnl.mram (f * 4096 + j) v).2
    MemInv host exact R S pid others c' ∧ PagingOnly c c' ∧
    Run exact {((.proc pid, p), j)} (c.pager pid others) (c'.pager pid others) ∧
    (exact → (c'.pager pid others).content (.proc pid, p) j = some v) := by
  obtain ⟨hpaged, hcont⟩ := h.frameInv.write hres j v
  exact ⟨hpaged.memInv h, hpaged.only, hpaged.run, hcont⟩

/-- A byte read from the frame of a page of the process. -/
theorem content_of_read {p : PageIx} {f : ℕ} (hres : residence (c.mm.entry p) = .ram f)
    (j : Fin 4096) {b : Byte} (hb : (memphyRead c.krnl.mram (f * 4096 + j)).1 = some b) :
    (c.pager pid others).content (.proc pid, p) j = some b := by
  have hpres : (c.pager pid others).res (.proc pid, p) = .ram f := by rw [pager_res_self, hres]
  rw [State.content, hpres]
  change some (c.krnl.mram.storage (f * 4096 + j)) = some b
  simp only [memphyRead, memphySeqRead] at hb
  split_ifs at hb
  · exact hb
  · exact hb

theorem memphyRead_snd (mp : Memphy) (addr : ℕ) : (memphyRead mp addr).2 = mp := by
  simp only [memphyRead, memphySeqRead]
  split_ifs with hr hr'
  · rfl
  · rfl
  · simp [hr] at hr'

/-! ## The operations -/

/-- `pg_getpage` for a page of an access. -/
theorem FrameInv.accessPage (hc : ∀ n, host.calloc n = true) (hp : PoolsOk R S)
    (h : FrameInv host exact R S pid others c) {rgid off a : ℕ} (ha : c.mm.resolve rgid off = some a) :
    let r := pgGetpage host c (addrOfInt (a >>> 12))
    Paged host exact R S pid others ∅ c r.2 ∧
    ∀ f, r.1 = some f → residence (r.2.mm.entry (pageIx host (addrOfInt (a >>> 12)))) = .ram f := by
  obtain ⟨hinv, honly, hmoves, hrun, hres⟩ := h.getpage hc hp (addrOfInt (a >>> 12))
  refine ⟨⟨hinv, honly, hmoves.mono ?_, hrun⟩, hres⟩
  rintro _ rfl
  exact ⟨rgid, off, a, ha, rfl⟩

/-- `__write_user_mem` touches the byte it was asked to write, and only if it succeeds. -/
theorem FrameInv.writeUser (hc : ∀ n, host.calloc n = true) (hp : PoolsOk R S)
    (h : FrameInv host exact R S pid others c) (rgid off : ℕ) (v : Byte) :
    let r := writeUserMem host c rgid off v
    Paged host exact R S pid others
      (accessBytes host pid {a | r.1 = 0 ∧ c.mm.resolve rgid off = some a}) c r.2 ∧
    ∀ a, r.1 = 0 → c.mm.resolve rgid off = some a → exact →
      (r.2.pager pid others).content (accessByte host pid a).1 (accessByte host pid a).2 = some v := by
  rw [writeUserMem]
  cases hres : c.mm.resolve rgid off with
  | none => exact ⟨.refl h _, by simp⟩
  | some vaddr =>
      obtain ⟨hpaged, hf₁⟩ := h.accessPage hc hp hres
      simp only
      generalize pgGetpage host c (addrOfInt (vaddr >>> 12)) = r at *
      obtain ⟨fpn, c₁⟩ := r
      cases fpn with
      | none => exact ⟨hpaged.mono (Set.empty_subset _), by simp⟩
      | some f =>
          simp only [phyaddr_eq]
          obtain ⟨hwrite, hcont⟩ := hpaged.inv.write (hf₁ f rfl) (Fin.ofNat 4096 vaddr) v
          by_cases hr : c₁.krnl.mram.rdmflg = true
          · have hok := (memphyWrite_ok c₁.krnl.mram
              (f * 4096 + (Fin.ofNat 4096 vaddr).val) v).2 hr
            simp only [hok, ne_eq, not_true, if_false]
            refine ⟨(hpaged.mono (Set.empty_subset _)).trans (hwrite.mono ?_), ?_⟩
            · rintro b rfl
              exact ⟨vaddr, by simp, rfl⟩
            · rintro a - ha he
              cases ha
              exact hcont he
          · -- the device refuses, and is left as it was
            have hkeep : (memphyWrite c₁.krnl.mram (f * 4096 + (Fin.ofNat 4096 vaddr).val) v).2 =
                c₁.krnl.mram := by
              simp [memphyWrite, memphySeqWrite, hr]
            have hfail : (memphyWrite c₁.krnl.mram (f * 4096 + (Fin.ofNat 4096 vaddr).val) v).1 ≠
                0 := fun he => hr ((memphyWrite_ok ..).1 he)
            simp only [hkeep, if_pos hfail]
            exact ⟨hpaged.mono (Set.empty_subset _), by simp⟩

theorem writeUserMem_spec (hc : ∀ n, host.calloc n = true) (hp : PoolsOk R S)
    (h : MemInv host exact R S pid others c) (rgid off : ℕ) (v : Byte) :
    let r := writeUserMem host c rgid off v
    MemInv host exact R S pid others r.2 ∧ PagingOnly c r.2 ∧
    Run exact (userBytes host pid {a | r.1 = 0 ∧ c.mm.resolve rgid off = some a})
      (c.pager pid others) (r.2.pager pid others) ∧
    ∀ a, r.1 = 0 → c.mm.resolve rgid off = some a → exact →
      (r.2.pager pid others).content (userByte host pid a).1 (userByte host pid a).2 = some v := by
  obtain ⟨hpaged, hcont⟩ := h.frameInv.writeUser hc hp rgid off v
  refine ⟨hpaged.memInv h, hpaged.only, hpaged.run.mono ?_, fun a hst ha he => ?_⟩
  · exact accessBytes_subset host pid fun a ha => resolve_lt_int h ha.2
  · rw [← accessByte_eq host pid (resolve_lt_int h ha)]
    exact hcont a hst ha he

/-- `__read_user_mem` touches nothing and delivers the byte of its address. -/
theorem FrameInv.readUser (hc : ∀ n, host.calloc n = true) (hp : PoolsOk R S)
    (h : FrameInv host exact R S pid others c) (rgid off : ℕ) :
    let r := readUserMem host c rgid off
    Paged host exact R S pid others ∅ c r.2 ∧
    ∀ a b, r.1 = some b → c.mm.resolve rgid off = some a →
      (r.2.pager pid others).content (accessByte host pid a).1 (accessByte host pid a).2 = some b := by
  rw [readUserMem]
  cases hres : c.mm.resolve rgid off with
  | none => exact ⟨.refl h _, by simp⟩
  | some vaddr =>
      obtain ⟨hpaged, hf₁⟩ := h.accessPage hc hp hres
      simp only
      generalize pgGetpage host c (addrOfInt (vaddr >>> 12)) = r at *
      obtain ⟨fpn, c₁⟩ := r
      cases fpn with
      | none => exact ⟨hpaged, by simp⟩
      | some f =>
          simp only [phyaddr_eq, memphyRead_snd]
          refine ⟨hpaged, ?_⟩
          rintro a b hb ha
          cases ha
          exact content_of_read (hf₁ f rfl) _ hb

theorem readUserMem_spec (hc : ∀ n, host.calloc n = true) (hp : PoolsOk R S)
    (h : MemInv host exact R S pid others c) (rgid off : ℕ) :
    let r := readUserMem host c rgid off
    MemInv host exact R S pid others r.2 ∧ PagingOnly c r.2 ∧
    Run exact ∅ (c.pager pid others) (r.2.pager pid others) ∧
    ∀ a b, r.1 = some b → c.mm.resolve rgid off = some a →
      (r.2.pager pid others).content (userByte host pid a).1 (userByte host pid a).2 = some b := by
  obtain ⟨hpaged, hread⟩ := h.frameInv.readUser hc hp rgid off
  refine ⟨hpaged.memInv h, hpaged.only, hpaged.run, fun a b hb ha => ?_⟩
  rw [← accessByte_eq host pid (resolve_lt_int h ha)]
  exact hread a b hb ha

/-- What `__read_user_mem` delivers of a page that has been mapped was its content before the call. -/
theorem FrameInv.content_of_read (hc : ∀ n, host.calloc n = true) (hp : PoolsOk R S)
    (h : FrameInv host True R S pid others c) {rgid off a : ℕ} {b : Byte}
    (ha : c.mm.resolve rgid off = some a)
    (hmapped : (c.pager pid others).res (accessByte host pid a).1 ≠ .none)
    (hr : (readUserMem host c rgid off).1 = some b) :
    (c.pager pid others).content (accessByte host pid a).1 (accessByte host pid a).2 = some b := by
  obtain ⟨hpaged, hread⟩ := h.readUser hc hp rgid off
  -- the call moves pages and writes none, so the content after it is the content before
  have hafter := hread a b hr ha
  rw [hpaged.run.content_eq trivial h.wf hmapped (Set.notMem_empty _)] at hafter
  exact hafter

theorem content_of_readUserMem (hc : ∀ n, host.calloc n = true) (hp : PoolsOk R S)
    (h : MemInv host True R S pid others c) {rgid off a : ℕ} {b : Byte}
    (ha : c.mm.resolve rgid off = some a)
    (hmapped : (c.pager pid others).res (userByte host pid a).1 ≠ .none)
    (hr : (readUserMem host c rgid off).1 = some b) :
    (c.pager pid others).content (userByte host pid a).1 (userByte host pid a).2 = some b := by
  rw [← accessByte_eq host pid (resolve_lt_int h ha)] at hmapped ⊢
  exact h.frameInv.content_of_read hc hp ha hmapped hr

/-- `__read` pages in and leaves it at that. -/
theorem read_spec (hc : ∀ n, host.calloc n = true) (hp : PoolsOk R S)
    (h : MemInv host exact R S pid others c) (rgid off : ℕ) :
    let r := read host c rgid off
    MemInv host exact R S pid others r.2 ∧ PagingOnly c r.2 ∧
    Run exact ∅ (c.pager pid others) (r.2.pager pid others) := by
  rw [read]
  cases hres : c.mm.resolve rgid off with
  | none => exact ⟨h, .refl c, .refl _⟩
  | some vaddr =>
      have hv := resolve_lt h.regions hres
      have hle := h.regions.heapEnd_le
      obtain ⟨h₁, honly₁, hrun₁, -⟩ := pgGetpage_addr hc hp h hv
      simp only [pgGetval, pgnOfIntAddr_eq (by omega : vaddr < 2 ^ 31)]
      generalize pgGetpage host c (vaddr / 4096) = r at *
      obtain ⟨fpn, c₁⟩ := r
      cases fpn with
      | none => exact ⟨h₁, honly₁, hrun₁⟩
      | some f =>
          simp only [syscall_ioRead, memphyRead_snd]
          split <;> exact ⟨h₁, honly₁, hrun₁⟩

/-- `__write` touches the byte it was asked to write, and only if it succeeds. -/
theorem write_spec (hc : ∀ n, host.calloc n = true) (hp : PoolsOk R S)
    (h : MemInv host exact R S pid others c) (rgid off : ℕ) (v : Byte) :
    let r := write host c rgid off v
    MemInv host exact R S pid others r.2 ∧ PagingOnly c r.2 ∧
    Run exact (userBytes host pid {a | r.1 = 0 ∧ c.mm.resolve rgid off = some a})
      (c.pager pid others) (r.2.pager pid others) ∧
    ∀ a, r.1 = 0 → c.mm.resolve rgid off = some a → exact →
      (r.2.pager pid others).content (userByte host pid a).1 (userByte host pid a).2 = some v := by
  rw [write]
  cases hres : c.mm.resolve rgid off with
  | none => exact ⟨h, .refl c, .refl _, by simp⟩
  | some vaddr =>
      have hv := resolve_lt h.regions hres
      have hle := h.regions.heapEnd_le
      obtain ⟨h₁, honly₁, hrun₁, hf₁⟩ := pgGetpage_addr hc hp h hv
      simp only [pgSetval, pgnOfIntAddr_eq (by omega : vaddr < 2 ^ 31)]
      have hlt := @pgGetpage_lt host c (vaddr / 4096)
      generalize pgGetpage host c (vaddr / 4096) = r at *
      obtain ⟨fpn, c₁⟩ := r
      cases fpn with
      | none => exact ⟨h₁, honly₁, hrun₁.mono (Set.empty_subset _), by simp⟩
      | some f =>
          rw [syscall_ioWrite, uint32_phyaddr (hlt rfl), phyaddr_eq]
          split
          · obtain ⟨h₂, honly₂, hrun₂, hcont⟩ := h₁.write (hf₁ f rfl) (Fin.ofNat 4096 vaddr) v
            refine ⟨h₂, honly₁.trans honly₂, ?_, ?_⟩
            · refine (hrun₁.mono (Set.empty_subset _)).trans (hrun₂.mono ?_)
              rintro b rfl
              exact ⟨vaddr, by simp, rfl⟩
            · rintro a - ha he
              cases ha
              exact hcont he
          · next hreg =>
              exact ⟨h₁, honly₁, hrun₁.mono (Set.empty_subset _),
                fun a _ _ he => absurd (h₁.devices.registered he) hreg⟩

end Access

end Ossim
