import Ossim.Vm.Frames
import Ossim.Vm.Proofs

set_option autoImplicit false

/-! # Mapping a range of pages

`vm_map_ram` takes a frame for every page and writes the entries one after the other. It ends with all
pages mapped if the frames, and the tables the entries need, are granted (`FramesGranted`,
`TablesGranted`): then it does what its comment says. When a table is refused on the way it does not
notice, and reports success. -/

namespace Ossim

/-! ## The pages -/

/-- The page `vmap_page_range` maps in iteration `i`. -/
def vmapPgn (addr i : ℕ) : ℕ := addrT (addr + addrOfInt (i * paging64Pagesz)) >>> 12

/-- The slots of the `n` pages from page `pgit` on. -/
def vmapPages (host : Host) (addr n pgit : ℕ) : List PageIx :=
  (List.range' pgit n).map fun i => pageIx host (vmapPgn addr i)

/-- `vmap_page_range` is given page-aligned addresses, and counts up from there as long as its `int` does
    not overflow. -/
theorem vmapPgn_eq {addr i : ℕ} (ha : 4096 ∣ addr) (hi : i * 4096 < 2 ^ 31)
    (hlt : addr + i * 4096 < 2 ^ 64) : vmapPgn addr i = addr / 4096 + i := by
  rw [vmapPgn, paging64Pagesz, addrOfInt_of_lt hi, addrT_of_lt hlt, Nat.shiftRight_eq_div_pow]
  omega

theorem vmapPages_succ (host : Host) (addr n pgit : ℕ) :
    vmapPages host addr (n + 1) pgit =
      pageIx host (vmapPgn addr pgit) :: vmapPages host addr n (pgit + 1) := by
  rw [vmapPages, List.range'_succ, List.map_cons, vmapPages]

theorem mem_vmapPages {host : Host} {addr n : ℕ} {q : PageIx} :
    q ∈ vmapPages host addr n 0 ↔ ∃ i < n, pageIx host (vmapPgn addr i) = q := by
  simp only [vmapPages, List.mem_map, List.mem_range'_1, Nat.zero_le, true_and, Nat.zero_add]

/-- The page directories that the entries of the slots need, one slot after the other, are granted:
    `missing` is the number of tables each slot lacks before, and `writes` the number of table writes,
    which the requests count. -/
def TablesGranted (host : Host) : List PageIx → (missing : PageIx → ℕ) → (writes : ℕ) → Prop
  | [], _, _ => True
  | p :: ps, missing, writes =>
    (∀ k < missing p, host.calloc (writes + k) = true) ∧
    TablesGranted host ps (fun q => min (missing q) (Radix.Path.apart p q)) (writes + missing p + 1)

theorem TablesGranted.of_calloc {host : Host} (hc : ∀ n, host.calloc n = true) (ps : List PageIx)
    (missing : PageIx → ℕ) (writes : ℕ) : TablesGranted host ps missing writes := by
  induction ps generalizing missing writes with
  | nil => trivial
  | cons p ps ih => exact ⟨fun k _ => hc _, ih _ _⟩

/-- The entry of a slot is marked present. -/
def Mm.presentAt (mm : Mm) (q : PageIx) : Prop := pagingPagePresent ((mm.entry q).setWidth 32) = true

/-! ## The loop -/

section Loop

variable (host : Host) (addr : ℕ)

/-- One iteration: the entry is written and the page enlisted, or the loop stops at a page without an
    entry. -/
theorem vmapPagesLoop_cons (n pgit fpn : ℕ) (fpit : List ℕ) (mm : Mm) :
    (pteSetFpn host mm (vmapPgn addr pgit) fpn).1 = 0 ∧
      vmapPagesLoop host addr (n + 1) pgit (fpn :: fpit) mm =
        vmapPagesLoop host addr n (pgit + 1) fpit
          (enlistPgnNode (pteSetFpn host mm (vmapPgn addr pgit) fpn).2 (vmapPgn addr pgit)) ∨
    (pteSetFpn host mm (vmapPgn addr pgit) fpn).1 ≠ 0 ∧
      vmapPagesLoop host addr (n + 1) pgit (fpn :: fpit) mm =
        (-1, (pteSetFpn host mm (vmapPgn addr pgit) fpn).2) := by
  have hpgn : addrT (addr + addrOfInt (pgit * paging64Pagesz)) >>> 12 = vmapPgn addr pgit := rfl
  rw [vmapPagesLoop]
  simp only [hpgn]
  generalize pteSetFpn host mm (vmapPgn addr pgit) fpn = r
  obtain ⟨st, mm'⟩ := r
  by_cases hst : st = 0
  · subst hst
    exact Or.inl ⟨rfl, rfl⟩
  · refine Or.inr ⟨hst, ?_⟩
    split
    · next heq =>
        cases heq
        exact absurd rfl hst
    · next heq =>
        cases heq
        rfl

theorem vmapPagesEnd_cons {n pgit fpn : ℕ} {fpit : List ℕ} {mm : Mm}
    (hst : (pteSetFpn host mm (vmapPgn addr pgit) fpn).1 = 0) :
    vmapPagesEnd host addr (n + 1) pgit (fpn :: fpit) mm =
      vmapPagesEnd host addr n (pgit + 1) fpit
        (enlistPgnNode (pteSetFpn host mm (vmapPgn addr pgit) fpn).2 (vmapPgn addr pgit)) := by
  have hpgn : addrT (addr + addrOfInt (pgit * paging64Pagesz)) >>> 12 = vmapPgn addr pgit := rfl
  rw [vmapPagesEnd]
  simp only [hpgn]
  generalize pteSetFpn host mm (vmapPgn addr pgit) fpn = r at hst ⊢
  obtain ⟨st, mm'⟩ := r
  simp only at hst
  subst hst
  rfl

/-- The loop runs to its end exactly if the tables it needs are granted. -/
theorem vmapPagesLoop_ok_iff {n : ℕ} (pgit : ℕ) {fpit : List ℕ} (hlen : fpit.length = n) (mm : Mm) :
    (vmapPagesLoop host addr n pgit fpit mm).1 = 0 ↔
      TablesGranted host (vmapPages host addr n pgit) mm.pgd.missing mm.stats.levelWrites := by
  induction n generalizing pgit fpit mm with
  | zero => exact iff_of_true rfl trivial
  | succ n ih =>
      obtain ⟨fpn, rest, rfl⟩ := List.exists_cons_of_length_eq_add_one hlen
      rw [vmapPages_succ, TablesGranted, ← pteUpdate_fst_iff host mm _ (fun pte => pteFpnWord pte fpn),
        ← pteSetFpn]
      rcases vmapPagesLoop_cons host addr n pgit fpn rest mm with ⟨hst, heq⟩ | ⟨hst, heq⟩
      · obtain ⟨hwrites, hmissing⟩ := pteUpdate_tables host mm _ _ hst
        rw [heq, ih (pgit + 1) (by simpa using hlen)]
        change TablesGranted host _ (pteSetFpn host mm _ fpn).2.pgd.missing
          (pteSetFpn host mm _ fpn).2.stats.levelWrites ↔ _
        rw [pteSetFpn, hwrites, hmissing, ← pteSetFpn]
        simp only [hst, true_and]
      · rw [heq]
        simp [hst]

theorem vmapPagesLoop_entry_of_not_mem (n pgit : ℕ) (fpit : List ℕ) (mm : Mm) {q : PageIx}
    (hq : q ∉ vmapPages host addr n pgit) :
    (vmapPagesLoop host addr n pgit fpit mm).2.entry q = mm.entry q := by
  induction n generalizing pgit fpit mm with
  | zero => rfl
  | succ n ih =>
      rw [vmapPages_succ, List.mem_cons, not_or] at hq
      cases fpit with
      | nil => rfl
      | cons fpn rest =>
          have hkeep := pteUpdate_entry_of_ne host mm (vmapPgn addr pgit)
            (fun pte => pteFpnWord pte fpn) hq.1
          rcases vmapPagesLoop_cons host addr n pgit fpn rest mm with ⟨-, heq⟩ | ⟨-, heq⟩
          · rw [heq, ih (pgit + 1) rest _ hq.2]
            exact hkeep
          · rw [heq]
            exact hkeep

theorem vmapPagesLoop_keeps_present (n pgit : ℕ) (fpit : List ℕ) {mm : Mm} {q : PageIx}
    (hq : mm.presentAt q) : (vmapPagesLoop host addr n pgit fpit mm).2.presentAt q := by
  induction n generalizing pgit fpit mm with
  | zero => exact hq
  | succ n ih =>
      cases fpit with
      | nil => exact hq
      | cons fpn rest =>
          have hset : (pteSetFpn host mm (vmapPgn addr pgit) fpn).2.presentAt q := by
            rw [Mm.presentAt, pteSetFpn]
            rcases pteUpdate_cases host mm (vmapPgn addr pgit) (fun pte => pteFpnWord pte fpn) with
              ⟨-, he⟩ | ⟨-, he, -⟩
            · rw [he, Function.update_apply]
              split
              · exact present_pteFpnWord ..
              · exact hq
            · rw [he]
              exact hq
          rcases vmapPagesLoop_cons host addr n pgit fpn rest mm with ⟨-, heq⟩ | ⟨-, heq⟩
          · rw [heq]
            exact ih (pgit + 1) rest hset
          · rw [heq]
            exact hset

theorem vmapPagesLoop_present {n pgit : ℕ} {fpit : List ℕ} (hlen : fpit.length = n) {mm : Mm}
    (hok : (vmapPagesLoop host addr n pgit fpit mm).1 = 0) {q : PageIx}
    (hq : q ∈ vmapPages host addr n pgit) : (vmapPagesLoop host addr n pgit fpit mm).2.presentAt q := by
  induction n generalizing pgit fpit mm with
  | zero => exact absurd hq (by simp [vmapPages])
  | succ n ih =>
      obtain ⟨fpn, rest, rfl⟩ := List.exists_cons_of_length_eq_add_one hlen
      rcases vmapPagesLoop_cons host addr n pgit fpn rest mm with ⟨hst, heq⟩ | ⟨-, heq⟩
      · rw [heq] at hok ⊢
        rw [vmapPages_succ, List.mem_cons] at hq
        rcases hq with rfl | hq
        · apply vmapPagesLoop_keeps_present
          change (pteSetFpn host mm (vmapPgn addr pgit) fpn).2.presentAt _
          rw [Mm.presentAt, pteSetFpn, pteUpdate_entry_of_ok host mm _ _ hst, Function.update_self]
          exact present_pteFpnWord ..
        · exact ih (by simpa using hlen) hok hq
      · rw [heq] at hok
        exact absurd hok (by simp)

/-- If the loop stops early, one of its pages has no entry. -/
theorem vmapPagesLoop_stops {n pgit : ℕ} {fpit : List ℕ} {mm : Mm}
    (hstop : (vmapPagesLoop host addr n pgit fpit mm).1 ≠ 0) :
    ∃ q ∈ vmapPages host addr n pgit, ¬ (vmapPagesLoop host addr n pgit fpit mm).2.presentAt q := by
  induction n generalizing pgit fpit mm with
  | zero => exact absurd rfl hstop
  | succ n ih =>
      cases fpit with
      | nil => exact absurd rfl hstop
      | cons fpn rest =>
          rw [vmapPages_succ]
          rcases vmapPagesLoop_cons host addr n pgit fpn rest mm with ⟨-, heq⟩ | ⟨hst, heq⟩
          · rw [heq] at hstop ⊢
            obtain ⟨q, hq, hnot⟩ := ih hstop
            exact ⟨q, List.mem_cons_of_mem _ hq, hnot⟩
          · rw [heq]
            refine ⟨_, List.mem_cons_self .., ?_⟩
            rcases pteUpdate_cases host mm (vmapPgn addr pgit) (fun pte => pteFpnWord pte fpn) with
              ⟨h, -⟩ | ⟨-, he, hzero⟩
            · exact absurd h hst
            · rw [Mm.presentAt, pteSetFpn, he, hzero]
              decide

/-- A loop that runs to its end has mapped `n` pages, and queued them the latest first. -/
theorem vmapPagesLoop_queue {n pgit : ℕ} {fpit : List ℕ} (hlen : fpit.length = n) {mm : Mm}
    (hok : (vmapPagesLoop host addr n pgit fpit mm).1 = 0) :
    vmapPagesEnd host addr n pgit fpit mm = pgit + n ∧
    (vmapPagesLoop host addr n pgit fpit mm).2.fifoPgn =
      ((List.range' pgit n).map (vmapPgn addr)).reverse ++ mm.fifoPgn := by
  induction n generalizing pgit fpit mm with
  | zero => exact ⟨rfl, rfl⟩
  | succ n ih =>
      obtain ⟨fpn, rest, rfl⟩ := List.exists_cons_of_length_eq_add_one hlen
      rcases vmapPagesLoop_cons host addr n pgit fpn rest mm with ⟨hst, heq⟩ | ⟨-, heq⟩
      · rw [heq] at hok ⊢
        obtain ⟨hend, hfifo⟩ := ih (by simpa using hlen) hok
        refine ⟨?_, ?_⟩
        · rw [vmapPagesEnd_cons host addr hst, hend]
          omega
        · rw [hfifo, List.range'_succ, List.map_cons, List.reverse_cons, List.append_assoc]
          simp [enlistPgnNode]
      · rw [heq] at hok
        exact absurd hok (by simp)

/-- In different slots the pages have the frames of the list, in its order. -/
theorem vmapPagesLoop_frames {n pgit : ℕ} {fpit : List ℕ} (hlen : fpit.length = n)
    (hlt : ∀ f ∈ fpit, f < 2 ^ 13) {mm : Mm} (hnodup : (vmapPages host addr n pgit).Nodup)
    (hok : (vmapPagesLoop host addr n pgit fpit mm).1 = 0) {i : ℕ} (hi : i < n) :
    some (pagingFpn (((vmapPagesLoop host addr n pgit fpit mm).2.entry
      (pageIx host (vmapPgn addr (pgit + i)))).setWidth 32)) = fpit[i]? := by
  induction n generalizing pgit fpit mm i with
  | zero => omega
  | succ n ih =>
      obtain ⟨fpn, rest, rfl⟩ := List.exists_cons_of_length_eq_add_one hlen
      rw [vmapPages_succ, List.nodup_cons] at hnodup
      rcases vmapPagesLoop_cons host addr n pgit fpn rest mm with ⟨hst, heq⟩ | ⟨-, heq⟩
      · rw [heq] at hok ⊢
        cases i with
        | zero =>
            -- the later iterations go to other slots
            rw [show pgit + 0 = pgit from rfl,
              vmapPagesLoop_entry_of_not_mem host addr n (pgit + 1) rest _ hnodup.1]
            change some (pagingFpn (((pteSetFpn host mm (vmapPgn addr pgit) fpn).2.entry _).setWidth 32)) = _
            rw [pteSetFpn, pteUpdate_entry_of_ok host mm _ _ hst, Function.update_self,
              fpn_pteFpnWord _ _ (hlt fpn (List.mem_cons_self ..)), List.getElem?_cons_zero]
        | succ i =>
            rw [show pgit + (i + 1) = pgit + 1 + i by omega, List.getElem?_cons_succ]
            exact ih (by simpa using hlen) (fun f hf => hlt f (List.mem_cons_of_mem _ hf)) hnodup.2
              hok (by omega)
      · rw [heq] at hok
        exact absurd hok (by simp)

end Loop

/-! ## All or nothing -/

section MapRam

variable (host : Host) (c : Caller) (mapstart n : ℕ)

/-- With frames for all pages, `vm_map_ram` reports success whatever becomes of the loop. -/
theorem vmMapRam_of_frames (hf : FramesGranted host c.krnl.mram n) :
    ∃ frames mram, frames.length = n ∧ allocPagesRange host c.krnl.mram n = (0, frames, mram) ∧
      vmMapRam host c mapstart n =
        (0, (c.setMram mram).setMm (vmapPagesLoop host mapstart n 0 frames c.mm).2) := by
  have halloc := allocPagesRange_of_granted hf
  refine ⟨_, _, List.length_take_of_le hf.1, halloc, ?_⟩
  rw [vmMapRam, halloc]
  simp [vmapPageRange_snd]

/-- Without, it reports failure and has touched the frame lists only. -/
theorem vmMapRam_of_no_frames (hf : ¬ FramesGranted host c.krnl.mram n) :
    vmMapRam host c mapstart n =
      (2 ^ 64 - 1, c.setMram (allocPagesRange host c.krnl.mram n).2.2) := by
  have hst := mt (allocPagesRange_fst host c.krnl.mram n).1 hf
  rw [vmMapRam]
  generalize allocPagesRange host c.krnl.mram n = r at *
  obtain ⟨st, frames, mram⟩ := r
  split
  · next heq =>
      cases heq
      exact absurd rfl hst
  · next heq =>
      cases heq
      rfl

/-- `vm_map_ram` succeeded: all its pages are in RAM. -/
structure AllMapped (r : ℕ × Caller) : Prop where
  status : r.1 = 0
  present : ∀ i < n, r.2.mm.present host (vmapPgn mapstart i) = true

/-- `vm_map_ram` failed: no frame has left the free list, no entry has come to name one of them, and no
    page is queued. -/
structure NothingTaken (r : ℕ × Caller) : Prop where
  status : r.1 = 2 ^ 64 - 1
  free : ∀ f ∈ c.krnl.mram.freeFpList, f ∈ r.2.krnl.mram.freeFpList
  entry : ∀ q, r.2.mm.presentAt q →
    pagingFpn ((r.2.mm.entry q).setWidth 32) ∈ c.krnl.mram.freeFpList →
    r.2.mm.entry q = c.mm.entry q
  fifoPgn : r.2.mm.fifoPgn = c.mm.fifoPgn

/-- **All or nothing.** `vm_map_ram` maps all pages or takes nothing exactly if it fails for want of
    frames, or the page tables that the pages need are granted. -/
theorem vmMapRam_allOrNothing_iff (hlt : ∀ f ∈ c.krnl.mram.freeFpList, f < 2 ^ 31) :
    AllMapped host mapstart n (vmMapRam host c mapstart n) ∨
      NothingTaken c (vmMapRam host c mapstart n) ↔
    (FramesGranted host c.krnl.mram n →
      TablesGranted host (vmapPages host mapstart n 0) c.mm.pgd.missing c.mm.stats.levelWrites) := by
  by_cases hf : FramesGranted host c.krnl.mram n
  · obtain ⟨frames, mram, hlen, -, heq⟩ := vmMapRam_of_frames host c mapstart n hf
    rw [heq, ← vmapPagesLoop_ok_iff host mapstart 0 hlen]
    constructor
    · rintro (hall | hnothing) -
      · by_contra hstop
        obtain ⟨q, hq, hnot⟩ := vmapPagesLoop_stops host mapstart hstop
        obtain ⟨i, hi, rfl⟩ := mem_vmapPages.1 hq
        exact hnot (hall.present i hi)
      · exact absurd hnothing.status (show ¬ (0 : ℕ) = 2 ^ 64 - 1 by decide)
    · intro hok
      refine Or.inl ⟨rfl, fun i hi => ?_⟩
      exact vmapPagesLoop_present host mapstart hlen (hok hf) (mem_vmapPages.2 ⟨i, hi, rfl⟩)
  · rw [vmMapRam_of_no_frames host c mapstart n hf]
    refine iff_of_true (Or.inr ⟨rfl, ?_, fun _ _ _ => rfl, rfl⟩) fun h => absurd h hf
    obtain ⟨-, -, hfail⟩ := allocPagesRange_lists host hlt n
    have hst := mt (allocPagesRange_fst host c.krnl.mram n).1 hf
    exact fun f hmem => (hfail hst).2.mem_iff.2 hmem

theorem vmMapRam_allOrNothing_page :
    AllMapped generousHost 0 1 (vmMapRam generousHost (freshCaller 1 1) 0 1) ∨
      NothingTaken (freshCaller 1 1) (vmMapRam generousHost (freshCaller 1 1) 0 1) :=
  (vmMapRam_allOrNothing_iff generousHost (freshCaller 1 1) 0 1 (by decide)).2
    fun _ => .of_calloc generousHost_generous.1 ..

/-- A host whose `calloc` refuses: success is reported, and the page is not there. -/
theorem not_vmMapRam_allOrNothing :
    let host := { generousHost with calloc := fun _ => false }
    ¬ (AllMapped host 0 1 (vmMapRam host (freshCaller 1 1) 0 1) ∨
      NothingTaken (freshCaller 1 1) (vmMapRam host (freshCaller 1 1) 0 1)) := by
  rintro host (hall | hnothing)
  · have habsent : (vmMapRam host (freshCaller 1 1) 0 1).2.mm.present host (vmapPgn 0 0) = false := by
      decide +kernel
    rw [hall.present 0 (by decide)] at habsent
    exact absurd habsent (by decide)
  · have hzero : (vmMapRam host (freshCaller 1 1) 0 1).1 = 0 := by decide +kernel
    rw [hnothing.status] at hzero
    exact absurd hzero (by decide)

/-! ## The range that is mapped -/

/-- What `vm_map_ram` is to do with the frames `fs`, which `rest` follows on the free list: page
    `mapstart / 4096 + i` is in the `i`-th of them, and nothing else has moved. -/
structure MapsRange (fs rest : List ℕ) (retRg : VmRg) : Prop where
  status : (vmMapRam host c mapstart n).1 = 0
  mapped : ∀ i < n,
    (vmMapRam host c mapstart n).2.mm.present host (mapstart / 4096 + i) = true ∧
    some (pagingFpn
      (pteGetEntry host (vmMapRam host c mapstart n).2.mm (mapstart / 4096 + i)).1) = fs[i]?
  others : ∀ q, (∀ i < n, q ≠ pageIx host (mapstart / 4096 + i)) →
    (vmMapRam host c mapstart n).2.mm.entry q = c.mm.entry q
  free : (vmMapRam host c mapstart n).2.krnl.mram.freeFpList = rest
  used : (vmMapRam host c mapstart n).2.krnl.mram.usedFpList = fs.reverse ++ c.krnl.mram.usedFpList
  fifoPgn : (vmMapRam host c mapstart n).2.mm.fifoPgn =
    ((List.range n).map (mapstart / 4096 + ·)).reverse ++ c.mm.fifoPgn
  retRg : vmMapRamRg host c mapstart n retRg = ⟨mapstart, mapstart + n * 4096⟩

variable {host c mapstart n}

theorem vmapPgn_of_range (hal : 4096 ∣ mapstart) (hend : mapstart + n * 4096 < 2 ^ 31) {i : ℕ}
    (hi : i < n) : vmapPgn mapstart i = mapstart / 4096 + i := by
  have hmul : i * 4096 ≤ n * 4096 := Nat.mul_le_mul_right 4096 hi.le
  have hlt : mapstart + i * 4096 < 2 ^ 31 := (Nat.add_le_add_left hmul _).trans_lt hend
  exact vmapPgn_eq hal ((Nat.le_add_left ..).trans_lt hlt) (hlt.trans (by norm_num))

theorem vmapPages_nodup (hal : 4096 ∣ mapstart) (hend : mapstart + n * 4096 < 2 ^ 31) :
    (vmapPages host mapstart n 0).Nodup := by
  refine List.Nodup.map_on ?_ List.nodup_range'
  intro i hi j hj he
  rw [List.mem_range'_1, Nat.zero_add] at hi hj
  rw [vmapPgn_of_range hal hend hi.2, vmapPgn_of_range hal hend hj.2] at he
  have hpgn := pageIx_inj host (by omega) (by omega) he
  omega

/-- **The range that is mapped.** On a free list that starts with `n` frames that fit an entry,
    `vm_map_ram` maps the `n` pages from `mapstart` on to them, in their order, and nothing else. -/
theorem vmMapRam_mapsRange (hg : host.Generous) (hal : 4096 ∣ mapstart)
    (hend : mapstart + n * 4096 < 2 ^ 31) {fs rest : List ℕ} (hlen : fs.length = n)
    (hfree : c.krnl.mram.freeFpList = fs ++ rest) (hlt : ∀ f ∈ fs, f < 2 ^ 13) (retRg : VmRg) :
    MapsRange host c mapstart n fs rest retRg := by
  -- the frames are taken off the front of the list, in its order
  have halloc : allocPagesRange host c.krnl.mram n =
      (0, fs, { c.krnl.mram with freeFpList := rest, usedFpList := fs.reverse ++ c.krnl.mram.usedFpList }) := by
    have hle : n ≤ c.krnl.mram.freeFpList.length := by
      rw [hfree, List.length_append]
      omega
    rw [allocPagesRange_of_granted ⟨hle, fun k _ => hg.2 k⟩, hfree, ← hlen, List.take_left,
      List.drop_left]
  -- the status of the mapping is not looked at
  have hmap : vmMapRam host c mapstart n = (0, (c.setMram
      { c.krnl.mram with freeFpList := rest, usedFpList := fs.reverse ++ c.krnl.mram.usedFpList }).setMm
      (vmapPagesLoop host mapstart n 0 fs c.mm).2) := by
    rw [vmMapRam, halloc]
    simp [vmapPageRange_snd]
  have hok : (vmapPagesLoop host mapstart n 0 fs c.mm).1 = 0 :=
    (vmapPagesLoop_ok_iff host mapstart 0 hlen c.mm).2 (.of_calloc hg.1 ..)
  have hnodup : (vmapPages host mapstart n 0).Nodup := vmapPages_nodup hal hend
  have hpgn := fun i hi => @vmapPgn_of_range mapstart n hal hend i hi
  obtain ⟨hit, hfifo⟩ := vmapPagesLoop_queue host mapstart hlen hok
  refine ⟨by rw [hmap], ?_, ?_, by rw [hmap]; rfl, by rw [hmap]; rfl, ?_, ?_⟩
  · intro i hi
    have hmem : pageIx host (mapstart / 4096 + i) ∈ vmapPages host mapstart n 0 :=
      mem_vmapPages.2 ⟨i, hi, by rw [hpgn i hi]⟩
    have hframe := vmapPagesLoop_frames host mapstart hlen hlt hnodup hok hi
    rw [Nat.zero_add, hpgn i hi] at hframe
    rw [hmap, pteGetEntry_fst]
    exact ⟨vmapPagesLoop_present host mapstart hlen hok hmem, hframe⟩
  · intro q hq
    rw [hmap]
    refine vmapPagesLoop_entry_of_not_mem host mapstart n 0 fs c.mm fun hmem => ?_
    obtain ⟨i, hi, rfl⟩ := mem_vmapPages.1 hmem
    exact hq i hi (by rw [hpgn i hi])
  · rw [hmap]
    refine hfifo.trans ?_
    rw [← List.range_eq_range', List.map_congr_left fun i hi => hpgn i (List.mem_range.1 hi)]
  · rw [vmMapRamRg, halloc]
    change vmapPageRangeRg host c.mm mapstart n fs = _
    rw [vmapPageRangeRg, hit, Nat.zero_add, paging64Pagesz, addrOfInt_of_lt (by omega),
      addrT_of_lt (by omega)]

end MapRam

theorem vmMapRam_mapsRange_two :
    MapsRange generousHost (freshCaller 3 1) 4096 2 [0, 1] [2] ⟨0, 0⟩ :=
  have hfree : (freshCaller 3 1).krnl.mram.freeFpList = [0, 1] ++ [2] := rfl
  vmMapRam_mapsRange generousHost_generous (show 4096 ∣ 4096 by decide)
    (show 4096 + 2 * 4096 < 2 ^ 31 by decide) rfl hfree (by decide) ⟨0, 0⟩

end Ossim
