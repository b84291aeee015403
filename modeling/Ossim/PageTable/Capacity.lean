import Ossim.Memphy.Carving
import Ossim.PageTable.Proofs

set_option autoImplicit false

/-! # Frame numbers and the fields that hold them

An entry has 13 bits for a frame of RAM and 21 bits for a frame of swap. How many frames there are is
decided elsewhere: `init_memphy` cuts a device by its size. This module says for which sizes every
frame a device can hand out comes back from the page table as it was put in. -/

namespace Ossim

/-- The device gives out frame `f` in one of its lives. -/
def HandsOut (start : Memphy) (f : ℕ) : Prop :=
  ∃ fs mp, DeviceRun start fs mp ∧ f ∈ fs

/-- The frames a setter and its macro read back, and the entries it writes tell apart: for every frame
    the device gives out, every address space (so every previous entry) and every page the walk of the
    setter gets to. -/
structure SurvivesEntry (start : Memphy) (set : Host → Mm → ℕ → ℕ → ℤ × Mm)
    (get : BitVec 32 → ℕ) : Prop where
  roundTrip : ∀ f, HandsOut start f → ∀ host mm pgn, (set host mm pgn f).1 = 0 →
    get (pteGetEntry host (set host mm pgn f).2 pgn).1 = f
  distinct : ∀ f g, HandsOut start f → HandsOut start g → ∀ host mm pgn,
    (set host mm pgn f).1 = 0 → (set host mm pgn g).1 = 0 →
    (pteGetEntry host (set host mm pgn f).2 pgn).1 = (pteGetEntry host (set host mm pgn g).2 pgn).1 →
    f = g

/-- The frames of a device made by `init_memphy` on the structure `mp` fit a field of `width` bits. The
    size decides; a device too small for a frame keeps the list of the structure. -/
def FitsField (width : ℕ) (mp : Memphy) (maxSize : ℕ) : Prop :=
  cInt maxSize / 256 ≤ 2 ^ width ∧ (cInt maxSize < 256 → ∀ f ∈ mp.freeFpList, f < 2 ^ width)

/-! ## What a device hands out -/

/-- Frame numbers below `2 ^ 31` come back from the `int` that `MEMPHY_put_freefp` compares: a device
    whose free frames are below a bound never goes beyond it. -/
theorem DeviceRun.lt_of_free {start mp : Memphy} {fs : List ℕ} {n : ℕ} (hn : n ≤ 2 ^ 31)
    (hstart : ∀ f ∈ start.freeFpList, f < n) (h : DeviceRun start fs mp) :
    (∀ f ∈ fs, f < n) ∧ ∀ f ∈ mp.freeFpList, f < n := by
  induction h with
  | start => exact ⟨by simp, hstart⟩
  | @get fs mp _ f _ hget ih =>
      obtain ⟨rest, hfree, rfl⟩ := memphyGetFreefp_eq_some hget
      obtain ⟨hfs, hlt⟩ := ih
      rw [hfree] at hlt
      obtain ⟨hf, hrest⟩ := List.forall_mem_cons.1 hlt
      exact ⟨List.forall_mem_cons.2 ⟨hf, hfs⟩, hrest⟩
  | @put fs mp f _ hf ih =>
      obtain ⟨hfs, hlt⟩ := ih
      have hint : addrOfInt f = f := addrOfInt_of_lt (lt_of_lt_of_le (hfs f hf) hn)
      refine ⟨hfs, ?_⟩
      rw [memphyPutFreefp]
      simp only [hint]
      split
      · exact List.forall_mem_cons.2 ⟨hfs f hf, hlt⟩
      · exact hlt
  | write addr b _ ih =>
      rw [memphyWrite_freeFpList]
      exact ih

/-- All frames a device hands out are below a bound if and only if its first free frames are. -/
theorem handsOut_lt_iff {start : Memphy} {n : ℕ} (hn : n ≤ 2 ^ 31) :
    (∀ f, HandsOut start f → f < n) ↔ ∀ f ∈ start.freeFpList, f < n := by
  constructor
  · intro h f hf
    obtain ⟨fs, mp, hrun, hmem⟩ := DeviceRun.obtain_of_mem .start rfl hf
    exact h f ⟨fs, mp, hrun, hmem⟩
  · rintro h f ⟨fs, mp, hrun, hmem⟩
    exact (hrun.lt_of_free hn h).1 f hmem

/-- The frame numbers of a fresh device fit a field exactly if the device is small enough. -/
theorem fitsField_iff (width : ℕ) (mp : Memphy) (maxSize : ℕ) (randomflg : Bool) :
    FitsField width mp maxSize ↔
      ∀ f ∈ (initMemphy mp maxSize randomflg).freeFpList, f < 2 ^ width := by
  have hpow : (1 : ℤ) ≤ 2 ^ width := one_le_pow₀ (by omega)
  by_cases hsmall : cInt maxSize < 256
  · rw [initMemphy_freeFpList_of_lt mp maxSize randomflg hsmall]
    constructor
    · exact fun h => h.2 hsmall
    · exact fun h => ⟨by omega, fun _ => h⟩
  · rw [initMemphy_freeFpList_of_le mp maxSize randomflg (by omega)]
    have hcast : ((2 ^ width : ℕ) : ℤ) = 2 ^ width := by push_cast; rfl
    constructor
    · rintro ⟨hle, -⟩ f hf
      rw [List.mem_range] at hf
      omega
    · intro h
      have hlast := h ((cInt maxSize / 256).toNat - 1) (by rw [List.mem_range]; omega)
      exact ⟨by omega, fun hlt => absurd hlt hsmall⟩

/-! ## Fields -/

/-- A setter that writes a frame number into a field of its entry: what is read back is the number, as
    far as the field holds it. -/
structure WritesField (width : ℕ) (set : Host → Mm → ℕ → ℕ → ℤ × Mm) (get : BitVec 32 → ℕ) :
    Prop where
  ok : ∀ mm pgn f, (set generousHost mm pgn f).1 = 0
  readsBack : ∀ f < 2 ^ width, ∀ host mm pgn, (set host mm pgn f).1 = 0 →
    get (pteGetEntry host (set host mm pgn f).2 pgn).1 = f
  bounded : ∀ pte, get pte < 2 ^ width

theorem pteSetFpn_writesField : WritesField 13 pteSetFpn pagingFpn where
  ok mm pgn f := pteSetFpn_fst generousHost mm pgn generousHost_generous.1 f
  readsBack f hf host mm pgn hst := by
    rw [pteGetEntry_fst, pteSetFpn, pteUpdate_entry_of_ok host mm pgn _ hst, Function.update_self,
      fpn_pteFpnWord _ _ hf]
  bounded pte := by
    rw [pagingFpn_eq]
    exact Nat.mod_lt _ (by decide)

theorem pteSetSwap_writesField :
    WritesField 21 (fun host mm pgn swpoff => pteSetSwap host mm pgn 0 swpoff) pagingSwp where
  ok mm pgn s := by
    rw [pteSetSwap, pteUpdate_eq generousHost mm pgn _ generousHost_generous.1]
  readsBack s hs host mm pgn hst := by
    rw [pteGetEntry_fst, pteSetSwap, pteUpdate_entry_of_ok host mm pgn _ hst, Function.update_self,
      swp_pteSwapWord _ _ _ hs]
  bounded pte := by
    rw [pagingSwp_eq]
    exact Nat.mod_lt _ (by decide)

/-- What a device hands out survives an entry exactly if the field holds it. -/
theorem WritesField.survives_iff {width : ℕ} {set : Host → Mm → ℕ → ℕ → ℤ × Mm}
    {get : BitVec 32 → ℕ} (h : WritesField width set get) (start : Memphy) :
    SurvivesEntry start set get ↔ ∀ f, HandsOut start f → f < 2 ^ width := by
  constructor
  · intro hs f hf
    have hback := hs.roundTrip f hf generousHost initMm 0 (h.ok ..)
    rw [← hback]
    exact h.bounded _
  · intro hlt
    have hround : ∀ f, HandsOut start f → ∀ host mm pgn, (set host mm pgn f).1 = 0 →
        get (pteGetEntry host (set host mm pgn f).2 pgn).1 = f :=
      fun f hf => h.readsBack f (hlt f hf)
    refine ⟨hround, ?_⟩
    intro f g hf hg host mm pgn hstf hstg heq
    rw [← hround f hf host mm pgn hstf, heq, hround g hg host mm pgn hstg]

/-! ## The two devices -/

/-- **Frames and entries.** Every frame of RAM and of swap that the devices can hand out survives its
    encoding in an entry exactly when RAM has at most `2 ^ 13` frames and swap at most `2 ^ 21`. -/
theorem frames_survive_entries_iff (ram swp : Memphy) (memramsz memswpsz : ℕ) (r s : Bool) :
    (SurvivesEntry (initMemphy ram memramsz r) pteSetFpn pagingFpn ∧
      SurvivesEntry (initMemphy swp memswpsz s)
        (fun host mm pgn swpoff => pteSetSwap host mm pgn 0 swpoff) pagingSwp) ↔
    FitsField 13 ram memramsz ∧ FitsField 21 swp memswpsz := by
  rw [pteSetFpn_writesField.survives_iff, pteSetSwap_writesField.survives_iff,
    handsOut_lt_iff (by decide), handsOut_lt_iff (by decide), ← fitsField_iff, ← fitsField_iff]

/-- The sizes `read_config` sets for a configuration without a memory line: frame 8192 of RAM is read
    back as frame 0. -/
theorem not_frames_survive_default :
    ¬ (SurvivesEntry (initMemphy zeroMemphy 0x1000000 true) pteSetFpn pagingFpn ∧
      SurvivesEntry (initMemphy zeroMemphy 0x1000000 true)
        (fun host mm pgn swpoff => pteSetSwap host mm pgn 0 swpoff) pagingSwp) := by
  rintro ⟨hram, -⟩
  have hlist : 8192 ∈ (initMemphy zeroMemphy 0x1000000 true).freeFpList := by
    rw [initMemphy_freeFpList_of_le _ _ _ (by decide), List.mem_range]
    decide
  obtain ⟨fs, mp, hrun, hmem⟩ := DeviceRun.obtain_of_mem .start rfl hlist
  have hback := hram.roundTrip 8192 ⟨fs, mp, hrun, hmem⟩ generousHost initMm 0
    (pteSetFpn_fst generousHost initMm 0 generousHost_generous.1 8192)
  have hzero : pagingFpn (pteGetEntry generousHost (pteSetFpn generousHost initMm 0 8192).2 0).1 = 0 := by
    decide +kernel
  rw [hzero] at hback
  exact absurd hback (by decide)

end Ossim
