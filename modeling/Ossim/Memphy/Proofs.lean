import Ossim.Memphy

set_option autoImplicit false

/-! # Facts about devices

A device is used frame by frame: `Memphy.page` is the content of a frame. A write and a copy change
the content of one frame; what they leave there is what was sent if the device is random access and
the frame lies within its storage (`Memphy.Holds`). -/

namespace Ossim

/-- The content of a frame. -/
def Memphy.page (mp : Memphy) (f : ℕ) (j : Fin 4096) : Byte := mp.storage (f * 4096 + j)

/-- The device can store frame `f`. -/
structure Memphy.Holds (mp : Memphy) (f : ℕ) : Prop where
  rdm : mp.rdmflg = true
  fits : (f + 1) * 4096 ≤ mp.storageSz

/-! ## Writing -/

section Write

variable (mp : Memphy) (addr : ℕ) (b : Byte)

/-- A write changes the storage and the cursor only, and the storage at its address only. -/
theorem memphyWrite_eq :
    ∃ (b' : Byte) (cursor : ℤ), (memphyWrite mp addr b).2 =
      { mp with storage := Function.update mp.storage addr b', cursor := cursor } := by
  have hkeep : mp = { mp with
      storage := Function.update mp.storage addr (mp.storage addr), cursor := mp.cursor } := by
    rw [Function.update_eq_self]
  unfold memphyWrite memphySeqWrite
  split
  · unfold Memphy.poke
    split
    · exact ⟨b, mp.cursor, rfl⟩
    · exact ⟨_, _, hkeep⟩
  · next hr =>
      rw [if_pos (by simpa using hr)]
      exact ⟨_, _, hkeep⟩

@[simp]
theorem memphyWrite_freeFpList : (memphyWrite mp addr b).2.freeFpList = mp.freeFpList := by
  obtain ⟨_, _, h⟩ := memphyWrite_eq mp addr b
  rw [h]

@[simp]
theorem memphyWrite_usedFpList : (memphyWrite mp addr b).2.usedFpList = mp.usedFpList := by
  obtain ⟨_, _, h⟩ := memphyWrite_eq mp addr b
  rw [h]

@[simp]
theorem memphyWrite_rdmflg : (memphyWrite mp addr b).2.rdmflg = mp.rdmflg := by
  obtain ⟨_, _, h⟩ := memphyWrite_eq mp addr b
  rw [h]

@[simp]
theorem memphyWrite_storageSz : (memphyWrite mp addr b).2.storageSz = mp.storageSz := by
  obtain ⟨_, _, h⟩ := memphyWrite_eq mp addr b
  rw [h]

theorem memphyWrite_storage_of_ne {a : ℕ} (ha : a ≠ addr) :
    (memphyWrite mp addr b).2.storage a = mp.storage a := by
  obtain ⟨_, _, h⟩ := memphyWrite_eq mp addr b
  rw [h]
  exact Function.update_of_ne ha ..

theorem memphyWrite_storage_self (hr : mp.rdmflg = true) (ha : addr < mp.storageSz) :
    (memphyWrite mp addr b).2.storage addr = b := by
  simp [memphyWrite, hr, Memphy.poke, ha]

/-- A write to a device that is not random access is refused. -/
theorem memphyWrite_ok : (memphyWrite mp addr b).1 = 0 ↔ mp.rdmflg = true := by
  cases hr : mp.rdmflg <;> simp [memphyWrite, memphySeqWrite, hr]

end Write

/-- Frame and offset of a physical address are determined by it. -/
theorem frame_inj {f g : ℕ} {i j : Fin 4096} (h : f * 4096 + i.val = g * 4096 + j.val) :
    f = g ∧ i = j := by
  have hi := i.isLt
  have hj := j.isLt
  exact ⟨by omega, Fin.ext (by omega)⟩

/-- Writing a byte of a frame changes that byte, to the value sent if the device holds the frame. -/
theorem memphyWrite_page (mp : Memphy) (f : ℕ) (j : Fin 4096) (b : Byte) :
    ∃ b', (memphyWrite mp (f * 4096 + j) b).2.page =
        Function.update mp.page f (Function.update (mp.page f) j b') ∧
      (mp.Holds f → b' = b) := by
  refine ⟨(memphyWrite mp (f * 4096 + j) b).2.storage (f * 4096 + j), ?_, fun hh => ?_⟩
  · funext g i
    by_cases hgf : g = f
    · subst hgf
      rw [Function.update_self]
      by_cases hij : i = j
      · subst hij
        rw [Function.update_self]
        rfl
      · rw [Function.update_of_ne hij]
        exact memphyWrite_storage_of_ne _ _ _ fun he => hij (frame_inj he).2
    · rw [Function.update_of_ne hgf]
      exact memphyWrite_storage_of_ne _ _ _ fun he => hgf (frame_inj he).1
  · have hj := j.isLt
    have hfits := hh.fits
    exact memphyWrite_storage_self _ _ _ hh.rdm (by omega)

/-! ## Copying -/

section Copy

variable (src : Memphy) (sf df : ℕ)

@[simp]
theorem swapCpCells_freeFpList (n i : ℕ) (b : Byte) (dst : Memphy) :
    (swapCpCells src sf df n i b dst).freeFpList = dst.freeFpList := by
  induction n generalizing i b dst with
  | zero => rfl
  | succ n ih => rw [swapCpCells, ih, memphyWrite_freeFpList]

@[simp]
theorem swapCpCells_usedFpList (n i : ℕ) (b : Byte) (dst : Memphy) :
    (swapCpCells src sf df n i b dst).usedFpList = dst.usedFpList := by
  induction n generalizing i b dst with
  | zero => rfl
  | succ n ih => rw [swapCpCells, ih, memphyWrite_usedFpList]

@[simp]
theorem swapCpCells_rdmflg (n i : ℕ) (b : Byte) (dst : Memphy) :
    (swapCpCells src sf df n i b dst).rdmflg = dst.rdmflg := by
  induction n generalizing i b dst with
  | zero => rfl
  | succ n ih => rw [swapCpCells, ih, memphyWrite_rdmflg]

@[simp]
theorem swapCpCells_storageSz (n i : ℕ) (b : Byte) (dst : Memphy) :
    (swapCpCells src sf df n i b dst).storageSz = dst.storageSz := by
  induction n generalizing i b dst with
  | zero => rfl
  | succ n ih => rw [swapCpCells, ih, memphyWrite_storageSz]

/-- The copy writes cells `i .. i + n` of its destination frame and nothing else. -/
theorem swapCpCells_storage_of_ne (hdf : df < 2 ^ 50) {n i : ℕ} (hi : i + n ≤ 4096) (b : Byte)
    (dst : Memphy) {a : ℕ} (ha : ∀ k, i ≤ k → k < i + n → a ≠ df * 4096 + k) :
    (swapCpCells src sf df n i b dst).storage a = dst.storage a := by
  induction n generalizing i b dst with
  | zero => rfl
  | succ n ih =>
      have haddr : addrT (df * paging64Pagesz + i) = df * 4096 + i := by
        rw [paging64Pagesz]
        exact addrT_of_lt (by omega)
      have hne : a ≠ df * 4096 + i := ha i (by omega) (by omega)
      rw [swapCpCells, ih (by omega) _ _ (fun k hk hk' => ha k (by omega) (by omega)), haddr,
        memphyWrite_storage_of_ne _ _ _ hne]

/-- Between frames the devices hold, the copy is faithful. -/
theorem swapCpCells_storage (hsf : sf < 2 ^ 50) (hdf : df < 2 ^ 50) (hs : src.rdmflg = true)
    {n i : ℕ} (hi : i + n ≤ 4096) (b : Byte) (dst : Memphy) (hd : dst.Holds df) {k : ℕ}
    (hik : i ≤ k) (hk : k < i + n) :
    (swapCpCells src sf df n i b dst).storage (df * 4096 + k) = src.storage (sf * 4096 + k) := by
  induction n generalizing i b dst with
  | zero => omega
  | succ n ih =>
      have hsrc : addrT (sf * paging64Pagesz + i) = sf * 4096 + i := by
        rw [paging64Pagesz]
        exact addrT_of_lt (by omega)
      have hdst : addrT (df * paging64Pagesz + i) = df * 4096 + i := by
        rw [paging64Pagesz]
        exact addrT_of_lt (by omega)
      have hread : (memphyRead src (sf * 4096 + i)).1 = some (src.storage (sf * 4096 + i)) := by
        simp [memphyRead, hs]
      have hfits := hd.fits
      rw [swapCpCells, hsrc, hdst, hread, Option.getD_some]
      by_cases hk' : i = k
      · -- the cell just written is not written again
        subst hk'
        rw [swapCpCells_storage_of_ne src sf df hdf (by omega) _ _ (fun k hk _ => by omega)]
        exact memphyWrite_storage_self _ _ _ hd.rdm (by omega)
      · apply ih (by omega) _ _ ⟨?_, ?_⟩ (by omega) (by omega)
        · rw [memphyWrite_rdmflg]
          exact hd.rdm
        · rw [memphyWrite_storageSz]
          exact hfits

variable (host : Host) (dst : Memphy)

@[simp]
theorem swapCpPage_freeFpList : (swapCpPage host src sf dst df).freeFpList = dst.freeFpList :=
  swapCpCells_freeFpList ..

@[simp]
theorem swapCpPage_usedFpList : (swapCpPage host src sf dst df).usedFpList = dst.usedFpList :=
  swapCpCells_usedFpList ..

@[simp]
theorem swapCpPage_rdmflg : (swapCpPage host src sf dst df).rdmflg = dst.rdmflg :=
  swapCpCells_rdmflg ..

@[simp]
theorem swapCpPage_storageSz : (swapCpPage host src sf dst df).storageSz = dst.storageSz :=
  swapCpCells_storageSz ..

/-- Copying a frame changes the destination frame, to the source's content if the devices hold the
    two frames. -/
theorem swapCpPage_page (hsf : sf < 2 ^ 50) (hdf : df < 2 ^ 50) :
    ∃ d, (swapCpPage host src sf dst df).page = Function.update dst.page df d ∧
      (src.rdmflg = true → dst.Holds df → d = src.page sf) := by
  have hle : 0 + paging64Pagesz ≤ 4096 := Nat.le_of_eq (Nat.zero_add _)
  refine ⟨(swapCpPage host src sf dst df).page df, ?_, fun hs hd => ?_⟩
  · funext g i
    by_cases hgf : g = df
    · rw [hgf, Function.update_self]
    · have hi := i.isLt
      have hne : ∀ k, 0 ≤ k → k < 0 + paging64Pagesz → g * 4096 + i.val ≠ df * 4096 + k := by
        intro k _ hk
        rw [paging64Pagesz] at hk
        omega
      rw [Function.update_of_ne hgf, Memphy.page, Memphy.page, swapCpPage,
        swapCpCells_storage_of_ne src sf df hdf hle _ _ hne]
  · funext i
    have hi : i.val < 0 + paging64Pagesz := by
      rw [Nat.zero_add]
      exact i.isLt
    rw [Memphy.page, Memphy.page, swapCpPage,
      swapCpCells_storage src sf df hsf hdf hs hle _ _ hd (Nat.zero_le _) hi]

end Copy

/-! ## Frame lists -/

/-- A frame is granted from the head of the free list; nothing but the lists changes. -/
theorem memphyGetFreefp_eq_some {mp mp' : Memphy} {f : ℕ}
    (h : memphyGetFreefp mp = some (f, mp')) :
    ∃ rest, mp.freeFpList = f :: rest ∧
      mp' = { mp with freeFpList := rest, usedFpList := f :: mp.usedFpList } := by
  unfold memphyGetFreefp at h
  split at h
  · exact absurd h (by simp)
  · next fpn rest heq =>
      simp only [Option.some.injEq, Prod.mk.injEq] at h
      exact ⟨rest, by rw [heq, h.1], by rw [← h.2, ← h.1]⟩

theorem memphyGetFreefp_eq_none {mp : Memphy} :
    memphyGetFreefp mp = none ↔ mp.freeFpList = [] := by
  unfold memphyGetFreefp
  split
  · next heq => simp [heq]
  · next heq => simp [heq]

/-- A frame that was in use returns to the head of the free list. -/
theorem memphyPutFreefp_of_mem {mp : Memphy} {f : ℕ} (hf : f < 2 ^ 31) (hmem : f ∈ mp.usedFpList) :
    (memphyPutFreefp mp f).2 =
      { mp with freeFpList := f :: mp.freeFpList, usedFpList := mp.usedFpList.erase f } := by
  simp [memphyPutFreefp, addrOfInt_of_lt hf, hmem]

/-- Releasing a frame grows the free list by that frame, or does nothing. -/
theorem memphyPutFreefp_snd {mp : Memphy} {f : ℕ} (hf : f < 2 ^ 31) :
    (memphyPutFreefp mp f).2 = mp ∨
    ∃ used, (memphyPutFreefp mp f).2 =
      { mp with freeFpList := f :: mp.freeFpList, usedFpList := used } := by
  by_cases hmem : f ∈ mp.usedFpList
  · exact Or.inr ⟨_, memphyPutFreefp_of_mem hf hmem⟩
  · left
    simp [memphyPutFreefp, addrOfInt_of_lt hf, hmem]

/-! ## A small device -/

/-- A random-access device of `n` frames. -/
def pagesDevice (n : ℕ) : Memphy :=
  { zeroMemphy with
    storageSz := n * 4096
    maxsz := n * 4096
    rdmflg := true
    freeFpList := List.range n }

theorem pagesDevice_holds {n f : ℕ} (h : f < n) : (pagesDevice n).Holds f := by
  refine ⟨rfl, ?_⟩
  change _ ≤ n * 4096
  omega

end Ossim
