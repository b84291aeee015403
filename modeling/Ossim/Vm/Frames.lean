import Mathlib.Data.List.Perm.Subperm
import Ossim.Memphy.Proofs
import Ossim.Vm

set_option autoImplicit false

/-! # Frame lists

`alloc_pages_range` takes a frame off the free list of RAM for every page, with a list node for each
frame. It ends with all frames, or it gives back those it has: this is the one clean-up on the way down
from `inc_vma_limit` that is reached. -/

namespace Ossim

/-- RAM has a free frame for each of `n` pages, and a list node is granted for each frame. -/
def FramesGranted (host : Host) (mram : Memphy) (n : ℕ) : Prop :=
  n ≤ mram.freeFpList.length ∧ ∀ k < n, host.malloc k = true

/-! ## Taking -/

/-- The loop runs to its end if there is a frame and a list node for every page left. -/
theorem allocPagesLoop_ok_iff (host : Host) (n pgit : ℕ) (mram : Memphy) (frmLst : List ℕ) :
    (allocPagesLoop host n pgit mram frmLst).1 = true ↔
      n ≤ mram.freeFpList.length ∧ ∀ k < n, host.malloc (pgit + k) = true := by
  induction n generalizing pgit mram frmLst with
  | zero => simp [allocPagesLoop]
  | succ n ih =>
      rw [allocPagesLoop]
      cases hget : memphyGetFreefp mram with
      | none => simp [memphyGetFreefp_eq_none.1 hget]
      | some r =>
          obtain ⟨f, mram'⟩ := r
          obtain ⟨rest, hcons, rfl⟩ := memphyGetFreefp_eq_some hget
          have hshift : ∀ k, pgit + 1 + k = pgit + (k + 1) := fun k => by omega
          simp only
          rw [Nat.forall_lt_succ_left, hcons, List.length_cons, Nat.add_le_add_iff_right]
          split
          · next hm =>
              rw [ih]
              simp only [hshift, Nat.add_zero, hm, true_and]
          · next hm => simp [hm]

theorem framesGranted_iff (host : Host) (mram : Memphy) (n : ℕ) :
    FramesGranted host mram n ↔ (allocPagesLoop host n 0 mram []).1 = true := by
  rw [FramesGranted, allocPagesLoop_ok_iff]
  simp only [Nat.zero_add]

theorem allocPagesLoop_of_ok {host : Host} {n pgit : ℕ} {mram : Memphy} {frmLst : List ℕ}
    (h : (allocPagesLoop host n pgit mram frmLst).1 = true) :
    allocPagesLoop host n pgit mram frmLst = (true, frmLst ++ mram.freeFpList.take n,
      { mram with
        freeFpList := mram.freeFpList.drop n
        usedFpList := (mram.freeFpList.take n).reverse ++ mram.usedFpList }) := by
  induction n generalizing pgit mram frmLst with
  | zero => simp [allocPagesLoop]
  | succ n ih =>
      rw [allocPagesLoop] at h ⊢
      cases hget : memphyGetFreefp mram with
      | none =>
          rw [hget] at h
          exact absurd h (by simp)
      | some r =>
          obtain ⟨f, mram'⟩ := r
          obtain ⟨rest, hcons, rfl⟩ := memphyGetFreefp_eq_some hget
          rw [hget] at h
          simp only at h ⊢
          split at h
          · next hm =>
              rw [if_pos hm, ih h, hcons]
              simp
          · exact absurd h (by simp)

/-- However far the loop gets, it takes frames from the front of the free list. The frame whose node is
    refused is back at the front. -/
theorem allocPagesLoop_takes (host : Host) (n pgit : ℕ) {mram : Memphy} (frmLst : List ℕ)
    (hlt : ∀ f ∈ mram.freeFpList, f < 2 ^ 31) :
    ∃ k, (allocPagesLoop host n pgit mram frmLst).2 = (frmLst ++ mram.freeFpList.take k,
      { mram with
        freeFpList := mram.freeFpList.drop k
        usedFpList := (mram.freeFpList.take k).reverse ++ mram.usedFpList }) := by
  induction n generalizing pgit mram frmLst with
  | zero => exact ⟨0, by simp [allocPagesLoop]⟩
  | succ n ih =>
      rw [allocPagesLoop]
      cases hget : memphyGetFreefp mram with
      | none => exact ⟨0, by simp⟩
      | some r =>
          obtain ⟨f, mram'⟩ := r
          obtain ⟨rest, hcons, rfl⟩ := memphyGetFreefp_eq_some hget
          obtain ⟨hflt, hrest⟩ := List.forall_mem_cons.1 (hcons ▸ hlt)
          simp only
          split
          · obtain ⟨k, heq⟩ := @ih (pgit + 1)
              { mram with freeFpList := rest, usedFpList := f :: mram.usedFpList } (frmLst ++ [f]) hrest
            refine ⟨k + 1, ?_⟩
            rw [heq, hcons]
            simp
          · refine ⟨0, ?_⟩
            rw [memphyPutFreefp_of_mem hflt (List.mem_cons_self ..)]
            simp only [List.erase_cons_head, ← hcons]
            simp

/-! ## Giving back -/

theorem putFrames_eq {l : List ℕ} (hlt : ∀ f ∈ l, f < 2 ^ 31) (mram : Memphy)
    (hused : l.Subperm mram.usedFpList) :
    putFrames mram l = { mram with
      freeFpList := l.reverse ++ mram.freeFpList
      usedFpList := mram.usedFpList.diff l } := by
  induction l generalizing mram with
  | nil => rfl
  | cons f l ih =>
      obtain ⟨hflt, hlt'⟩ := List.forall_mem_cons.1 hlt
      have hput := memphyPutFreefp_of_mem hflt (List.Subperm.subset hused (List.mem_cons_self ..))
      have hrest : l.Subperm (memphyPutFreefp mram f).2.usedFpList := by
        rw [hput]
        simpa using hused.erase f
      change putFrames (memphyPutFreefp mram f).2 l = _
      rw [ih hlt' _ hrest, hput]
      simp

theorem reverse_append_diff (l used : List ℕ) : (l.reverse ++ used).diff l = used := by
  rw [List.Perm.diff_left _ (List.reverse_perm l).symm]
  generalize l.reverse = taken
  induction taken with
  | nil => rfl
  | cons f taken ih => rw [List.cons_append, List.diff_cons, List.erase_cons_head, ih]

/-- Giving back frames that were taken undoes the taking, but for the order of the free list. -/
theorem putFrames_taken {l used : List ℕ} (hlt : ∀ f ∈ l, f < 2 ^ 31) {mram : Memphy}
    (hused : mram.usedFpList = l.reverse ++ used) :
    putFrames mram l =
      { mram with freeFpList := l.reverse ++ mram.freeFpList, usedFpList := used } := by
  have hsub : l.Subperm mram.usedFpList := by
    rw [hused]
    exact (List.reverse_perm l).symm.subperm.trans (List.sublist_append_left ..).subperm
  rw [putFrames_eq hlt mram hsub, hused, reverse_append_diff]

/-! ## All or nothing -/

/-- `alloc_pages_range` succeeds if there is a frame and a list node for every page. -/
theorem allocPagesRange_fst (host : Host) (mram : Memphy) (n : ℕ) :
    (allocPagesRange host mram n).1 = 0 ↔ FramesGranted host mram n := by
  rw [framesGranted_iff, allocPagesRange]
  split
  · next heq => simp [heq]
  · next heq => simp [heq]

theorem allocPagesRange_of_granted {host : Host} {mram : Memphy} {n : ℕ}
    (h : FramesGranted host mram n) :
    allocPagesRange host mram n = (0, mram.freeFpList.take n,
      { mram with
        freeFpList := mram.freeFpList.drop n
        usedFpList := (mram.freeFpList.take n).reverse ++ mram.usedFpList }) := by
  rw [framesGranted_iff] at h
  rw [allocPagesRange, allocPagesLoop_of_ok h, List.nil_append]

theorem allocPagesRange_of_not_granted {host : Host} {mram : Memphy} {n : ℕ}
    (hlt : ∀ f ∈ mram.freeFpList, f < 2 ^ 31) (h : ¬ FramesGranted host mram n) :
    ∃ free, free.Perm mram.freeFpList ∧
      allocPagesRange host mram n = (-3000, [], { mram with freeFpList := free }) := by
  rw [framesGranted_iff, Bool.not_eq_true] at h
  obtain ⟨k, htakes⟩ := allocPagesLoop_takes host n 0 [] hlt
  rw [List.nil_append] at htakes
  have hback := @putFrames_taken _ mram.usedFpList (fun f hf => hlt f (List.mem_of_mem_take hf))
    { mram with
      freeFpList := mram.freeFpList.drop k
      usedFpList := (mram.freeFpList.take k).reverse ++ mram.usedFpList } rfl
  refine ⟨(mram.freeFpList.take k).reverse ++ mram.freeFpList.drop k, ?_, ?_⟩
  · have hperm := (List.reverse_perm (mram.freeFpList.take k)).append_right (mram.freeFpList.drop k)
    rwa [List.take_append_drop] at hperm
  · rw [allocPagesRange, show allocPagesLoop host n 0 mram [] = (false, _) from Prod.ext h htakes]
    simp only [hback]

/-- `alloc_pages_range` obtains a frame for each page, or gives all frames back. -/
theorem allocPagesRange_lists (host : Host) {mram : Memphy} (hlt : ∀ f ∈ mram.freeFpList, f < 2 ^ 31)
    (n : ℕ) :
    let r := allocPagesRange host mram n
    (∀ f ∈ r.2.2.freeFpList, f ∈ mram.freeFpList) ∧
    (r.1 = 0 → r.2.1.length = n ∧ r.2.2.usedFpList.length = mram.usedFpList.length + n) ∧
    (r.1 ≠ 0 → r.2.2.usedFpList.length = mram.usedFpList.length ∧
      r.2.2.freeFpList.Perm mram.freeFpList) := by
  by_cases h : FramesGranted host mram n
  · rw [allocPagesRange_of_granted h]
    have hlen : (mram.freeFpList.take n).length = n := List.length_take_of_le h.1
    refine ⟨fun f hf => List.mem_of_mem_drop hf, fun _ => ⟨hlen, ?_⟩, fun hne => absurd rfl hne⟩
    rw [List.length_append, List.length_reverse, hlen, Nat.add_comm]
  · obtain ⟨free, hperm, heq⟩ := allocPagesRange_of_not_granted hlt h
    rw [heq]
    exact ⟨fun f hf => hperm.mem_iff.1 hf, fun hst => absurd hst (by simp), fun _ => ⟨rfl, hperm⟩⟩

/-- **All or nothing.** On a RAM whose frames are all different, `alloc_pages_range` obtains as many
    frames as it was asked for, those at the front of the free list, or it ends with an error, without a
    frame and with all frames back, wherever the frames or the list nodes ran out. -/
theorem allocPagesRange_atomic (host : Host) {mram : Memphy}
    (hnodup : (mram.freeFpList ++ mram.usedFpList).Nodup)
    (hlt : ∀ f ∈ mram.freeFpList ++ mram.usedFpList, f < 2 ^ 31) (reqPgnum : ℕ) :
    let frames := mram.freeFpList.take reqPgnum
    frames.length = reqPgnum ∧ frames.Nodup ∧
      allocPagesRange host mram reqPgnum = (0, frames,
        { mram with
          freeFpList := mram.freeFpList.drop reqPgnum
          usedFpList := frames.reverse ++ mram.usedFpList }) ∨
    ∃ free, free.Perm mram.freeFpList ∧
      allocPagesRange host mram reqPgnum = (-3000, [], { mram with freeFpList := free }) := by
  intro frames
  by_cases hgranted : FramesGranted host mram reqPgnum
  · left
    have hfreeNodup := (List.nodup_append.1 hnodup).1
    exact ⟨List.length_take_of_le hgranted.1, hfreeNodup.sublist (List.take_sublist ..),
      allocPagesRange_of_granted hgranted⟩
  · right
    exact allocPagesRange_of_not_granted (fun f hf => hlt f (List.mem_append_left _ hf)) hgranted

/-- The node for the second of three frames is refused: both frames taken go back. -/
theorem allocPagesRange_atomic_refused :
    let host : Host := { generousHost with malloc := fun n => n == 0 }
    ∃ free, free.Perm [0, 1, 2] ∧
      allocPagesRange host (pagesDevice 3) 3 = (-3000, [], { pagesDevice 3 with freeFpList := free }) := by
  intro host
  refine (@allocPagesRange_atomic host (pagesDevice 3) (by decide) (by decide) 3).resolve_left ?_
  rintro ⟨-, -, heq⟩
  have hst : (allocPagesRange host (pagesDevice 3) 3).1 = -3000 := by decide
  rw [heq] at hst
  exact absurd hst (by decide)

end Ossim
