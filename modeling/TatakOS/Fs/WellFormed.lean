import Mathlib.Data.List.TakeWhile
import TatakOS.Fs.Image

/-!
# Well-formed images

`ialloc` of `mkfs` gives out one inode number after the other and never looks at `NINODES`. The
image is well-formed exactly when the numbers fit, which is when there are at most
`NINODES - 2` host files.
-/

namespace TatakOS.Fs.Mkfs

open Function

/-- Block `b` is in an address of an inode that is in use. -/
def Mk.Holds (m : Mk) (b : ℕ) : Prop :=
  b ≠ 0 ∧ ∃ i s, m.Used i ∧ slot m.img (dinode sb m.img i) s = b

structure WellFormed (m : Mk) : Prop where
  ninodes : ∀ i, m.Used i → i < sb.ninodes
  writes : ∀ w ∈ m.writes, w.Intact
  unique : ∀ i s j t, m.Used i → m.Used j → slot m.img (dinode sb m.img i) s ≠ 0 →
    slot m.img (dinode sb m.img i) s = slot m.img (dinode sb m.img j) t → i = j ∧ s = t
  bitmap : ∀ b < nbitmap * BPB, inUse sb m.img b ↔ b < nmeta ∨ m.Holds b
  size : ∀ b, m.Holds b → b < FSSIZE

theorem bitOf_usedBits (n i : ℕ) : bitOf (usedBits n) i = decide (i < n) := by
  induction n with
  | zero =>
    show bitOf (fun _ => 0) i = _
    simp [bitOf]
  | succ n ih =>
    unfold usedBits
    rw [bitOf_setBit, ih]
    by_cases e : i = n
    · simp [e]
    · have hiff : i < n + 1 ↔ i < n := by omega
      simp [e, hiff]

section Image

variable {m : Mk} {f : ℕ → List UInt8} {ty : ℕ → ℕ}

theorem Image.inodes_eq (h : Image m f ty) {i : ℕ} (hu : m.Used i) :
    inodes m.img i = dinode sb m.img i := if_pos (hu.2.trans_le h.bound)

theorem Image.holds_iff (h : Image m f ty) {b : ℕ} : m.Holds b ↔ nmeta ≤ b ∧ b < m.freeblock := by
  constructor
  · rintro ⟨h0, i, s, hu, rfl⟩
    have hS : slots m.img (inodes m.img) i s = slot m.img (dinode sb m.img i) s := by
      unfold slots
      rw [h.inodes_eq hu]
    rw [← hS] at h0 ⊢
    exact h.core.slots.range h0
  · rintro ⟨h1, h2⟩
    have h0 : b ≠ 0 := (show 0 < b from lt_of_lt_of_le (by decide) h1).ne'
    obtain ⟨i, s, his⟩ := h.core.cover b h1 h2
    have hne : inodes m.img i ≠ {} := by
      intro e
      rw [slots, e] at his
      simp [slot] at his
      exact h0 his.symm
    have hi : i < NINODES := by
      by_contra hn
      exact hne (if_neg hn)
    have hu : m.Used i := by
      by_contra hn
      exact hne ((if_pos hi).trans (h.unused i hi hn))
    refine ⟨h0, i, s, hu, ?_⟩
    rw [← h.inodes_eq hu]
    exact his

theorem Image.wellFormed (h : Image m f ty) : WellFormed m := by
  refine ⟨fun i hu => hu.2.trans_le h.bound, h.writes, fun i s j t hi hj h0 e => ?_,
    fun b hb => ?_, fun b hb => (h.holds_iff.mp hb).2.trans_le h.hi⟩
  · rw [← h.inodes_eq hi] at h0 e
    rw [← h.inodes_eq hj] at e
    exact h.core.slots.inj h0 e
  · have hb' : b < BPB := hb
    have hlo := h.lo
    unfold inUse
    rw [Nat.mod_eq_of_lt hb', show sb.BBLOCK b = sb.bmapstart from ?_, h.bitmap, bitOf_usedBits,
      decide_eq_true_iff, h.holds_iff]
    · omega
    · unfold Superblock.BBLOCK
      rw [Nat.div_eq_of_lt hb', Nat.zero_add]

end Image

/-! ## The number of inodes -/

variable {xs : List HostFile}

section Freeinode

instance keeps_rsect {sec : ℕ} : Keeps Mk.freeinode (rsect sec) := by
  unfold rsect
  infer_instance

instance keeps_wsect {item : Item} {sec : ℕ} {buf : Block} :
    Keeps Mk.freeinode (wsect item sec buf) := keeps_modify fun _ => rfl

instance keeps_nextBlock : Keeps Mk.freeinode nextBlock := by
  have : Keeps Mk.freeinode (modify fun s => { s with freeblock := s.freeblock + 1 } : MkM Unit) :=
    keeps_modify fun _ => rfl
  unfold nextBlock
  infer_instance

instance keeps_winode {i : ℕ} {x : Dinode} : Keeps Mk.freeinode (winode i x) := by
  unfold winode
  infer_instance

instance keeps_rinode {i : ℕ} : Keeps Mk.freeinode (rinode i) := by
  unfold rinode
  infer_instance

instance keeps_iappendBlock {i : ℕ} {din : Dinode} {fbn : ℕ} :
    Keeps Mk.freeinode (iappendBlock i din fbn) := by
  unfold iappendBlock iappendIndirect
  infer_instance

instance keeps_iappendLoop {i n : ℕ} {din : Dinode} {off : ℕ} {p : List UInt8} :
    Keeps Mk.freeinode (iappendLoop i n din off p) := by
  induction n generalizing din off p <;> unfold iappendLoop <;> infer_instance

instance keeps_iappend {i : ℕ} {p : List UInt8} : Keeps Mk.freeinode (iappend i p) := by
  unfold iappend
  infer_instance

instance keeps_appendAll {i : ℕ} {bufs : List (List UInt8)} :
    Keeps Mk.freeinode (appendAll i bufs) := by
  induction bufs <;> unfold appendAll <;> infer_instance

instance keeps_zeroSectors {n sec : ℕ} : Keeps Mk.freeinode (zeroSectors n sec) := by
  induction n generalizing sec <;> unfold zeroSectors <;> infer_instance

instance keeps_finish {i : ℕ} : Keeps Mk.freeinode (finish i) := by
  unfold finish balloc
  infer_instance

theorem kept {α : Type} (m : MkM α) [h : Keeps Mk.freeinode m] (s : Mk) :
    Spec m s (fun _ s' => s'.freeinode = s.freeinode) Fails := h.spec s

theorem ialloc_freeinode (ty : ℕ) (m : Mk) :
    Spec (ialloc ty) m (fun _ m' => m'.freeinode = m.freeinode + 1) Fails := by
  unfold ialloc
  simp only [spec_bind, spec_get, spec_modify, spec_pure]
  exact (kept _ _).imp fun _ _ e => e

theorem addFiles_freeinode (root : ℕ) (xs : List HostFile) (m : Mk) :
    Spec (addFiles root xs) m (fun _ m' => m'.freeinode = m.freeinode + xs.length) Fails := by
  induction xs generalizing m with
  | nil =>
    unfold addFiles
    exact spec_pure.mpr rfl
  | cons x xs ih =>
    have hx : Spec (addFile root x) m (fun _ m' => m'.freeinode = m.freeinode + 1) Fails := by
      unfold addFile
      split_ifs
      · exact spec_throw.mpr trivial
      cases x.reads with
      | none => exact spec_throw.mpr trivial
      | some bufs =>
        refine (ialloc_freeinode _ _).bind fun i m1 h1 => (kept _ _).bind fun _ m2 h2 =>
          (kept _ _).imp fun _ m3 h3 => ?_
        omega
    unfold addFiles
    refine hx.bind fun _ m1 h1 => (ih m1).imp fun _ m2 h2 => ?_
    rw [List.length_cons]
    omega

theorem start_freeinode : Spec start {} (fun _ m => m.freeinode = 2) Fails := by
  unfold start
  simp only [spec_bind, spec_modify]
  refine (kept _ _).imp fun _ m1 h1 => (kept _ _).imp fun _ m2 h2 =>
    (ialloc_freeinode _ _).imp fun i m3 h3 => ?_
  split_ifs
  · exact spec_throw.mpr trivial
  · refine (kept _ _).bind fun _ m4 h4 => (kept _ _).bind fun _ m5 h5 => ?_
    rw [spec_pure]
    simp only at h1
    omega

theorem mkfs_freeinode {m : Mk} (h : mkfs xs = .ok m) : m.freeinode = xs.length + 2 := by
  have hmain : Spec (main xs) {} (fun _ m => m.freeinode = xs.length + 2) Fails := by
    unfold main
    refine start_freeinode.bind fun r m1 h1 => (addFiles_freeinode _ _ _).bind fun _ m2 h2 =>
      (kept _ _).imp fun _ m3 h3 => ?_
    omega
  exact hmain.of_ok (main_of_mkfs h)

end Freeinode

theorem slash_notMem_basename (path : List UInt8) : slash ∉ basename path := by
  unfold basename
  intro hmem
  have := List.mem_takeWhile_imp (List.mem_reverse.mp hmem)
  simp at this

/-! ## The number of files -/

/-- `mkfs` writes a well-formed image as long as the inode numbers fit, and not otherwise. -/
theorem mkfs_wellFormed_iff {files : List HostFile} {m : Mk} (h : mkfs files = .ok m) :
    WellFormed m ↔ files.length ≤ 198 := by
  have hfi := mkfs_freeinode h
  constructor
  · intro hw
    have hlast : files.length + 1 < sb.ninodes := hw.ninodes _ ⟨by omega, by omega⟩
    have : sb.ninodes = 200 := rfl
    omega
  · intro hlen
    exact (mkfs_image (by unfold NINODES; omega) h).2.wellFormed

/-- `mkfs` does not stop with an error, by evaluation. -/
theorem exists_of_isOk (files : List HostFile) (h : (mkfs files).isOk = true) :
    ∃ m, mkfs files = .ok m := by
  cases hm : mkfs files with
  | ok m => exact ⟨m, rfl⟩
  | error e =>
    rw [hm] at h
    cases h

/-- An empty host file. -/
def emptyFile : HostFile where
  path := [97]
  nonul := by decide
  reads := some []
  chunk := by simp

/-- `user/_hi`, of which `read` returns two bytes and then one. -/
def hiFile : HostFile where
  path := [117, slash, underscore, 104, 105]
  nonul := by decide
  reads := some [[104, 105], [10]]
  chunk := by simp [BSIZE]

theorem mkfs_wellFormed_two : ∃ m, mkfs [emptyFile, hiFile] = .ok m ∧
    (WellFormed m ↔ [emptyFile, hiFile].length ≤ 198) := by
  obtain ⟨m, hm⟩ := exists_of_isOk [emptyFile, hiFile] (by decide +kernel)
  exact ⟨m, hm, mkfs_wellFormed_iff hm⟩

/-- With 199 files the last one gets the inode number 200. -/
theorem mkfs_too_many_files :
    ∃ m, mkfs (List.replicate 199 (emptyFile)) = .ok m ∧ ¬ WellFormed m := by
  obtain ⟨m, hm⟩ := exists_of_isOk (List.replicate 199 emptyFile) (by decide +kernel)
  have hfi := mkfs_freeinode hm
  rw [List.length_replicate] at hfi
  refine ⟨m, hm, fun hw => ?_⟩
  exact absurd (hw.ninodes 200 ⟨by norm_num, by omega⟩) (by decide)

end TatakOS.Fs.Mkfs
