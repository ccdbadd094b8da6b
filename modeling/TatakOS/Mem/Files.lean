import TatakOS.Fs.Write
import TatakOS.Mem.Access
import TatakOS.Mem.Exec

/-!
# Memory and files, seen from the other side

The file system knows the memory of a process as the pages that the user may access, and `exec`
knows a file as a size and its bytes. `copyin` and `readi` do the same on both sides.
-/

namespace TatakOS.Mem

variable {H : Type} {cfg : Config} {s : Phys} {own : ℕ → Own H} {m : Bytes} {L : ℕ → ℕ}
  {r va n : ℕ}

/-- The pages that the user may access. -/
def userPages (m : Bytes) (L : ℕ → ℕ) : Fs.UserMem := fun v =>
  if UserPage L v then some fun o => m (PTE2PA (L v) + o) else none

theorem userPages_isSome {v : ℕ} : (userPages m L v).isSome = true ↔ UserPage L v := by
  unfold userPages
  split_ifs with hp <;> simp [hp]

theorem userByte_userPages (hp : UserPage L (va / 4096)) :
    userByte m L va = some (Fs.userByte (userPages m L) va) := by
  unfold userByte userAddr Fs.userByte userPages Fs.PGSIZE
  rw [if_pos hp, if_pos hp]
  rfl

theorem mappedBytes_userPages : Fs.mappedBytes (userPages m L) va n = n ↔
    (readUser m L va n).isSome = true := by
  rw [Fs.mappedBytes_eq_iff, readUser_isSome]
  exact ⟨fun h i hi => userPages_isSome.mp (h.2.1 i hi),
    fun h => ⟨le_rfl, fun i hi => userPages_isSome.mpr (h i hi), fun hlt => absurd hlt (lt_irrefl n)⟩⟩

/-- `copyin` gives the bytes that the copy of the file system gives, or fails with it. What that one
has copied before it failed is still in the kernel. -/
theorem copyin_userPages (h : Tree s.mem own r L) (va n : ℕ) : copyin cfg (4096 * r) va n s =
    .ok (if (Fs.copyin (userPages s.mem L) va n).2 then some (Fs.copyin (userPages s.mem L) va n).1
      else none, s) := by
  unfold Fs.copyin
  rw [copyin_eq h, Fs.copyinLoop_eq le_rfl]
  dsimp only
  by_cases hall : (readUser s.mem L va n).isSome = true
  · have hpages := readUser_isSome.mp hall
    rw [mappedBytes_userPages.mpr hall, decide_eq_true rfl, if_pos rfl]
    congr 2
    refine readUser_eq_some.mpr ⟨by simp, fun i hi => ?_⟩
    rw [userByte_userPages (hpages i hi)]
    simp [hi]
  · rw [decide_eq_false (mappedBytes_userPages.not.mpr hall), if_neg (by decide),
      Option.not_isSome_iff_eq_none.mp hall]

/-- `readi` of an inode in memory gives what it gives of the file as `exec` sees it. -/
theorem readi_image {fs : Fs.State} {V : ℕ → Fs.Dinode} {D : Option ℕ} {ip : Fs.Ip} {off : ℕ}
    {E : Fs.Panic × Fs.State → Prop} (h : Fs.Consistent D fs V) (href : 0 < (fs.itable ip).ref)
    (hval : (fs.itable ip).valid = true) (hoff : off < 2 ^ 32) (hn : n < 2 ^ 32) (p : List UInt8) :
    Spec (Fs.readi ip (.kernel p) off n) fs (fun r fs' => fs' = fs ∧ r = some (Image.readi
      ⟨(V (fs.itable ip).inum).size, Fs.content fs.blk (V (fs.itable ip).inum)⟩ off n)) E := by
  unfold Image.readi
  by_cases hlt : off + n < 2 ^ 32
  · refine (h.readi_spec href hval (Fs.Mem.takes_kernel p n) hlt).imp ?_
    rintro r fs' ⟨rfl, rfl⟩
    refine ⟨rfl, congrArg some ?_⟩
    rw [Nat.mod_eq_of_lt hlt]
    dsimp only
    split_ifs with h1 h2
    · rw [Nat.sub_eq_zero_of_le (by omega), Nat.min_zero]
      rfl
    · rw [Nat.min_eq_right (by omega)]
      rfl
    · rw [Nat.min_eq_left (by omega)]
      rfl
  · -- the sum overflows
    unfold Fs.readi
    rw [spec_get_bind, if_pos (.inr (by omega)), spec_pure, if_pos (.inr (by omega))]
    exact ⟨rfl, rfl⟩

end TatakOS.Mem
