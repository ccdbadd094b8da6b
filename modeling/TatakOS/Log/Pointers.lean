import TatakOS.Log.Lru

/-!
# The pointers behind the cache

`Logging.Cache` has the buffers in a list, where `bio.c` has the pointers of `Lru.Bcache`. `bget`
and `brelse` choose the same buffer in both, and keep them in step.
-/

namespace TatakOS.Lru

open Function
open Logging (BufId Cache)

variable {P : Type} {s : Bcache P} {c : Cache P} {b : BufId}

/-- The same buffer, but for the data. -/
structure Buf.Shows (x : Buf P) (y : Logging.Buf P) : Prop where
  valid : y.valid = x.valid
  dev : y.dev = x.dev.toNat
  blockno : y.blockno = x.blockno.toNat
  refcnt : y.refcnt = x.refcnt.toNat
  lockedBy : y.lockedBy = x.lockedBy

/-- The same buffers, in the same order. -/
structure Lists (s : Bcache P) (c : Cache P) : Prop where
  circle : Circle s c.lru
  buf : ∀ b, (s.buf b).Shows (c.buf b)

theorem lists_binit (disk : ℕ → Logging.Block) : Lists (binit : Bcache P) (Logging.binit disk) :=
  ⟨binit_circle, fun _ => ⟨rfl, rfl, rfl, rfl, rfl⟩⟩

theorem Lists.setBuf (h : Lists s c) {x : Buf P} {y : Logging.Buf P} (hxy : x.Shows y) :
    Lists (s.setBuf b x) (c.setBuf b y) := by
  refine ⟨h.circle.congr rfl rfl, fun b' => ?_⟩
  by_cases e : b' = b
  · subst e
    simpa [Bcache.setBuf] using hxy
  · simpa [Bcache.setBuf, e] using h.buf b'

/-- `bget` finds the same buffer, as long as no count overflows. -/
theorem Lists.bget (h : Lists s c) (hlt : ∀ b, (c.buf b).refcnt + 1 < 2 ^ 32)
    (dev blockno : UInt32) :
    Option.Rel (fun r r' => r.1 = r'.1 ∧ Lists r.2 r'.2) (s.bget dev blockno)
      (c.bgetDev dev.toNat blockno.toNat) := by
  have hcaches (b : BufId) : s.caches dev blockno (some b) =
      decide ((c.buf b).dev = dev.toNat ∧ (c.buf b).blockno = blockno.toNat) := by
    simp only [Bcache.caches, (h.buf b).dev, (h.buf b).blockno, UInt32.toNat_inj]
  have hunused (b : BufId) : s.unused (some b) = decide ((c.buf b).refcnt = 0) := by
    simp only [Bcache.unused, (h.buf b).refcnt, ← UInt32.toNat_inj]
    rfl
  unfold Bcache.bget Cache.bgetDev
  rw [h.circle.search_next, h.circle.search_prev]
  simp only [hcaches, hunused]
  cases hhit : c.lru.find? fun b =>
      (c.buf b).dev = dev.toNat ∧ (c.buf b).blockno = blockno.toNat with
  | some b =>
    have hb := h.buf b
    have hcount : (c.buf b).refcnt + 1 = ((s.buf b).refcnt + 1).toNat := by
      have hno := hlt b
      rw [hb.refcnt] at hno ⊢
      exact ((UInt32.toNat_add _ 1).trans (Nat.mod_eq_of_lt hno)).symm
    exact .some ⟨rfl, h.setBuf ⟨hb.valid, hb.dev, hb.blockno, hcount, hb.lockedBy⟩⟩
  | none =>
    cases c.lru.reverse.find? fun b => (c.buf b).refcnt = 0 with
    | none => exact .none
    | some b => exact .some ⟨rfl, h.setBuf ⟨rfl, rfl, rfl, rfl, (h.buf b).lockedBy⟩⟩

theorem put_buf (s : Bcache P) (b : BufId) : (s.put b).buf =
    update s.buf b { s.buf b with refcnt := (s.buf b).refcnt - 1 } := by
  simp only [Bcache.put]
  split_ifs <;> rfl

/-- `brelse` moves the same buffer to the front. -/
theorem Lists.put (h : Lists s c) (hpos : 0 < (c.buf b).refcnt) : Lists (s.put b) (c.put b) := by
  have hb := h.buf b
  have hcount : (c.buf b).refcnt - 1 = ((s.buf b).refcnt - 1).toNat := by
    rw [hb.refcnt] at hpos ⊢
    exact (UInt32.toNat_sub_of_le _ 1 (UInt32.le_iff_toNat_le.mpr hpos)).symm
  have hzero : (c.buf b).refcnt - 1 = 0 ↔ (s.buf b).refcnt - 1 = 0 := by
    rw [hcount]
    exact UInt32.toNat_inj (b := 0)
  have hlru : (c.put b).lru = if (s.buf b).refcnt - 1 = 0 then b :: c.lru.erase b else c.lru := by
    simp only [Cache.put, Cache.setBuf, update_self, hzero]
    split_ifs <;> rfl
  refine ⟨hlru ▸ h.circle.put b, fun b' => ?_⟩
  rw [put_buf, Cache.put_buf]
  refine (h.setBuf ?_).buf b'
  exact ⟨hb.valid, hb.dev, hb.blockno, hcount, hb.lockedBy⟩

end TatakOS.Lru
