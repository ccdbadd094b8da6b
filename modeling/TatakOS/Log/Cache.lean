import Mathlib.Data.List.Basic
import Mathlib.Data.Multiset.Count
import Mathlib.Data.Fintype.Basic
import Mathlib.Logic.Function.Basic
import Mathlib.Tactic.Simps.Basic
import TatakOS.Base.Bytes

/-!
# The buffer cache

The operations are the steps between two acquisitions of `bcache.lock`, of a buffer's sleep-lock or
of the disk: `bread` is `bget`, `lock` and `fill`, and `brelse` is `unlock` and `put`.

`CacheOk` says what the cache is for. There is an array `E` of blocks such that a buffer that is
valid and has not been modified in place holds `E` of its block, and so does the disk, except for
the blocks that are pinned. Only `log_write` and `bwrite` change `E`.
-/

namespace TatakOS.Logging

open Function

abbrev Block := Bytes

def NBUF : ℕ := 30
def ROOTDEV : ℕ := 1

abbrev BufId := Fin NBUF

instance : NeZero NBUF := ⟨by decide⟩
instance : LawfulBEq BufId := inferInstance

/-- `struct buf`. `T` is the type of the processes. -/
structure Buf (T : Type) where
  valid : Bool := false
  dev : ℕ := 0
  blockno : ℕ := 0
  refcnt : ℕ := 0
  /-- The holder of `b->lock`. -/
  lockedBy : Option T := none
  data : Block := fun _ => 0

structure Cache (T : Type) where
  buf : BufId → Buf T
  /-- The buffers in the order of the list, `bcache.head.next` first. -/
  lru : List BufId
  disk : ℕ → Block

variable {T : Type}

/-- After `binit`, which puts each buffer at the head of the list. -/
def binit (disk : ℕ → Block) : Cache T where
  buf _ := {}
  lru := (List.finRange NBUF).reverse
  disk := disk

@[simps -fullyApplied]
def Cache.setBuf (c : Cache T) (i : BufId) (x : Buf T) : Cache T :=
  { c with buf := update c.buf i x }

/-- `bget(dev, b)` up to `acquiresleep`; `none` is `panic("bget: no buffers")`. -/
def Cache.bgetDev (c : Cache T) (dev b : ℕ) : Option (BufId × Cache T) :=
  match c.lru.find? fun i => (c.buf i).dev = dev ∧ (c.buf i).blockno = b with
  | some i => some (i, c.setBuf i { c.buf i with refcnt := (c.buf i).refcnt + 1 })
  | none =>
    match c.lru.reverse.find? fun i => (c.buf i).refcnt = 0 with
    | some i =>
      some (i, c.setBuf i { c.buf i with dev := dev, blockno := b, valid := false, refcnt := 1 })
    | none => none

/-- `bget(ROOTDEV, b)`. -/
def Cache.bget (c : Cache T) (b : ℕ) : Option (BufId × Cache T) := c.bgetDev ROOTDEV b

/-- `acquiresleep(&b->lock)` by `t`, where it does not have to wait. -/
def Cache.lock (c : Cache T) (t : T) (i : BufId) : Cache T :=
  c.setBuf i { c.buf i with lockedBy := some t }

/-- `if(!b->valid)` of `bread`. -/
def Cache.fill (c : Cache T) (i : BufId) : Cache T :=
  if (c.buf i).valid then c
  else c.setBuf i { c.buf i with data := c.disk (c.buf i).blockno, valid := true }

/-- `releasesleep(&b->lock)`. -/
def Cache.unlock (c : Cache T) (i : BufId) : Cache T :=
  c.setBuf i { c.buf i with lockedBy := none }

/-- The rest of `brelse`. -/
def Cache.put (c : Cache T) (i : BufId) : Cache T :=
  let c' := c.setBuf i { c.buf i with refcnt := (c.buf i).refcnt - 1 }
  if (c'.buf i).refcnt = 0 then { c' with lru := i :: c'.lru.erase i } else c'

def Cache.bpin (c : Cache T) (i : BufId) : Cache T :=
  c.setBuf i { c.buf i with refcnt := (c.buf i).refcnt + 1 }

def Cache.bunpin (c : Cache T) (i : BufId) : Cache T :=
  c.setBuf i { c.buf i with refcnt := (c.buf i).refcnt - 1 }

/-- The holder of the buffer changes `b->data`. -/
def Cache.setData (c : Cache T) (i : BufId) (d : Block) : Cache T :=
  c.setBuf i { c.buf i with data := d }

def Cache.bwrite (c : Cache T) (i : BufId) : Cache T :=
  { c with disk := update c.disk (c.buf i).blockno (c.buf i).data }

/-! ## What a process has of the cache -/

/-- Where a process is in `bread` or `brelse`. -/
inductive Io
  | ready
  /-- In `bread`, at `acquiresleep`. -/
  | lock (i : BufId)
  /-- In `bread`, with the lock. -/
  | fill (i : BufId)
  /-- In `brelse`, after `releasesleep`. -/
  | put (i : BufId)
  deriving DecidableEq

structure Hold where
  io : Io := .ready
  /-- The buffers it has got from `bread`, the last one first. -/
  regs : List BufId := []
  /-- Those whose data it has changed since its last `log_write` or `bwrite` of them. -/
  dirty : List BufId := []

/-- The buffers whose lock it holds. -/
def Hold.held (h : Hold) : List BufId :=
  match h.io with
  | .fill i => i :: h.regs
  | _ => h.regs

/-- The buffers that it counts in `b->refcnt`. -/
def Hold.refs (h : Hold) : List BufId :=
  match h.io with
  | .ready => h.regs
  | .lock i | .fill i | .put i => i :: h.regs

/-- The invariant of the cache. The reference counts are those of the multisets `users`, in which
`none` stands for the pin of the log. -/
structure CacheInv [DecidableEq T] (c : Cache T) (h : T → Hold) (users : BufId → Multiset (Option T))
    (pins : List ℕ) (E : ℕ → Block) : Prop where
  mem_lru : ∀ i, i ∈ c.lru
  uniq : ∀ i j, (c.buf i).dev = ROOTDEV → (c.buf j).dev = ROOTDEV →
    (c.buf i).blockno = (c.buf j).blockno → i = j
  refcnt : ∀ i, (c.buf i).refcnt = (users i).card
  used : ∀ i, users i ≠ 0 → (c.buf i).dev = ROOTDEV
  thread : ∀ t i, (users i).count (some t) = (h t).refs.count i
  pin : ∀ i, (users i).count none =
    if (c.buf i).dev = ROOTDEV ∧ (c.buf i).blockno ∈ pins then 1 else 0
  pinned : ∀ b ∈ pins, ∃ i, (c.buf i).dev = ROOTDEV ∧ (c.buf i).blockno = b ∧ (c.buf i).valid = true
  locked : ∀ t i, (c.buf i).lockedBy = some t ↔ i ∈ (h t).held
  nodup : ∀ t, (h t).held.Nodup
  valid : ∀ t, ∀ i ∈ (h t).regs, (c.buf i).valid = true
  dirty : ∀ t, ∀ i ∈ (h t).dirty, i ∈ (h t).regs
  data : ∀ i, (c.buf i).dev = ROOTDEV → (c.buf i).valid = true → (∀ t, i ∉ (h t).dirty) →
    (c.buf i).data = E (c.buf i).blockno
  disk : ∀ b, b ∉ pins → c.disk b = E b

def CacheOk [DecidableEq T] (c : Cache T) (h : T → Hold) (pins : List ℕ) (E : ℕ → Block) : Prop :=
  ∃ users, CacheInv c h users pins E

theorem Cache.fill_data {c : Cache T} {j : BufId} (i : BufId) (h : (c.buf j).valid = true) :
    ((c.fill i).buf j).data = (c.buf j).data := by
  unfold Cache.fill
  split_ifs with hv
  · rfl
  · have e : j ≠ i := by
      rintro rfl
      exact hv h
    simp [e]

theorem Cache.fill_disk (c : Cache T) (i : BufId) : (c.fill i).disk = c.disk := by
  unfold Cache.fill
  split_ifs <;> rfl

@[simp] theorem Cache.put_buf (c : Cache T) (i : BufId) : (c.put i).buf =
    update c.buf i { c.buf i with refcnt := (c.buf i).refcnt - 1 } := by
  simp only [Cache.put]
  split_ifs <;> rfl

@[simp] theorem Cache.put_disk (c : Cache T) (i : BufId) : (c.put i).disk = c.disk := by
  simp only [Cache.put]
  split_ifs <;> rfl

theorem Cache.mem_put_lru {c : Cache T} (h : ∀ j, j ∈ c.lru) (i j : BufId) : j ∈ (c.put i).lru := by
  simp only [Cache.put]
  split_ifs
  · rcases eq_or_ne j i with rfl | e
    · simp
    · simp [e, List.mem_erase_of_ne e, h j]
  · exact h j

theorem update_field {α β γ : Type*} [DecidableEq α] {f : α → β} (g : β → γ) {a : α} {b : β}
    (x : α) (h : g b = g (f a)) : g (update f a b x) = g (f x) := by
  rcases eq_or_ne x a with rfl | e
  · rw [update_self, h]
  · rw [update_of_ne e]

theorem Cache.fill_buf (c : Cache T) (i j : BufId) : ((c.fill i).buf j).dev = (c.buf j).dev ∧
    ((c.fill i).buf j).blockno = (c.buf j).blockno ∧
    ((c.fill i).buf j).refcnt = (c.buf j).refcnt ∧
    ((c.fill i).buf j).lockedBy = (c.buf j).lockedBy := by
  unfold Cache.fill
  split_ifs
  · simp
  · exact ⟨update_field Buf.dev j rfl, update_field Buf.blockno j rfl,
      update_field Buf.refcnt j rfl, update_field Buf.lockedBy j rfl⟩

section Ops

variable [DecidableEq T] {c : Cache T} {h : T → Hold} {users : BufId → Multiset (Option T)}
  {pins : List ℕ} {E : ℕ → Block} {t t' : T} {i j : BufId} {b : ℕ}

theorem binit_ok (disk : ℕ → Block) (hd : ∀ t, h t = {}) : CacheOk (binit disk) h [] disk := by
  refine ⟨fun _ => 0, ?_⟩
  constructor <;> simp [binit, hd, Hold.refs, Hold.held, ROOTDEV]

/-! ## Who holds a buffer -/

variable {x : Hold}

theorem Hold.mem_held_of_regs (hi : i ∈ x.regs) : i ∈ x.held := by
  unfold Hold.held
  cases x.io <;> simp [hi]

theorem Hold.mem_refs_of_regs (hi : i ∈ x.regs) : i ∈ x.refs := by
  unfold Hold.refs
  cases x.io <;> simp [hi]

variable {c' : Cache T} {pins' : List ℕ} {E' : ℕ → Block}

section

variable (hc : CacheInv c h users pins E)
include hc

theorem CacheInv.mem_users (hi : i ∈ (h t).refs) : some t ∈ users i := by
  rw [← Multiset.count_pos, hc.thread t i]
  exact List.count_pos_iff.mpr hi

theorem CacheInv.dev_of_refs (hi : i ∈ (h t).refs) : (c.buf i).dev = ROOTDEV :=
  hc.used i fun h0 => by simpa [h0] using hc.mem_users hi

theorem CacheInv.dev_of_regs (hi : i ∈ (h t).regs) : (c.buf i).dev = ROOTDEV :=
  hc.dev_of_refs (Hold.mem_refs_of_regs hi)

theorem CacheInv.holder_unique (hi : i ∈ (h t).held) (hi' : i ∈ (h t').held) : t = t' := by
  have := ((hc.locked t i).mpr hi).symm.trans ((hc.locked t' i).mpr hi')
  exact Option.some.inj this

theorem CacheInv.not_pinned_of_users (hi : users i = 0) (hd : (c.buf i).dev = ROOTDEV) :
    (c.buf i).blockno ∉ pins := by
  intro hb
  have := hc.pin i
  rw [if_pos ⟨hd, hb⟩, hi] at this
  simp at this

theorem CacheInv.valid_of_pinned (hd : (c.buf i).dev = ROOTDEV) (hb : (c.buf i).blockno ∈ pins) :
    (c.buf i).valid = true := by
  obtain ⟨j, hj, hjb, hv⟩ := hc.pinned _ hb
  rwa [hc.uniq i j hd hj hjb.symm]

/-- What a process reads: a buffer that it holds and has not changed holds its block of `E`. -/
theorem CacheInv.data_of_regs (hi : i ∈ (h t).regs) (hd : i ∉ (h t).dirty) :
    (c.buf i).data = E (c.buf i).blockno := by
  refine hc.data i (hc.dev_of_regs hi) (hc.valid t i hi) fun t' hi' => ?_
  have := hc.holder_unique (Hold.mem_held_of_regs hi) (Hold.mem_held_of_regs (hc.dirty t' i hi'))
  subst this
  exact hd hi'

/-! ## Operations that leave the data alone -/

/-- Process `t` goes from `h t` to `x`. The buffers cache the same blocks. -/
theorem CacheInv.of_step {users' : BufId → Multiset (Option T)}
    (hb : ∀ j, (c'.buf j).dev = (c.buf j).dev ∧ (c'.buf j).blockno = (c.buf j).blockno)
    (hlru : ∀ i, i ∈ c'.lru) (href : ∀ i, (c'.buf i).refcnt = (users' i).card)
    (hused : ∀ i, users' i ≠ 0 → (c.buf i).dev = ROOTDEV)
    (hpin : ∀ i, (users' i).count none = if (c.buf i).dev = ROOTDEV ∧
      (c.buf i).blockno ∈ pins' then 1 else 0)
    (hother : ∀ t' i, t' ≠ t → (users' i).count (some t') = (users i).count (some t'))
    (hself : ∀ i, (users' i).count (some t) = x.refs.count i)
    (hpinned : ∀ b ∈ pins', ∃ i, (c.buf i).dev = ROOTDEV ∧ (c.buf i).blockno = b ∧
      (c.buf i).valid = true)
    (hlock : ∀ t' i, t' ≠ t → ((c'.buf i).lockedBy = some t' ↔ (c.buf i).lockedBy = some t'))
    (hheld : ∀ i, (c'.buf i).lockedBy = some t ↔ i ∈ x.held) (hnodup : x.held.Nodup)
    (hval : ∀ i, (c.buf i).valid = true → (c'.buf i).valid = true)
    (hvalid : ∀ i ∈ x.regs, (c'.buf i).valid = true) (hregs : ∀ i ∈ x.dirty, i ∈ x.regs)
    (hdata : ∀ i, (c.buf i).dev = ROOTDEV → (c'.buf i).valid = true → (∀ t',
      i ∉ (update h t x t').dirty) → (c'.buf i).data = E' (c.buf i).blockno)
    (hdisk : ∀ b, b ∉ pins' → c'.disk b = E' b) : CacheInv c' (update h t x) users' pins' E' := by
  constructor
  · exact hlru
  · intro i j
    rw [(hb i).1, (hb i).2, (hb j).1, (hb j).2]
    exact hc.uniq i j
  · exact href
  · intro i
    rw [(hb i).1]
    exact hused i
  · intro t' i
    rcases eq_or_ne t' t with rfl | e
    · simpa using hself i
    · simpa [e, hother t' i e] using hc.thread t' i
  · intro i
    rw [hpin, (hb i).1, (hb i).2]
  · intro b hb'
    obtain ⟨i, h1, h2, h3⟩ := hpinned b hb'
    exact ⟨i, (hb i).1.trans h1, (hb i).2.trans h2, hval i h3⟩
  · intro t' i
    rcases eq_or_ne t' t with rfl | e
    · simpa using hheld i
    · simpa [e, hlock t' i e] using hc.locked t' i
  · intro t'
    rcases eq_or_ne t' t with rfl | e
    · simpa using hnodup
    · simpa [e] using hc.nodup t'
  · intro t' i hi
    rcases eq_or_ne t' t with rfl | e
    · exact hvalid i (by simpa using hi)
    · exact hval i (hc.valid t' i (by simpa [e] using hi))
  · intro t' i hi
    rcases eq_or_ne t' t with rfl | e
    · simpa using hregs i (by simpa using hi)
    · simpa [e] using hc.dirty t' i (by simpa [e] using hi)
  · intro i hdev
    rw [(hb i).1] at hdev
    rw [(hb i).2]
    exact hdata i hdev
  · exact hdisk

end

/-- The buffers cache the same blocks with the same data. -/
def Cache.SameData (c c' : Cache T) : Prop :=
  c'.disk = c.disk ∧ ∀ j, (c'.buf j).dev = (c.buf j).dev ∧ (c'.buf j).blockno = (c.buf j).blockno ∧
    (c'.buf j).valid = (c.buf j).valid ∧ (c'.buf j).data = (c.buf j).data

omit [DecidableEq T] in
theorem Cache.sameData_setBuf {x : Buf T} (hd : x.dev = (c.buf i).dev)
    (hb : x.blockno = (c.buf i).blockno) (hv : x.valid = (c.buf i).valid)
    (hx : x.data = (c.buf i).data) : c.SameData (c.setBuf i x) := by
  exact ⟨rfl, fun j => ⟨update_field Buf.dev j hd, update_field Buf.blockno j hb,
    update_field Buf.valid j hv, update_field Buf.data j hx⟩⟩

omit [DecidableEq T] in
theorem Cache.sameData_put : c.SameData (c.put i) := by
  have := Cache.sameData_setBuf (c := c) (i := i)
    (x := { c.buf i with refcnt := (c.buf i).refcnt - 1 }) rfl rfl rfl rfl
  exact ⟨by simp, by simpa using this.2⟩

/-- The buffers cache the same blocks, with the same data. -/
def Cache.Same (c c' : Cache T) : Prop :=
  ∀ j, (c'.buf j).dev = (c.buf j).dev ∧ (c'.buf j).blockno = (c.buf j).blockno ∧
    (c'.buf j).data = (c.buf j).data

section Same

variable (c : Cache T) (i : BufId)

omit [DecidableEq T]

theorem Cache.SameData.same {c c' : Cache T} (h : c.SameData c') : c.Same c' :=
  fun j => ⟨(h.2 j).1, (h.2 j).2.1, (h.2 j).2.2.2⟩

theorem Cache.same_setBuf {c : Cache T} {i : BufId} {x : Buf T} (hd : x.dev = (c.buf i).dev)
    (hb : x.blockno = (c.buf i).blockno) (hv : x.valid = (c.buf i).valid)
    (hx : x.data = (c.buf i).data) : c.Same (c.setBuf i x) :=
  (sameData_setBuf hd hb hv hx).same

theorem Cache.same_lock (t : T) : c.Same (c.lock t i) := same_setBuf rfl rfl rfl rfl
theorem Cache.same_unlock : c.Same (c.unlock i) := same_setBuf rfl rfl rfl rfl
theorem Cache.same_put : c.Same (c.put i) := sameData_put.same
theorem Cache.same_bpin : c.Same (c.bpin i) := same_setBuf rfl rfl rfl rfl
theorem Cache.same_bunpin : c.Same (c.bunpin i) := same_setBuf rfl rfl rfl rfl

theorem Cache.setData_buf (d : Block) (j : BufId) : ((c.setData i d).buf j).dev = (c.buf j).dev ∧
      ((c.setData i d).buf j).blockno = (c.buf j).blockno :=
  ⟨update_field Buf.dev j rfl, update_field Buf.blockno j rfl⟩

end Same

section

variable (hc : CacheInv c h users pins E)
include hc

theorem CacheInv.recount {u : Multiset (Option T)}
    (hbuf : c'.buf = update c.buf i { c.buf i with refcnt := u.card })
    (hlru : ∀ j, j ∈ c'.lru) (hdev : (c.buf i).dev = ROOTDEV)
    (hpin : u.count none = if (c.buf i).blockno ∈ pins' then 1 else 0)
    (hpins : ∀ b, b ≠ (c.buf i).blockno → (b ∈ pins' ↔ b ∈ pins))
    (hpinned : (c.buf i).blockno ∈ pins' → (c.buf i).valid = true)
    (hother : ∀ t', t' ≠ t → u.count (some t') = (users i).count (some t'))
    (hself : u.count (some t) = x.refs.count i)
    (hrefs : ∀ j, j ≠ i → x.refs.count j = (h t).refs.count j) (hheld : x.held = (h t).held)
    (hregs : x.regs = (h t).regs) (hdirty : ∀ j ∈ x.dirty, j ∈ (h t).dirty)
    (hdata : ∀ j, (c.buf j).dev = ROOTDEV → (c.buf j).valid = true → (∀ t',
      j ∉ (update h t x t').dirty) → (c.buf j).data = E' (c.buf j).blockno)
    (hdisk : ∀ b, b ∉ pins' → c'.disk b = E' b) :
    CacheInv c' (update h t x) (update users i u) pins' E' := by
  have hbuf' := fun j => congrFun hbuf j
  have hv : ∀ j, (c'.buf j).valid = (c.buf j).valid :=
    fun j => hbuf' j ▸ update_field Buf.valid j rfl
  have hl : ∀ j, (c'.buf j).lockedBy = (c.buf j).lockedBy := fun j =>
    hbuf' j ▸ update_field Buf.lockedBy j rfl
  refine hc.of_step
    (fun j => hbuf' j ▸ ⟨update_field Buf.dev j rfl, update_field Buf.blockno j rfl⟩) hlru
    (fun j => ?_) (fun j hj => ?_) (fun j => ?_) (fun t' j ht => ?_) (fun j => ?_) (fun b hb => ?_)
    (fun t' j _ => by rw [hl]) (fun j => ?_) (hheld ▸ hc.nodup t)
    (fun j hj => (hv j).trans hj) (fun j hj => (hv j).trans (hc.valid t j (hregs ▸ hj)))
    (fun j hj => hregs ▸ hc.dirty t j (hdirty j hj)) (fun j => ?_) hdisk
  · rw [hbuf]
    rcases eq_or_ne j i with rfl | e
    · simp
    · simp [e, hc.refcnt]
  · rcases eq_or_ne j i with rfl | e
    · exact hdev
    · exact hc.used j (by simpa [e] using hj)
  · rcases eq_or_ne j i with rfl | e
    · simp [hpin, hdev]
    · by_cases hj : (c.buf j).dev = ROOTDEV
      · have hne : (c.buf j).blockno ≠ (c.buf i).blockno := fun h => e (hc.uniq j i hj hdev h)
        simpa [e, hj, hpins _ hne] using hc.pin j
      · simpa [e, hj] using hc.pin j
  · rcases eq_or_ne j i with rfl | e
    · simpa using hother t' ht
    · simp [e]
  · rcases eq_or_ne j i with rfl | e
    · simpa using hself
    · simpa [e, hrefs j e] using hc.thread t j
  · rcases eq_or_ne b (c.buf i).blockno with rfl | e
    · exact ⟨i, hdev, rfl, hpinned hb⟩
    · exact hc.pinned b ((hpins b e).mp hb)
  · rw [hl, hheld]
    exact hc.locked t j
  · rw [hv, show (c'.buf j).data = (c.buf j).data from hbuf' j ▸ update_field Buf.data j rfl]
    exact hdata j

theorem CacheInv.bget_hit (hio : (h t).io = .ready) (hi : (c.buf i).dev = ROOTDEV) :
    CacheInv (c.setBuf i { c.buf i with refcnt := (c.buf i).refcnt + 1 })
      (update h t { h t with io := .lock i })
      (update users i (some t ::ₘ users i)) pins E := by
  refine hc.recount ?_ hc.mem_lru hi ?_ (fun _ _ => Iff.rfl) (hc.valid_of_pinned hi) ?_ ?_ ?_ ?_ rfl
    (fun _ => id) (fun j hj hv hd => hc.data j hj hv fun t' => ?_) hc.disk
  · simp [hc.refcnt]
  · simpa [hi] using hc.pin i
  · intro t' ht
    simp [ht]
  · simp [Hold.refs, hc.thread, hio]
  · intro j e
    simp [Hold.refs, hio, e.symm]
  · simp [Hold.held, hio]
  · exact fun hj => hd t' (by rwa [update_field Hold.dirty t' (by rfl)])

/-- An operation on the lock of `i` alone, after which `t` has the same references. -/
theorem CacheInv.set_lock {l : Option T} (hrefs : ∀ j, x.refs.count j = (h t).refs.count j)
    (hlock : ∀ t', t' ≠ t → (l = some t' ↔ (c.buf i).lockedBy = some t'))
    (hself : l = some t ↔ i ∈ x.held) (hheld : ∀ j, j ≠ i → (j ∈ x.held ↔ j ∈ (h t).held))
    (hnodup : x.held.Nodup) (hvalid : ∀ i ∈ x.regs, (c.buf i).valid = true)
    (hdirty : x.dirty = (h t).dirty) (hregs : ∀ i ∈ x.dirty, i ∈ x.regs) :
    CacheInv (c.setBuf i { c.buf i with lockedBy := l }) (update h t x) users pins E := by
  obtain ⟨-, hb⟩ : c.SameData (c.setBuf i { c.buf i with lockedBy := l }) :=
    Cache.sameData_setBuf rfl rfl rfl rfl
  have hval := fun j => (hb j).2.2.1
  refine hc.of_step (fun j => ⟨(hb j).1, (hb j).2.1⟩) hc.mem_lru
    (fun j => (update_field Buf.refcnt j (by rfl)).trans (hc.refcnt j)) hc.used hc.pin (fun _ _ _ => rfl)
    (fun j => (hc.thread t j).trans (hrefs j).symm) hc.pinned ?_ ?_ hnodup
    (fun j hj => (hval j).trans hj) (fun j hj => (hval j).trans (hvalid j hj)) hregs ?_ hc.disk
  · intro t' j ht
    rcases eq_or_ne j i with rfl | e
    · simpa using hlock t' ht
    · simp [e]
  · intro j
    rcases eq_or_ne j i with rfl | e
    · simpa using hself
    · simpa [e, hheld j e] using hc.locked t j
  · intro j hj hv hd
    rw [hval] at hv
    rw [(hb j).2.2.2]
    exact hc.data j hj hv fun t' => update_field (f := h) Hold.dirty t' hdirty ▸ hd t'

theorem CacheInv.lock (hio : (h t).io = .lock i) (hfree : (c.buf i).lockedBy = none) :
    CacheInv (c.lock t i) (update h t { h t with io := .fill i }) users pins E := by
  have hi : i ∉ (h t).held := by
    rw [← hc.locked t i, hfree]
    simp
  have hheld : (h t).held = (h t).regs := by simp [Hold.held, hio]
  refine hc.set_lock ?_ ?_ ?_ ?_ ?_ (hc.valid t) rfl (hc.dirty t)
  · intro j
    simp [Hold.refs, hio]
  · intro t' ht
    simp [hfree, ht.symm]
  · simp [Hold.held]
  · intro j hj
    simp [Hold.held, hio, hj]
  · have := hc.nodup t
    rw [hheld] at this hi
    simpa [Hold.held] using ⟨hi, this⟩

/-- `releasesleep` of a buffer that the process has not changed, or has logged or written. -/
theorem CacheInv.unlock (hio : (h t).io = .ready) (hi : i ∈ (h t).regs) (hd : i ∉ (h t).dirty) :
    CacheInv (c.unlock i) (update h t { h t with io := .put i, regs := (h t).regs.erase i })
      users pins E := by
  have hheld : (h t).held = (h t).regs := by simp [Hold.held, hio]
  have hnodup := hc.nodup t
  rw [hheld] at hnodup
  refine hc.set_lock ?_ ?_ ?_ ?_ ?_ ?_ rfl ?_
  · intro j
    have := (List.perm_cons_erase hi).count_eq j
    simp only [Hold.refs, hio]
    exact this.symm
  · intro t' ht
    have hl : (c.buf i).lockedBy = some t := (hc.locked t i).mpr (Hold.mem_held_of_regs hi)
    simp [hl, ht.symm]
  · simp [Hold.held, hnodup.mem_erase_iff]
  · intro j hj
    simp [Hold.held, hio, hnodup.mem_erase_iff, hj]
  · simpa [Hold.held] using hnodup.erase i
  · intro j hj
    exact hc.valid t j (List.mem_of_mem_erase hj)
  · intro j hj
    have hne : j ≠ i := fun e => hd (e ▸ hj)
    exact (List.mem_erase_of_ne hne).mpr (hc.dirty t j hj)

theorem CacheInv.put (hio : (h t).io = .put i) :
    CacheInv (c.put i) (update h t { h t with io := .ready })
      (update users i ((users i).erase (some t))) pins E := by
  have hi : i ∈ (h t).refs := by simp [Hold.refs, hio]
  have hdev := hc.dev_of_refs hi
  refine hc.recount ?_ (Cache.mem_put_lru hc.mem_lru i) hdev ?_ (fun _ _ => Iff.rfl)
    (hc.valid_of_pinned hdev) ?_ ?_ ?_ ?_ rfl (fun _ => id)
    (fun j hj hv hd => hc.data j hj hv fun t' => ?_) ?_
  · simp [hc.refcnt, Multiset.card_erase_of_mem (hc.mem_users hi)]
  · simpa [hdev] using hc.pin i
  · intro t' ht
    simp [ht]
  · simp [Hold.refs, hc.thread, hio]
  · intro j e
    simp [Hold.refs, hio, e.symm]
  · simp [Hold.held, hio]
  · exact fun hj => hd t' (by rwa [update_field Hold.dirty t' (by rfl)])
  · simpa using hc.disk

/-! ## Operations on the data -/

/-- Process `t` changes data, and keeps its references and locks. -/
theorem CacheInv.of_data (hlru : c'.lru = c.lru)
    (hb : ∀ j, (c'.buf j).dev = (c.buf j).dev ∧ (c'.buf j).blockno = (c.buf j).blockno ∧
      (c'.buf j).refcnt = (c.buf j).refcnt ∧ (c'.buf j).lockedBy = (c.buf j).lockedBy)
    (hrefs : x.refs = (h t).refs) (hheld : x.held = (h t).held)
    (hval : ∀ j, (c.buf j).valid = true → (c'.buf j).valid = true)
    (hregs : ∀ j ∈ x.regs, (c'.buf j).valid = true) (hdirty : ∀ j ∈ x.dirty, j ∈ x.regs)
    (hdata : ∀ i, (c.buf i).dev = ROOTDEV → (c'.buf i).valid = true → (∀ t',
      i ∉ (update h t x t').dirty) → (c'.buf i).data = E' (c.buf i).blockno)
    (hdisk : ∀ b, b ∉ pins → c'.disk b = E' b) : CacheInv c' (update h t x) users pins E' := by
  refine hc.of_step (fun j => ⟨(hb j).1, (hb j).2.1⟩) (by rw [hlru]; exact hc.mem_lru) (fun i => ?_)
    hc.used hc.pin (fun _ _ _ => rfl) (fun i => ?_) hc.pinned (fun t' i _ => ?_) (fun i => ?_) ?_ hval
    hregs hdirty hdata hdisk
  · rw [(hb i).2.2.1]
    exact hc.refcnt i
  · rw [hrefs]
    exact hc.thread t i
  · rw [(hb i).2.2.2]
  · rw [(hb i).2.2.2, hheld]
    exact hc.locked t i
  · rw [hheld]
    exact hc.nodup t

theorem CacheInv.fill (hio : (h t).io = .fill i) :
    CacheInv (c.fill i) (update h t { h t with io := .ready, regs := i :: (h t).regs })
      users pins E := by
  have hdev : (c.buf i).dev = ROOTDEV := hc.dev_of_refs (t := t) (by simp [Hold.refs, hio])
  have hval : ∀ j, (c.buf j).valid = true → ((c.fill i).buf j).valid = true := by
    intro j hj
    unfold Cache.fill
    split_ifs
    · exact hj
    · rcases eq_or_ne j i with rfl | e
      · simp
      · simpa [e] using hj
  have hself : ((c.fill i).buf i).valid = true := by
    unfold Cache.fill
    split_ifs with hv
    · exact hv
    · simp
  have hdirty : ∀ t', (update h t
      { h t with io := .ready, regs := i :: (h t).regs } t').dirty = (h t').dirty :=
    fun t' => update_field Hold.dirty t' rfl
  refine hc.of_data ?_ (c.fill_buf i) (by simp [Hold.refs, hio]) (by simp [Hold.held, hio]) hval
    ?_ ?_ ?_ ?_
  · unfold Cache.fill
    split_ifs <;> rfl
  · intro j hj
    rcases List.mem_cons.mp hj with rfl | hj
    · exact hself
    · exact hval j (hc.valid t j hj)
  · intro j hj
    exact List.mem_cons_of_mem _ (hc.dirty t j hj)
  · intro j hj hv hd
    simp only [hdirty] at hd
    unfold Cache.fill at hv ⊢
    split_ifs at hv ⊢ with hvi
    · exact hc.data j hj hv hd
    · rcases eq_or_ne j i with rfl | e
      · -- the block cannot be pinned, or its buffer would be valid
        have hb : (c.buf j).blockno ∉ pins := fun hb => hvi (hc.valid_of_pinned hdev hb)
        simpa using hc.disk _ hb
      · simpa [e] using hc.data j hj (by simpa [e] using hv) hd
  · intro b hb
    rw [Cache.fill_disk]
    exact hc.disk b hb

/-- After a change of `E` at the block of buffer `i` to the data there, the buffers still agree. -/
theorem CacheInv.data_update (hdev : (c.buf i).dev = ROOTDEV) (hj : (c.buf j).dev = ROOTDEV)
    (hv : (c.buf j).valid = true)
    (hd : ∀ t', j ∉ (update h t { h t with dirty := (h t).dirty.filter (· ≠ i) } t').dirty) :
    (c.buf j).data = update E (c.buf i).blockno (c.buf i).data (c.buf j).blockno := by
  rcases eq_or_ne j i with rfl | e
  · simp
  · have hb : (c.buf j).blockno ≠ (c.buf i).blockno := fun hb => e (hc.uniq j i hj hdev hb)
    rw [update_of_ne hb]
    refine hc.data j hj hv fun t' => ?_
    rcases eq_or_ne t' t with rfl | e'
    · simpa [e] using hd t'
    · simpa [e'] using hd t'

section

variable (hi : i ∈ (h t).regs)
include hi

theorem CacheInv.setData (d : Block) :
    CacheInv (c.setData i d) (update h t { h t with dirty := i :: (h t).dirty })
      users pins E := by
  unfold Cache.setData
  refine hc.of_data rfl ?_ rfl rfl ?_ ?_ ?_ ?_ hc.disk
  · exact fun j => ⟨update_field Buf.dev j rfl, update_field Buf.blockno j rfl,
      update_field Buf.refcnt j rfl, update_field Buf.lockedBy j rfl⟩
  · exact fun j hj => (update_field Buf.valid j (by rfl)).trans hj
  · exact fun j hj => (update_field Buf.valid j (by rfl)).trans (hc.valid t j hj)
  · intro j hj
    rcases List.mem_cons.mp hj with rfl | hj
    · exact hi
    · exact hc.dirty t j hj
  · intro j hj hv hd
    have hne : j ≠ i := by
      rintro rfl
      simpa using hd t
    have hd' : ∀ t', j ∉ (h t').dirty := by
      intro t'
      rcases eq_or_ne t' t with rfl | e
      · simpa [hne] using hd t'
      · simpa [e] using hd t'
    simpa [hne] using hc.data j hj (by simpa [hne] using hv) hd'

theorem CacheInv.saved {disk : ℕ → Block}
    (hdisk : ∀ b ∉ pins, disk b = update E (c.buf i).blockno (c.buf i).data b) :
    CacheInv { c with disk } (update h t { h t with dirty := (h t).dirty.filter (· ≠ i) }) users
      pins (update E (c.buf i).blockno (c.buf i).data) := by
  refine hc.of_data rfl (fun j => ⟨rfl, rfl, rfl, rfl⟩) rfl rfl (fun j => id) (hc.valid t) ?_ ?_ hdisk
  · intro j hj
    exact hc.dirty t j (List.mem_of_mem_filter hj)
  · intro j hj hv hd
    exact hc.data_update (hc.dev_of_regs hi) hj hv hd

theorem CacheInv.bwrite : CacheInv (c.bwrite i)
      (update h t { h t with dirty := (h t).dirty.filter (· ≠ i) }) users pins
      (update E (c.buf i).blockno (c.buf i).data) := by
  refine hc.saved hi fun b hb => ?_
  rcases eq_or_ne b (c.buf i).blockno with rfl | e
  · simp
  · simpa [e] using hc.disk b hb

theorem CacheInv.log_absorb (hb : (c.buf i).blockno ∈ pins) :
    CacheInv c (update h t { h t with dirty := (h t).dirty.filter (· ≠ i) }) users pins
      (update E (c.buf i).blockno (c.buf i).data) := by
  refine hc.saved hi fun b hb' => ?_
  have hne : b ≠ (c.buf i).blockno := by
    rintro rfl
    exact hb' hb
  rw [update_of_ne hne]
  exact hc.disk b hb'

/-- `log_write` of a block that is new in the log: `bpin`. -/
theorem CacheInv.log_pin (hb : (c.buf i).blockno ∉ pins) :
    CacheInv (c.bpin i) (update h t { h t with dirty := (h t).dirty.filter (· ≠ i) })
      (update users i (none ::ₘ users i)) (pins ++ [(c.buf i).blockno])
      (update E (c.buf i).blockno (c.buf i).data) := by
  have hdev := hc.dev_of_regs hi
  refine hc.recount ?_ hc.mem_lru hdev ?_ (fun b hb' => ?_) (fun _ => hc.valid t i hi) ?_ ?_
    (fun _ _ => rfl) rfl rfl (fun _ => List.mem_of_mem_filter)
    (fun j hj hv hd => hc.data_update hdev hj hv hd) fun b hb' => ?_
  · simp [Cache.bpin, hc.refcnt]
  · have hpin := hc.pin i
    rw [if_neg fun h => hb h.2] at hpin
    simp [hpin]
  · simp [hb']
  · intro t' _
    simp
  · rw [Multiset.count_cons_of_ne (Option.some_ne_none t)]
    exact hc.thread t i
  · rw [List.mem_append, not_or, List.mem_singleton] at hb'
    rw [update_of_ne hb'.2]
    exact hc.disk b hb'.1

/-- `bunpin` by a process that has a reference, once the block is on the disk. -/
theorem CacheInv.bunpin (hb : (c.buf i).blockno ∈ pins)
    (hE : c.disk (c.buf i).blockno = E (c.buf i).blockno)
    (hpins : ∀ b, b ∈ pins' ↔ b ∈ pins ∧ b ≠ (c.buf i).blockno) :
    CacheInv (c.bunpin i) h (update users i ((users i).erase none)) pins' E := by
  have hdev := hc.dev_of_regs hi
  have hpin : (users i).count none = 1 := by simpa [hdev, hb] using hc.pin i
  have hmem : none ∈ users i := by
    rw [← Multiset.count_pos, hpin]
    exact Nat.one_pos
  rw [← update_eq_self t h]
  refine hc.recount ?_ hc.mem_lru hdev ?_ (fun b hb' => ?_) (fun _ => hc.valid t i hi) ?_ ?_
    (fun _ _ => rfl) rfl rfl (fun _ => id) (fun j hj hv hd => ?_) fun b hb' => ?_
  · simp [Cache.bunpin, hc.refcnt, Multiset.card_erase_of_mem hmem]
  · simp [hpin, hpins]
  · simp [hpins, hb']
  · intro t' _
    simp
  · simpa using hc.thread t i
  · exact hc.data j hj hv (by simpa using hd)
  · rcases eq_or_ne b (c.buf i).blockno with rfl | e
    · exact hE
    · exact hc.disk b fun hb => hb' ((hpins b).mpr ⟨hb, e⟩)

end

/-- `bget` of a block that is not in the cache takes over an unused buffer. -/
theorem CacheInv.bget_miss (hio : (h t).io = .ready) (h0 : users i = 0)
    (hnot : ∀ j, (c.buf j).dev = ROOTDEV → (c.buf j).blockno ≠ b) : CacheInv
      (c.setBuf i { c.buf i with dev := ROOTDEV, blockno := b, valid := false, refcnt := 1 })
      (update h t { h t with io := .lock i })
      (update users i {some t}) pins E := by
  have hbp : b ∉ pins := by
    intro hb
    obtain ⟨j, h1, h2, -⟩ := hc.pinned b hb
    exact hnot j h1 h2
  -- nobody has a reference to the buffer
  have hrefs : ∀ t', i ∉ (h t').refs := fun t' hi => by simpa [h0] using hc.mem_users hi
  have hregs : ∀ t', i ∉ (h t').regs := fun t' hi => hrefs t' (Hold.mem_refs_of_regs hi)
  have hne : ∀ t', ∀ j ∈ (h t').regs, j ≠ i := fun t' j hj e => hregs t' (e ▸ hj)
  have hdirty : ∀ t', (update h t { h t with io := .lock i } t').dirty = (h t').dirty :=
    fun t' => update_field Hold.dirty t' rfl
  have hregs' : ∀ t', (update h t { h t with io := .lock i } t').regs = (h t').regs :=
    fun t' => update_field Hold.regs t' rfl
  constructor
  · exact hc.mem_lru
  · intro j k hj hk hb
    simp only [Cache.setBuf_buf] at hj hk hb
    by_cases e : j = i <;> by_cases e' : k = i
    · rw [e, e']
    · rw [e, update_self, update_of_ne e'] at hb
      rw [update_of_ne e'] at hk
      exact absurd hb.symm (hnot k hk)
    · rw [e', update_self, update_of_ne e] at hb
      rw [update_of_ne e] at hj
      exact absurd hb (hnot j hj)
    · rw [update_of_ne e] at hj hb
      rw [update_of_ne e'] at hk hb
      exact hc.uniq j k hj hk hb
  · intro j
    rcases eq_or_ne j i with rfl | e
    · simp
    · simp [e, hc.refcnt]
  · intro j hj
    rcases eq_or_ne j i with rfl | e
    · simp
    · simpa [e] using hc.used j (by simpa [e] using hj)
  · intro t' j
    have hth := hc.thread t' j
    rcases eq_or_ne j i with rfl | e
    · rcases eq_or_ne t' t with rfl | e'
      · simp [Hold.refs, List.count_eq_zero_of_not_mem (hregs t')]
      · simp [e', List.count_eq_zero_of_not_mem (hrefs t')]
    · rcases eq_or_ne t' t with rfl | e'
      · simp only [Hold.refs, hio] at hth
        simp [Hold.refs, hth, e, e.symm]
      · simpa [e, e'] using hth
  · intro j
    have hpin := hc.pin j
    rcases eq_or_ne j i with rfl | e
    · simp [hbp]
    · simpa [e] using hpin
  · intro b' hb'
    obtain ⟨j, h1, h2, h3⟩ := hc.pinned b' hb'
    have e : j ≠ i := by
      rintro rfl
      exact hc.not_pinned_of_users h0 h1 (h2 ▸ hb')
    exact ⟨j, by simpa [e] using h1, by simpa [e] using h2, by simpa [e] using h3⟩
  · intro t' j
    have hl := hc.locked t' j
    have hbuf : ((c.setBuf i { c.buf i with
        dev := ROOTDEV, blockno := b, valid := false, refcnt := 1 }).buf j).lockedBy =
        (c.buf j).lockedBy := update_field Buf.lockedBy j rfl
    rw [hbuf, hl]
    rcases eq_or_ne t' t with rfl | e
    · simp [Hold.held, hio]
    · simp [e]
  · intro t'
    rcases eq_or_ne t' t with rfl | e
    · simpa [Hold.held, hio] using hc.nodup t'
    · simpa [e] using hc.nodup t'
  · intro t' j hj
    rw [hregs'] at hj
    simpa [hne t' j hj] using hc.valid t' j hj
  · intro t' j hj
    rw [hdirty] at hj
    rw [hregs']
    exact hc.dirty t' j hj
  · intro j hj hv hd
    simp only [hdirty] at hd
    rcases eq_or_ne j i with rfl | e
    · simp at hv
    · simpa [e] using hc.data j (by simpa [e] using hj) (by simpa [e] using hv) hd
  · exact hc.disk

end

/-- `bget` in both cases. The buffer caches the block, and buffers in use stay as they are. -/
theorem CacheOk.bget (hc : CacheOk c h pins E) (hio : (h t).io = .ready)
    (hget : c.bget b = some (i, c')) :
    CacheOk c' (update h t { h t with io := .lock i }) pins E ∧
      (c'.buf i).blockno = b ∧ c'.disk = c.disk ∧
      ∀ t', ∀ j ∈ (h t').refs, (c'.buf j).blockno = (c.buf j).blockno ∧
        (c'.buf j).data = (c.buf j).data := by
  obtain ⟨users, hc⟩ := hc
  unfold Cache.bget Cache.bgetDev at hget
  split at hget
  · rename_i j hfind
    obtain ⟨rfl, rfl⟩ : j = i ∧ _ := by simpa using hget
    have hcaches := List.find?_some hfind
    simp only [decide_eq_true_eq] at hcaches
    exact ⟨⟨_, hc.bget_hit hio hcaches.1⟩, by simpa using hcaches.2, rfl, fun t' k _ =>
      ⟨update_field Buf.blockno k rfl, update_field Buf.data k rfl⟩⟩
  · rename_i hnone
    split at hget
    · rename_i j hfind
      obtain ⟨rfl, rfl⟩ : j = i ∧ _ := by simpa using hget
      have href : (c.buf j).refcnt = 0 := by simpa using List.find?_some hfind
      have h0 : users j = 0 := by
        rw [← Multiset.card_eq_zero, ← hc.refcnt j, href]
      have hnot : ∀ k, (c.buf k).dev = ROOTDEV → (c.buf k).blockno ≠ b := fun k => by
        simpa using List.find?_eq_none.mp hnone k (hc.mem_lru k)
      refine ⟨⟨_, hc.bget_miss hio h0 hnot⟩, by simp, rfl, fun t' k hk => ?_⟩
      have e : k ≠ j := by
        rintro rfl
        simpa [h0] using hc.mem_users hk
      simp [e]
    · cases hget

end Ops

end TatakOS.Logging
