import Mathlib.Data.List.Count
import TatakOS.Virtio.Driver

/-!
# Requests and completions

Each call that has descriptors owns three of them, linked to each other, and all others are free.
The heads of the chains that are submitted and not yet handled are different descriptors, in the
avail ring, with the device, or in the used ring, so the rings never overflow.
-/

namespace TatakOS.Virtio

open Function
open Fs (BSIZE)

variable {B : Type}

/-! ## Descriptors -/

def Idx.toList (t : Idx) : List ℕ := [t.head, t.data, t.status]

section Disk

variable {d d' : Disk B} {b : B} {w : Bool} {n i : ℕ} {t : Idx}

/-- The three descriptors of a request are in use and linked. -/
structure Linked (d : Disk B) (b : B) (w : Bool) (t : Idx) : Prop where
  lt : ∀ i ∈ t.toList, i < NUM
  nodup : t.toList.Nodup
  free : ∀ i ∈ t.toList, d.free i = false
  head : d.desc t.head = ⟨.op t.head, 16, VRING_DESC_F_NEXT, t.data⟩
  data : d.desc t.data =
    ⟨.data b, BSIZE, (if w then 0 else VRING_DESC_F_WRITE) ||| VRING_DESC_F_NEXT, t.status⟩
  status : d.desc t.status = ⟨.status t.head, 1, VRING_DESC_F_WRITE, 0⟩

/-- They describe the request of buffer `b`. -/
structure Formatted (d : Disk B) (b : B) (w : Bool) (n : ℕ) (t : Idx) : Prop
    extends Linked d b w t where
  op : d.ops t.head = blkReq w n
  info : (d.info t.head).b = some b

theorem Idx.head_mem : t.head ∈ t.toList := List.mem_cons_self

theorem Idx.data_mem : t.data ∈ t.toList := by simp [Idx.toList]

theorem Idx.status_mem : t.status ∈ t.toList := by simp [Idx.toList]

theorem Idx.nodup_iff :
    t.toList.Nodup ↔ t.head ≠ t.data ∧ t.head ≠ t.status ∧ t.data ≠ t.status := by
  simp [Idx.toList, and_assoc]

section Set

variable {α : Type} {f : ℕ → α} {x y z : α}

/-- Three descriptors get values. -/
def Idx.set (t : Idx) (f : ℕ → α) (x y z : α) : ℕ → α :=
  update (update (update f t.head x) t.data y) t.status z

theorem Idx.set_of_notMem (hi : i ∉ t.toList) : t.set f x y z i = f i := by
  simp only [Idx.toList, List.mem_cons, List.not_mem_nil, or_false, not_or] at hi
  rw [Idx.set, update_of_ne hi.2.2, update_of_ne hi.2.1, update_of_ne hi.1]

theorem Idx.set_head (h : t.toList.Nodup) : t.set f x y z t.head = x := by
  obtain ⟨h01, h02, -⟩ := Idx.nodup_iff.mp h
  rw [Idx.set, update_of_ne h02, update_of_ne h01, update_self]

theorem Idx.set_data (h : t.toList.Nodup) : t.set f x y z t.data = y := by
  rw [Idx.set, update_of_ne (Idx.nodup_iff.mp h).2.2, update_self]

theorem Idx.set_status : t.set f x y z t.status = z := update_self ..

theorem Idx.forall_mem {P : ℕ → Prop} :
    (∀ i ∈ t.toList, P i) ↔ P t.head ∧ P t.data ∧ P t.status := by
  simp [Idx.toList]

theorem Idx.set_mem (h : t.toList.Nodup) : ∀ i ∈ t.toList, t.set f x x x i = x :=
  Idx.forall_mem.mpr ⟨Idx.set_head h, Idx.set_data h, Idx.set_status⟩

end Set

theorem Formatted.congr (h : Formatted d b w n t)
    (hd : ∀ i ∈ t.toList, d'.desc i = d.desc i ∧ d'.free i = d.free i)
    (hop : d'.ops t.head = d.ops t.head) (hinfo : (d'.info t.head).b = (d.info t.head).b) :
    Formatted d' b w n t where
  lt := h.lt
  nodup := h.nodup
  free i hi := by rw [(hd i hi).2, h.free i hi]
  head := by rw [(hd _ Idx.head_mem).1, h.head]
  data := by rw [(hd _ Idx.data_mem).1, h.data]
  status := by rw [(hd _ Idx.status_mem).1, h.status]
  op := by rw [hop, h.op]
  info := by rw [hinfo, h.info]

theorem update_false_eq_true {f : ℕ → Bool} {x : ℕ} :
    update f i false x = true ↔ x ≠ i ∧ f x = true := by
  by_cases h : x = i
  · rw [h, update_self]
    simp
  · rw [update_of_ne h]
    exact ⟨fun hx => ⟨h, hx⟩, fun hx => hx.2⟩

theorem allocDesc_cases (d : Disk B) : (∃ i < NUM, d.free i = true ∧
      allocDesc d = (some i, { d with free := update d.free i false })) ∨
      allocDesc d = (none, d) := by
  unfold allocDesc
  cases hf : (List.range NUM).find? d.free with
  | none => exact .inr rfl
  | some i =>
    exact .inl ⟨i, List.mem_range.mp (List.mem_of_find?_eq_some hf), List.find?_some hf, rfl⟩

theorem freeDesc_eq (hi : i < NUM) (hf : d.free i = false) : freeDesc i d = .ok { d with
      desc := update d.desc i {}
      free := update d.free i true } := by
  unfold freeDesc
  rw [if_neg (by omega), hf]
  rfl

/-- A descriptor that was just claimed goes back. -/
theorem freeDesc_claimed (hi : i < NUM) (hf : d.free i = true) :
    freeDesc i { d with free := update d.free i false } =
      .ok { d with desc := update d.desc i {} } := by
  rw [freeDesc_eq hi (update_self ..)]
  dsimp only
  rw [update_idem, ← hf, update_eq_self]

/-- Mark the descriptors as used. -/
def claim (t : Idx) (d : Disk B) : Disk B :=
  { d with
    free := update (update (update d.free t.head false) t.data false)
      t.status false }

/-- A failing `alloc3_desc` may clear descriptors that are free. -/
structure Untouched (d d' : Disk B) : Prop where
  state : d' = { d with desc := d'.desc }
  desc : ∀ i, d.free i = false → d'.desc i = d.desc i

theorem Untouched.clear (h : Untouched d d') (hf : d.free i = true) :
    Untouched d { d' with desc := update d'.desc i {} } where
  state := by rw [h.state]
  desc k hk := by
    have hne : k ≠ i := by
      rintro rfl
      rw [hf] at hk
      cases hk
    exact (update_of_ne hne _ _).trans (h.desc k hk)

theorem alloc3Desc_cases (d : Disk B) :
    (∃ t : Idx, alloc3Desc d = .ok (some t, claim t d) ∧ t.toList.Nodup ∧
      ∀ i ∈ t.toList, i < NUM ∧ d.free i = true) ∨
      ∃ d', alloc3Desc d = .ok (none, d') ∧ Untouched d d' := by
  have hsame : Untouched d d := ⟨rfl, fun _ _ => rfl⟩
  unfold alloc3Desc
  obtain ⟨i, hi, hfi, h1⟩ | h1 := allocDesc_cases d
  swap
  · rw [h1]
    exact .inr ⟨d, rfl, hsame⟩
  rw [h1]
  dsimp only
  obtain ⟨j, hj, hfj, h2⟩ | h2 := allocDesc_cases { d with free := update d.free i false }
  swap
  · rw [h2]
    dsimp only
    rw [freeDesc_claimed hi hfi]
    exact .inr ⟨_, rfl, hsame.clear hfi⟩
  obtain ⟨hji, hfj⟩ := update_false_eq_true.mp hfj
  rw [h2]
  dsimp only
  obtain ⟨k, hk, hfk, h3⟩ | h3 := allocDesc_cases
    { d with free := update (update d.free i false) j false }
  · obtain ⟨hkj, hfk⟩ := update_false_eq_true.mp hfk
    obtain ⟨hki, hfk⟩ := update_false_eq_true.mp hfk
    rw [h3]
    exact .inl ⟨⟨i, j, k⟩, rfl, Idx.nodup_iff.mpr ⟨hji.symm, hki.symm, hkj.symm⟩,
      Idx.forall_mem.mpr ⟨⟨hi, hfi⟩, ⟨hj, hfj⟩, hk, hfk⟩⟩
  · rw [h3]
    dsimp only
    rw [update_comm hji.symm, freeDesc_claimed (d := { d with free := update d.free j false }) hi
      ((update_of_ne hji.symm _ _).trans hfi)]
    refine .inr ⟨_, ?_, (hsame.clear hfi).clear hfj⟩
    show (do let d ← freeDesc j _; pure (none, d)) = _
    rw [freeDesc_claimed (d := { d with desc := update d.desc i {} }) hj hfj]
    rfl

/-- Descriptors that are just claimed become a chain. -/
theorem formatted_format (hlt : ∀ i ∈ t.toList, i < NUM) (hnd : t.toList.Nodup) :
    Formatted (format b w n t (claim t d)) b w n t where
  lt := hlt
  nodup := hnd
  free := Idx.set_mem hnd
  head := Idx.set_head hnd
  data := Idx.set_data hnd
  status := Idx.set_status
  op := update_self ..
  info := by simp only [format, update_self]

theorem format_of_notMem (hi : i ∉ t.toList) : (format b w n t (claim t d)).desc i = d.desc i ∧
      (format b w n t (claim t d)).free i = d.free i ∧
      (format b w n t (claim t d)).ops i = d.ops i ∧
      (format b w n t (claim t d)).info i = d.info i := by
  have h0 : i ≠ t.head := fun e => hi (e ▸ Idx.head_mem)
  exact ⟨Idx.set_of_notMem hi, Idx.set_of_notMem hi, update_of_ne h0 _ _, update_of_ne h0 _ _⟩

/-- Give the descriptors back. -/
def unclaim (t : Idx) (d : Disk B) : Disk B :=
  { d with
    desc := update (update (update d.desc t.head {}) t.data {}) t.status {}
    free := update (update (update d.free t.head true) t.data true)
      t.status true }

theorem unclaim_of_notMem (hi : i ∉ t.toList) :
    (unclaim t d).desc i = d.desc i ∧ (unclaim t d).free i = d.free i :=
  ⟨Idx.set_of_notMem hi, Idx.set_of_notMem hi⟩

/-- The state after `free_desc`. -/
def freed (i : ℕ) (d : Disk B) : Disk B :=
  { d with desc := update d.desc i {}, free := update d.free i true }

theorem freeChainLoop_succ {m : ℕ} (hi : i < NUM) (hf : d.free i = false) :
    freeChainLoop (m + 1) i d = if (d.desc i).flags &&& VRING_DESC_F_NEXT ≠ 0
      then freeChainLoop m (d.desc i).next (freed i d) else .ok (freed i d) := by
  rw [freeChainLoop, freeDesc_eq hi hf]
  rfl

theorem Linked.freeChain_eq (h : Linked d b w t) : freeChain t.head d = .ok (unclaim t d) := by
  obtain ⟨h01, h02, h12⟩ := Idx.nodup_iff.mp h.nodup
  have hw : ((if w then 0 else VRING_DESC_F_WRITE) ||| VRING_DESC_F_NEXT) &&&
      VRING_DESC_F_NEXT ≠ 0 := by
    cases w <;> decide
  have hdata : (freed t.head d).desc t.data = _ :=
    (update_of_ne h01.symm _ _).trans h.data
  have hstatus : (freed t.data (freed t.head d)).desc t.status = _ :=
    (update_of_ne h12.symm _ _).trans ((update_of_ne h02.symm _ _).trans h.status)
  have hfree1 : (freed t.head d).free t.data = false :=
    (update_of_ne h01.symm _ _).trans (h.free _ Idx.data_mem)
  have hfree2 : (freed t.data (freed t.head d)).free t.status = false :=
    (update_of_ne h12.symm _ _).trans
      ((update_of_ne h02.symm _ _).trans (h.free _ Idx.status_mem))
  unfold freeChain NUM
  have hnext : VRING_DESC_F_NEXT &&& VRING_DESC_F_NEXT ≠ 0 := by decide
  have hlast : ¬ VRING_DESC_F_WRITE &&& VRING_DESC_F_NEXT ≠ 0 := by decide
  rw [freeChainLoop_succ (h.lt _ Idx.head_mem) (h.free _ Idx.head_mem),
    if_pos (by rw [h.head]; exact hnext), h.head]
  dsimp only
  rw [freeChainLoop_succ (h.lt _ Idx.data_mem) hfree1, if_pos (by rw [hdata]; exact hw), hdata]
  dsimp only
  rw [freeChainLoop_succ (h.lt _ Idx.status_mem) hfree2, if_neg (by rw [hstatus]; exact hlast)]
  rfl

/-- The device reads from the chain what the driver wrote there. -/
theorem Formatted.readChain_eq (h : Formatted d b w n t) :
    readChain d t.head = some ⟨t.head, blkReq w n, b, !w, t.head, false⟩ := by
  have hflags : (((if w then 0 else VRING_DESC_F_WRITE) ||| VRING_DESC_F_NEXT) &&&
      VRING_DESC_F_NEXT ≠ 0) ∧ decide (((if w then 0 else VRING_DESC_F_WRITE) |||
      VRING_DESC_F_NEXT) &&& VRING_DESC_F_WRITE ≠ 0) = !w := by
    cases w <;> decide
  unfold readChain
  simp only [h.head, h.data, h.status, h.op]
  rw [if_pos ⟨by decide, hflags.1, by decide, by decide⟩, hflags.2]

end Disk

/-! ## The invariant -/

/-- Whether a call writes, and its descriptors if it has them. -/
def Pc.chain : Pc → Option (Bool × Idx)
  | .idle => none
  | .alloc _ => none
  | .ring w t => some (w, t)
  | .bump w t => some (w, t)
  | .wait w t => some (w, t)

/-- The request is submitted. -/
def Pc.waiting : Pc → Bool
  | .wait _ _ => true
  | _ => false

/-- Calls own the descriptors that are in use. -/
structure Chains (blockno : B → ℕ) (pc : B → Pc) (d : Disk B) : Prop where
  formatted : ∀ {b w t}, (pc b).chain = some (w, t) → Formatted d b w (blockno b) t
  disjoint : ∀ {b w t b' w' t' i}, (pc b).chain = some (w, t) → (pc b').chain = some (w', t') →
    i ∈ t.toList → i ∈ t'.toList → b = b'
  owned : ∀ i < NUM, d.free i = false → ∃ b w t, (pc b).chain = some (w, t) ∧ i ∈ t.toList

/-- The call for `b` waits for its request, whose first descriptor is `h`. -/
def Waits (s : State B) (b : B) (h : ℕ) : Prop :=
  ∃ w t, s.pc b = .wait w t ∧ t.head = h ∧ s.bufDisk b = true

/-- Where the requests are: `avq` in the avail ring, some with the device, `usq` in the used ring;
`us` are the buffers of these. -/
structure Places (blockno : B → ℕ) (s : State B) (avq usq : List ℕ) (us : List B) : Prop where
  avail : RingQueue (2 ^ 16) NUM s.disk.avail.ring s.last s.disk.avail.idx avq
  used : RingQueue (2 ^ 16) NUM s.disk.used.ring s.disk.usedIdx s.disk.used.idx usq
  nodup : (avq ++ s.taken.map Request.head ++ usq).Nodup
  mem : ∀ h, h ∈ avq ++ s.taken.map Request.head ++ usq ↔ ∃ b, Waits s b h
  taken : ∀ r ∈ s.taken, ∃ b w t, s.pc b = .wait w t ∧ s.bufDisk b = true ∧
    r = ⟨t.head, blkReq w (blockno b), b, !w, t.head, r.served⟩ ∧
    (r.served = true → (s.disk.info t.head).status = 0)
  status : ∀ h ∈ usq, (s.disk.info h).status = 0
  bufs : usq.map (fun h => (s.disk.info h).b) = us.map some
  completed : s.completed = s.cleared ++ us

variable {blockno : B → ℕ} {s s' : State B} {b b' : B} {w : Bool} {t : Idx}
variable {avq usq : List ℕ} {us : List B} {h i : ℕ}

theorem NUM_dvd : NUM ∣ 2 ^ 16 := by decide

theorem Waits.chain (hw : Waits s b h) : ∃ w t, (s.pc b).chain = some (w, t) ∧ t.head = h := by
  obtain ⟨w, t, hpc, hh, -⟩ := hw
  exact ⟨w, t, by rw [hpc]; rfl, hh⟩

/-- Two calls do not wait for the same descriptor. -/
theorem Chains.waits_inj (hc : Chains blockno s.pc s.disk) (h1 : Waits s b h) (h2 : Waits s b' h) :
    b = b' := by
  obtain ⟨w, t, hb, rfl⟩ := h1.chain
  obtain ⟨w', t', hb', ht⟩ := h2.chain
  exact hc.disjoint hb hb' Idx.head_mem (ht ▸ Idx.head_mem)

theorem Chains.waits_lt (hc : Chains blockno s.pc s.disk) (hw : Waits s b h) : h < NUM := by
  obtain ⟨w, t, hb, rfl⟩ := hw.chain
  exact (hc.formatted hb).lt _ Idx.head_mem

section

variable {q : List ℕ} (hp : Places blockno s avq usq us) (hc : Chains blockno s.pc s.disk)
  (hq : q.Sublist (avq ++ s.taken.map Request.head ++ usq))
include hp hc hq

/-- With one more descriptor there is room in the rings. -/
theorem Places.length_lt (hlt : h < NUM) (hnot : h ∉ q) : q.length < NUM := by
  have hnd : (h :: q).Nodup := List.nodup_cons.mpr ⟨hnot, hp.nodup.sublist hq⟩
  have hle : (h :: q).length ≤ NUM := by
    refine length_le_of_nodup hnd fun x hx => ?_
    rw [List.mem_cons] at hx
    obtain rfl | hx := hx
    · exact hlt
    · obtain ⟨b, hb⟩ := (hp.mem x).mp (hq.mem hx)
      exact hc.waits_lt hb
  rw [List.length_cons] at hle
  omega

/-- Any queue in a ring is short. -/
theorem Places.length_le : q.length ≤ NUM := by
  refine length_le_of_nodup (hp.nodup.sublist hq) fun x hx => ?_
  obtain ⟨b, hb⟩ := (hp.mem x).mp (hq.mem hx)
  exact hc.waits_lt hb

end

theorem avq_sublist {th : List ℕ} : avq.Sublist (avq ++ th ++ usq) :=
  (List.sublist_append_left avq th).trans (List.sublist_append_left _ usq)

theorem usq_sublist {th : List ℕ} : usq.Sublist (avq ++ th ++ usq) :=
  List.sublist_append_right _ usq

section Chains

variable {pc pc' : B → Pc} {d d' : Disk B}

theorem Chains.congr (hc : Chains blockno pc d) (hpc : ∀ b, (pc' b).chain = (pc b).chain)
    (hinfo : ∀ i, (d'.info i).b = (d.info i).b)
    (hdesc : ∀ i, d.free i = false → d'.desc i = d.desc i)
    (hfree : d'.free = d.free) (hops : d'.ops = d.ops) :
    Chains blockno pc' d' := by
  refine ⟨fun h1 => ?_, fun h1 h2 => ?_, fun i hi hf => ?_⟩
  · rw [hpc] at h1
    have hf := hc.formatted h1
    refine hf.congr (fun i hi => ⟨hdesc i (hf.free i hi), ?_⟩) ?_ (hinfo _)
    · rw [hfree]
    · rw [hops]
  · rw [hpc] at h1 h2
    exact hc.disjoint h1 h2
  · rw [hfree] at hf
    obtain ⟨b, w, t, h1, hmem⟩ := hc.owned i hi hf
    exact ⟨b, w, t, (hpc b).trans h1, hmem⟩

/-- A chain in use has no free descriptor. -/
theorem Chains.notMem_of_free (hc : Chains blockno pc d) (hb : (pc b).chain = some (w, t))
    {t' : Idx} (hfree : ∀ i ∈ t'.toList, d.free i = true) (hi : i ∈ t.toList) :
    i ∉ t'.toList := by
  intro hi'
  have h1 := (hc.formatted hb).free i hi
  rw [hfree i hi'] at h1
  cases h1

variable [DecidableEq B]

theorem chain_update_eq_some {k : Pc} : (update pc b k b').chain = some (w, t) ↔
    b' = b ∧ k.chain = some (w, t) ∨ b' ≠ b ∧ (pc b').chain = some (w, t) := by
  by_cases e : b' = b
  · rw [e, update_self]
    simp
  · rw [update_of_ne e]
    simp [e]

theorem Chains.alloc (hc : Chains blockno pc d) (hb : (pc b).chain = none) (hnd : t.toList.Nodup)
    (ht : ∀ i ∈ t.toList, i < NUM ∧ d.free i = true) :
    Chains blockno (update pc b (.ring w t))
      (format b w (blockno b) t (claim t d)) := by
  have hnot : ∀ {b' w' t' i}, (pc b').chain = some (w', t') → i ∈ t'.toList → i ∉ t.toList :=
    fun hc' hi => hc.notMem_of_free hc' (fun i hi => (ht i hi).2) hi
  constructor
  · intro b' w' t' hc'
    obtain ⟨rfl, ⟨⟩⟩ | ⟨-, hc'⟩ := chain_update_eq_some.mp hc'
    · exact formatted_format (fun i hi => (ht i hi).1) hnd
    · refine (hc.formatted hc').congr (fun i hi => ?_) ?_ ?_
      · obtain ⟨h1, h2, -⟩ := format_of_notMem (hnot hc' hi)
        exact ⟨h1, h2⟩
      · exact (format_of_notMem (hnot hc' Idx.head_mem)).2.2.1
      · rw [(format_of_notMem (hnot hc' Idx.head_mem)).2.2.2]
  · intro b1 w1 t1 b2 w2 t2 i h1 h2 hi1 hi2
    rw [chain_update_eq_some] at h1 h2
    obtain ⟨rfl, ⟨⟩⟩ | ⟨-, h1⟩ := h1 <;> obtain ⟨rfl, ⟨⟩⟩ | ⟨-, h2⟩ := h2
    · rfl
    · exact absurd hi1 (hnot h2 hi2)
    · exact absurd hi2 (hnot h1 hi1)
    · exact hc.disjoint h1 h2 hi1 hi2
  · intro i hi hf
    by_cases hmem : i ∈ t.toList
    · exact ⟨b, w, t, chain_update_eq_some.mpr (.inl ⟨rfl, rfl⟩), hmem⟩
    · rw [(format_of_notMem hmem).2.1] at hf
      obtain ⟨b', w', t', hc', hi'⟩ := hc.owned i hi hf
      refine ⟨b', w', t', chain_update_eq_some.mpr (.inr ⟨?_, hc'⟩), hi'⟩
      rintro rfl
      rw [hb] at hc'
      cases hc'

theorem Chains.free (hc : Chains blockno pc d) (hb : (pc b).chain = some (w, t))
    (hinfo : ∀ i, i ≠ t.head → d'.info i = d.info i) (hdesc : d'.desc = d.desc)
    (hfree : d'.free = d.free) (hops : d'.ops = d.ops) :
    Chains blockno (update pc b .idle) (unclaim t d') := by
  have hb' : ∀ {b' w' t'}, (update pc b .idle b').chain = some (w', t') →
      b' ≠ b ∧ (pc b').chain = some (w', t') :=
    fun h1 => (chain_update_eq_some.mp h1).resolve_left fun ⟨_, e⟩ => nomatch e
  constructor
  · intro b' w' t' h1
    obtain ⟨e, h1⟩ := hb' h1
    have hnot : ∀ i ∈ t'.toList, i ∉ t.toList := fun i hi hi' => e (hc.disjoint h1 hb hi hi')
    refine (hc.formatted h1).congr (fun i hi => ?_) ?_ ?_
    · obtain ⟨h2, h3⟩ := unclaim_of_notMem (d := d') (hnot i hi)
      rw [h2, h3, hdesc, hfree]
      exact ⟨rfl, rfl⟩
    · show d'.ops _ = _
      rw [hops]
    · show (d'.info _).b = _
      rw [hinfo]
      intro e'
      exact hnot _ Idx.head_mem (e' ▸ Idx.head_mem)
  · intro b1 w1 t1 b2 w2 t2 i h1 h2
    exact hc.disjoint (hb' h1).2 (hb' h2).2
  · intro i hi hf
    have hmem : i ∉ t.toList := by
      intro hmem
      have hset : (unclaim t d').free i = true := Idx.set_mem (hc.formatted hb).nodup i hmem
      rw [hset] at hf
      cases hf
    rw [(unclaim_of_notMem hmem).2, hfree] at hf
    obtain ⟨b', w', t', h1, hi'⟩ := hc.owned i hi hf
    refine ⟨b', w', t', chain_update_eq_some.mpr (.inr ⟨?_, h1⟩), hi'⟩
    rintro rfl
    rw [hb] at h1
    cases h1
    exact hmem hi'

end Chains

theorem Places.congr (hp : Places blockno s avq usq us)
    (hav : RingQueue (2 ^ 16) NUM s'.disk.avail.ring s'.last s'.disk.avail.idx avq)
    (hus : RingQueue (2 ^ 16) NUM s'.disk.used.ring s'.disk.usedIdx s'.disk.used.idx usq)
    (htaken : s'.taken = s.taken) (hcomp : s'.completed = s.completed)
    (hclr : s'.cleared = s.cleared)
    (hpc : ∀ b w t, s'.pc b = .wait w t ∧ s'.bufDisk b = true ↔
      s.pc b = .wait w t ∧ s.bufDisk b = true)
    (hinfo : ∀ b h, Waits s b h → s'.disk.info h = s.disk.info h) :
    Places blockno s' avq usq us := by
  have hwaits : ∀ b h, Waits s' b h ↔ Waits s b h := by
    intro b h
    constructor
    · rintro ⟨w, t, h1, h2, h3⟩
      obtain ⟨h1, h3⟩ := (hpc b w t).mp ⟨h1, h3⟩
      exact ⟨w, t, h1, h2, h3⟩
    · rintro ⟨w, t, h1, h2, h3⟩
      obtain ⟨h1, h3⟩ := (hpc b w t).mpr ⟨h1, h3⟩
      exact ⟨w, t, h1, h2, h3⟩
  have husq : ∀ h ∈ usq, s'.disk.info h = s.disk.info h := by
    intro h hh
    obtain ⟨b, hb⟩ := (hp.mem h).mp (usq_sublist.mem hh)
    exact hinfo b h hb
  constructor
  · exact hav
  · exact hus
  · rw [htaken]
    exact hp.nodup
  · intro h
    rw [htaken]
    simp only [hwaits]
    exact hp.mem h
  · intro r hr
    rw [htaken] at hr
    obtain ⟨b, w, t, h1, h2, h3, h4⟩ := hp.taken r hr
    obtain ⟨h1', h2'⟩ := (hpc b w t).mpr ⟨h1, h2⟩
    refine ⟨b, w, t, h1', h2', h3, ?_⟩
    rw [hinfo b t.head ⟨w, t, h1, rfl, h2⟩]
    exact h4
  · intro h hh
    rw [husq h hh]
    exact hp.status h hh
  · rw [← hp.bufs]
    exact List.map_congr_left fun h hh => by rw [husq h hh]
  · rw [hcomp, hclr]
    exact hp.completed

/-- The entries of the used ring and their buffers. -/
theorem Places.forall₂ (hp : Places blockno s avq usq us) (hc : Chains blockno s.pc s.disk) :
    List.Forall₂ (fun h b => Waits s b h ∧ (s.disk.info h).status = 0) usq us := by
  have hlen : usq.length = us.length := by simpa using congrArg List.length hp.bufs
  refine List.forall₂_iff_get.mpr ⟨hlen, fun i h1 h2 => ?_⟩
  have hmem : usq.get ⟨i, h1⟩ ∈ usq := List.get_mem _ _
  refine ⟨?_, hp.status _ hmem⟩
  obtain ⟨b, w, t, hpc, ht, hd⟩ := (hp.mem _).mp (usq_sublist.mem hmem)
  have hf : Formatted s.disk b w (blockno b) t := hc.formatted (by rw [hpc]; rfl)
  have hb : us.get ⟨i, h2⟩ = b := by
    have hget := congrArg (fun l => l[i]?) hp.bufs
    simp only [List.getElem?_map, List.getElem?_eq_getElem h1, List.getElem?_eq_getElem h2,
      Option.map_some, Option.some.injEq] at hget
    rw [List.get_eq_getElem] at ht
    rw [← ht, hf.info] at hget
    exact (Option.some.inj hget).symm
  rw [hb]
  exact ⟨w, t, hpc, ht, hd⟩

section Invariant

variable [DecidableEq B]

structure Inv (blockno : B → ℕ) (s : State B) : Prop where
  fault : s.fault = none
  lock : ∀ b, (s.pc b).chain.isSome = true → (s.pc b).waiting = false → s.lock = some (.proc b)
  disk : ∀ b, (s.pc b).waiting = false → s.bufDisk b = (s.pc b).chain.isSome
  chains : Chains blockno s.pc s.disk
  bump : ∀ b w t, s.pc b = .bump w t → s.disk.avail.ring (s.disk.avail.idx % NUM) = t.head
  counts : ∀ b, s.submitted.count b =
    s.cleared.count b + if (s.pc b).waiting && s.bufDisk b then 1 else 0
  places : ∃ avq usq us, Places blockno s avq usq us

theorem Inv.start {n m : ℕ} (hn : n < 2 ^ 16) (hm : m < 2 ^ 16) :
    Inv blockno (Virtio.start n m : State B) where
  fault := rfl
  lock _ h := absurd h Bool.false_ne_true
  disk _ _ := rfl
  chains := by
    refine ⟨fun h => ?_, fun h => ?_, fun i hi h => ?_⟩
    · cases h
    · cases h
    · exact absurd (decide_eq_false_iff_not.mp h) (not_not.mpr hi)
  bump _ _ _ h := by cases h
  counts _ := rfl
  places := by
    refine ⟨[], [], [], .nil hn, .nil hm, List.nodup_nil, fun h => ?_, fun r hr => ?_, fun h hh => ?_,
      rfl, rfl⟩
    · constructor
      · intro hh
        exact absurd hh List.not_mem_nil
      · rintro ⟨b, w, t, hpc, -⟩
        cases hpc
    · exact absurd hr List.not_mem_nil
    · exact absurd hh List.not_mem_nil

theorem Inv.setLock {l : Option (Holder B)} (hI : Inv blockno s) (hl : ∀ b,
      (s.pc b).chain.isSome = true → (s.pc b).waiting = false → l = some (.proc b)) :
    Inv blockno { s with lock := l } where
  fault := hI.fault
  lock := hl
  disk := hI.disk
  chains := hI.chains
  bump := hI.bump
  counts := hI.counts
  places := by
    obtain ⟨avq, usq, us, hp⟩ := hI.places
    exact ⟨avq, usq, us, hp.avail, hp.used, hp.nodup, hp.mem, hp.taken, hp.status, hp.bufs,
      hp.completed⟩

theorem Inv.unlocked {x : Holder B} (hI : Inv blockno s) (hl : s.lock = none) :
    Inv blockno { s with lock := some x } := by
  apply hI.setLock
  intro b hc hw
  have := hI.lock b hc hw
  rw [hl] at this
  cases this

/-- The lock is given back by the call for `b`, or by the interrupt. -/
theorem Inv.release {x : Holder B} (hI : Inv blockno s) (hl : s.lock = some x)
    (hx : ∀ b, x = .proc b → (s.pc b).chain.isSome = true → (s.pc b).waiting = true) :
    Inv blockno { s with lock := none } := by
  apply hI.setLock
  intro b hc hw
  have hb := hI.lock b hc hw
  rw [hl] at hb
  have := hx b (Option.some.inj hb) hc
  rw [hw] at this
  cases this

omit [DecidableEq B] in
/-- A call that waits for no request changes its place in the code. -/
theorem Places.setPc [DecidableEq B] {k : Pc} {d : Disk B} {f : B → Bool} {l : List B}
    (hp : Places blockno s avq usq us) (hold : (s.pc b).waiting = false ∨ s.bufDisk b = false)
    (hav : RingQueue (2 ^ 16) NUM d.avail.ring s.last d.avail.idx avq)
    (hinfo : ∀ b h, Waits s b h → d.info h = s.disk.info h)
    (hbd : ∀ b' ≠ b, f b' = s.bufDisk b')
    (hused : d.used = s.disk.used ∧ d.usedIdx = s.disk.usedIdx) (hnew : k.waiting = false) :
    Places blockno { s.setPc b k with disk := d, bufDisk := f, submitted := l } avq usq us := by
  refine hp.congr hav ?_ rfl rfl rfl (fun b' w t => ?_) hinfo
  · show RingQueue _ _ d.used.ring d.usedIdx d.used.idx usq
    rw [hused.1, hused.2]
    exact hp.used
  · show update s.pc b k b' = _ ∧ f b' = true ↔ _
    by_cases e : b' = b
    · rw [e, update_self]
      constructor
      · rintro ⟨rfl, -⟩
        cases hnew
      · rintro ⟨hw, hd⟩
        rw [hw, hd] at hold
        obtain h | h := hold <;> cases h
    · rw [update_of_ne e, hbd b' e]

/-- A step of the call for `b`. Either it has the lock, or the avail ring stays as it is. -/
theorem Inv.setPc {k : Pc} {d : Disk B} {f : B → Bool} {l : List B} (hI : Inv blockno s)
    (hlock : k.chain.isSome = true → k.waiting = false → s.lock = some (.proc b))
    (hdisk : k.waiting = false → f b = k.chain.isSome)
    (hchains : Chains blockno (update s.pc b k) d)
    (hbump : ∀ w t, k = .bump w t → d.avail.ring (d.avail.idx % NUM) = t.head)
    (havail : s.lock = some (.proc b) ∨ d.avail = s.disk.avail)
    (hcount : l.count b = s.cleared.count b + if k.waiting && f b then 1 else 0)
    (hplaces : ∃ avq usq us, Places blockno
      { s.setPc b k with disk := d, bufDisk := f, submitted := l } avq usq us)
    (hbd : ∀ b' ≠ b, f b' = s.bufDisk b')
    (hsub : ∀ b' ≠ b, l.count b' = s.submitted.count b') :
    Inv blockno { s.setPc b k with disk := d, bufDisk := f, submitted := l } := by
  have hpc : ∀ b', b' = b ∧ (s.setPc b k).pc b' = k ∨ b' ≠ b ∧ (s.setPc b k).pc b' = s.pc b' := by
    intro b'
    by_cases e : b' = b
    · exact .inl ⟨e, by rw [e]; exact update_self _ _ _⟩
    · exact .inr ⟨e, update_of_ne e _ _⟩
  refine ⟨hI.fault, fun b' => ?_, fun b' => ?_, hchains, fun b' w t => ?_, fun b' => ?_, hplaces⟩
  all_goals
    dsimp only
    obtain ⟨rfl, e⟩ | ⟨hne, e⟩ := hpc b' <;> rw [e]
  · exact hlock
  · exact hI.lock b'
  · exact hdisk
  · rw [hbd b' hne]
    exact hI.disk b'
  · exact hbump w t
  · intro hb'
    obtain hl | hav := havail
    · -- the other call would have the lock too
      have := hI.lock b' (by rw [hb']; rfl) (by rw [hb']; rfl)
      rw [hl] at this
      cases this
      exact absurd rfl hne
    · rw [hav]
      exact hI.bump b' w t hb'
  · exact hcount
  · have := hI.counts b'
    rwa [← hsub b' hne, ← hbd b' hne] at this

omit [DecidableEq B] in
theorem chain_update [DecidableEq B] {k : Pc} (hk : k.chain = (s.pc b).chain) (b' : B) :
    (update s.pc b k b').chain = (s.pc b').chain := by
  by_cases e : b' = b
  · rw [e, update_self, hk]
  · rw [update_of_ne e]

section

variable (hI : Inv blockno s)
include hI

theorem Inv.call (hb : s.pc b = .idle) : Inv blockno (s.setPc b (.alloc w)) := by
  obtain ⟨avq, usq, us, hp⟩ := hI.places
  have hwait : (s.pc b).waiting = false := by
    rw [hb]
    rfl
  refine hI.setPc (d := s.disk) (f := s.bufDisk) (l := s.submitted) nofun (fun _ => ?_)
    (hI.chains.congr (chain_update ?_) (fun _ => rfl) (fun _ _ => rfl) rfl rfl) nofun (.inr rfl)
    ?_ ⟨avq, usq, us, hp.setPc (.inl hwait) hp.avail (fun _ _ _ => rfl) (fun _ _ => rfl) ⟨rfl, rfl⟩
      rfl⟩ (fun _ _ => rfl) fun _ _ => rfl
  · rw [hI.disk b hwait, hb]
    rfl
  · rw [hb]
    rfl
  · have := hI.counts b
    rwa [hwait] at this

theorem Inv.untouched {d' : Disk B} (hd : Untouched s.disk d') :
    Inv blockno { s with disk := d' } := by
  have hfree : d'.free = s.disk.free := by rw [hd.state]
  have hops : d'.ops = s.disk.ops := by rw [hd.state]
  have hinfo : d'.info = s.disk.info := by rw [hd.state]
  have havail : d'.avail = s.disk.avail := by rw [hd.state]
  constructor
  · exact hI.fault
  · exact hI.lock
  · exact hI.disk
  · exact hI.chains.congr (fun _ => rfl) (fun i => by rw [hinfo]) hd.desc hfree hops
  · intro b w t hpc
    show d'.avail.ring (d'.avail.idx % NUM) = t.head
    rw [havail]
    exact hI.bump b w t hpc
  · exact hI.counts
  · obtain ⟨avq, usq, us, hp⟩ := hI.places
    refine ⟨avq, usq, us, hp.congr ?_ ?_ rfl rfl rfl (fun _ _ _ => Iff.rfl) fun b h _ => ?_⟩
    · show RingQueue _ _ d'.avail.ring s.last d'.avail.idx avq
      rw [havail]
      exact hp.avail
    · show RingQueue _ _ d'.used.ring d'.usedIdx d'.used.idx usq
      rw [hd.state]
      exact hp.used
    · show d'.info h = _
      rw [hinfo]

theorem Inv.alloc (hb : s.pc b = .alloc w) (hl : s.lock = some (.proc b)) (hnd : t.toList.Nodup)
    (ht : ∀ i ∈ t.toList, i < NUM ∧ s.disk.free i = true) : Inv blockno { s.setPc b (.ring w t) with
      disk := format b w (blockno b) t (claim t s.disk)
      bufDisk := update s.bufDisk b true } := by
  obtain ⟨avq, usq, us, hp⟩ := hI.places
  have hwait : (s.pc b).waiting = false := by
    rw [hb]
    rfl
  have hbd : ∀ b' ≠ b, update s.bufDisk b true b' = s.bufDisk b' := fun b' e => update_of_ne e _ _
  refine hI.setPc (l := s.submitted) (fun _ _ => hl) (fun _ => update_self _ _ _)
    (hI.chains.alloc (by rw [hb]; rfl) hnd ht) nofun (.inl hl) ?_
    ⟨avq, usq, us, hp.setPc (.inl hwait) hp.avail (fun b' h hw => ?_) hbd ⟨rfl, rfl⟩ rfl⟩
    hbd fun _ _ => rfl
  · have := hI.counts b
    rwa [hwait] at this
  · obtain ⟨w', t', hc, rfl⟩ := hw.chain
    have hnot := hI.chains.notMem_of_free hc (fun i hi => (ht i hi).2) Idx.head_mem
    exact (format_of_notMem hnot).2.2.2

/-- The descriptors of a call that has not submitted its request are in no queue. -/
theorem Inv.head_notMem (hp : Places blockno s avq usq us) (hb : (s.pc b).chain = some (w, t))
    (hw : (s.pc b).waiting = false ∨ s.bufDisk b = false) :
    t.head ∉ avq ++ s.taken.map Request.head ++ usq := by
  intro hmem
  obtain ⟨b', hb'⟩ := (hp.mem _).mp hmem
  obtain ⟨w', t', hc', ht'⟩ := hb'.chain
  have e : b = b' := hI.chains.disjoint hb hc' Idx.head_mem (ht' ▸ Idx.head_mem)
  subst e
  obtain ⟨w1, t1, hpc, -, hd⟩ := hb'
  obtain hw | hw := hw
  · rw [hpc] at hw
    cases hw
  · rw [hd] at hw
    cases hw

/-- The entry of the avail ring is written. -/
theorem Inv.ring (hb : s.pc b = .ring w t) : ¬ NUM ≤ (s.disk.avail.idx + 2 ^ 16 - s.last) % 2 ^ 16 ∧
      Inv blockno { s.setPc b (.bump w t) with
        disk := { s.disk with
          avail := { s.disk.avail with
            ring := update s.disk.avail.ring (s.disk.avail.idx % NUM) t.head } } } := by
  obtain ⟨avq, usq, us, hp⟩ := hI.places
  have hchain : (s.pc b).chain = some (w, t) := by
    rw [hb]
    rfl
  have hwait : (s.pc b).waiting = false := by
    rw [hb]
    rfl
  have hlock : s.lock = some (.proc b) := hI.lock b (by rw [hchain]; rfl) hwait
  have hnot := hI.head_notMem hp hchain (.inl hwait)
  have hlen : avq.length < NUM := by
    refine hp.length_lt hI.chains avq_sublist ((hI.chains.formatted hchain).lt _ Idx.head_mem) ?_
    exact fun h => hnot (avq_sublist.mem h)
  have hNUM : NUM < 2 ^ 16 := by decide
  refine ⟨?_, ?_⟩
  · rw [hp.avail.length_eq (by omega)]
    omega
  refine hI.setPc (f := s.bufDisk) (l := s.submitted) (fun _ _ => hlock) (fun _ => ?_)
    (hI.chains.congr (chain_update ?_) (fun _ => rfl) (fun _ _ => rfl) rfl rfl)
    (fun w' t' he => ?_) (.inl hlock) ?_
    ⟨avq, usq, us, hp.setPc (.inl hwait) (hp.avail.store NUM_dvd hlen t.head) (fun _ _ _ => rfl)
      (fun _ _ => rfl) ⟨rfl, rfl⟩ rfl⟩ (fun _ _ => rfl) fun _ _ => rfl
  · rw [hI.disk b hwait, hchain]
    rfl
  · rw [hb]
    rfl
  · cases he
    exact update_self _ _ _
  · have := hI.counts b
    rwa [hwait] at this

/-- The entry is counted. -/
theorem Inv.submit (hb : s.pc b = .bump w t) : Inv blockno { s.setPc b (.wait w t) with
      disk := { s.disk with
        avail := { s.disk.avail with idx := (s.disk.avail.idx + 1) % 2 ^ 16 } }
      submitted := s.submitted ++ [b] } := by
  obtain ⟨avq, usq, us, hp⟩ := hI.places
  have hchain : (s.pc b).chain = some (w, t) := by
    rw [hb]
    rfl
  have hwait : (s.pc b).waiting = false := by
    rw [hb]
    rfl
  have hlock : s.lock = some (.proc b) := hI.lock b (by rw [hchain]; rfl) hwait
  have hdisk : s.bufDisk b = true := by
    rw [hI.disk b hwait, hchain]
    rfl
  have hnot := hI.head_notMem hp hchain (.inl hwait)
  have hself : update s.pc b (.wait w t) b = .wait w t := update_self _ _ _
  have hother : ∀ b', b' ≠ b → update s.pc b (.wait w t) b' = s.pc b' := fun b' e =>
    update_of_ne e _ _
  refine hI.setPc (f := s.bufDisk) nofun nofun
    (hI.chains.congr (chain_update ?_) (fun _ => rfl) (fun _ _ => rfl) rfl rfl) nofun
    (.inl hlock) ?_ ?_ (fun _ _ => rfl) fun b' e => by simp [List.count_append, Ne.symm e]
  · rw [hb]
    rfl
  · rw [List.count_append, hI.counts b, hwait, hdisk]
    simp [Pc.waiting]
  · have hring := hI.bump b w t hb
    have hpush := hp.avail.push NUM_dvd
    rw [hring] at hpush
    have hperm : (avq ++ [t.head] ++ s.taken.map Request.head ++ usq).Perm
        (t.head :: (avq ++ s.taken.map Request.head ++ usq)) := by
      refine List.perm_iff_count.mpr fun a => ?_
      simp only [List.count_append, List.count_cons, List.count_nil]
      omega
    refine ⟨avq ++ [t.head], usq, us, hpush, hp.used, ?_, fun h => ?_, fun r hr => ?_, hp.status,
      hp.bufs, hp.completed⟩
    · exact hperm.nodup_iff.mpr (List.nodup_cons.mpr ⟨hnot, hp.nodup⟩)
    · refine (hperm.mem_iff.trans List.mem_cons).trans ?_
      rw [hp.mem h]
      constructor
      · rintro (rfl | ⟨b', w', t', hpb, hh, hd⟩)
        · exact ⟨b, w, t, hself, rfl, hdisk⟩
        · have e : b' ≠ b := by
            rintro rfl
            rw [hb] at hpb
            cases hpb
          exact ⟨b', w', t', (hother b' e).trans hpb, hh, hd⟩
      · rintro ⟨b', w', t', hpb, hh, hd⟩
        have hpb1 : update s.pc b (.wait w t) b' = .wait w' t' := hpb
        by_cases e : b' = b
        · rw [e, hself] at hpb1
          cases hpb1
          exact .inl hh.symm
        · rw [hother b' e] at hpb1
          exact .inr ⟨b', w', t', hpb1, hh, hd⟩
    · obtain ⟨b', w', t', hpb, hrest⟩ := hp.taken r hr
      have e : b' ≠ b := by
        rintro rfl
        rw [hb] at hpb
        cases hpb
      exact ⟨b', w', t', (hother b' e).trans hpb, hrest⟩

/-- The request is done: its descriptors are given back. -/
theorem Inv.finish (hb : s.pc b = .wait w t) (hd : s.bufDisk b = false) :
    ∃ d, freeChain t.head { s.disk with
        info := update s.disk.info t.head { s.disk.info t.head with b := none } } = .ok d ∧
      Inv blockno { s.setPc b .idle with disk := d } := by
  obtain ⟨avq, usq, us, hp⟩ := hI.places
  have hchain : (s.pc b).chain = some (w, t) := by
    rw [hb]
    rfl
  set d1 : Disk B := { s.disk with
    info := update s.disk.info t.head { s.disk.info t.head with b := none } } with hd1
  have hf := (hI.chains.formatted hchain).toLinked
  have hlink : Linked d1 b w t := ⟨hf.lt, hf.nodup, hf.free, hf.head, hf.data, hf.status⟩
  have hnot := hI.head_notMem hp hchain (.inr hd)
  refine ⟨unclaim t d1, hlink.freeChain_eq, ?_⟩
  refine hI.setPc (f := s.bufDisk) (l := s.submitted) nofun (fun _ => hd)
    (hI.chains.free hchain (fun i hi => update_of_ne hi _ _) rfl rfl rfl) nofun (.inr rfl) ?_
    ⟨avq, usq, us, hp.setPc (.inr hd) hp.avail (fun b' h hw => update_of_ne ?_ _ _)
      (fun _ _ => rfl) ⟨rfl, rfl⟩ rfl⟩ (fun _ _ => rfl) fun _ _ => rfl
  · rw [hI.counts b, hd]
    simp
  · rintro rfl
    exact hnot ((hp.mem _).mpr ⟨b', hw⟩)

theorem Inv.take (hne : s.last ≠ s.disk.avail.idx) : s.disk.avail.ring (s.last % NUM) < NUM ∧
      ∃ r, readChain s.disk (s.disk.avail.ring (s.last % NUM)) = some r ∧
        Inv blockno { s with last := (s.last + 1) % 2 ^ 16, taken := s.taken ++ [r] } := by
  obtain ⟨avq, usq, us, hp⟩ := hI.places
  have hNUM : NUM < 2 ^ 16 := by decide
  have hlen := hp.length_le hI.chains avq_sublist
  cases avq with
  | nil => exact absurd ((hp.avail.lo_eq_hi_iff (by simp)).mpr rfl) hne
  | cons h avq =>
    rw [hp.avail.head_eq]
    obtain ⟨b, hb⟩ := (hp.mem h).mp (by simp)
    refine ⟨hI.chains.waits_lt hb, ?_⟩
    obtain ⟨w, t, hpc, rfl, hd⟩ := hb
    have hf : Formatted s.disk b w (blockno b) t := hI.chains.formatted (by rw [hpc]; rfl)
    refine ⟨_, hf.readChain_eq, hI.fault, hI.lock, hI.disk, hI.chains, hI.bump, hI.counts,
      avq, usq, us, hp.avail.pop NUM_dvd, hp.used, ?_, fun x => ?_, fun r hr => ?_, hp.status,
      hp.bufs, hp.completed⟩
    all_goals
      have hperm : (avq ++ (s.taken ++ [(⟨t.head, blkReq w (blockno b), b, !w, t.head, false⟩ :
          Request B)]).map Request.head ++ usq).Perm
          (t.head :: avq ++ s.taken.map Request.head ++ usq) := by
        refine List.perm_iff_count.mpr fun a => ?_
        simp only [List.map_append, List.map_cons, List.map_nil, List.count_append, List.count_cons,
          List.count_nil]
        omega
    · exact hperm.nodup_iff.mpr hp.nodup
    · exact hperm.mem_iff.trans (hp.mem x)
    · rw [List.mem_append, List.mem_singleton] at hr
      obtain hr | rfl := hr
      · exact hp.taken r hr
      · exact ⟨b, w, t, hpc, hd, rfl, nofun⟩

/-- A round of the interrupt handler's loop. -/
theorem Inv.intr (hne : s.disk.usedIdx ≠ s.disk.used.idx) :
    ∃ id b, s.disk.used.ring (s.disk.usedIdx % NUM) = id ∧ id < NUM ∧
      (s.disk.info id).status = 0 ∧ (s.disk.info id).b = some b ∧
      Inv blockno { s with
        bufDisk := update s.bufDisk b false
        disk := { s.disk with usedIdx := (s.disk.usedIdx + 1) % 2 ^ 16 }
        cleared := s.cleared ++ [b] } := by
  obtain ⟨avq, usq, us, hp⟩ := hI.places
  cases usq with
  | nil => exact absurd ((hp.used.lo_eq_hi_iff (by simp)).mpr rfl) hne
  | cons h usq =>
  obtain ⟨b, hb⟩ := (hp.mem h).mp (by simp)
  obtain ⟨w, t, hpc, ht, hd⟩ := hb
  have hf : Formatted s.disk b w (blockno b) t := hI.chains.formatted (by rw [hpc]; rfl)
  have hinfo : (s.disk.info h).b = some b := ht ▸ hf.info
  -- The entry's buffer is the first of those that are waiting to be cleared.
  obtain ⟨us, rfl, hbufs⟩ : ∃ us', us = b :: us' ∧
      usq.map (fun h => (s.disk.info h).b) = us'.map some := by
    have hbufs := hp.bufs
    cases us with
    | nil => cases hbufs
    | cons b' us' =>
      rw [List.map_cons, List.map_cons, hinfo] at hbufs
      obtain ⟨h1, h2⟩ := List.cons.inj hbufs
      exact ⟨us', by rw [Option.some.inj h1], h2⟩
  have hself : update s.bufDisk b false b = false := update_self _ _ _
  have hother : ∀ b', b' ≠ b → update s.bufDisk b false b' = s.bufDisk b' := fun b' e =>
    update_of_ne e _ _
  have hperm : (avq ++ s.taken.map Request.head ++ h :: usq).Perm
      (h :: (avq ++ s.taken.map Request.head ++ usq)) := List.perm_middle
  have hnd := List.nodup_cons.mp (hperm.nodup_iff.mp hp.nodup)
  have hmem : ∀ x, x ∈ avq ++ s.taken.map Request.head ++ usq ↔ x ≠ h ∧ ∃ b, Waits s b x := by
    intro x
    rw [← hp.mem x, hperm.mem_iff, List.mem_cons]
    constructor
    · intro hx
      refine ⟨?_, .inr hx⟩
      rintro rfl
      exact hnd.1 hx
    · rintro ⟨h1, h2⟩
      exact h2.resolve_left h1
  have hne' : ∀ b' x, Waits s b' x → x ≠ h → b' ≠ b := by
    rintro _ x ⟨w', t', hpc', ht', -⟩ hx rfl
    rw [hpc] at hpc'
    cases hpc'
    exact hx (ht'.symm.trans ht)
  refine ⟨h, b, hp.used.head_eq, hI.chains.waits_lt ⟨w, t, hpc, ht, hd⟩,
    hp.status h List.mem_cons_self, hinfo, ?_⟩
  constructor
  · exact hI.fault
  · exact hI.lock
  · intro b' hw
    have e : b' ≠ b := by
      rintro rfl
      have hw' : (s.pc b').waiting = false := hw
      rw [hpc] at hw'
      cases hw'
    exact (hother b' e).trans (hI.disk b' hw)
  · exact hI.chains.congr (fun _ => rfl) (fun _ => rfl) (fun _ _ => rfl) rfl rfl
  · exact hI.bump
  · intro b'
    show s.submitted.count b' = (s.cleared ++ [b]).count b' +
      if (s.pc b').waiting && update s.bufDisk b false b' then 1 else 0
    rw [hI.counts b', List.count_append]
    by_cases e : b' = b
    · rw [e, hself, hd, hpc, List.count_singleton_self]
      rfl
    · have h0 : [b].count b' = 0 := List.count_eq_zero_of_not_mem (by simpa using e)
      rw [hother b' e, h0, Nat.add_zero]
  · refine ⟨avq, usq, us, hp.avail, hp.used.pop NUM_dvd, hnd.2, fun x => ?_, fun r hr => ?_,
      fun x hx => hp.status x (List.mem_cons_of_mem _ hx), hbufs, ?_⟩
    · rw [hmem x]
      constructor
      · rintro ⟨hx, b', hb'⟩
        obtain ⟨w', t', h1, h2, h3⟩ := hb'
        exact ⟨b', w', t', h1, h2, (hother b' (hne' b' x ⟨w', t', h1, h2, h3⟩ hx)).trans h3⟩
      · rintro ⟨b', w', t', h1, h2, h3⟩
        have e : b' ≠ b := by
          rintro rfl
          exact Bool.false_ne_true (hself.symm.trans h3)
        have hb' : Waits s b' x := ⟨w', t', h1, h2, (hother b' e).symm.trans h3⟩
        refine ⟨?_, b', hb'⟩
        rintro rfl
        exact e (hI.chains.waits_inj hb' ⟨w, t, hpc, ht, hd⟩)
    · obtain ⟨b', w', t', h1, h2, h3, h4⟩ := hp.taken r hr
      have hx : t'.head ≠ h := by
        rintro rfl
        refine hnd.1 (List.mem_append_left _ (List.mem_append_right _ ?_))
        exact List.mem_map.mpr ⟨r, hr, by rw [h3]⟩
      exact ⟨b', w', t', h1, (hother b' (hne' b' _ ⟨w', t', h1, rfl, h2⟩ hx)).trans h2, h3, h4⟩
    · show s.completed = s.cleared ++ [b] ++ us
      rw [hp.completed, List.append_assoc]
      rfl

theorem Inv.serve {k : ℕ} {r : Request B} (hr : s.taken[k]? = some r) : Inv blockno { s with
      disk := { s.disk with
        info := update s.disk.info r.status { s.disk.info r.status with status := 0 } }
      taken := s.taken.set k { r with served := true } } := by
  obtain ⟨avq, usq, us, hp⟩ := hI.places
  obtain ⟨hk, hget⟩ := List.getElem?_eq_some_iff.mp hr
  have hmap : (s.taken.set k { r with served := true }).map Request.head =
      s.taken.map Request.head := by
    have hk' : k < (s.taken.map Request.head).length := by simpa using hk
    have hhead : (s.taken.map Request.head)[k] = r.head := by rw [List.getElem_map, hget]
    rw [List.map_set, ← hhead, List.set_getElem_self]
  set info' := update s.disk.info r.status
    { s.disk.info r.status with status := 0 } with hinfo'
  have hkeep : ∀ i, (info' i).b = (s.disk.info i).b ∧
      ((s.disk.info i).status = 0 → (info' i).status = 0) := by
    intro i
    by_cases e : i = r.status
    · rw [hinfo', e, update_self]
      exact ⟨rfl, fun _ => rfl⟩
    · rw [hinfo', update_of_ne e]
      exact ⟨rfl, id⟩
  refine ⟨hI.fault, hI.lock, hI.disk, ?_, hI.bump, hI.counts, avq, usq, us, hp.avail, hp.used, ?_,
    fun x => ?_, fun x hx => ?_, fun x hx => (hkeep x).2 (hp.status x hx), ?_, hp.completed⟩
  · exact hI.chains.congr (fun _ => rfl) (fun i => (hkeep i).1) (fun _ _ => rfl) rfl rfl
  · show (avq ++ (s.taken.set k _).map Request.head ++ usq).Nodup
    rw [hmap]
    exact hp.nodup
  · show x ∈ avq ++ (s.taken.set k _).map Request.head ++ usq ↔ _
    rw [hmap]
    exact hp.mem x
  · obtain hx | rfl := List.mem_or_eq_of_mem_set hx
    · obtain ⟨b, w, t, h1, h2, h3, h4⟩ := hp.taken x hx
      exact ⟨b, w, t, h1, h2, h3, fun h => (hkeep _).2 (h4 h)⟩
    · obtain ⟨b, w, t, h1, h2, h3, -⟩ := hp.taken r (List.mem_of_getElem? hr)
      refine ⟨b, w, t, h1, h2, by rw [h3], fun _ => ?_⟩
      have hst : r.status = t.head := by rw [h3]
      show (info' t.head).status = 0
      rw [hinfo', ← hst, update_self]
  · rw [← hp.bufs]
    exact List.map_congr_left fun i _ => (hkeep i).1

theorem Inv.post {k : ℕ} {r : Request B} (hr : s.taken[k]? = some r) (hs : r.served = true) :
    Inv blockno { s with
      disk := { s.disk with
        used := ⟨(s.disk.used.idx + 1) % 2 ^ 16,
          update s.disk.used.ring (s.disk.used.idx % NUM) r.head⟩ }
      taken := s.taken.eraseIdx k
      completed := s.completed ++ [r.buf] } := by
  obtain ⟨avq, usq, us, hp⟩ := hI.places
  obtain ⟨hk, hget⟩ := List.getElem?_eq_some_iff.mp hr
  have hmem := List.mem_of_getElem? hr
  obtain ⟨b, w, t, hpc, hd, hreq, hstatus⟩ := hp.taken r hmem
  have hhead : r.head = t.head := by rw [hreq]
  have hbuf : r.buf = b := by rw [hreq]
  have hf : Formatted s.disk b w (blockno b) t := hI.chains.formatted (by rw [hpc]; rfl)
  have htaken : (s.taken.map Request.head).Perm
      (r.head :: (s.taken.eraseIdx k).map Request.head) := by
    have := (List.getElem_cons_eraseIdx_perm hk).map Request.head
    rw [hget] at this
    exact this.symm
  have hperm : (avq ++ s.taken.map Request.head ++ usq).Perm
      (avq ++ (s.taken.eraseIdx k).map Request.head ++ (usq ++ [r.head])) := by
    refine List.perm_iff_count.mpr fun a => ?_
    have := htaken.count_eq a
    simp only [List.count_append, List.count_cons, List.count_nil] at this ⊢
    omega
  have hnot : r.head ∉ usq := by
    intro hmem'
    have hnd := (List.nodup_append.mp hp.nodup).2.2
    exact hnd r.head (List.mem_append_right _ (List.mem_map.mpr ⟨r, hmem, rfl⟩)) r.head hmem' rfl
  have hlt : usq.length < NUM :=
    hp.length_lt hI.chains usq_sublist (hhead ▸ hf.lt _ Idx.head_mem) hnot
  refine ⟨hI.fault, hI.lock, hI.disk, ?_, hI.bump, hI.counts, avq, usq ++ [r.head], us ++ [r.buf],
    hp.avail, ?_, hperm.nodup_iff.mp hp.nodup, fun x => hperm.mem_iff.symm.trans (hp.mem x),
    fun x hx => hp.taken x (List.mem_of_mem_eraseIdx hx), fun x hx => ?_, ?_, ?_⟩
  · exact hI.chains.congr (fun _ => rfl) (fun _ => rfl) (fun _ _ => rfl) rfl rfl
  · have h1 := (hp.used.store NUM_dvd hlt r.head).push NUM_dvd
    rwa [update_self] at h1
  · rw [List.mem_append, List.mem_singleton] at hx
    obtain hx | rfl := hx
    · exact hp.status x hx
    · rw [hhead]
      exact hstatus hs
  · show (usq ++ [r.head]).map (fun h => (s.disk.info h).b) = _
    rw [List.map_append, List.map_append, hp.bufs, hhead, hbuf]
    exact congrArg _ (congrArg (fun x => [x]) hf.info)
  · show s.completed ++ [r.buf] = _
    rw [hp.completed, List.append_assoc]

theorem Inv.rwStep (hl : s.lock = some (.proc b)) (hs : Virtio.rwStep blockno s b = some s') :
    Inv blockno s' := by
  rw [Virtio.rwStep] at hs
  split at hs
  case h_1 => cases hs
  case h_2 w hpc =>
    obtain ⟨t, heq, hnd, ht⟩ | ⟨d, heq, hd⟩ := alloc3Desc_cases s.disk
    · rw [heq] at hs
      cases hs
      exact hI.alloc hpc hl hnd ht
    · rw [heq] at hs
      cases hs
      -- Not enough descriptors: those that were claimed are back, and the process sleeps.
      refine (hI.untouched hd).release hl fun b' hb hc => ?_
      cases hb
      have hc' : (s.pc b).chain.isSome = true := hc
      rw [hpc] at hc'
      cases hc'
  case h_3 w t hpc =>
    obtain ⟨hroom, hI'⟩ := hI.ring hpc
    rw [if_neg hroom] at hs
    cases hs
    exact hI'
  case h_4 w t hpc =>
    cases hs
    exact hI.submit hpc
  case h_5 w t hpc =>
    split at hs
    case isTrue hd =>
      cases hs
      refine hI.release hl fun b' hb _ => ?_
      cases hb
      rw [hpc]
      rfl
    case isFalse hd =>
      obtain ⟨d, heq, hI'⟩ := hI.finish hpc (Bool.eq_false_iff.mpr hd)
      simp only [heq] at hs
      cases hs
      refine hI'.release hl fun b' hb hc => ?_
      cases hb
      have hc' : (update s.pc b .idle b).chain.isSome = true := hc
      rw [update_self] at hc'
      cases hc'

theorem Inv.step {a : Action B} (hs : Virtio.step blockno s a = some s') : Inv blockno s' := by
  have hfault : ¬ s.fault.isSome = true := by
    rw [hI.fault]
    exact Bool.false_ne_true
  rw [Virtio.step.eq_def, if_neg hfault] at hs
  cases a with
  | call b w =>
    obtain ⟨hpc, hs⟩ := Option.ite_none_right_eq_some.mp hs
    cases hs
    exact hI.call hpc
  | acquire x =>
    obtain ⟨hl, hs⟩ := Option.ite_none_left_eq_some.mp hs
    have hl' : s.lock = none := Option.not_isSome_iff_eq_none.mp hl
    cases x with
    | intr =>
      cases hs
      exact hI.unlocked hl'
    | proc b =>
      obtain ⟨-, hs⟩ := Option.ite_none_left_eq_some.mp hs
      cases hs
      exact hI.unlocked hl'
  | rw b =>
    obtain ⟨hl, hs⟩ := Option.ite_none_right_eq_some.mp hs
    exact hI.rwStep hl hs
  | intr =>
    obtain ⟨hl, hs⟩ := Option.ite_none_right_eq_some.mp hs
    cases hs
    rw [intrStep]
    split
    case isTrue => exact hI.release hl nofun
    case isFalse hne =>
      obtain ⟨id, b, hid, hlt, hstatus, hb, hI'⟩ := hI.intr hne
      simp only [hid, if_neg (Nat.not_le.mpr hlt), hstatus, ne_eq, not_true_eq_false, if_false, hb]
      exact hI'
  | take =>
    obtain ⟨hne, hs⟩ := Option.ite_none_left_eq_some.mp hs
    obtain ⟨hlt, r, hr, hI'⟩ := hI.take hne
    simp only [if_neg (Nat.not_le.mpr hlt), hr] at hs
    cases hs
    exact hI'
  | serve k =>
    cases hr : s.taken[k]? with
    | none =>
      simp only [hr] at hs
      cases hs
    | some r =>
      simp only [hr] at hs
      obtain ⟨-, hs⟩ := Option.ite_none_left_eq_some.mp hs
      cases hs
      exact hI.serve hr
  | post k =>
    cases hr : s.taken[k]? with
    | none =>
      simp only [hr] at hs
      cases hs
    | some r =>
      simp only [hr] at hs
      obtain ⟨hserved, hs⟩ := Option.ite_none_right_eq_some.mp hs
      cases hs
      exact hI.post hr hserved

end

/-! ## The protocol -/

/-- What the driver and the device rely on. -/
structure Sound (blockno : B → ℕ) (s : State B) : Prop where
  /-- No panic, no bad entry in a ring, and no slot of the avail ring was written before the device
  had taken what was in it. -/
  fault : s.fault = none
  /-- A request in flight has three different descriptors, linked, and none of them is free. -/
  formatted : ∀ b w t, (s.pc b).chain = some (w, t) → Formatted s.disk b w (blockno b) t
  /-- They are in no other request. -/
  disjoint : ∀ b w t b' w' t', (s.pc b).chain = some (w, t) → (s.pc b').chain = some (w', t') →
    b ≠ b' → t.toList.Disjoint t'.toList
  free : ∀ i < NUM, (∀ b w t, (s.pc b).chain = some (w, t) → i ∉ t.toList) → s.disk.free i = true
  /-- From where the device reads up to `avail->idx`, the avail ring has requests that wait. -/
  avail : ∃ avq, RingQueue (2 ^ 16) NUM s.disk.avail.ring s.last s.disk.avail.idx avq ∧
    avq.Nodup ∧ ∀ h ∈ avq, ∃ b, Waits s b h
  /-- The used entries are handled in their order, each once: those before `used_idx` are done, and
  the others belong to requests that wait, with status 0. -/
  used : ∃ usq us, RingQueue (2 ^ 16) NUM s.disk.used.ring s.disk.usedIdx s.disk.used.idx usq ∧
    usq.Nodup ∧ List.Forall₂ (fun h b => Waits s b h ∧ (s.disk.info h).status = 0) usq us ∧
    s.completed = s.cleared ++ us
  /-- A buffer's `disk` field is cleared once for each of its requests. -/
  once : ∀ b, s.submitted.count b =
    s.cleared.count b + if (s.pc b).waiting && s.bufDisk b then 1 else 0

theorem Inv.sound (hI : Inv blockno s) : Sound blockno s := by
  obtain ⟨avq, usq, us, hp⟩ := hI.places
  constructor
  · exact hI.fault
  · exact fun b w t h => hI.chains.formatted h
  · intro b w t b' w' t' h h' hne i hi hi'
    exact hne (hI.chains.disjoint h h' hi hi')
  · intro i hi hnot
    rw [← Bool.not_eq_false]
    intro hf
    obtain ⟨b, w, t, h, hmem⟩ := hI.chains.owned i hi hf
    exact hnot b w t h hmem
  · exact ⟨avq, hp.avail, hp.nodup.sublist avq_sublist, fun h hh => (hp.mem h).mp (avq_sublist.mem hh)⟩
  · exact ⟨usq, us, hp.used, hp.nodup.sublist usq_sublist, hp.forall₂ hI.chains, hp.completed⟩
  · exact hI.counts

/-- Whatever the processes, the device and the interrupts do, from any values of the counters. -/
theorem run_sound {n m : ℕ} (hn : n < 2 ^ 16) (hm : m < 2 ^ 16) (acts : List (Action B))
    (h : run (Virtio.step blockno) (Virtio.start n m) acts = some s) : Sound blockno s := by
  have hI : Inv blockno s := run_induct (fun s a s' hI hs => Inv.step hI hs) (Inv.start hn hm) h
  exact hI.sound

/-- Two requests, completed in the other order, while both counters go from 65535 to 0. -/
theorem run_sound_wrap : ∃ s : State Bool,
    run (Virtio.step fun b => if b then 7 else 9) (Virtio.start 65535 65535)
      [.call true true, .call false false, .acquire (.proc true), .rw true, .rw true, .rw true,
        .rw true, .take, .acquire (.proc false), .rw false, .rw false, .rw false, .rw false,
        .take, .serve 1, .serve 0, .post 1, .acquire .intr, .intr, .post 0, .intr, .intr,
        .acquire (.proc true), .rw true, .acquire (.proc false), .rw false] = some s ∧
      s.disk.avail.idx = 1 ∧ s.cleared = [false, true] ∧ Sound (fun b => if b then 7 else 9) s :=
  (exists_of_any (p := fun s => s.disk.avail.idx = 1 ∧ s.cleared = [false, true])
    (by decide +kernel)).imp fun _ ⟨hs, h1, h2⟩ => ⟨hs, h1, h2, run_sound (by decide) (by decide) _ hs⟩

/-- Of three buffers one is not in flight: the third request would need a ninth descriptor. -/
theorem two_in_flight {n m : ℕ} (hn : n < 2 ^ 16) (hm : m < 2 ^ 16) (acts : List (Action B))
    (h : run (Virtio.step blockno) (Virtio.start n m) acts = some s) (b : Fin 3 → B)
    (hb : Injective b) : ∃ i, (s.pc (b i)).chain = none := by
  have hI : Inv blockno s := run_induct (fun s a s' hI hs => Inv.step hI hs) (Inv.start hn hm) h
  by_contra! hall
  choose c hc using fun i => Option.ne_none_iff_exists'.mp (hall i)
  have hnodup : ((List.finRange 3).flatMap fun i => (c i).2.toList).Nodup := by
    refine List.nodup_flatMap.mpr ⟨fun i _ => (hI.chains.formatted (hc i)).nodup, ?_⟩
    refine (List.nodup_finRange 3).imp fun hne x hx hx' => hne ?_
    exact hb (hI.chains.disjoint (hc _) (hc _) hx hx')
  have hlt : ∀ x ∈ (List.finRange 3).flatMap fun i => (c i).2.toList, x < NUM := by
    intro x hx
    obtain ⟨i, -, hx⟩ := List.mem_flatMap.mp hx
    exact (hI.chains.formatted (hc i)).lt x hx
  exact absurd (length_le_of_nodup hnodup hlt) (show ¬ 9 ≤ 8 by decide)

/-- Two requests are in flight, and the third process sleeps in `alloc3_desc`. -/
theorem two_in_flight_waiting : ∃ s : State (Fin 3),
    run (Virtio.step fun b => b.val) (Virtio.start 0 0)
      [.call 0 true, .call 1 false, .call 2 false, .acquire (.proc 0), .rw 0, .rw 0, .rw 0, .rw 0,
        .acquire (.proc 1), .rw 1, .rw 1, .rw 1, .rw 1, .acquire (.proc 2), .rw 2] = some s ∧
    (s.pc 0).chain.isSome ∧ (s.pc 1).chain.isSome ∧ s.lock = none ∧
    ∃ i, (s.pc (id i)).chain = none :=
  (exists_of_any (p := fun s => (s.pc 0).chain.isSome ∧ (s.pc 1).chain.isSome ∧ s.lock = none)
    (by decide +kernel)).imp fun _ ⟨hs, h0, h1, hl⟩ =>
      ⟨hs, h0, h1, hl, two_in_flight (by decide) (by decide) _ hs id injective_id⟩

end Invariant

end TatakOS.Virtio
