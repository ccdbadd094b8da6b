import Mathlib.Algebra.BigOperators.Ring.Finset
import Mathlib.Algebra.Order.BigOperators.Group.Finset
import TatakOS.Base.Run
import TatakOS.Base.Tally
import TatakOS.Fs.Kernel

/-!
# The life of inode table entries

`iget`, `idup`, `ilock`, `iunlock`, `iput`, `ialloc` and `iupdate`, called by any number of
processes. A pointer to an entry is kept in a place `h : H`: a variable, the current directory of a
process, an open file. What is done under `itable.lock`, or to one inode in a buffer, is one step.

An inode may be looked up while it is linked from a directory, and it has a link count then. The
holder of the lock of an entry writes changes back before unlocking it.
-/

namespace TatakOS.InodeTable

open Function
open Fs (Dinode Ip NINODE)

/-- `dev` and `inum`. -/
abbrev Key := ℕ × ℕ

section Machine

variable {H : Type} [DecidableEq H]

/-- `ip->lock`: the pointer through which it is held, and what its holder does next. -/
inductive Lock (H : Type)
  | free
  /-- In `ilock`, with `ip->valid == 0`. -/
  | load (h : H)
  /-- `dirty`: there are changes that `iupdate` has not written. -/
  | held (h : H) (dirty : Bool)
  /-- In `iput`: `itrunc(ip)`. -/
  | trunc (h : H)
  /-- `ip->type = 0; iupdate(ip)`. -/
  | clear (h : H)
  /-- `ip->valid = 0`. -/
  | invalid (h : H)
  /-- `releasesleep(&ip->lock)`. -/
  | release (h : H)
  deriving DecidableEq

def Lock.holder : Lock H → Option H
  | .free => none
  | .load h | .held h _ | .trunc h | .clear h | .invalid h | .release h => some h

/-- The pointer that `iput` has found to be the last one. -/
def Lock.freeing : Lock H → Option H
  | .free | .load _ | .held _ _ => none
  | .trunc h | .clear h | .invalid h | .release h => some h

/-- The inode has been freed. -/
def Lock.Freed (l : Lock H) (h : H) : Prop := l = .invalid h ∨ l = .release h

/-- `struct inode`. -/
structure Entry (H : Type) where
  key : Key := (0, 0)
  ref : ℤ := 0
  valid : Bool := false
  din : Dinode := {}
  lock : Lock H := .free

/-- What is in a place for a pointer. -/
inductive Place
  | empty
  /-- In `ialloc`, before its `iget`. -/
  | marked (k : Key)
  | pointer (ip : Ip)
  /-- In `iput`, after freeing the inode: `ip->ref--`. -/
  | drop (ip : Ip)
  deriving DecidableEq

structure State (H : Type) where
  itable : Ip → Entry H := fun _ => {}
  /-- The inodes as `bread` gives them. -/
  disk : Key → Dinode
  linked : Key → Bool
  place : H → Place := fun _ => .empty
  /-- How often an inode has been allocated, truncated by `iput`, and freed. -/
  allocs : Key → ℕ
  truncs : Key → ℕ := fun _ => 0
  frees : Key → ℕ := fun _ => 0

/-- Nothing is in the table. An inode that is linked is allocated and has a link count. -/
structure Starts (s : State H) : Prop where
  itable : s.itable = fun _ => {}
  place : s.place = fun _ => .empty
  linked : ∀ k, s.linked k = true → (s.disk k).type ≠ 0 ∧ (s.disk k).nlink ≠ 0
  allocs : s.allocs = fun k => if (s.disk k).type = 0 then 0 else 1
  truncs : s.truncs = fun _ => 0
  frees : s.frees = fun _ => 0

inductive Act (H : Type)
  | iget (h : H) (k : Key)
  /-- `ialloc` finds the inode free. -/
  | ialloc (h : H) (k : Key) (type : ℕ)
  /-- The `iget` of `ialloc`. -/
  | ialloced (h : H)
  | idup (h h' : H)
  | ilock (h : H)
  /-- `ilock` reads the inode. -/
  | load (h : H)
  | change (h : H) (y : Dinode)
  | iupdate (h : H)
  | iunlock (h : H)
  | link (k : Key)
  | unlink (k : Key)
  | iput (h : H)
  | itrunc (h : H)
  | clearType (h : H)
  | clearValid (h : H)
  | releasesleep (h : H)
  | unref (h : H)

/-- Put a pointer to `ip` into `h`, and `e` into the table. -/
def point (s : State H) (h : H) (ip : Ip) (e : Entry H) : State H :=
  { s with itable := update s.itable ip e, place := update s.place h (.pointer ip) }

/-- `iget`; `none` is "iget: no inodes". -/
def iget (s : State H) (h : H) (k : Key) : Option (State H) :=
  match (List.finRange NINODE).find? fun ip => 0 < (s.itable ip).ref ∧ (s.itable ip).key = k with
  | some ip => some (point s h ip { s.itable ip with ref := (s.itable ip).ref + 1 })
  | none =>
    match (List.finRange NINODE).find? fun ip => (s.itable ip).ref = 0 with
    | none => none
    | some ip => some (point s h ip { s.itable ip with key := k, ref := 1, valid := false })

/-- What the holder of a pointer does to its entry, and to the inode on the disk. -/
def onEntry (s : State H) (h : H) (f : Entry H → Dinode → Option (Entry H × Dinode)) :
    Option (State H) :=
  match s.place h with
  | .pointer ip =>
    (f (s.itable ip) (s.disk (s.itable ip).key)).map fun r =>
      { s with
        itable := update s.itable ip r.1
        disk := update s.disk (s.itable ip).key r.2 }
  | _ => none

/-- Has the inode, where it is in memory, a link count? -/
def Counted (s : State H) (k : Key) : Prop :=
  (s.disk k).type ≠ 0 ∧ (s.disk k).nlink ≠ 0 ∧
    ∀ ip, 0 < (s.itable ip).ref → (s.itable ip).key = k → (s.itable ip).valid = true →
      (s.itable ip).din.nlink ≠ 0

instance (s : State H) (k : Key) : Decidable (Counted s k) := by
  unfold Counted
  infer_instance

/-- `itrunc` frees the blocks and calls `iupdate`. -/
def truncated (x : Dinode) : Dinode := { x with size := 0, addrs := fun _ => 0 }

def step (s : State H) : Act H → Option (State H)
  | .iget h k => if s.place h = .empty ∧ s.linked k = true then iget s h k else none
  | .ialloc h k type =>
    if s.place h = .empty ∧ (s.disk k).type = 0 ∧ type ≠ 0 then
      some { s with
        disk := update s.disk k { type := type }
        place := update s.place h (.marked k)
        allocs := update s.allocs k (s.allocs k + 1) }
    else none
  | .ialloced h =>
    match s.place h with
    | .marked k => iget s h k
    | _ => none
  | .idup h h' =>
    match s.place h with
    | .pointer ip =>
      if s.place h' = .empty ∧ (s.itable ip).lock.freeing ≠ some h then
        some (point s h' ip { s.itable ip with ref := (s.itable ip).ref + 1 })
      else none
    | _ => none
  | .ilock h => onEntry s h fun e x =>
    if e.lock = .free then
      some ({ e with lock := if e.valid then .held h false else .load h }, x)
    else none
  | .load h => onEntry s h fun e x =>
    -- otherwise "ilock: no type"
    if e.lock = .load h ∧ x.type ≠ 0 then
      some ({ e with valid := true, din := x, lock := .held h false }, x)
    else none
  | .change h y => onEntry s h fun e x =>
    if (e.lock = .held h false ∨ e.lock = .held h true) ∧ y.type = e.din.type ∧
        (y.nlink = 0 → s.linked e.key = false) then
      some ({ e with din := y, lock := .held h true }, x)
    else none
  | .iupdate h => onEntry s h fun e _ =>
    if e.lock = .held h false ∨ e.lock = .held h true then
      some ({ e with lock := .held h false }, e.din)
    else none
  | .iunlock h => onEntry s h fun e x =>
    if e.lock = .held h false then some ({ e with lock := .free }, x) else none
  | .link k => if Counted s k then some { s with linked := update s.linked k true } else none
  | .unlink k => some { s with linked := update s.linked k false }
  | .iput h =>
    match s.place h with
    | .pointer ip =>
      let e := s.itable ip
      if e.lock.holder = some h then none
      else if e.ref = 1 ∧ e.valid = true ∧ e.din.nlink = 0 then
        -- `acquiresleep` with `itable.lock` held
        if e.lock = .free then
          some { s with itable := update s.itable ip { e with lock := .trunc h } }
        else none
      else
        some { s with
          itable := update s.itable ip { e with ref := e.ref - 1 }
          place := update s.place h .empty }
    | _ => none
  | .itrunc h =>
    match s.place h with
    | .pointer ip =>
      let e := s.itable ip
      if e.lock = .trunc h then
        some { s with
          itable := update s.itable ip
            { e with din := truncated e.din, lock := .clear h }
          disk := update s.disk e.key (truncated e.din)
          truncs := update s.truncs e.key (s.truncs e.key + 1) }
      else none
    | _ => none
  | .clearType h =>
    match s.place h with
    | .pointer ip =>
      let e := s.itable ip
      if e.lock = .clear h then
        some { s with
          itable := update s.itable ip
            { e with din := { e.din with type := 0 }, lock := .invalid h }
          disk := update s.disk e.key { e.din with type := 0 }
          frees := update s.frees e.key (s.frees e.key + 1) }
      else none
    | _ => none
  | .clearValid h => onEntry s h fun e x =>
    if e.lock = .invalid h then some ({ e with valid := false, lock := .release h }, x) else none
  | .releasesleep h =>
    match s.place h with
    | .pointer ip =>
      if (s.itable ip).lock = .release h then
        some { s with
          itable := update s.itable ip { s.itable ip with lock := .free }
          place := update s.place h (.drop ip) }
      else none
    | _ => none
  | .unref h =>
    match s.place h with
    | .drop ip =>
      some { s with
        itable := update s.itable ip { s.itable ip with ref := (s.itable ip).ref - 1 }
        place := update s.place h .empty }
    | _ => none

/-- What a step drops: no last pointer to an entry that stays valid. -/
def ClearsValid (s : State H) : Act H → Prop
  | .iput h => ∀ ip, s.place h = .pointer ip → (s.itable ip).ref = 1 →
      (s.itable ip).valid = true → (s.itable ip).din.nlink = 0
  -- the end of an `iput` that has freed the inode
  | .unref h => ∀ ip, s.place h = .drop ip → (s.itable ip).ref = 1 → (s.itable ip).valid = false
  | _ => True

instance (s : State H) : DecidablePred (ClearsValid s)
  | .iput _ | .unref _ => by
    unfold ClearsValid
    infer_instance
  | .iget _ _ | .ialloc _ _ _ | .ialloced _ | .idup _ _ | .ilock _ | .load _ | .change _ _
  | .iupdate _ | .iunlock _ | .link _ | .unlink _ | .itrunc _ | .clearType _ | .clearValid _
  | .releasesleep _ => isTrue trivial

end Machine

variable {H : Type} {f : Entry H → Dinode → Option (Entry H × Dinode)} {s s' : State H} {h h' : H}
  {ip : Ip} {k : Key} {x : Dinode} {e : Entry H}

theorem onEntry_eq_some (hs : onEntry s h f = some s') :
    ∃ ip e x, s.place h = .pointer ip ∧ f (s.itable ip) (s.disk (s.itable ip).key) = some (e, x) ∧
      s' = { s with
        itable := update s.itable ip e
        disk := update s.disk (s.itable ip).key x } := by
  unfold onEntry at hs
  split at hs
  · rename_i ip hp
    obtain ⟨⟨e, x⟩, hf, rfl⟩ := Option.map_eq_some_iff.mp hs
    exact ⟨ip, e, x, hp, hf, rfl⟩
  · cases hs

/-! ## The invariant -/

/-- Does the place count as a pointer to the entry? -/
def weight (ip : Ip) : Place → ℤ
  | .pointer j | .drop j => if j = ip then 1 else 0
  | .empty | .marked _ => 0

/-- An entry in use, where `x` is the inode on the disk. -/
def EntryOk (x : Dinode) (e : Entry H) : Prop :=
  match e.lock with
  | .free => e.valid = true → e.din = x ∧ x.type ≠ 0
  | .load _ => e.valid = false
  | .held _ dirty => e.valid = true ∧ e.din.type = x.type ∧ x.type ≠ 0 ∧ (dirty = false → e.din = x)
  | .trunc _ | .clear _ => e.valid = true ∧ e.din = x ∧ x.type ≠ 0 ∧ x.nlink = 0 ∧ e.ref = 1
  | .invalid _ => e.valid = true ∧ x.nlink = 0
  | .release _ => e.valid = false ∧ x.nlink = 0

/-- Does the entry have an inode that is truncated and not yet freed? -/
def clearing (k : Key) (e : Entry H) : ℤ :=
  match e.lock with
  | .clear _ => if e.key = k then 1 else 0
  | _ => 0

structure Inv [Fintype H] (s : State H) : Prop where
  count : ∀ ip, (s.itable ip).ref = ∑ h, weight ip (s.place h)
  unique : ∀ i j, 0 < (s.itable i).ref → 0 < (s.itable j).ref →
    (s.itable i).key = (s.itable j).key → i = j
  holder : ∀ ip h, (s.itable ip).lock.holder = some h → s.place h = .pointer ip
  entry : ∀ ip, 0 < (s.itable ip).ref → EntryOk (s.disk (s.itable ip).key) (s.itable ip)
  links : ∀ k, s.linked k = true → Counted s k
  /-- A pointer is to an inode that is allocated, unless `iput` has just freed it. -/
  typed : ∀ h ip, s.place h = .pointer ip →
    (s.itable ip).lock.Freed h ∨ (s.disk (s.itable ip).key).type ≠ 0
  /-- Between the two halves of `ialloc` the inode belongs to it, apart from an `iput` that has
  freed it before. -/
  marked : ∀ h k, s.place h = .marked k → (s.disk k).type ≠ 0 ∧ (s.disk k).nlink = 0 ∧
    (∀ h', s.place h' = .marked k → h' = h) ∧
    ∀ ip h', (s.itable ip).key = k → s.place h' = .pointer ip → (s.itable ip).lock.Freed h'
  alloc : ∀ k, s.allocs k = s.frees k + if (s.disk k).type = 0 then 0 else 1
  trunc : ∀ k, (s.truncs k : ℤ) = s.frees k + ∑ ip, clearing k (s.itable ip)

/-- The entry of the last pointer is not being freed when there is another. -/
def Lock.Busy (l : Lock H) : Prop := ∃ h, l = .trunc h ∨ l = .clear h

theorem Lock.holder_of_busy {l : Lock H} (hb : l = .trunc h ∨ l = .clear h) :
    l.holder = some h := by
  obtain e | e := hb <;> rw [e] <;> rfl

/-- A pointer to an inode whose lock is not in the last phases of `iput`. -/
theorem Lock.not_freed {l : Lock H} (hl : l.freeing ≠ some h) : ¬ l.Freed h := by
  rintro (rfl | rfl) <;> exact hl rfl

theorem weight_eq (p : Place) (ip : Ip) :
    weight ip p = if p = .pointer ip ∨ p = .drop ip then 1 else 0 := by
  unfold weight
  cases p <;> simp

theorem weight_nonneg (ip : Ip) (p : Place) : 0 ≤ weight ip p := by
  rw [weight_eq]
  split_ifs <;> decide

theorem weight_pointer : weight ip (.pointer ip) = 1 := if_pos rfl

theorem weight_drop : weight ip (.drop ip) = 1 := if_pos rfl

theorem count_update (f : Key → ℕ) (k k' : Key) :
    (update f k (f k + 1) k' : ℤ) = f k' + if k = k' then 1 else 0 := by
  rcases eq_or_ne k' k with rfl | e
  · simp
  · simp [e, e.symm]

theorem clearing_of_lock (hl : ∀ h, e.lock ≠ .clear h) (k : Key) : clearing k e = 0 := by
  unfold clearing
  split
  · exact absurd ‹_› (hl _)
  · rfl

theorem EntryOk.of_ref {n : ℤ} (he : EntryOk x e) (hbusy : ¬ e.lock.Busy) :
    EntryOk x { e with ref := n } := by
  unfold EntryOk at he ⊢
  cases hl : e.lock with
  | trunc h => exact absurd ⟨h, .inl hl⟩ hbusy
  | clear h => exact absurd ⟨h, .inr hl⟩ hbusy
  | _ => simpa only [hl] using he

/-- An entry whose inode is free, when it is allocated again. -/
theorem EntryOk.reallocated {type : ℕ} (he : EntryOk x e) (hfree : x.type = 0) :
    EntryOk { type := type } e := by
  unfold EntryOk at he ⊢
  split at he
  · exact fun hv => absurd hfree (he hv).2
  · exact he
  · exact absurd hfree he.2.2.1
  · exact absurd hfree he.2.2.1
  · exact absurd hfree he.2.2.1
  · exact ⟨he.1, rfl⟩
  · exact ⟨he.1, rfl⟩

/-- Is there a pointer to `ip` in the place? -/
def Points (s : State H) (ip : Ip) (h : H) : Prop := s.place h = .pointer ip ∨ s.place h = .drop ip

instance (s : State H) (ip : Ip) (h : H) : Decidable (Points s ip h) := by
  unfold Points
  infer_instance

/-- What a step may do to the identity of an entry, and when it may free an inode. -/
structure Careful (s s' : State H) : Prop where
  recycle : ∀ ip, (s'.itable ip).key ≠ (s.itable ip).key → (s.itable ip).ref = 0
  free : ∀ k, s'.truncs k ≠ s.truncs k ∨ s'.frees k ≠ s.frees k →
    (s.disk k).nlink = 0 ∧ (s.disk k).type ≠ 0 ∧
      ∃ ip h, (s.itable ip).key = k ∧ (s.itable ip).ref = 1 ∧ ∀ h', Points s ip h' ↔ h' = h

theorem of_update [DecidableEq H] {f : H → Place} {p q : Place} (hq : update f h p h' = q)
    (hne : q ≠ p) : h' ≠ h ∧ f h' = q := by
  subst hq
  have eh : h' ≠ h := by
    rintro rfl
    exact hne (update_self _ _ _)
  exact ⟨eh, (update_of_ne eh _ _).symm⟩

/-- What a step does to the table: nothing, change an entry in use, take one that is not, give up a
pointer, or free the inode of an entry. -/
inductive Touches (s s' : State H) (a : Act H) : Prop
  | none (hs : s'.itable = s.itable)
      (hcount : s'.truncs = s.truncs ∧ s'.frees = s.frees := by exact ⟨rfl, rfl⟩)
  | entry (ip : Ip) (e : Entry H) (hs : s'.itable = update s.itable ip e)
      (hkey : e.key = (s.itable ip).key) (href : (s.itable ip).ref ≤ e.ref)
      (hlive : 0 < (s.itable ip).ref)
      (hcount : s'.truncs = s.truncs ∧ s'.frees = s.frees := by exact ⟨rfl, rfl⟩)
  | recycle (ip : Ip) (e : Entry H) (hs : s'.itable = update s.itable ip e)
      (hfree : (s.itable ip).ref = 0) (hvalid : e.valid = false)
      (hcount : s'.truncs = s.truncs ∧ s'.frees = s.frees := by exact ⟨rfl, rfl⟩)
  | drop (ip : Ip) (e : Entry H) (hs : s'.itable = update s.itable ip e)
      (hkey : e.key = (s.itable ip).key) (hlast : ClearsValid s a → e.ref = 0 → e.valid = false)
      (hcount : s'.truncs = s.truncs ∧ s'.frees = s.frees := by exact ⟨rfl, rfl⟩)
  | free (ip : Ip) (e : Entry H) (h : H) (hs : s'.itable = update s.itable ip e)
      (hkey : e.key = (s.itable ip).key) (href : (s.itable ip).ref = e.ref)
      (hp : s.place h = .pointer ip)
      (hl : (s.itable ip).lock = .trunc h ∨ (s.itable ip).lock = .clear h)
      (hcount : ∀ k ≠ (s.itable ip).key, s'.truncs k = s.truncs k ∧ s'.frees k = s.frees k)

section Inv

variable [Fintype H]

section

variable (hi : Inv s)
include hi

theorem Inv.ref_pos (hw : weight ip (s.place h) = 1) : 0 < (s.itable ip).ref := by
  rw [hi.count ip]
  have := Finset.single_le_sum (fun x _ => weight_nonneg ip (s.place x)) (Finset.mem_univ h)
  omega

theorem Inv.live (hp : s.place h = .pointer ip) : 0 < (s.itable ip).ref :=
  hi.ref_pos (h := h) (by rw [hp]; exact weight_pointer)

theorem Inv.free (href : (s.itable ip).ref = 0) : (s.itable ip).lock = .free := by
  cases hl : (s.itable ip).lock with
  | free => rfl
  | load h | held h _ | trunc h | clear h | invalid h | release h =>
    have := hi.live (hi.holder ip h (by rw [hl]; rfl))
    omega

/-- The state of an inode that `iput` is about to truncate or to free. -/
theorem Inv.busy (hp : s.place h = .pointer ip)
    (hl : (s.itable ip).lock = .trunc h ∨ (s.itable ip).lock = .clear h) :
    (s.itable ip).valid = true ∧ (s.itable ip).din = s.disk (s.itable ip).key ∧
      (s.disk (s.itable ip).key).type ≠ 0 ∧ (s.disk (s.itable ip).key).nlink = 0 ∧
      (s.itable ip).ref = 1 := by
  have he := hi.entry ip (hi.live hp)
  unfold EntryOk at he
  obtain e | e := hl <;> rw [e] at he <;> exact he

theorem Inv.held (hp : s.place h = .pointer ip) {d : Bool} (hl : (s.itable ip).lock = .held h d) :
    (s.itable ip).valid = true ∧ (s.itable ip).din.type = (s.disk (s.itable ip).key).type ∧
      (s.disk (s.itable ip).key).type ≠ 0 := by
  have he := hi.entry ip (hi.live hp)
  unfold EntryOk at he
  rw [hl] at he
  exact ⟨he.1, he.2.1, he.2.2.1⟩

theorem Inv.unlocked (hp : s.place h = .pointer ip) (hl : (s.itable ip).lock = .free) :
    (s.disk (s.itable ip).key).type ≠ 0 ∧
      ((s.itable ip).valid = true → (s.itable ip).din = s.disk (s.itable ip).key) := by
  have he := hi.entry ip (hi.live hp)
  unfold EntryOk at he
  rw [hl] at he
  refine ⟨(hi.typed h ip hp).resolve_left ?_, fun hv => (he hv).1⟩
  simp [Lock.Freed, hl]

theorem Inv.not_linked (hx : (s.disk k).nlink = 0) : s.linked k ≠ true :=
  fun hk => (hi.links k hk).2.1 hx

theorem Inv.linked_update (hlive : 0 < (s.itable ip).ref) (hk : s.linked (s.itable ip).key = true) :
    (s.disk (s.itable ip).key).nlink ≠ 0 ∧
      ((s.itable ip).valid = true → (s.itable ip).din.nlink ≠ 0) :=
  ⟨(hi.links _ hk).2.1, (hi.links _ hk).2.2 ip hlive rfl⟩

/-- The inode of a pointer whose `iput` has not freed it is not in an `ialloc`. -/
theorem Inv.not_marked (hp : s.place h = .pointer ip) (hfreed : ¬ (s.itable ip).lock.Freed h)
    (h' : H) : s.place h' ≠ .marked (s.itable ip).key :=
  fun hm => hfreed ((hi.marked h' _ hm).2.2.2 ip h rfl hp)

theorem Inv.setLinked {b : Bool} (hb : b = true → Counted s k) :
    Inv { s with linked := update s.linked k b } := by
  refine { hi with links := fun k' hk => ?_ }
  dsimp only at hk
  rcases eq_or_ne k' k with rfl | ek
  · rw [update_self] at hk
    exact hb hk
  · rw [update_of_ne ek] at hk
    exact hi.links k' hk

/-- The count of allocations, where the inode `k` becomes `x`. -/
theorem Inv.alloc_update {n : ℕ} (hx : (s.frees k + if (s.disk k).type = 0 then 0 else 1) =
    n + if x.type = 0 then 0 else 1) (k' : Key) :
    s.allocs k' = update s.frees k n k' + if (update s.disk k x k').type = 0 then 0 else 1 := by
  rcases eq_or_ne k' k with rfl | ek
  · rw [update_self, update_self, hi.alloc, hx]
  · rw [update_of_ne ek, update_of_ne ek, hi.alloc]

end

theorem Starts.inv (hs : Starts s) : Inv s := by
  have hentry : ∀ ip, s.itable ip = {} := fun ip => congrFun hs.itable ip
  have hplace : ∀ h, s.place h = .empty := fun h => congrFun hs.place h
  constructor
  · intro ip
    rw [hentry ip]
    exact (Finset.sum_eq_zero fun h _ => by rw [hplace h]; rfl).symm
  · intro i j h1
    rw [hentry i] at h1
    cases h1
  · intro ip h hl
    rw [hentry ip] at hl
    cases hl
  · intro ip h1
    rw [hentry ip] at h1
    cases h1
  · intro k hk
    obtain ⟨h1, h2⟩ := hs.linked k hk
    refine ⟨h1, h2, fun ip hip => ?_⟩
    rw [hentry ip] at hip
    cases hip
  · intro h ip hp
    cases (hplace h).symm.trans hp
  · intro h k hp
    cases (hplace h).symm.trans hp
  · intro k
    rw [hs.allocs, hs.frees, Nat.zero_add]
  · intro k
    have hsum : ∑ ip, clearing k (s.itable ip) = 0 :=
      Finset.sum_eq_zero fun ip _ => by rw [hentry ip]; rfl
    rw [hs.truncs, hs.frees, hsum]
    rfl

/-- At most one inode table entry has a given inode that is truncated and not yet freed, and that
inode is allocated. -/
theorem Inv.sum_clearing_le (hi : Inv s) (k : Key) : 0 ≤ ∑ ip, clearing k (s.itable ip) ∧
      ∑ ip, clearing k (s.itable ip) ≤ if (s.disk k).type = 0 then 0 else 1 := by
  by_cases hex : ∃ ip h, (s.itable ip).key = k ∧ (s.itable ip).lock = .clear h
  · obtain ⟨ip, h, rfl, hl⟩ := hex
    have hp := hi.holder ip h (by rw [hl]; rfl)
    have hone : clearing (s.itable ip).key (s.itable ip) = 1 := by
      unfold clearing
      rw [hl]
      exact if_pos rfl
    rw [Finset.sum_eq_single ip (fun j _ hj => ?_) (fun h => absurd (Finset.mem_univ ip) h), hone,
      if_neg (hi.busy hp (.inr hl)).2.2.1]
    · exact ⟨by decide, le_rfl⟩
    · unfold clearing
      split
      · rename_i h' hl'
        rw [if_neg]
        intro hk
        have hp' := hi.holder j h' (by rw [hl']; rfl)
        exact hj (hi.unique j ip (hi.live hp') (hi.live hp) hk)
      · rfl
  · have hzero : ∀ ip, clearing k (s.itable ip) = 0 := by
      intro ip
      unfold clearing
      split
      · rename_i h hl
        exact if_neg fun hk => hex ⟨ip, h, hk, hl⟩
      · rfl
    rw [Finset.sum_eq_zero fun ip _ => hzero ip]
    refine ⟨le_rfl, ?_⟩
    split_ifs <;> decide

/-- An entry that is not in use is not valid. -/
def Unused (s : State H) : Prop := ∀ ip, (s.itable ip).ref = 0 → (s.itable ip).valid = false

theorem Unused.step {a : Act H} (hi : Inv s) (hu : Unused s) (ha : ClearsValid s a)
    (ht : Touches s s' a) : Unused s' := by
  have hset : ∀ {ip e}, s'.itable = update s.itable ip e → (e.ref = 0 → e.valid = false) →
      Unused s' := by
    intro ip e hs he
    unfold Unused
    rw [hs, forall_update_iff s.itable fun _ e' => e'.ref = 0 → e'.valid = false]
    exact ⟨he, fun j _ => hu j⟩
  cases ht with
  | none hs _ =>
    unfold Unused
    rwa [hs]
  | entry ip e hs _ href hlive _ => exact hset hs fun h0 => by omega
  | recycle ip e hs _ hvalid _ => exact hset hs fun _ => hvalid
  | drop ip e hs _ hlast _ => exact hset hs (hlast ha)
  | free ip e h hs _ href hp _ _ =>
    have := hi.live hp
    exact hset hs fun h0 => by omega

variable [DecidableEq H]

theorem Inv.two_le_ref (hi : Inv s) (hne : h ≠ h') (hw : weight ip (s.place h) = 1)
    (hw' : weight ip (s.place h') = 1) : 2 ≤ (s.itable ip).ref := by
  rw [hi.count ip]
  calc (2 : ℤ) = ∑ x ∈ {h, h'}, weight ip (s.place x) := by
        rw [Finset.sum_pair hne, hw, hw']
        rfl
    _ ≤ ∑ x, weight ip (s.place x) :=
        Finset.sum_le_sum_of_subset_of_nonneg (Finset.subset_univ _) fun x _ _ =>
          weight_nonneg ip _

theorem Inv.only (hi : Inv s) (href : (s.itable ip).ref = 1) (hp : s.place h = .pointer ip)
    (hp' : s.place h' = .pointer ip) : h' = h := by
  by_contra hne
  have hw : weight ip (s.place h) = 1 := by
    rw [hp]
    exact weight_pointer
  have := hi.two_le_ref hne (by rw [hp']; exact weight_pointer) hw
  omega

theorem sum_weight_update (hi : Inv s) (j : Ip) (p : Place) : ∑ x, weight j (update s.place h p x) =
      (s.itable j).ref + (weight j p - weight j (s.place h)) := by
  rw [sum_update, hi.count j]

/-! ## A change of one entry -/

variable {p : Place}

/-- `s'` is `s` with another entry `ip`, another inode on the disk, and `p` in the place `h`. -/
structure Moved (s s' : State H) (h : H) (p : Place) (ip : Ip) (e : Entry H) (x : Dinode) :
    Prop where
  itable : s'.itable = update s.itable ip e
  disk : s'.disk = update s.disk e.key x
  place : s'.place = update s.place h p
  linked : s'.linked = s.linked
  allocs : s'.allocs = s.allocs

/-- The new entry, inode and pointer fit the rest of the state. -/
structure Fits (s : State H) (h : H) (p : Place) (ip : Ip) (e : Entry H) (x : Dinode) : Prop where
  old : ∀ j ≠ ip, s.place h ≠ .pointer j ∧ s.place h ≠ .drop j
  new : p = .empty ∨ p = .pointer ip ∨ p = .drop ip
  ref : e.ref = (s.itable ip).ref + (weight ip p - weight ip (s.place h))
  key : ∀ j ≠ ip, 0 < (s.itable j).ref → (s.itable j).key ≠ e.key
  holder : ∀ h', e.lock.holder = some h' → update s.place h p h' = .pointer ip
  entry : 0 < e.ref → EntryOk x e
  links : s.linked e.key = true →
    x.type ≠ 0 ∧ x.nlink ≠ 0 ∧ (0 < e.ref → e.valid = true → e.din.nlink ≠ 0)
  typed : ∀ h', update s.place h p h' = .pointer ip → e.lock.Freed h' ∨ x.type ≠ 0
  marked : ∀ h' ≠ h, s.place h' = .marked e.key → x.type ≠ 0 ∧ x.nlink = 0 ∧
    ∀ h'', update s.place h p h'' = .pointer ip → e.lock.Freed h''

section

variable (hi : Inv s) (hm : Moved s s' h p ip e x) (hf : Fits s h p ip e x)
include hi hm hf

theorem Moved.count (j : Ip) : (s'.itable j).ref = ∑ h, weight j (s'.place h) := by
  rw [hm.itable, hm.place, sum_weight_update hi]
  rcases eq_or_ne j ip with rfl | ej
  · rw [update_self]
    exact hf.ref
  · have h1 : weight j (s.place h) = 0 := by
      rw [weight_eq]
      exact if_neg (not_or.mpr (hf.old j ej))
    have h2 : weight j p = 0 := by
      obtain rfl | rfl | rfl := hf.new
      · rfl
      · exact if_neg ej.symm
      · exact if_neg ej.symm
    rw [update_of_ne ej, h1, h2, sub_self, add_zero]

theorem Moved.unique (i j : Ip) (h1 : 0 < (s'.itable i).ref) (h2 : 0 < (s'.itable j).ref)
    (h3 : (s'.itable i).key = (s'.itable j).key) : i = j := by
  rw [hm.itable] at h1 h2 h3
  by_cases ei : i = ip <;> by_cases ej : j = ip
  · exact ei.trans ej.symm
  · rw [ei, update_self, update_of_ne ej] at h3
    rw [update_of_ne ej] at h2
    exact absurd h3.symm (hf.key j ej h2)
  · rw [ej, update_self, update_of_ne ei] at h3
    rw [update_of_ne ei] at h1
    exact absurd h3 (hf.key i ei h1)
  · rw [update_of_ne ei] at h1 h3
    rw [update_of_ne ej] at h2 h3
    exact hi.unique i j h1 h2 h3

theorem Moved.holder (j : Ip) (h' : H) (hl : (s'.itable j).lock.holder = some h') :
    s'.place h' = .pointer j := by
  rw [hm.itable] at hl
  rw [hm.place]
  rcases eq_or_ne j ip with rfl | ej
  · rw [update_self] at hl
    exact hf.holder h' hl
  · rw [update_of_ne ej] at hl
    have hpl := hi.holder j h' hl
    have hne : h' ≠ h := by
      rintro rfl
      exact (hf.old j ej).1 hpl
    rwa [update_of_ne hne]

theorem Moved.entry (j : Ip) (hj : 0 < (s'.itable j).ref) :
    EntryOk (s'.disk (s'.itable j).key) (s'.itable j) := by
  rw [hm.itable] at hj ⊢
  rw [hm.disk]
  rcases eq_or_ne j ip with rfl | ej
  · rw [update_self] at hj ⊢
    rw [update_self]
    exact hf.entry hj
  · rw [update_of_ne ej] at hj ⊢
    rw [update_of_ne (hf.key j ej hj)]
    exact hi.entry j hj

theorem Moved.links (k : Key) (hk : s'.linked k = true) : Counted s' k := by
  rw [hm.linked] at hk
  have hcount := hi.links k hk
  unfold Counted at hcount ⊢
  rw [hm.disk, hm.itable]
  rcases eq_or_ne k e.key with rfl | ek
  · obtain ⟨h1, h2, h3⟩ := hf.links hk
    rw [update_self]
    refine ⟨h1, h2, fun j hj hjk hv => ?_⟩
    rcases eq_or_ne j ip with rfl | ej
    · rw [update_self] at hj hv ⊢
      exact h3 hj hv
    · rw [update_of_ne ej] at hj hjk
      exact absurd hjk (hf.key j ej hj)
  · rw [update_of_ne ek]
    refine ⟨hcount.1, hcount.2.1, fun j hj hjk hv => ?_⟩
    have ej : j ≠ ip := by
      rintro rfl
      rw [update_self] at hjk
      exact ek hjk.symm
    rw [update_of_ne ej] at hj hjk hv ⊢
    exact hcount.2.2 j hj hjk hv

omit [Fintype H] hi hm in
theorem Fits.pointer {j : Ip} (hj : j ≠ ip) (hq : update s.place h p h' = .pointer j) :
    s.place h' = .pointer j := by
  refine (of_update hq ?_).2
  rintro rfl
  simpa [hj] using hf.new

omit [Fintype H] hi hm in
theorem Fits.mark (hq : update s.place h p h' = .marked k) : h' ≠ h ∧ s.place h' = .marked k := by
  refine of_update hq ?_
  rintro rfl
  simpa using hf.new

theorem Moved.typed (h' : H) (j : Ip) (hq : s'.place h' = .pointer j) :
    (s'.itable j).lock.Freed h' ∨ (s'.disk (s'.itable j).key).type ≠ 0 := by
  rw [hm.place] at hq
  rw [hm.itable, hm.disk]
  rcases eq_or_ne j ip with rfl | ej
  · rw [update_self, update_self]
    exact hf.typed h' hq
  · have hq' := hf.pointer ej hq
    rw [update_of_ne ej, update_of_ne (hf.key j ej (hi.live hq'))]
    exact hi.typed h' j hq'

theorem Moved.marked (h' : H) (k : Key) (hq : s'.place h' = .marked k) :
    (s'.disk k).type ≠ 0 ∧ (s'.disk k).nlink = 0 ∧ (∀ h'', s'.place h'' = .marked k → h'' = h') ∧
      ∀ j h'', (s'.itable j).key = k → s'.place h'' = .pointer j →
        (s'.itable j).lock.Freed h'' := by
  rw [hm.place] at hq ⊢
  rw [hm.disk, hm.itable]
  obtain ⟨eh, hq⟩ := hf.mark hq
  obtain ⟨h1, h2, h3, h4⟩ := hi.marked h' k hq
  have honly : ∀ h'', update s.place h p h'' = .marked k → h'' = h' :=
    fun h'' hm'' => h3 h'' (hf.mark hm'').2
  have hothers : ∀ j h'', j ≠ ip → (update s.itable ip e j).key = k →
      update s.place h p h'' = .pointer j → (update s.itable ip e j).lock.Freed h'' := by
    intro j h'' ej hjk hq
    rw [update_of_ne ej] at hjk ⊢
    exact h4 j h'' hjk (hf.pointer ej hq)
  rcases eq_or_ne k e.key with rfl | ek
  · obtain ⟨g1, g2, g3⟩ := hf.marked h' eh hq
    rw [update_self]
    refine ⟨g1, g2, honly, fun j h'' hjk hq => ?_⟩
    rcases eq_or_ne j ip with rfl | ej
    · rw [update_self]
      exact g3 h'' hq
    · exact hothers j h'' ej hjk hq
  · rw [update_of_ne ek]
    refine ⟨h1, h2, honly, fun j h'' hjk hq => hothers j h'' ?_ hjk hq⟩
    rintro rfl
    rw [update_self] at hjk
    exact ek hjk.symm

theorem Moved.inv
    (halloc : ∀ k, s'.allocs k = s'.frees k + if (s'.disk k).type = 0 then 0 else 1)
    (htrunc : ∀ k, (s'.truncs k : ℤ) + s.frees k + clearing k (s.itable ip) =
      s.truncs k + s'.frees k + clearing k e) : Inv s' where
  count := hm.count hi hf
  unique := hm.unique hi hf
  holder := hm.holder hi hf
  entry := hm.entry hi hf
  links := hm.links hi hf
  typed := hm.typed hi hf
  marked := hm.marked hi hf
  alloc := halloc
  trunc k := by
    have := htrunc k
    have := hi.trunc k
    rw [hm.itable, sum_update]
    omega

end

section

variable (hi : Inv s)
include hi

/-- A step on the entry of a pointer that stays where it is. -/
theorem Inv.setEntry {truncs frees : Key → ℕ}
    (hp : s.place h = .pointer ip) (hkey : e.key = (s.itable ip).key)
    (href : e.ref = (s.itable ip).ref)
    (hholder : ∀ h', e.lock.holder = some h' → s.place h' = .pointer ip) (hentry : EntryOk x e)
    (hlinks : s.linked (s.itable ip).key = true →
      x.type ≠ 0 ∧ x.nlink ≠ 0 ∧ (e.valid = true → e.din.nlink ≠ 0))
    (htyped : ∀ h', s.place h' = .pointer ip → e.lock.Freed h' ∨ x.type ≠ 0)
    (hmarked : ∀ h', s.place h' = .marked (s.itable ip).key → x.type ≠ 0 ∧ x.nlink = 0 ∧
      ∀ h'', s.place h'' = .pointer ip → e.lock.Freed h'')
    (halloc : ∀ k, s.allocs k = frees k +
      if (update s.disk (s.itable ip).key x k).type = 0 then 0 else 1)
    (htrunc : ∀ k, (truncs k : ℤ) + s.frees k + clearing k (s.itable ip) =
      s.truncs k + frees k + clearing k e) :
    Inv { s with
      itable := update s.itable ip e
      disk := update s.disk (s.itable ip).key x
      truncs := truncs
      frees := frees } := by
  have hsame : update s.place h (.pointer ip) = s.place := by rw [← hp, update_eq_self]
  rw [← hkey] at hlinks hmarked halloc ⊢
  refine Moved.inv hi (h := h) (p := .pointer ip) (x := x) ⟨rfl, rfl, hsame.symm, rfl, rfl⟩
    { old := fun j ej => by simp [hp, ej.symm]
      new := .inr (.inl rfl)
      ref := by rw [hp, href, sub_self, add_zero]
      key := fun j ej hj hk => ej (hi.unique j ip hj (hi.live hp) (hk.trans hkey))
      holder := by rwa [hsame]
      entry := fun _ => hentry
      links := fun hk => (hlinks hk).imp_right (.imp_right fun hd _ => hd)
      typed := by rwa [hsame]
      marked := by rw [hsame]; exact fun h' _ => hmarked h' } halloc htrunc

theorem Inv.addPointer (hp : s.place h = .empty ∨ s.place h = .marked (s.itable ip).key)
    (hlive : 0 < (s.itable ip).ref) (htype : (s.disk (s.itable ip).key).type ≠ 0)
    (hbusy : ¬ (s.itable ip).lock.Busy)
    (hmark : ∀ h', h' ≠ h → s.place h' ≠ .marked (s.itable ip).key) :
    Inv (point s h ip { s.itable ip with ref := (s.itable ip).ref + 1 }) := by
  refine Moved.inv hi (h := h) (p := .pointer ip) (x := s.disk (s.itable ip).key)
    ⟨rfl, (update_eq_self _ _).symm, rfl, rfl, rfl⟩
    { old := fun j _ => by obtain e | e := hp <;> simp [e]
      new := .inr (.inl rfl)
      ref := by obtain e | e := hp <;> rw [e, weight_pointer] <;> rfl
      key := fun j ej hj hk => ej (hi.unique j ip hj hlive hk)
      holder := fun h' hl => ?_
      entry := fun _ => (hi.entry ip hlive).of_ref hbusy
      links := fun hk => ⟨htype, (hi.linked_update hlive hk).imp_right fun hd _ => hd⟩
      typed := fun _ _ => .inr htype
      marked := fun h' hne hm => absurd hm (hmark h' hne) } hi.alloc fun _ => rfl
  rcases eq_or_ne h' h with rfl | eh
  · rw [update_self]
  · rw [update_of_ne eh]
    exact hi.holder ip h' hl

/-- An entry that is not in use is taken for another inode. -/
theorem Inv.recycle (hp : s.place h = .empty ∨ s.place h = .marked k)
    (hfree : (s.itable ip).ref = 0) (htype : (s.disk k).type ≠ 0)
    (hnone : ∀ j, 0 < (s.itable j).ref → (s.itable j).key ≠ k)
    (hmark : ∀ h', h' ≠ h → s.place h' ≠ .marked k) :
    Inv (point s h ip { s.itable ip with key := k, ref := 1, valid := false }) := by
  have hlock := hi.free hfree
  refine Moved.inv hi (h := h) (p := .pointer ip) (x := s.disk k)
    ⟨rfl, (update_eq_self _ _).symm, rfl, rfl, rfl⟩
    { old := fun j _ => by obtain e | e := hp <;> simp [e]
      new := .inr (.inl rfl)
      ref := by rw [hfree, weight_pointer]; obtain e | e := hp <;> rw [e] <;> rfl
      key := fun j _ => hnone j
      holder := fun h' hl => ?_
      entry := fun _ => ?_
      links := fun hk => ⟨htype, (hi.links k hk).2.1, fun _ hv => by cases hv⟩
      typed := fun _ _ => .inr htype
      marked := fun h' hne hm => absurd hm (hmark h' hne) } hi.alloc fun k' => ?_
  · dsimp only at hl
    rw [hlock] at hl
    cases hl
  · unfold EntryOk
    dsimp only
    rw [hlock]
    exact fun hv => absurd hv (by decide)
  · simp [clearing, hlock, point]

/-- A pointer is given up, by one that does not hold the lock. -/
theorem Inv.removePointer (hp : s.place h = .pointer ip ∨ s.place h = .drop ip)
    (hholder : (s.itable ip).lock.holder ≠ some h) :
    Inv { s with
      itable := update s.itable ip { s.itable ip with ref := (s.itable ip).ref - 1 }
      place := update s.place h .empty } := by
  have hone : weight ip (s.place h) = 1 := by
    rw [weight_eq]
    exact if_pos hp
  have hlive := hi.ref_pos hone
  have hne : ∀ {h'}, (s.itable ip).lock.holder = some h' → h' ≠ h := by
    rintro h' hl rfl
    exact hholder hl
  have hbusy : ¬ (s.itable ip).lock.Busy := by
    rintro ⟨h', hl⟩
    have hh := Lock.holder_of_busy hl
    have hp' := hi.holder ip h' hh
    have := hi.two_le_ref (hne hh) (by rw [hp']; exact weight_pointer) hone
    have := (hi.busy hp' hl).2.2.2.2
    omega
  have hplace : ∀ {h'}, update s.place h .empty h' = .pointer ip → s.place h' = .pointer ip :=
    fun hq => (of_update hq nofun).2
  refine Moved.inv hi (h := h) (p := .empty) (x := s.disk (s.itable ip).key)
    ⟨rfl, (update_eq_self _ _).symm, rfl, rfl, rfl⟩
    { old := fun j ej => by obtain e | e := hp <;> simp [e, ej.symm]
      new := .inl rfl
      ref := by rw [hone]; rfl
      key := fun j ej hj hk => ej (hi.unique j ip hj hlive hk)
      holder := fun h' hl => by rw [update_of_ne (hne hl)]; exact hi.holder ip h' hl
      entry := fun _ => (hi.entry ip hlive).of_ref hbusy
      links := fun hk => ⟨(hi.links _ hk).1, (hi.linked_update hlive hk).imp_right fun hd _ => hd⟩
      typed := fun h' hq => hi.typed h' ip (hplace hq)
      marked := fun h' _ hm => ?_ } hi.alloc fun _ => rfl
  obtain ⟨h1, h2, -, h4⟩ := hi.marked h' _ hm
  exact ⟨h1, h2, fun h'' hq => h4 ip h'' rfl (hplace hq)⟩

/-- The first half of `ialloc`. -/
theorem Inv.mark {type : ℕ} (hp : s.place h = .empty) (hfree : (s.disk k).type = 0)
    (htype : type ≠ 0) : Inv { s with
      disk := update s.disk k { type := type }
      place := update s.place h (.marked k)
      allocs := update s.allocs k (s.allocs k + 1) } := by
  have hnone : ∀ h', s.place h' ≠ .marked k := fun h' hm => (hi.marked h' k hm).1 hfree
  refine ⟨fun j => ?_, hi.unique, fun j h' hl => ?_, fun j hj => ?_, fun k' hk => ?_,
    fun h' j hp' => ?_, fun h' k' hm => ?_, fun k' => ?_, hi.trunc⟩
  · dsimp only
    rw [sum_weight_update hi, hp]
    exact (add_zero _).symm
  · have hpl := hi.holder j h' hl
    have hne : h' ≠ h := by
      rintro rfl
      cases hpl.symm.trans hp
    exact (update_of_ne hne _ _).trans hpl
  · have he := hi.entry j hj
    dsimp only at hj ⊢
    by_cases ek : (s.itable j).key = k
    · rw [ek] at he ⊢
      rw [update_self]
      exact he.reallocated hfree
    · rw [update_of_ne ek]
      exact he
  · have hold := hi.links k' hk
    have ek : k' ≠ k := by
      rintro rfl
      exact hold.1 hfree
    unfold Counted at hold ⊢
    dsimp only
    rw [update_of_ne ek]
    exact hold
  · have hold := hi.typed h' j (of_update hp' (by simp)).2
    dsimp only
    by_cases ek : (s.itable j).key = k
    · rw [ek, update_self]
      exact .inr htype
    · rw [update_of_ne ek]
      exact hold
  · dsimp only
    rcases eq_or_ne k' k with rfl | ek
    · rw [update_self]
      have honly : ∀ h'', update s.place h (.marked k') h'' = .marked k' → h'' = h := by
        intro h'' hm''
        by_contra eh
        rw [update_of_ne eh] at hm''
        exact hnone h'' hm''
      refine ⟨htype, rfl, fun h'' hm'' => (honly h'' hm'').trans (honly h' hm).symm,
        fun j h'' hjk hp'' => ?_⟩
      refine (hi.typed h'' j (of_update hp'' (by simp)).2).resolve_right fun ht => ht ?_
      rw [hjk]
      exact hfree
    · obtain ⟨h1, h2, h3, h4⟩ := hi.marked h' k' (of_update hm (by simp [ek])).2
      rw [update_of_ne ek]
      exact ⟨h1, h2, fun h'' hm'' => h3 h'' (of_update hm'' (by simp [ek])).2,
        fun j h'' hjk hp'' => h4 j h'' hjk (of_update hp'' (by simp)).2⟩
  · have hold := hi.alloc k'
    dsimp only
    rcases eq_or_ne k' k with rfl | ek
    · rw [if_pos hfree] at hold
      simp only [update_self, if_neg htype, hold, add_zero]
    · simp only [update_of_ne ek]
      exact hold

/-! ## The steps -/

/-- `iget`, for an inode that is allocated and not being freed. -/
theorem Inv.iget (hp : s.place h = .empty ∨ s.place h = .marked k) (htype : (s.disk k).type ≠ 0)
    (hbusy : ∀ ip, 0 < (s.itable ip).ref → (s.itable ip).key = k → ¬ (s.itable ip).lock.Busy)
    (hmark : ∀ h', h' ≠ h → s.place h' ≠ .marked k) (hs : iget s h k = some s') : Inv s' := by
  unfold InodeTable.iget at hs
  split at hs
  · rename_i ip hfound
    have hin := List.find?_some hfound
    obtain ⟨hlive, hkey⟩ := of_decide_eq_true hin
    cases hs
    subst hkey
    exact hi.addPointer hp hlive htype (hbusy ip hlive rfl) hmark
  · rename_i hnone
    split at hs
    · cases hs
    · rename_i ip hfound
      have hin := List.find?_some hfound
      cases hs
      refine hi.recycle hp (of_decide_eq_true hin) htype (fun j hj hk => ?_) hmark
      have := List.find?_eq_none.mp hnone j (List.mem_finRange j)
      exact this (decide_eq_true ⟨hj, hk⟩)

/-- An inode that is linked is looked up. -/
theorem Inv.step_iget (hs : step s (.iget h k) = some s') : Inv s' := by
  simp only [step] at hs
  split_ifs at hs with hg
  have hk := hi.links k hg.2
  refine hi.iget (.inl hg.1) hk.1 (fun ip hlive hkey => ?_) (fun h' _ hm => ?_) hs
  · rintro ⟨h', hb⟩
    have := (hi.busy (hi.holder ip h' (Lock.holder_of_busy hb)) hb).2.2.2.1
    rw [hkey] at this
    exact hk.2.1 this
  · exact hk.2.1 (hi.marked h' k hm).2.1

/-- An inode that `ialloc` has marked is looked up. -/
theorem Inv.step_ialloced (hs : step s (.ialloced h) = some s') : Inv s' := by
  simp only [step] at hs
  split at hs
  · rename_i k hm
    obtain ⟨h1, -, h3, h4⟩ := hi.marked h k hm
    refine hi.iget (.inr hm) h1 (fun ip _ hkey => ?_) (fun h' hne hm' => hne (h3 h' hm')) hs
    rintro ⟨h', hb⟩
    have hf := h4 ip h' hkey (hi.holder ip h' (Lock.holder_of_busy hb))
    obtain e | e := hb <;> rw [e] at hf <;> obtain e' | e' := hf <;> cases e'
  · cases hs

theorem Inv.step_idup (hs : step s (.idup h h') = some s') : Inv s' := by
  simp only [step] at hs
  split at hs
  · rename_i ip hp
    split_ifs at hs with hg
    cases hs
    obtain ⟨hp', hl⟩ := hg
    have hfreed := Lock.not_freed hl
    refine hi.addPointer (.inl hp') (hi.live hp) ((hi.typed h ip hp).resolve_left hfreed) ?_
      fun h'' _ => hi.not_marked hp hfreed h''
    rintro ⟨h'', hb⟩
    -- the freeing process has the only pointer, so it would be `h`
    have hp'' := hi.holder ip h'' (Lock.holder_of_busy hb)
    obtain rfl := hi.only (hi.busy hp'' hb).2.2.2.2 hp hp''
    obtain e | e := hb <;> exact hl (by rw [e]; rfl)
  · cases hs

/-- Change an entry in use whose inode stays allocated. -/
theorem Inv.revise (hp : s.place h = .pointer ip)
    (hfreed : ∀ h', (s.itable ip).lock ≠ .invalid h' ∧ (s.itable ip).lock ≠ .release h' ∧
      (s.itable ip).lock ≠ .clear h')
    (hentry : EntryOk x e) (htype : x.type ≠ 0)
    (hlinks : s.linked (s.itable ip).key = true → x.nlink ≠ 0 ∧ (e.valid = true → e.din.nlink ≠ 0))
    (hkey : e.key = (s.itable ip).key := by rfl) (href : e.ref = (s.itable ip).ref := by rfl)
    (hholder : ∀ h', e.lock.holder = some h' → h' = h := by rintro _ ⟨⟩ <;> rfl)
    (hclear : ∀ k, clearing k e = 0 := by exact fun _ => rfl) : Inv { s with
      itable := update s.itable ip e
      disk := update s.disk (s.itable ip).key x } := by
  have hfreed' : ¬ (s.itable ip).lock.Freed h := by simp [Lock.Freed, hfreed h]
  have hdisk : (s.disk (s.itable ip).key).type ≠ 0 := (hi.typed h ip hp).resolve_left hfreed'
  refine hi.setEntry hp hkey href (fun h' hl => ?_) hentry (fun hk => ⟨htype, hlinks hk⟩)
    (fun _ _ => .inr htype) (fun h' hm => absurd hm (hi.not_marked hp hfreed' h')) (fun k => ?_)
    (fun k => ?_)
  · rw [hholder h' hl]
    exact hp
  · have := hi.alloc_update (n := s.frees (s.itable ip).key) (x := x)
      (by rw [if_neg hdisk, if_neg htype]) k
    rwa [update_eq_self] at this
  · rw [hclear, clearing_of_lock fun h' => (hfreed h').2.2]

theorem Inv.step_ilock (hs : step s (.ilock h) = some s') : Inv s' := by
  simp only [step] at hs
  obtain ⟨ip, e, x, hp, hf, rfl⟩ := onEntry_eq_some hs
  split_ifs at hf with hl hv <;> cases hf <;> obtain ⟨htype, hdin⟩ := hi.unlocked hp hl
  · exact hi.revise hp (by simp [hl]) ⟨hv, congrArg _ (hdin hv), htype, fun _ => hdin hv⟩ htype
      (hi.linked_update (hi.live hp))
  · exact hi.revise hp (by simp [hl]) (Bool.eq_false_iff.mpr hv) htype
      (hi.linked_update (hi.live hp))

theorem Inv.step_load (hs : step s (.load h) = some s') : Inv s' := by
  simp only [step] at hs
  obtain ⟨ip, e, x, hp, hf, rfl⟩ := onEntry_eq_some hs
  split_ifs at hf with hg
  cases hf
  refine hi.revise hp (by simp [hg.1]) ⟨rfl, rfl, hg.2, fun _ => rfl⟩ hg.2 fun hk => ?_
  exact ⟨(hi.links _ hk).2.1, fun _ => (hi.links _ hk).2.1⟩

theorem Inv.step_change {y : Dinode} (hs : step s (.change h y) = some s') : Inv s' := by
  simp only [step] at hs
  obtain ⟨ip, e, x, hp, hf, rfl⟩ := onEntry_eq_some hs
  split_ifs at hf with hg
  cases hf
  obtain ⟨hl, hy, hlink⟩ := hg
  obtain ⟨hv, htype, hne⟩ := hl.elim (hi.held hp) (hi.held hp)
  refine hi.revise hp (by obtain e | e := hl <;> simp [e])
    ⟨hv, hy.trans htype, hne, fun hd => absurd hd (by decide)⟩ hne fun hk => ?_
  refine ⟨(hi.links _ hk).2.1, fun _ hy0 => ?_⟩
  rw [hlink hy0] at hk
  cases hk

theorem Inv.step_iupdate (hs : step s (.iupdate h) = some s') : Inv s' := by
  simp only [step] at hs
  obtain ⟨ip, e, x, hp, hf, rfl⟩ := onEntry_eq_some hs
  split_ifs at hf with hl
  cases hf
  obtain ⟨hv, htype, hne⟩ := hl.elim (hi.held hp) (hi.held hp)
  have htype' : (s.itable ip).din.type ≠ 0 := by
    rw [htype]
    exact hne
  refine hi.revise hp (by obtain e | e := hl <;> simp [e]) ⟨hv, rfl, htype', fun _ => rfl⟩ htype'
    fun hk => ?_
  have := (hi.linked_update (hi.live hp) hk).2 hv
  exact ⟨this, fun _ => this⟩

theorem Inv.step_iunlock (hs : step s (.iunlock h) = some s') : Inv s' := by
  simp only [step] at hs
  obtain ⟨ip, e, x, hp, hf, rfl⟩ := onEntry_eq_some hs
  split_ifs at hf with hl
  cases hf
  have he := hi.entry ip (hi.live hp)
  unfold EntryOk at he
  rw [hl] at he
  exact hi.revise hp (by simp [hl]) (fun _ => ⟨he.2.2.2 rfl, he.2.2.1⟩) he.2.2.1
    (hi.linked_update (hi.live hp))

/-- The last pointer is found to be one, and the inode has no links: the lock is free. -/
theorem Inv.iput_free (hp : s.place h = .pointer ip) (hholder : (s.itable ip).lock.holder ≠ some h)
    (href : (s.itable ip).ref = 1) : (s.itable ip).lock = .free := by
  have key : ∀ h', (s.itable ip).lock.holder ≠ some h' := by
    intro h' hl
    obtain rfl := hi.only href hp (hi.holder ip h' hl)
    exact hholder hl
  cases hl : (s.itable ip).lock with
  | free => rfl
  | load h' | held h' _ | trunc h' | clear h' | invalid h' | release h' =>
    exact absurd (by rw [hl]; rfl) (key h')

theorem Inv.step_iput (hs : step s (.iput h) = some s') : Inv s' := by
  simp only [step] at hs
  split at hs
  · rename_i ip hp
    split_ifs at hs with hholder hlast hl
    · cases hs
      obtain ⟨htype, hdin⟩ := hi.unlocked hp hl
      have hdin := hdin hlast.2.1
      have hnlink : (s.disk (s.itable ip).key).nlink = 0 := hdin ▸ hlast.2.2
      have := hi.revise (e := { s.itable ip with lock := .trunc h }) hp (by simp [hl])
        ⟨hlast.2.1, hdin, htype, hnlink, hlast.1⟩ htype fun hk => absurd hk (hi.not_linked hnlink)
      rwa [update_eq_self] at this
    · cases hs
      exact hi.removePointer (.inl hp) hholder
  · cases hs

theorem Inv.step_itrunc (hs : step s (.itrunc h) = some s') : Inv s' := by
  simp only [step] at hs
  split at hs
  · rename_i ip hp
    split_ifs at hs with hl
    cases hs
    obtain ⟨hv, hdin, htype, hnlink, href⟩ := hi.busy hp (.inl hl)
    have htype' : (truncated (s.itable ip).din).type ≠ 0 := by
      rw [hdin]
      exact htype
    refine hi.setEntry hp rfl rfl (fun h' hh => ?_) ⟨hv, rfl, htype', ?_, href⟩
      (fun hk => absurd hk (hi.not_linked hnlink)) (fun _ _ => .inr htype')
      (fun h' hm => absurd hm (hi.not_marked hp (by simp [Lock.Freed, hl]) h')) (fun k => ?_)
      (fun k => ?_)
    · cases hh
      exact hp
    · rw [hdin]
      exact hnlink
    · have := hi.alloc_update (n := s.frees (s.itable ip).key) (x := truncated (s.itable ip).din)
        (by rw [if_neg htype, if_neg htype']) k
      rwa [update_eq_self] at this
    · rw [count_update]
      unfold clearing
      rw [hl]
      ring
  · cases hs

theorem Inv.step_clearType (hs : step s (.clearType h) = some s') : Inv s' := by
  simp only [step] at hs
  split at hs
  · rename_i ip hp
    split_ifs at hs with hl
    cases hs
    obtain ⟨hv, hdin, htype, hnlink, href⟩ := hi.busy hp (.inr hl)
    refine hi.setEntry hp rfl rfl (fun h' hh => ?_) ⟨hv, ?_⟩
      (fun hk => absurd hk (hi.not_linked hnlink)) (fun h' hp' => ?_)
      (fun h' hm => absurd hm (hi.not_marked hp (by simp [Lock.Freed, hl]) h'))
      (hi.alloc_update (by rw [if_neg htype, if_pos rfl])) (fun k => ?_)
    · cases hh
      exact hp
    · rw [hdin]
      exact hnlink
    · rw [hi.only href hp hp']
      exact .inl (.inl rfl)
    · rw [count_update]
      unfold clearing
      rw [hl]
      ring
  · cases hs

theorem Inv.step_clearValid (hs : step s (.clearValid h) = some s') : Inv s' := by
  simp only [step] at hs
  obtain ⟨ip, e, x, hp, hf, rfl⟩ := onEntry_eq_some hs
  split_ifs at hf with hl
  cases hf
  have he := hi.entry ip (hi.live hp)
  unfold EntryOk at he
  rw [hl] at he
  have hfreed : ∀ h', (s.itable ip).lock.Freed h' → Lock.Freed (.release h) h' := by
    intro h' hf
    rw [hl] at hf
    obtain e | e := hf <;> cases e
    exact .inr rfl
  refine hi.setEntry hp rfl rfl (fun h' hh => ?_) ⟨rfl, he.2⟩
    (fun hk => absurd hk (hi.not_linked he.2))
    (fun h' hp' => (hi.typed h' ip hp').imp_left (hfreed h')) (fun h' hm => ?_) (fun k => ?_)
    (fun k => ?_)
  · cases hh
    exact hp
  · obtain ⟨h1, h2, -, h4⟩ := hi.marked h' _ hm
    exact ⟨h1, h2, fun h'' hp'' => hfreed h'' (h4 ip h'' rfl hp'')⟩
  · rw [update_eq_self]
    exact hi.alloc k
  · unfold clearing
    rw [hl]

theorem Inv.step_releasesleep (hs : step s (.releasesleep h) = some s') : Inv s' := by
  simp only [step] at hs
  split at hs
  · rename_i ip hp
    split_ifs at hs with hl
    cases hs
    have hlive := hi.live hp
    have hvalid : (s.itable ip).valid = false := by
      have he := hi.entry ip hlive
      unfold EntryOk at he
      rw [hl] at he
      exact he.1
    -- the lock was held by `h`, so that it frees nothing for another pointer
    have hothers : ∀ {h'}, update s.place h (.drop ip) h' = .pointer ip →
        s.place h' = .pointer ip ∧ ¬ (s.itable ip).lock.Freed h' := by
      intro h' hq
      obtain ⟨eh, hq⟩ := of_update hq nofun
      exact ⟨hq, by simpa [Lock.Freed, hl] using eh.symm⟩
    refine Moved.inv hi (h := h) (p := .drop ip) (x := s.disk (s.itable ip).key)
      ⟨rfl, (update_eq_self _ _).symm, rfl, rfl, rfl⟩
      { old := fun j ej => by simp [hp, ej.symm]
        new := .inr (.inr rfl)
        ref := by rw [hp, weight_pointer, weight_drop, sub_self, add_zero]
        key := fun j ej hj hk => ej (hi.unique j ip hj hlive hk)
        holder := fun h' hh => by cases hh
        entry := fun _ hv => by cases hvalid.symm.trans hv
        links := fun hk => ⟨(hi.links _ hk).1, (hi.linked_update hlive hk).imp_right fun hd _ => hd⟩
        typed := fun h' hq =>
          .inr ((hi.typed h' ip (hothers hq).1).resolve_left (hothers hq).2)
        marked := fun h' _ hm => ?_ } hi.alloc fun k' => ?_
    · obtain ⟨h1, h2, -, h4⟩ := hi.marked h' _ hm
      exact ⟨h1, h2, fun h'' hq => absurd (h4 ip h'' rfl (hothers hq).1) (hothers hq).2⟩
    · unfold clearing
      rw [hl]
  · cases hs

theorem Inv.step {a : Act H} (hs : step s a = some s') : Inv s' := by
  cases a with
  | iget h k => exact hi.step_iget hs
  | ialloc h k type =>
    simp only [InodeTable.step] at hs
    split_ifs at hs with hg
    cases hs
    exact hi.mark hg.1 hg.2.1 hg.2.2
  | ialloced h => exact hi.step_ialloced hs
  | idup h h' => exact hi.step_idup hs
  | ilock h => exact hi.step_ilock hs
  | load h => exact hi.step_load hs
  | change h y => exact hi.step_change hs
  | iupdate h => exact hi.step_iupdate hs
  | iunlock h => exact hi.step_iunlock hs
  | link k =>
    simp only [InodeTable.step] at hs
    split_ifs at hs with hk
    cases hs
    exact hi.setLinked fun _ => hk
  | unlink k =>
    cases hs
    exact hi.setLinked fun hb => absurd hb (by decide)
  | iput h => exact hi.step_iput hs
  | itrunc h => exact hi.step_itrunc hs
  | clearType h => exact hi.step_clearType hs
  | clearValid h => exact hi.step_clearValid hs
  | releasesleep h => exact hi.step_releasesleep hs
  | unref h =>
    simp only [InodeTable.step] at hs
    split at hs
    · rename_i ip hp
      cases hs
      refine hi.removePointer (.inr hp) fun hl => ?_
      cases hp.symm.trans (hi.holder ip h hl)
    · cases hs

end

/-! ## Every run -/

/-- What holds of the table in every state. -/
structure Sound (s : State H) : Prop where
  unique : ∀ i j, 0 < (s.itable i).ref → 0 < (s.itable j).ref →
    (s.itable i).key = (s.itable j).key → i = j
  ref : ∀ ip, (s.itable ip).ref = (Finset.univ.filter (Points s ip)).card
  synced : ∀ ip, 0 < (s.itable ip).ref → (s.itable ip).lock = .free → (s.itable ip).valid = true →
    (s.itable ip).din = s.disk (s.itable ip).key
  /-- The condition under which `iput` takes the lock with `itable.lock` held. -/
  iput : ∀ h ip, s.place h = .pointer ip → (s.itable ip).lock.holder ≠ some h →
    (s.itable ip).ref = 1 → (s.itable ip).valid = true → (s.itable ip).din.nlink = 0 →
    (s.itable ip).lock = .free
  truncs : ∀ k, s.frees k ≤ s.truncs k ∧ s.truncs k ≤ s.allocs k
  frees : ∀ k, s.allocs k = s.frees k + if (s.disk k).type = 0 then 0 else 1

theorem Inv.sound (hi : Inv s) : Sound s where
  unique := hi.unique
  ref ip := by
    rw [hi.count ip, Finset.card_filter, Nat.cast_sum]
    refine Finset.sum_congr rfl fun h _ => ?_
    rw [weight_eq]
    by_cases hpt : Points s ip h
    · rw [if_pos hpt]
      exact if_pos hpt
    · rw [if_neg hpt]
      exact if_neg hpt
  synced ip hlive hl hv := by
    have he := hi.entry ip hlive
    unfold EntryOk at he
    rw [hl] at he
    exact (he hv).1
  iput h ip hp hholder href _ _ := hi.iput_free hp hholder href
  truncs k := by
    obtain ⟨h1, h2⟩ := hi.sum_clearing_le k
    have h3 := hi.trunc k
    have h4 := hi.alloc k
    split_ifs at h2 h4 <;> omega
  frees := hi.alloc

end Inv

section Kernel

variable {H : Type} [DecidableEq H] {s : Fs.State} {t : State H} {h h' : H} {ip : Ip}
  {E : Fs.Panic × Fs.State → Prop}

/-- An entry of the table on device 1, as one process sees it. -/
structure Shows (x : Fs.Inode) (e : Entry H) : Prop where
  key : e.key = (1, x.inum)
  ref : e.ref = x.ref
  valid : e.valid = x.valid
  din : e.din = x.din

omit [DecidableEq H] in
theorem shows_update (hs : ∀ k, Shows (s.itable k) (t.itable k)) {x : Fs.Inode} {e : Entry H}
    (hx : Shows x e) (k : Ip) : Shows (update s.itable ip x k) (update t.itable ip e k) := by
  by_cases hk : k = ip
  · rw [hk, update_self, update_self]
    exact hx
  · rw [update_of_ne hk, update_of_ne hk]
    exact hs k

section

variable (hs : ∀ k, Shows (s.itable k) (t.itable k))
include hs

/-- `iget` takes the same entry, or panics with it. -/
theorem iget_shows (h : H) (inum : ℕ) : Spec (Fs.iget inum) s (fun ip s' => ∃ t',
    iget t h (1, inum) = some t' ∧ t'.place h = .pointer ip ∧
      ∀ k, Shows (s'.itable k) (t'.itable k)) fun _ => iget t h (1, inum) = none := by
  unfold Fs.iget iget
  simp only [spec_get_bind, (hs _).ref, (hs _).key, Prod.mk.injEq, true_and]
  cases (List.finRange NINODE).find? fun k =>
      0 < (s.itable k).ref ∧ (s.itable k).inum = inum with
  | some ip =>
    have hx := hs ip
    simp only [spec_bind, Fs.setInode, spec_modify, spec_pure]
    exact ⟨_, rfl, update_self .., shows_update hs ⟨rfl, rfl, hx.valid, hx.din⟩⟩
  | none =>
    cases (List.finRange NINODE).find? fun k => (s.itable k).ref = 0 with
    | none => rw [Fs.spec_panic]
    | some ip =>
      simp only [spec_bind, Fs.setInode, spec_modify, spec_pure]
      exact ⟨_, rfl, update_self .., shows_update hs ⟨rfl, rfl, rfl, (hs ip).din⟩⟩

theorem idup_shows (hp : t.place h = .pointer ip) (hp' : t.place h' = .empty)
    (hl : (t.itable ip).lock.freeing ≠ some h) : Spec (Fs.idup ip) s (fun r s' => r = ip ∧ ∃ t',
      step t (.idup h h') = some t' ∧ ∀ k, Shows (s'.itable k) (t'.itable k)) E := by
  have hx := hs ip
  unfold Fs.idup Fs.setInode
  rw [spec_get_bind, spec_bind, spec_modify, spec_pure]
  simp only [step, hp, if_pos (And.intro hp' hl)]
  exact ⟨trivial, _, rfl, shows_update hs ⟨hx.key, congrArg (· + 1) hx.ref, hx.valid, hx.din⟩⟩

/-- `iput` of a pointer that is not the last one to a file without links. -/
theorem iput_shows (hp : t.place h = .pointer ip) (hl : (t.itable ip).lock.holder ≠ some h)
    (hkeep : ¬ ((s.itable ip).ref = 1 ∧ (s.itable ip).valid = true ∧ (s.itable ip).din.nlink = 0)) :
    Spec (Fs.iput ip) s (fun _ s' => ∃ t', step t (.iput h) = some t' ∧
      ∀ k, Shows (s'.itable k) (t'.itable k)) E := by
  have hx := hs ip
  unfold Fs.iput Fs.iunref Fs.setInode
  rw [spec_get_bind, if_neg hkeep, spec_get_bind, spec_modify]
  rw [← hx.ref, ← hx.valid, ← hx.din] at hkeep
  simp only [step, hp, if_neg hl, if_neg hkeep]
  exact ⟨_, rfl, shows_update hs ⟨hx.key, congrArg (· - 1) hx.ref, hx.valid, hx.din⟩⟩

end

end Kernel

end TatakOS.InodeTable
