import TatakOS.Fs.Arrays

/-!
# `itrunc`

`itrunc` frees every block of an inode, also those behind its size. While it goes over the words of
the indirect block, the words stay there: the bitmap then belongs to slots that are already empty
(`clears`).
-/

namespace TatakOS.Fs

open Function

variable {s s' s1 s2 : State} {V V' V1 : ℕ → Dinode} {ip : Ip} {i b : ℕ} {E : Panic × State → Prop}

/-! ## Slots that are emptied -/

/-- Empty some slots of an inode. -/
def clears (S : ℕ → ℕ → ℕ) (i : ℕ) (ts : List ℕ) : ℕ → ℕ → ℕ := fun j t =>
  if j = i ∧ t ∈ ts then 0 else S j t

section Clears

variable {S : ℕ → ℕ → ℕ} {t : ℕ} {ts : List ℕ}

@[simp] theorem clears_nil : clears S i [] = S := by
  funext j u
  exact if_neg fun h => List.not_mem_nil h.2

theorem clears_cons : clears S i (t :: ts) = clears (assign S i t 0) i ts := by
  funext j u
  unfold clears
  rw [assign_eq_iff]
  by_cases hj : j = i
  · by_cases hu : u = t
    · simp [hj, hu]
    · simp [hj, hu]
  · simp [hj]

theorem assign_zero (h : S i t = 0) : assign S i t 0 = S := by
  funext j u
  rw [assign_eq_iff]
  split_ifs with e
  · rw [e.1, e.2, h]
  · rfl

end Clears

theorem slots_of_addrs {d : ℕ → Block} (h : ∀ t, (V i).addrs t = 0) (u : ℕ) :
    slots d V i u = 0 := by
  unfold slots
  obtain hu | ⟨k, hk, rfl⟩ | hu := slot_cases u
  · rw [slot_direct hu, h]
  · rw [slot_indirect hk, if_pos (h _)]
  · exact slot_beyond hu

/-! ## Logging blocks of the bitmap and of the inode -/

/-- If the log meets `R`, then blocks in `X` can be logged, and the log meets `R` after that. -/
structure Supply (X : Finset ℕ) (R : Logging.Log → Prop) (E : Panic × State → Prop) : Prop where
  write : ∀ {s : State} {c : ℕ} {v : Block}, R s.log → c ∈ X →
    Spec (store c v) s (fun _ s1 => Spec (logWrite c) s1 (fun _ s' => R s'.log) E) E

theorem Supply.of_allows {X : Finset ℕ} (hE : Allows E) : Supply X (fun _ => True) E where
  write _ _ := by
    unfold store
    rw [spec_modify]
    exact spec_logWrite hE fun _ _ _ _ => trivial

theorem Supply.of_load {X : Finset ℕ} :
    Supply X (fun l => 0 < l.outstanding ∧ load X l.lh < capacity l) E where
  write := by
    rintro s c v ⟨hopen, hroom⟩ hc
    apply spec_store_logWrite_room hopen (length_le_load.trans_lt hroom)
    intro s' _ _ _ hlog
    rw [hlog, load_logAdd_of_mem hc]
    exact ⟨hopen, hroom⟩

/-- The inode may lose blocks; data blocks and inodes on the disk are as they were. -/
structure Shrinks (ip : Ip) (s : State) (V : ℕ → Dinode) (s' : State) (V' : ℕ → Dinode) : Prop
    extends Edits ip s V s' V' where
  changes : Changes s s'
  head : V' (s.itable ip).inum =
    { V (s.itable ip).inum with addrs := (V' (s.itable ip).inum).addrs }
  blk : ∀ c, c < s.sb.bmapstart ∨ s.sb.dataStart ≤ c → s'.blk c = s.blk c

theorem Shrinks.refl (hdin : (s.itable ip).din = V (s.itable ip).inum) : Shrinks ip s V s V :=
  ⟨.refl rfl hdin, .refl s, rfl, fun _ _ => rfl⟩

theorem Shrinks.trans (h : Shrinks ip s V s1 V1) (h' : Shrinks ip s1 V1 s' V') :
    Shrinks ip s V s' V' := by
  constructor
  · exact h.toEdits.trans h'.toEdits
  · exact h.changes.trans h'.changes
  · have h2 := h'.head
    rw [h.inum, h.head] at h2
    exact h2
  · intro c hc
    have hc' : c < s1.sb.bmapstart ∨ s1.sb.dataStart ≤ c := by rwa [h.changes.sb]
    rw [h'.blk c hc', h.blk c hc]

/-- The bitmap and the slots `S` go together. -/
structure Bitmap (s : State) (S : ℕ → ℕ → ℕ) : Prop where
  layout : s.sb.Layout
  slots : Slots s.sb.dataStart s.sb.size S
  marked : Marked s.sb s.blk S

section Free

variable {S : ℕ → ℕ → ℕ} {R : Logging.Log → Prop} {t : ℕ}

theorem Bitmap.bfree (h : Bitmap s S) {inum : ℕ} (hR : Supply (metaBlocks s.sb inum true) R E)
    (hlog : R s.log) (h0 : S i t ≠ 0) :
    Spec (Fs.bfree (S i t)) s (fun _ s' => R s'.log ∧ Freed s (S i t) s' ∧
      Bitmap s' (assign S i t 0)) E := by
  have hlt := (h.slots.range h0).2
  have huse : inUse s.sb s.blk (S i t) = true := (h.marked _ hlt).mpr (.inr ⟨i, t, rfl⟩)
  have hpay : Spec (Fs.bfree (S i t)) s (fun _ s' => R s'.log) E := by
    unfold Fs.bfree
    rw [spec_get_bind, if_pos huse, spec_bind]
    exact hR.write hlog (BBLOCK_mem_metaBlocks rfl hlt)
  refine (hpay.and (bfree_spec .all h.layout h.marked hlt)).imp ?_
  rintro _ s' ⟨hlog', hf⟩
  refine ⟨hlog', hf, ?_, ?_, ?_⟩
  · rw [hf.changes.sb]
    exact h.layout
  · rw [hf.changes.sb]
    exact h.slots.clear i t
  · rw [hf.changes.sb]
    exact hf.clear h.slots h.marked h0

theorem Freed.slots (h : Freed s b s') (hS : Slots s.sb.dataStart s.sb.size (slots s.blk V)) :
    slots s'.blk V = slots s.blk V :=
  slots_of_data hS fun c hc => h.others c (.inr hc)

theorem itruncDirect_spec {is : List ℕ} (hB : Bitmap s (slots s.blk V))
    (hR : Supply (metaBlocks s.sb (s.itable ip).inum true) R E) (hlog : R s.log)
    (hdin : (s.itable ip).din = V (s.itable ip).inum) (his : ∀ t ∈ is, t < NDIRECT) :
    Spec (itruncDirect ip is) s (fun _ s' => R s'.log ∧ ∃ V', Shrinks ip s V s' V' ∧
      Bitmap s' (slots s'.blk V') ∧
      ∀ t, (V' (s.itable ip).inum).addrs t =
        if t ∈ is then 0 else (V (s.itable ip).inum).addrs t) E := by
  induction is generalizing s V with
  | nil => exact spec_pure.mpr ⟨hlog, V, .refl hdin, hB, fun t => (if_neg List.not_mem_nil).symm⟩
  | cons t is ih =>
    have ht := his t List.mem_cons_self
    have his' : ∀ u ∈ is, u < NDIRECT := fun u hu => his u (List.mem_cons_of_mem t hu)
    set i := (s.itable ip).inum with hi
    have hslot : slots s.blk V i t = (V i).addrs t := slot_direct ht.le
    unfold itruncDirect
    rw [spec_get_bind]
    dsimp only
    rw [hdin]
    by_cases h0 : (V i).addrs t = 0
    · rw [if_neg (not_not.mpr h0)]
      refine (ih hB hR hlog hdin his').imp ?_
      rintro _ s' ⟨hlog', V', hsh, hB', haddrs⟩
      rw [← hi] at haddrs
      refine ⟨hlog', V', hsh, hB', fun u => ?_⟩
      rw [haddrs u]
      by_cases hu : u = t
      · simp [hu, h0]
      · simp [hu]
    · rw [if_pos h0, ← hslot]
      refine (hB.bfree hR hlog (by rwa [hslot])).bind ?_
      rintro _ s1 ⟨hlog1, hf, hB1⟩
      unfold setDin setInode
      simp only [spec_bind, spec_get, spec_modify]
      set x : Dinode := { V i with addrs := update (V i).addrs t 0 } with hx
      set s2 : State := { s1 with
        itable := update s1.itable ip { s1.itable ip with
          din := { (s1.itable ip).din with
            addrs := update (s1.itable ip).din.addrs t 0 } } } with hs2
      have hent : s2.itable = update s.itable ip { s.itable ip with din := x } := by
        rw [hs2]
        dsimp only
        rw [hf.itable, hdin]
      have hx2 : update V i x i = x := update_self _ _ _
      have hsh : Shrinks ip s V s2 (update V i x) := by
        refine ⟨⟨?_, fun j hj => update_of_ne hj _ _⟩, hf.changes.of_itable, ?_, hf.others⟩
        · rw [hent, ← hi, hx2]
        · rw [← hi, hx2]
      have hB2 : Bitmap s2 (slots s2.blk (update V i x)) := by
        rw [hx, slots_setAddr ht.le fun e => absurd e ht.ne]
        show Bitmap s2 (assign (slots s1.blk V) i t 0)
        rw [hf.slots hB.slots]
        exact ⟨hB1.layout, hB1.slots, hB1.marked⟩
      have hi2 : (s2.itable ip).inum = i := by rw [hent, update_self]
      have hsb2 : s2.sb = s.sb := hf.changes.sb
      have hdin2 : (s2.itable ip).din = update V i x (s2.itable ip).inum := by
        rw [hi2, hx2, hent, update_self]
      refine (ih hB2 (by rwa [hsb2, hi2]) hlog1 hdin2 his').imp ?_
      rintro _ s' ⟨hlog', V', hsh', hB', haddrs⟩
      refine ⟨hlog', V', hsh.trans hsh', hB', fun u => ?_⟩
      rw [hi2, hx2] at haddrs
      rw [haddrs u]
      by_cases hu : u = t
      · simp [hx, hu]
      · simp [hx, hu]

theorem itruncIndirect_spec {js : List ℕ} {inum : ℕ} (hB : Bitmap s S)
    (hR : Supply (metaBlocks s.sb inum true) R E) (hlog : R s.log) (hb : s.sb.dataStart ≤ b)
    (hjs : js.Nodup) (hword : ∀ j ∈ js, S i (NDIRECT + 1 + j) = (s.blk b).get (4 * j) 4) :
    Spec (itruncIndirect b js) s (fun _ s' => R s'.log ∧ Changes s s' ∧ s'.itable = s.itable ∧
      (∀ c, c < s.sb.bmapstart ∨ s.sb.dataStart ≤ c → s'.blk c = s.blk c) ∧
      Bitmap s' (clears S i (js.map (NDIRECT + 1 + ·)))) E := by
  induction js generalizing s S with
  | nil =>
    refine spec_pure.mpr ⟨hlog, .refl s, rfl, fun _ _ => rfl, ?_⟩
    rw [List.map_nil, clears_nil]
    exact hB
  | cons j js ih =>
    rw [List.nodup_cons] at hjs
    have hw := hword j List.mem_cons_self
    have hword' : ∀ k ∈ js, S i (NDIRECT + 1 + k) = (s.blk b).get (4 * k) 4 := fun k hk =>
      hword k (List.mem_cons_of_mem j hk)
    unfold itruncIndirect bread
    simp only [spec_bind, spec_get, spec_pure]
    rw [List.map_cons, clears_cons]
    by_cases h0 : S i (NDIRECT + 1 + j) = 0
    · rw [if_neg (by rw [← hw]; exact not_not.mpr h0), assign_zero h0]
      exact ih hB hR hlog hb hjs.2 hword'
    · rw [← hw, if_pos h0]
      refine (hB.bfree hR hlog h0).bind ?_
      rintro _ s1 ⟨hlog1, hf, hB1⟩
      have hsb := hf.changes.sb
      refine (ih hB1 (by rwa [hsb]) hlog1 (by rwa [hsb]) hjs.2 fun k hk => ?_).imp ?_
      · have hkj : k ≠ j := fun e => hjs.1 (e ▸ hk)
        rw [assign_of_ne (.inr (by omega)), hword' k hk, hf.others b (.inr hb)]
      · rintro _ s' ⟨hlog', hch, htab, hblk, hB'⟩
        refine ⟨hlog', hf.changes.trans hch, htab.trans hf.itable, fun c hc => ?_, hB'⟩
        rw [hblk c (by rwa [hsb]), hf.others c hc]

theorem slots_clearIndirect {d : ℕ → Block} :
    slots d (update V i { V i with addrs := update (V i).addrs NDIRECT 0 }) =
      assign (clears (slots d V) i ((List.range NINDIRECT).map (NDIRECT + 1 + ·))) i NDIRECT 0 := by
  funext j u
  rw [assign_eq_iff]
  unfold clears slots
  by_cases hj : j = i
  · subst hj
    rw [update_self]
    obtain hu | ⟨k, hk, rfl⟩ | hu := slot_cases u
    · rw [slot_direct hu, slot_direct hu]
      by_cases he : u = NDIRECT
      · simp [he]
      · have hnot : u ∉ (List.range NINDIRECT).map (NDIRECT + 1 + ·) := by
          intro hmem
          obtain ⟨k, -, hk⟩ := List.mem_map.mp hmem
          omega
        simp [he, hnot]
    · have hmem : NDIRECT + 1 + k ∈ (List.range NINDIRECT).map (NDIRECT + 1 + ·) :=
        List.mem_map.mpr ⟨k, List.mem_range.mpr hk, rfl⟩
      rw [slot_indirect hk, if_pos (update_self _ _ _), if_neg (by omega), if_pos ⟨rfl, hmem⟩]
    · rw [slot_beyond hu, slot_beyond hu]
      simp
  · rw [update_of_ne hj, if_neg fun h => hj h.1, if_neg fun h => hj h.1]

theorem itruncRest_spec (hB : Bitmap s (slots s.blk V))
    (hR : Supply (metaBlocks s.sb (s.itable ip).inum true) R E) (hlog : R s.log)
    (hdin : (s.itable ip).din = V (s.itable ip).inum) :
    Spec (itruncRest ip) s (fun _ s' => R s'.log ∧ ∃ V', Shrinks ip s V s' V' ∧
      Bitmap s' (slots s'.blk V') ∧
      ∀ t, (V' (s.itable ip).inum).addrs t =
        if t = NDIRECT then 0 else (V (s.itable ip).inum).addrs t) E := by
  set i := (s.itable ip).inum with hi
  unfold itruncRest
  rw [spec_get_bind]
  rw [hdin]
  by_cases h0 : (V i).addrs NDIRECT = 0
  · rw [if_neg (not_not.mpr h0), spec_pure]
    refine ⟨hlog, V, .refl hdin, hB, fun t => ?_⟩
    split_ifs with ht
    · rw [ht, h0]
    · rfl
  rw [if_pos h0]
  have hge : s.sb.dataStart ≤ (V i).addrs NDIRECT := by
    rw [← slots_eq_indirect (d := s.blk)] at h0 ⊢
    exact (hB.slots.range h0).1
  have hword : ∀ j ∈ List.range NINDIRECT, slots s.blk V i (NDIRECT + 1 + j) =
      (s.blk ((V i).addrs NDIRECT)).get (4 * j) 4 := fun j hj => by
    unfold slots
    rw [slot_indirect (List.mem_range.mp hj), if_neg h0]
  refine (itruncIndirect_spec hB hR hlog hge List.nodup_range hword).bind ?_
  rintro _ s1 ⟨hlog1, hch1, htab1, hblk1, hB1⟩
  set S1 := clears (slots s.blk V) i ((List.range NINDIRECT).map (NDIRECT + 1 + ·)) with hS1
  have hind : S1 i NDIRECT = (V i).addrs NDIRECT := by
    rw [hS1]
    unfold clears
    rw [if_neg, slots_eq_indirect]
    rintro ⟨-, hmem⟩
    obtain ⟨k, -, hk⟩ := List.mem_map.mp hmem
    omega
  rw [← hind]
  refine (hB1.bfree (by rwa [hch1.sb]) hlog1 (by rwa [hind])).bind ?_
  rintro _ s2 ⟨hlog2, hf, hB2⟩
  unfold setDin setInode
  simp only [spec_bind, spec_get, spec_modify]
  have hblk2 : ∀ c, c < s.sb.bmapstart ∨ s.sb.dataStart ≤ c → s2.blk c = s.blk c := fun c hc => by
    rw [hf.others c (by rwa [hch1.sb]), hblk1 c hc]
  refine ⟨hlog2, update V i { V i with addrs := update (V i).addrs NDIRECT 0 },
    ⟨⟨?_, fun j hj => update_of_ne hj _ _⟩, (hch1.trans hf.changes).of_itable, ?_, hblk2⟩, ?_,
    fun t => ?_⟩
  · rw [update_self]
    dsimp only
    rw [hf.itable, htab1, hdin]
  · rw [update_self]
  · rw [slots_clearIndirect]
    show Bitmap _ (assign (clears (slots s2.blk V) i _) i NDIRECT 0)
    rw [slots_of_data hB.slots fun c hc => hblk2 c (.inr hc)]
    exact ⟨hB2.layout, hB2.slots, hB2.marked⟩
  · rw [update_self]
    dsimp only
    rw [update_apply]

theorem Shrinks.foreign (h : Shrinks ip s V s' V')
    (hS : Slots s.sb.dataStart s.sb.size (slots s.blk V)) {j : ℕ} (hj : j ≠ (s.itable ip).inum)
    (u : ℕ) : slots s'.blk V' j u = slots s.blk V j u := by
  have hdata : slots s'.blk V = slots s.blk V := slots_of_data hS fun c hc => h.blk c (.inr hc)
  rw [← hdata]
  unfold slots
  rw [h.others j hj]

/-- The inode is empty, and the other inodes are as before. -/
structure Truncated (ip : Ip) (s : State) (V : ℕ → Dinode) (s' : State) (V' : ℕ → Dinode) : Prop
    extends Edits ip s V s' V' where
  rep : Consistent none s' V'
  changes : Changes s s'
  head : V' (s.itable ip).inum = { V (s.itable ip).inum with addrs := fun _ => 0, size := 0 }
  foreign : ∀ j u, j ≠ (s.itable ip).inum → slots s'.blk V' j u = slots s.blk V j u
  content : ∀ j o, j ≠ (s.itable ip).inum → content s'.blk (V' j) o = content s.blk (V j) o

/-- The state when all blocks are free and the size is 0, before `iupdate`. -/
theorem Shrinks.consistent {D : Option ℕ} (h : Shrinks ip s V s' V') (hs : Consistent D s V)
    (hD : D = none ∨ D = some (s.itable ip).inum) (hl : (s.itable ip).locked = true)
    (hB : Bitmap s' (slots s'.blk V')) (haddrs : ∀ t, (V' (s.itable ip).inum).addrs t = 0) :
    Consistent (some (s.itable ip).inum)
      { s' with
        itable := update s'.itable ip
          { s'.itable ip with din := { (s'.itable ip).din with size := 0 } } }
      (update V' (s.itable ip).inum { V' (s.itable ip).inum with size := 0 }) := by
  set i := (s.itable ip).inum with hi
  set x : Dinode := { V' i with size := 0 } with hx
  have hsb := h.changes.sb
  have hxi : update V' i x i = x := update_self _ _ _
  have hother : ∀ j, j ≠ i → update V' i x j = V j := fun j hj => by
    rw [update_of_ne hj, h.others j hj]
  have hslots : slots s'.blk (update V' i x) = slots s'.blk V' := by
    have hxa : x.addrs = (V' i).addrs := rfl
    exact slots_setHead hxa
  have htype : x.type = (V i).type := by
    rw [hx, h.head]
  have hfits := hs.owned.fits i
  constructor
  · refine hs.table.setDin hsb hl ?_ ?_ hother
    · show update s'.itable ip _ = _
      rw [h.entry, h.itable, update_idem, ← hi, hxi]
    · rw [← hi, hxi, htype]
      exact hs.table.typed ip (hs.table.locked ip hl).1 (hs.table.locked ip hl).2
  · show Owned s'.sb s'.blk (update V' i x)
    constructor
    · exact hB.layout
    · rw [hslots]
      exact hB.slots
    · rw [hslots]
      exact hB.marked
    · intro j
      by_cases hj : j = i
      · rw [hj, hxi, hx, h.head]
        refine ⟨hfits.type, hfits.major, hfits.minor, hfits.nlink, Nat.two_pow_pos _, ?_, ?_⟩
        · intro k
          dsimp only
          rw [haddrs]
          exact Nat.two_pow_pos _
        · exact fun k _ => haddrs k
      · rw [hother j hj]
        exact hs.owned.fits j
    · intro j hj u
      show slots s'.blk (update V' i x) j u = 0
      rw [hslots]
      by_cases hji : j = i
      · rw [hji]
        exact slots_of_addrs haddrs u
      · rw [hother j hji] at hj
        rw [h.foreign hs.owned.slots hji]
        exact hs.owned.free j hj u
    · intro j hj
      rw [hsb] at hj
      by_cases hji : j = i
      · rw [hji, hxi, htype]
        rw [hji] at hj
        exact hs.owned.beyond i hj
      · rw [hother j hji]
        exact hs.owned.beyond j hj
  · intro j bn hbn
    by_cases hji : j = i
    · rw [hji, hxi] at hbn
      exact absurd hbn (Nat.not_lt_zero _)
    · rw [hother j hji] at hbn
      show slots s'.blk (update V' i x) j (fileSlot bn) ≠ 0
      rw [hslots, h.foreign hs.owned.slots hji]
      exact hs.full j bn hbn
  · intro j hj hne
    have hji : j ≠ i := fun e => hne (by rw [e])
    show dinode s'.sb s'.blk j = _
    have hj' : j < s.sb.ninodes := by
      rw [← hsb]
      exact hj
    rw [hother j hji, hsb, dinode_congr (h.blk _ (.inl (hs.owned.layout.IBLOCK_lt hj')))]
    refine hs.clean j hj' fun e => ?_
    obtain rfl | rfl := hD
    · cases e
    · exact hji (Option.some.inj e).symm

/-- `itrunc` frees all blocks of the file. -/
theorem itrunc_spec {D : Option ℕ} (h : Consistent D s V)
    (hD : D = none ∨ D = some (s.itable ip).inum) (hl : (s.itable ip).locked = true)
    (hR : Supply (metaBlocks s.sb (s.itable ip).inum true) R E) (hlog : R s.log) :
    Spec (itrunc ip) s (fun _ s' => R s'.log ∧ ∃ V', Truncated ip s V s' V') E := by
  have hdin := h.table.held hl
  have hB : Bitmap s (slots s.blk V) := ⟨h.owned.layout, h.owned.slots, h.owned.marked⟩
  unfold itrunc
  rw [spec_bind]
  refine (itruncDirect_spec hB hR hlog hdin fun t ht => List.mem_range.mp ht).imp ?_
  rintro _ s1 ⟨hlog1, V1, hsh1, hB1, ha1⟩
  have hi1 := hsh1.inum ip
  have hsb1 := hsh1.changes.sb
  rw [spec_bind]
  have hdin1 : (s1.itable ip).din = V1 (s1.itable ip).inum := by rw [hsh1.entry]
  refine (itruncRest_spec hB1 (by rwa [hsb1, hi1]) hlog1 hdin1).imp ?_
  rintro _ s2 ⟨hlog2, V2, hsh2, hB2, ha2⟩
  rw [hi1] at ha2
  have hsh := hsh1.trans hsh2
  set i := (s.itable ip).inum with hi
  have haddrs : ∀ t, (V2 i).addrs t = 0 := by
    intro t
    rw [ha2 t, ha1 t]
    by_cases h1 : t = NDIRECT
    · rw [if_pos h1]
    · rw [if_neg h1]
      split_ifs with h2
      · rfl
      · rw [List.mem_range] at h2
        exact (h.owned.fits i).rest t (by omega)
  have hrep2 := hsh.consistent h hD hl hB2 haddrs
  unfold setDin setInode
  simp only [spec_bind, spec_get, spec_modify]
  set x : Dinode := { V2 i with size := 0 } with hx
  set s3 : State :=
    { s2 with
      itable := update s2.itable ip
        { s2.itable ip with din := { (s2.itable ip).din with size := 0 } } } with hs3
  have hent3 : s3.itable = update s.itable ip { s.itable ip with din := x } := by
    show update s2.itable ip _ = _
    rw [hsh.entry, hsh.itable, update_idem]
  have hi3 : (s3.itable ip).inum = i := by rw [hent3, update_self]
  have hl3 : (s3.itable ip).locked = true := by rwa [hent3, update_self]
  have hlog3 : R s3.log := hlog2
  have hpay : Spec (iupdate ip) s3 (fun _ s' => R s'.log) E := by
    unfold iupdate
    rw [spec_get_bind, spec_bind]
    apply hR.write hlog3
    rw [hi3, show s3.sb = s.sb from hsh.changes.sb]
    exact Finset.mem_insert_self _ _
  have hrep : Consistent (some (s3.itable ip).inum) s3 (update V2 i x) := by
    rw [hi3]
    exact hrep2
  refine (hpay.and (iupdate_spec .all hrep hl3)).imp ?_
  rintro _ s' ⟨hlog', hrep', hch, htab, hblk, hlh, hcont⟩
  rw [hi3] at hblk
  have hxi : update V2 i x i = x := update_self _ _ _
  have hother : ∀ j, j ≠ i → update V2 i x j = V j := fun j hj => by
    rw [update_of_ne hj, hsh.others j hj]
  have hslots : slots s'.blk (update V2 i x) = slots s2.blk V2 := by
    have hxa : x.addrs = (V2 i).addrs := rfl
    rw [slots_setHead hxa, hblk]
    refine slots_of_data hB2.slots fun c hc => ?_
    apply setDinode_of_ne
    have hds : s2.sb.bmapstart < s2.sb.dataStart := Superblock.bmapstart_lt_dataStart
    have hIB := hrep.owned.layout.IBLOCK_lt (hrep.table.bound ip (hrep.table.locked ip hl3).1)
    rw [hi3] at hIB
    have hsb3 : s3.sb = s2.sb := rfl
    rw [hsb3] at hIB ⊢
    omega
  refine ⟨hlog', update V2 i x, ⟨?_, hother⟩, hrep', hsh.changes.of_itable.trans hch, ?_, ?_, ?_⟩
  · rw [htab, hent3, ← hi, hxi]
  · have hfun : (V2 i).addrs = fun _ => 0 := funext haddrs
    rw [← hi, hxi, hx, hsh.head]
    simp only [← hi, hfun]
  · intro j u hj
    rw [hslots, hsh.foreign h.owned.slots hj]
  · intro j o hj
    rw [hcont j o, hother j hj]
    exact content_of_data h.owned.slots (fun c hc => hsh.blk c (.inr hc)) j o

end Free

/-! ## Writes, and then `itrunc` -/

/-- Blocks or entries of the log are used up, or `begin_op` waits for them. -/
def OutOfRoom (e : Panic × State) : Prop :=
  e.1 = .outOfBlocks ∨ e.1 = .blocked ∨ ∃ p, e.1 = .log p

theorem OutOfRoom.allows : Allows OutOfRoom :=
  ⟨fun p _ => .inr (.inr ⟨p, rfl⟩), fun _ => .inl rfl⟩

/-- `P` holds when an operation starts, and `Q` at the end. -/
def Along (P : State → Op → Prop) (Q : State → Prop) : State → List Op → Prop
  | s, [] => Q s
  | s, o :: os => P s o ∧ ∀ r s', o.exec s = .ok (r, s') → Along P Q s' os

/-- Writes to the inode of `ip`, from any memory, in transactions. -/
def Op.Legal (ip : Ip) (s : State) : Op → Prop
  | .beginOp => True
  | .endOp => 0 < s.log.outstanding
  | .readi _ _ _ _ => False
  | .writei k src _ n => k = ip ∧ src.Holds n

/-- There are free blocks and there is room in the log. -/
def Op.Supplied (s : State) : Op → Prop
  | .beginOp => (Logging.beginOp s.log).isSome
  | .endOp => s.log.committing = false
  | .readi _ _ _ _ => True
  | .writei k _ off n => off ≤ (s.itable k).din.size → off + n ≤ MAXFILE * BSIZE →
    WriteRoom k off n s

/-- The other inodes are as before. -/
structure Kept (ip : Ip) (s : State) (V : ℕ → Dinode) (s' : State) (V' : ℕ → Dinode) : Prop where
  rep : Consistent none s' V'
  log : LogOk s'
  sb : s'.sb = s.sb
  inum : (s'.itable ip).inum = (s.itable ip).inum
  locked : (s'.itable ip).locked = (s.itable ip).locked
  others : ∀ j, j ≠ (s.itable ip).inum → V' j = V j
  head : V' (s.itable ip).inum = { V (s.itable ip).inum with
    addrs := (V' (s.itable ip).inum).addrs, size := (V' (s.itable ip).inum).size }
  foreign : ∀ j u, j ≠ (s.itable ip).inum → slots s'.blk V' j u = slots s.blk V j u
  content : ∀ j o, j ≠ (s.itable ip).inum → content s'.blk (V' j) o = content s.blk (V j) o

theorem Kept.refl (h : Consistent none s V) (hlog : LogOk s) : Kept ip s V s V where
  rep := h
  log := hlog
  sb := rfl
  inum := rfl
  locked := rfl
  others _ _ := rfl
  head := rfl
  foreign _ _ _ := rfl
  content _ _ _ := rfl

theorem Kept.trans (h : Kept ip s V s1 V1) (h' : Kept ip s1 V1 s' V') : Kept ip s V s' V' := by
  have hi := h.inum
  constructor
  · exact h'.rep
  · exact h'.log
  · exact h'.sb.trans h.sb
  · exact h'.inum.trans hi
  · exact h'.locked.trans h.locked
  · exact fun j hj => (h'.others j (hi ▸ hj)).trans (h.others j hj)
  · have h2 := h'.head
    rw [hi, h.head] at h2
    exact h2
  · exact fun j u hj => (h'.foreign j u (hi ▸ hj)).trans (h.foreign j u hj)
  · exact fun j o hj => (h'.content j o (hi ▸ hj)).trans (h.content j o hj)

theorem Ends.kept (h : Ends s s') (hs : Consistent none s V) (hlog : LogOk s) :
    Kept ip s V s' V := by
  have hdata : ∀ c, s.sb.dataStart ≤ c → s'.blk c = s.blk c := fun c hc =>
    h.blk c (hs.owned.layout.inodestart_lt_dataStart.le.trans hc)
  constructor
  · exact h.consistent hs
  · exact h.logOk hlog
  · rw [h.state]
  · rw [h.state]
  · rw [h.state]
  · exact fun _ _ => rfl
  · rfl
  · exact fun j u _ => congrFun (congrFun (slots_of_data hs.owned.slots hdata) j) u
  · exact fun j o _ => content_of_data hs.owned.slots hdata j o

theorem Written.kept {z off n r : ℕ} {src : Mem} (h : Written none z ip src off n r s V s' V')
    (hlog : LogOk s) : Kept ip s V s' V' := by
  have hent := h.entry
  constructor
  · exact h.rep
  · exact hlog.logs h.toLogOnly
  · exact h.sb
  · rw [hent]
  · rw [hent]
  · exact h.others
  · have hz : (V' (s.itable ip).inum).size = z := h.size_eq
    have h2 := h.head
    rwa [← hz] at h2
  · exact h.foreign
  · intro j o hj
    rw [h.content j o, if_neg fun e => hj e.1]

section Run

variable (h : Consistent none s V) (hlog : LogOk s) (hl : (s.itable ip).locked = true)
include h hlog hl

theorem Op.kept {o : Op} (ho : o.Legal ip s) :
    Spec o.exec s (fun _ s' => ∃ V', Kept ip s V s' V') OutOfRoom := by
  cases o with
  | beginOp =>
    simp only [Op.exec]
    unfold Fs.beginOp
    rw [spec_bind, spec_bind, spec_get]
    cases hl : Logging.beginOp s.log with
    | none => exact spec_panic.mpr (.inr (.inl rfl))
    | some l =>
      obtain ⟨-, rfl⟩ := Logging.beginOp_eq_some hl
      dsimp only
      rw [spec_modify, spec_pure]
      exact ⟨V, h.congr rfl rfl fun _ _ => rfl, ⟨hlog.size, hlog.length, hlog.above⟩, rfl, rfl, rfl,
        fun _ _ => rfl, rfl, fun _ _ _ => rfl, fun _ _ _ => rfl⟩
  | endOp =>
    simp only [Op.exec]
    by_cases hc : s.log.committing = false
    · refine (endOp_spec h.owned.layout hlog ho hc).bind fun _ s' he => ?_
      exact spec_pure.mpr ⟨V, he.kept h hlog⟩
    · have herr : Logging.endOp s.log = .error .committing := by
        unfold Logging.endOp
        simp [hc]
      unfold Fs.endOp
      rw [spec_bind, spec_bind, spec_get, herr]
      exact spec_panic.mpr (.inr (.inr ⟨_, rfl⟩))
  | readi => exact ho.elim
  | writei k src off n =>
    obtain ⟨rfl, hsrc⟩ := ho
    simp only [Op.exec]
    refine (writei_spec OutOfRoom.allows h hl hsrc).bind fun r s' hr => ?_
    rw [spec_pure]
    cases r with
    | none =>
      obtain ⟨rfl, -⟩ := hr
      exact ⟨V, .refl h hlog⟩
    | some r =>
      obtain ⟨-, V', hw⟩ := hr
      exact ⟨V', hw.kept hlog⟩

theorem Op.ends {o : Op} (ho : o.Legal ip s) (hsup : o.Supplied s) :
    Spec o.exec s (fun _ _ => True) fun _ => False := by
  cases o with
  | beginOp =>
    obtain ⟨l, hl⟩ := Option.isSome_iff_exists.mp hsup
    simp only [Op.exec]
    unfold Fs.beginOp
    rw [spec_bind, spec_bind, spec_get, hl]
    dsimp only
    rw [spec_modify, spec_pure]
    trivial
  | endOp =>
    simp only [Op.exec]
    exact (endOp_spec h.owned.layout hlog ho hsup).bind fun _ _ _ => spec_pure.mpr trivial
  | readi => exact ho.elim
  | writei k src off n =>
    obtain ⟨rfl, hsrc⟩ := ho
    simp only [Op.exec]
    simp only [Op.Supplied, h.table.held hl] at hsup
    by_cases hin : off ≤ (V (s.itable k).inum).size ∧ off + n ≤ MAXFILE * BSIZE
    · exact (writei_room h hl (hsup hin.1 hin.2) hin.1 hin.2 hsrc).bind fun _ _ _ =>
        spec_pure.mpr trivial
    · exact (writei_refused h hl hin).bind fun _ _ _ => spec_pure.mpr trivial

variable {ops : List Op} (hops : Along (Op.Legal ip) (fun _ => True) s ops)
include hops

/-- Whatever is written, the other inodes stay as they are. -/
theorem exec_kept :
    Spec (exec ops) s (fun _ s' => ∃ V', Kept ip s V s' V') OutOfRoom := by
  induction ops generalizing s V with
  | nil => exact spec_pure.mpr ⟨V, .refl h hlog⟩
  | cons o os ih =>
    obtain ⟨ho, hos⟩ := hops
    unfold exec
    rw [List.mapM_cons]
    apply (Op.kept h hlog hl ho).bind_of_ok
    rintro r s1 hr ⟨V1, h1⟩
    refine (ih h1.rep h1.log (by rwa [h1.locked]) (hos r s1 hr)).bind ?_
    rintro rs s' ⟨V', h'⟩
    exact spec_pure.mpr ⟨V', h1.trans h'⟩

theorem exec_ends (hsup : Along Op.Supplied (Budget ip ⟨true, false⟩ 0) s ops) :
    Spec (exec ops) s (fun _ s' => Budget ip ⟨true, false⟩ 0 s') fun _ => False := by
  induction ops generalizing s V with
  | nil => exact spec_pure.mpr hsup
  | cons o os ih =>
    obtain ⟨ho, hos⟩ := hops
    obtain ⟨hsup, hsups⟩ := hsup
    unfold exec
    rw [List.mapM_cons]
    apply ((Op.ends h hlog hl ho hsup).and (Op.kept h hlog hl ho)).bind_of_ok
    rintro r s1 hr ⟨-, V1, h1⟩
    refine (ih h1.rep h1.log (by rwa [h1.locked]) (hos r s1 hr) (hsups r s1 hr)).bind ?_
    exact fun rs s' h' => spec_pure.mpr h'

end Run

/-- The bitmap and the other inodes are what they were, and the inode is empty. -/
structure Restored (ip : Ip) (s s' : State) : Prop where
  consistent : ∃ V', Consistent none s' V'
  bitmap : ∀ b < s.sb.size, inUse s'.sb s'.blk b = inUse s.sb s.blk b
  size : (s'.itable ip).din.size = 0
  addrs : ∀ t, (s'.itable ip).din.addrs t = 0
  disk : dinode s'.sb s'.blk (s.itable ip).inum = (s'.itable ip).din
  others : ∀ j < s.sb.ninodes, j ≠ (s.itable ip).inum →
    dinode s'.sb s'.blk j = dinode s.sb s.blk j ∧
    (∀ u, slot s'.blk (dinode s'.sb s'.blk j) u = slot s.blk (dinode s.sb s.blk j) u) ∧
    array s' j = array s j

theorem inUse_eq {d d' : ℕ → Block} {sb : Superblock} (h : Owned sb d V) (h' : Owned sb d' V')
    (hother : ∀ j u, j ≠ i → slots d' V' j u = slots d V j u) (hi : ∀ u, slots d V i u = 0)
    (hi' : ∀ u, slots d' V' i u = 0) (hb : b < sb.size) : inUse sb d' b = inUse sb d b := by
  have hpos : 0 < sb.dataStart := Nat.succ_pos _
  have hiff : (b < sb.dataStart ∨ ∃ j u, slots d' V' j u = b) ↔
      (b < sb.dataStart ∨ ∃ j u, slots d V j u = b) := by
    constructor
    · rintro (hlo | ⟨j, u, rfl⟩)
      · exact .inl hlo
      · by_cases hj : j = i
        · rw [hj, hi' u]
          exact .inl hpos
        · exact .inr ⟨j, u, (hother j u hj).symm⟩
    · rintro (hlo | ⟨j, u, rfl⟩)
      · exact .inl hlo
      · by_cases hj : j = i
        · rw [hj, hi u]
          exact .inl hpos
        · exact .inr ⟨j, u, hother j u hj⟩
  rw [Bool.eq_iff_iff, h'.marked b hb, h.marked b hb]
  exact hiff

theorem Kept.restored (h : Kept ip s V s1 V1) (ht : Truncated ip s1 V1 s' V')
    (hs : Consistent none s V) (hl : (s.itable ip).locked = true)
    (hnew : ∀ t, (s.itable ip).din.addrs t = 0) : Restored ip s s' := by
  have hi := h.inum
  have hsb : s'.sb = s.sb := ht.changes.sb.trans h.sb
  have hlt : (s.itable ip).inum < s.sb.ninodes := hs.table.bound ip (hs.table.locked ip hl).1
  rw [hs.table.held hl] at hnew
  have hdin : (s'.itable ip).din = V' (s.itable ip).inum := by
    rw [ht.itable, update_self, hi]
  have hhead := ht.head
  rw [hi] at hhead
  have haddrs : ∀ t, (V' (s.itable ip).inum).addrs t = 0 := fun t => by rw [hhead]
  have hV : ∀ j, j ≠ (s.itable ip).inum → V' j = V j := fun j hj =>
    (ht.others j (hi ▸ hj)).trans (h.others j hj)
  have hforeign : ∀ j u, j ≠ (s.itable ip).inum → slots s'.blk V' j u = slots s.blk V j u :=
    fun j u hj => (ht.foreign j u (hi ▸ hj)).trans (h.foreign j u hj)
  have hown := ht.rep.owned
  rw [hsb] at hown
  constructor
  · exact ⟨V', ht.rep⟩
  · intro b hb
    rw [hsb]
    exact inUse_eq hs.owned hown hforeign (slots_of_addrs hnew) (slots_of_addrs haddrs) hb
  · rw [hdin, hhead]
  · intro t
    rw [hdin, haddrs]
  · rw [hdin]
    exact ht.rep.clean _ (by rwa [hsb]) nofun
  · intro j hj hne
    have hj' : j < s'.sb.ninodes := by rwa [hsb]
    have hd := hs.clean j hj nofun
    have hd' : dinode s'.sb s'.blk j = V j := by rw [ht.rep.clean j hj' nofun, hV j hne]
    refine ⟨by rw [hd', hd], fun u => ?_, ?_⟩
    · have hu : slot s'.blk (V' j) u = slot s.blk (V j) u := hforeign j u hne
      rwa [hd', hd, ← hV j hne] at *
    · rw [ht.rep.array_eq hj', hs.array_eq hj, hV j hne]
      refine List.map_congr_left fun o _ => ?_
      have h1 := ht.content j o (hi ▸ hne)
      have h2 := h.content j o hne
      rw [hV j hne] at h1
      exact h1.trans h2

/-- Writes to an inode without blocks, of any length, at any offset and from any memory, and then
`itrunc`. Only what is used up can stop it; with enough blocks and room in the log it ends. -/
theorem itrunc_restores {ops : List Op} (h : Consistent none s V) (hlog : LogOk s)
    (hl : (s.itable ip).locked = true) (hnew : ∀ t, (s.itable ip).din.addrs t = 0)
    (hops : Along (Op.Legal ip) (fun _ => True) s ops) :
    Spec (do let _ ← exec ops; itrunc ip) s (fun _ s' => Restored ip s s') OutOfRoom ∧
      (Along Op.Supplied (Budget ip ⟨true, false⟩ 0) s ops →
        ∃ s', (do let _ ← exec ops; itrunc ip : Kern Unit) s = .ok ((), s')) := by
  have hkept := exec_kept h hlog hl hops
  constructor
  · refine hkept.bind ?_
    rintro rs s1 ⟨V1, h1⟩
    have hsup : Supply (metaBlocks s1.sb (s1.itable ip).inum true) (fun _ => True) OutOfRoom :=
      .of_allows OutOfRoom.allows
    refine (itrunc_spec h1.rep (.inl rfl) (by rwa [h1.locked]) hsup trivial).imp ?_
    rintro _ s' ⟨-, V', ht⟩
    exact h1.restored ht h hl hnew
  · intro hsup
    have hends : Spec (do let _ ← exec ops; itrunc ip : Kern Unit) s (fun _ _ => True)
        fun _ => False := by
      refine ((exec_ends h hlog hl hops hsup).and hkept).bind ?_
      rintro rs s1 ⟨hB, V1, h1⟩
      have hroom : load (metaBlocks s1.sb (s1.itable ip).inum true) s1.log.lh < capacity s1.log :=
        (Nat.le_add_right _ _).trans_lt hB.log
      exact (itrunc_spec h1.rep (.inl rfl) (by rwa [h1.locked]) .of_load ⟨hB.trans, hroom⟩).imp
        fun _ _ _ => trivial
    obtain ⟨a, s', hs', -⟩ := hends.exists_ok
    exact ⟨s', hs'⟩

section Example

/-- The file of two bytes, truncated. -/
def emptiedState : State :=
  match itrunc ⟨0, NINODE_pos⟩ twoBytesState with
  | .ok (_, s) => s
  | .error (_, s) => s

theorem itrunc_twoBytesState : itrunc ⟨0, by decide⟩ twoBytesState = .ok ((), emptiedState) := rfl

/-- The state after an operation. -/
def Op.after (o : Op) (s : State) : State :=
  match o.exec s with
  | .ok (_, s') => s'
  | .error (_, s') => s'

theorem Op.after_eq {o : Op} {r : Result} (h : o.exec s = .ok (r, s')) : s' = o.after s := by
  unfold Op.after
  rw [h]

/-- A write that takes a block. -/
def firstWrite : Op := .writei ⟨0, by decide⟩ (.kernel [1, 2]) 0 2

/-- A write whose copy fails half way. -/
def secondWrite : Op := .writei ⟨0, by decide⟩ (.user onePage 4095) 0 2

theorem twoWrites_supplied : Along Op.Supplied (Budget ⟨0, by decide⟩ ⟨true, false⟩ 0)
    emptiedState [firstWrite, secondWrite] := by
  refine ⟨fun _ _ => ⟨⟨by decide, by decide +kernel⟩, ?_⟩, fun r s1 h1 => ⟨fun _ _ => ?_, ?_⟩⟩
  · have hmiss : missing emptiedState ⟨0, by decide⟩ 0 2 = 1 := by decide +kernel
    rw [hmiss, Nat.succ_le_iff]
    refine Finset.card_pos.mpr ⟨Mkfs.nmeta, ?_⟩
    rw [Finset.mem_filter, Finset.mem_range]
    exact ⟨by decide, by decide +kernel⟩
  · rw [Op.after_eq h1]
    have hmiss : missing (firstWrite.after emptiedState) ⟨0, by decide⟩ 0 2 = 0 := by
      decide +kernel
    exact ⟨⟨by decide +kernel, by decide +kernel⟩, hmiss.trans_le (Nat.zero_le _)⟩
  · intro r s2 h2
    rw [Op.after_eq h2, Op.after_eq h1]
    exact ⟨by decide +kernel, by decide +kernel⟩

/-- The run ends, and the block that the first write took is free again. -/
theorem itrunc_restores_emptied : ∃ s',
    (do let _ ← exec [firstWrite, secondWrite]; itrunc ⟨0, by decide⟩ : Kern Unit) emptiedState =
      .ok ((), s') ∧
    Restored ⟨0, by decide⟩ emptiedState s' := by
  have hspec : Spec (itrunc ⟨0, by decide⟩) twoBytesState _ _ :=
    itrunc_spec twoBytesState_consistent (.inl rfl) rfl (Supply.of_allows .all) trivial
  obtain ⟨-, V', ht⟩ := hspec.of_ok itrunc_twoBytesState
  have hlog : LogOk twoBytesState := ⟨by decide, by decide, by decide⟩
  have hnew : ∀ t, (emptiedState.itable ⟨0, by decide⟩).din.addrs t = 0 := fun t => by
    rw [ht.itable, update_self, ht.head]
  have hlegal : Along (Op.Legal ⟨0, by decide⟩) (fun _ => True) emptiedState
      [firstWrite, secondWrite] :=
    ⟨⟨rfl, le_rfl⟩, fun _ _ _ => ⟨⟨rfl, trivial⟩, fun _ _ _ => trivial⟩⟩
  obtain ⟨hrestored, hends⟩ := itrunc_restores ht.rep (hlog.logs ht.changes.toLogOnly) rfl hnew hlegal
  obtain ⟨s', hs'⟩ := hends twoWrites_supplied
  exact ⟨s', hs', hrestored.of_ok hs'⟩

end Example

end TatakOS.Fs
