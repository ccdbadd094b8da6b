import Mathlib.Data.List.GetD
import TatakOS.Log.Steps

/-!
# `commit` and `recover_from_log`

The steps of the code of the log. Each of its four kinds of disk writes keeps `RecOk`: a block of
the log that the header does not name yet (`RecOk.write_log`), the header of a full log
(`RecOk.commit`), a home block that the header names (`RecOk.write_home`), and the empty header
once every block is in its place (`RecOk.clear`).
-/

namespace TatakOS.Logging

open Function

section Disk

variable {g : Geom} {disk E C : ℕ → Block} {lh : List ℕ} {b : ℕ} {d : Block} {j : ℕ}

theorem Geom.not_home_start (g : Geom) : ¬ g.home g.start := by
  have := g.pos
  unfold Geom.home
  omega

theorem LhOk.not_home (h : LhOk g lh) (hj : j < lh.length) : ¬ g.home (g.start + j + 1) := by
  have := h.length.2
  unfold Geom.home
  omega

theorem LhOk.getD_mem (hj : j < lh.length) : lh.getD j 0 ∈ lh := by
  rw [List.getD_eq_getElem _ _ hj]
  exact List.getElem_mem hj

theorem LhOk.home_getD (h : LhOk g lh) (hj : j < lh.length) : g.home (lh.getD j 0) :=
  h.home _ (LhOk.getD_mem hj)

theorem LhOk.getD_inj (h : LhOk g lh) {k : ℕ} (hj : j < lh.length) (hk : k < lh.length)
    (e : lh.getD j 0 = lh.getD k 0) : j = k := by
  rw [List.getD_eq_getElem _ _ hj, List.getD_eq_getElem _ _ hk] at e
  exact (List.Nodup.getElem_inj_iff h.nodup).mp e

theorem getD_idxOf (hb : b ∈ lh) : lh.getD (lh.idxOf b) 0 = b := by
  rw [List.getD_eq_getElem _ _ (List.idxOf_lt_length_of_mem hb)]
  exact List.getElem_idxOf _

theorem installed_getD (h : LhOk g lh) (hj : j < lh.length) :
    installed g disk lh (lh.getD j 0) = disk (g.start + j + 1) := by
  have hmem := LhOk.getD_mem hj
  have hidx : lh.idxOf (lh.getD j 0) = j :=
    h.getD_inj (List.idxOf_lt_length_of_mem hmem) hj (getD_idxOf hmem)
  unfold installed
  rw [if_pos hmem, hidx]

theorem RecOk.write_log (h : RecOk g disk C []) (hb : ¬ g.home b) (hne : b ≠ g.start) :
    RecOk g (update disk b d) C [] := by
  refine ⟨?_, h.fits, fun b' hb' => ?_⟩
  · rw [update_of_ne hne.symm]
    exact h.header
  · have e : b' ≠ b := by
      rintro rfl
      exact hb hb'
    have := h.install b' hb'
    simpa [installed, e] using this

theorem RecOk.write_home (h : RecOk g disk C lh) (hb : b ∈ lh) :
    RecOk g (update disk b d) C lh := by
  have hhome := h.fits.home b hb
  refine ⟨?_, h.fits, fun b' hb' => ?_⟩
  · have e : g.start ≠ b := by
      rintro rfl
      exact g.not_home_start hhome
    rw [update_of_ne e]
    exact h.header
  · rw [← h.install b' hb']
    unfold installed
    split_ifs with hmem
    · have e : g.start + lh.idxOf b' + 1 ≠ b := by
        intro e
        exact h.fits.not_home (List.idxOf_lt_length_of_mem hmem) (e ▸ hhome)
      rw [update_of_ne e]
    · have e : b' ≠ b := by
        rintro rfl
        exact hmem hb
      rw [update_of_ne e]

theorem RecOk.clear (hd : getHead d = some []) (hhome : ∀ b, g.home b → disk b = C b) :
    RecOk g (update disk g.start d) C [] := by
  refine ⟨by simpa using hd, ⟨List.nodup_nil, by simp, by simp, by simp⟩, fun b hb => ?_⟩
  have e : b ≠ g.start := by
    rintro rfl
    exact g.not_home_start hb
  simpa [installed, e] using hhome b hb

theorem RecOk.commit {pending : ℕ → Option Block} (h : RecOk g disk C []) (hlh : LhOk g lh)
    (hd : getHead d = some lh) (hpend : ∀ b, pending b = if b ∈ lh then some (E b) else none)
    (hlog : ∀ j < lh.length, disk (g.start + j + 1) = E (lh.getD j 0)) :
    RecOk g (update disk g.start d) (applyGroup C pending) lh := by
  refine ⟨by simpa using hd, hlh, fun b hb => ?_⟩
  have e : b ≠ g.start := by
    rintro rfl
    exact g.not_home_start hb
  unfold installed applyGroup
  rw [hpend]
  split_ifs with hmem
  · have hidx := List.idxOf_lt_length_of_mem hmem
    rw [update_of_ne (by omega), hlog _ hidx, getD_idxOf hmem]
    rfl
  · have := h.install b hb
    simpa [installed, e] using this

end Disk

variable {T : Type} [DecidableEq T] {g : Geom} {base : ℕ → Block} {s s' : State T} {t : T}
  {i i' : BufId} {b b' : ℕ} {j j₀ : Job} {pins : List ℕ} {E C : ℕ → Block} {d : Block} {tail : ℕ}

/-! ## Its buffers -/

variable {x : Thread} {rest : List BufId}

section

omit [DecidableEq T]

variable (h : SysOk g s x) (hj : x.job = j)
include h hj

theorem SysOk.head {bs : List ℕ} (hr : x.regs = i :: rest) (hb : j.blocks g s.log.lh = b :: bs) :
    (s.cache.buf i).blockno = b ∧ rest.map (fun i => (s.cache.buf i).blockno) = bs := by
  have := h.regs
  rwa [hr, hj, hb, List.map_cons, List.cons.injEq] at this

theorem SysOk.two (hr : x.regs = i :: i' :: rest) (hb : j.blocks g s.log.lh = [b, b']) :
    rest = [] ∧ (s.cache.buf i).blockno = b ∧ (s.cache.buf i').blockno = b' := by
  obtain ⟨h1, h2⟩ := h.head hj hr hb
  simp only [List.map_cons, List.cons.injEq, List.map_eq_nil_iff] at h2
  exact ⟨h2.2, h1, h2.1⟩

theorem SysOk.erase {bs : List ℕ} (hr : x.regs = i :: rest) (hb : j.blocks g s.log.lh = b :: bs) :
    (x.regs.erase i).map (fun i => (s.cache.buf i).blockno) = bs := by
  rw [hr, List.erase_cons_head]
  exact (h.head hj hr hb).2

theorem SysOk.erase_second (hr : x.regs = i :: i' :: rest) (hb : j.blocks g s.log.lh = [b, b'])
    (hne : b ≠ b') :
    (x.regs.erase i').map (fun i => (s.cache.buf i).blockno) = [b] := by
  obtain ⟨rfl, h1, h2⟩ := h.two hj hr hb
  have e : i ≠ i' := by
    rintro rfl
    exact hne (h1.symm.trans h2)
  rw [hr, List.erase_cons_tail (by simpa using e), List.erase_cons_head, List.map_singleton, h1]

end

section

variable (hc : CacheOk s.cache s.holds pins E) (h : SysOk g s (s.th t)) (hj : (s.th t).job = j)
  (hi : i ∈ (s.th t).regs)
include hc h hj hi

/-- The buffer that was changed is the one whose block the code is about to write. -/
theorem dirty_of_changed (hch : j.changed g s.log.lh = [(s.cache.buf i).blockno]) :
    (s.th t).dirty = [i] := by
  obtain ⟨users, hc⟩ := hc
  have := h.dirty
  rw [hj, hch] at this
  obtain ⟨k, hk, hb⟩ := List.map_eq_singleton_iff.mp this
  have hk' : k ∈ (s.th t).regs := hc.dirty t k (by simp [State.holds, hk])
  rw [hk, hc.uniq k i (hc.dev_of_regs (t := t) hk') (hc.dev_of_regs (t := t) hi) hb]

theorem data_of_changed {P : Block → Prop} (hch : j.changed g s.log.lh = [(s.cache.buf i).blockno])
    (hnew : ∀ d ∈ s.new (s.th t), P d) : P (s.cache.buf i).data := by
  refine hnew _ ?_
  rw [State.new, dirty_of_changed hc h hj hi hch]
  exact List.mem_singleton_self _

theorem data_of_sys (hch : j.changed g s.log.lh = []) :
    (s.cache.buf i).data = E (s.cache.buf i).blockno := by
  obtain ⟨users, hc⟩ := hc
  have hd := h.dirty
  rw [hj, hch, List.map_eq_nil_iff] at hd
  exact hc.data_of_regs (t := t) hi (by simp [State.holds, hd])

end

/-! ## Its steps, without what is special to each -/

section Sys

variable (hc : CacheOk s.cache s.holds pins E) (hl : LogOk g s pins E (applyGroups base s.groups))
  (hj₀ : (s.th t).job = j₀) (hio : (s.th t).io = .ready) (hs : j₀.sys = true) (hj : j.sys = true)
  (hrec : j.recovering = j₀.recovering)

include hc hl hj₀ hio hs hj hrec

theorem inv_goto_sys {lh : List ℕ} (hlh : LhOk g lh) (hb : j.blocks g lh = j₀.blocks g s.log.lh)
    (hch : j.changed g lh = j₀.changed g s.log.lh)
    (hph : Phase g ⟨lh, s.cache.disk, s.pending⟩ pins E (applyGroups base s.groups)
      (s.new (s.th t)) j) :
    Inv g base { s.goto t j with log := { s.log with lh := lh } } := by
  subst hj₀
  refine ⟨pins, E, hc.goto rfl rfl, ?_⟩
  refine hl.sys_step hc hs rfl hj hrec rfl rfl rfl rfl (fun _ _ _ _ => rfl) hlh hl.recover
    ⟨?_, fun k hk => ?_, ?_⟩ hph
  · exact (hl.sys t hs).regs.trans hb.symm
  · simp [hio] at hk
  · exact (hl.sys t hs).dirty.trans hch.symm

variable (hi : i ∈ (s.th t).regs) (hb : j.blocks g s.log.lh = j₀.blocks g s.log.lh)

include hi hb

theorem inv_setData_sys (hch : j₀.changed g s.log.lh = [])
    (hch' : j.changed g s.log.lh = [(s.cache.buf i).blockno])
    (hph : Phase g s.view pins E (applyGroups base s.groups) [d] j) :
    Inv g base (s.setData t i d j) := by
  subst hj₀
  obtain ⟨users, hc⟩ := hc
  have hok := hl.sys t hs
  have hdirty : (s.th t).dirty = [] := by
    have := hok.dirty
    rwa [hch, List.map_eq_nil_iff] at this
  have hblk := fun k => (s.cache.setData_buf i d k).2
  refine ⟨pins, E, ⟨users, ?_⟩, ?_⟩
  · rw [holds_update t rfl]
    exact hc.setData (t := t) hi d
  · refine hl.sys_step ⟨users, hc⟩ hs rfl hj hrec rfl rfl rfl rfl (fun _ _ k _ => hblk k) hl.lh
      hl.recover ⟨?_, fun k hk => ?_, ?_⟩ ?_
    · show (s.th t).regs.map (fun k => ((s.cache.setData i d).buf k).blockno) = j.blocks g s.log.lh
      simp only [hblk]
      exact hok.regs.trans hb.symm
    · simp [hio] at hk
    · show (i :: (s.th t).dirty).map (fun k => ((s.cache.setData i d).buf k).blockno) =
        j.changed g s.log.lh
      simp only [hblk, hdirty, hch', List.map_cons, List.map_nil]
    · have hnew : State.new (s.setData t i d j)
          { s.th t with dirty := i :: (s.th t).dirty, job := j } = [d] := by
        simp [State.new, State.setData, Cache.setData, hdirty]
      rw [hnew]
      exact hph

theorem logOk_bwrite {C' : ℕ → Block}
    (hch : j₀.changed g s.log.lh = [(s.cache.buf i).blockno]) (hch' : j.changed g s.log.lh = [])
    (hth : s'.th = (s.bwrite t i j).th) (hcache : s'.cache = s.cache.bwrite i)
    (hlog : s'.log = s.log) (hup : s'.up = s.up)
    (hrecover : ∃ h, RecOk g s'.cache.disk C' h)
    (hph : ∀ new, Phase g s'.view pins
      (update E (s.cache.buf i).blockno (s.cache.buf i).data) C' new j) :
    CacheOk s'.cache s'.holds pins
        (update E (s.cache.buf i).blockno (s.cache.buf i).data) ∧
      LogOk g s' pins (update E (s.cache.buf i).blockno (s.cache.buf i).data) C' := by
  subst hj₀
  have hok := hl.sys t hs
  have hdirty := dirty_of_changed hc hok rfl hi hch
  obtain ⟨users, hc⟩ := hc
  refine ⟨⟨users, ?_⟩, ?_⟩
  · rw [holds_update (s := s) t hth, hcache]
    exact hc.bwrite (t := t) hi
  · have hblk : ∀ k, (s'.cache.buf k).blockno = (s.cache.buf k).blockno := by
      intro k
      rw [hcache]
      rfl
    refine hl.sys_step ⟨users, hc⟩ hs hth hj hrec (by rw [hlog]) (by rw [hlog]) (by rw [hlog]) hup
      (fun _ _ k _ => hblk k) (by rw [hlog]; exact hl.lh) hrecover ⟨?_, fun k hk => ?_, ?_⟩ (hph _)
    · simp only [hblk, hlog]
      exact hok.regs.trans hb.symm
    · simp [hio] at hk
    · simp [hlog, hch', hdirty]

theorem inv_unpin {pins' : List ℕ} (hch : j.changed g s.log.lh = j₀.changed g s.log.lh)
    (hmem : (s.cache.buf i).blockno ∈ pins)
    (hE : s.cache.disk (s.cache.buf i).blockno = E (s.cache.buf i).blockno)
    (hpins : ∀ b, b ∈ pins' ↔ b ∈ pins ∧ b ≠ (s.cache.buf i).blockno)
    (hph : ∀ new, Phase g s.view pins' E (applyGroups base s.groups) new j) :
    Inv g base { s.goto t j with cache := s.cache.bunpin i } := by
  subst hj₀
  have hok := hl.sys t hs
  have hblk := fun k => (s.cache.same_bunpin i k).2.1
  obtain ⟨users, hc⟩ := hc
  refine ⟨pins', E, ?_, ?_⟩
  · exact CacheOk.goto (s := { s with cache := s.cache.bunpin i })
      ⟨_, hc.bunpin (t := t) hi hmem hE hpins⟩ rfl rfl
  · refine hl.sys_step ⟨users, hc⟩ hs rfl hj hrec rfl rfl rfl rfl (fun _ _ k _ => hblk k) hl.lh
      hl.recover ⟨?_, fun k hk => ?_, ?_⟩ (hph _)
    · simp only [hblk]
      exact hok.regs.trans hb.symm
    · simp [hio] at hk
    · simp only [hblk]
      exact hok.dirty.trans hch.symm

end Sys

/-! ## `write_log` -/

variable {v : View}

theorem Uncommitted.recOk (hu : Uncommitted g v pins E) {h : List ℕ}
    (hr : RecOk g v.disk C h) : RecOk g v.disk C [] := by
  have := hr.header
  rw [hu.header] at this
  cases this
  exact hr

theorem Uncommitted.write_log (hu : Uncommitted g v pins E) (hb : ¬ g.home b)
    (hne : b ≠ g.start) (hlh : LhOk g v.lh) :
    Uncommitted g { v with disk := update v.disk b d } pins (update E b d) := by
  refine ⟨?_, hu.pins, fun b' => ?_⟩
  · show getHead (update v.disk b d g.start) = _
    rw [update_of_ne hne.symm]
    exact hu.header
  · show v.pending b' = _
    rw [hu.pending]
    split_ifs with hmem
    · have e : b' ≠ b := by
        rintro rfl
        exact hb (hlh.home b' hmem)
      rw [update_of_ne e]
    · rfl

theorem copied_update {lh : List ℕ} (hlh : LhOk g lh) (ht : tail < lh.length)
    (h : ∀ j < tail, E (g.start + j + 1) = E (lh.getD j 0)) (hd : d = E (lh.getD tail 0)) :
    ∀ j < tail + 1, update E (g.start + tail + 1) d (g.start + j + 1) =
      update E (g.start + tail + 1) d (lh.getD j 0) := by
  intro j hj
  have e : lh.getD j 0 ≠ g.start + tail + 1 := by
    intro e
    exact hlh.not_home ht (e ▸ hlh.home_getD (show j < lh.length by omega))
  rw [update_of_ne e]
  rcases eq_or_ne j tail with rfl | hne
  · rw [update_self, hd]
  · rw [update_of_ne (by omega)]
    exact h j (by omega)

variable {k : Copy}

theorem inv_writeLog (hi : Inv g base s) (hj : (s.th t).job = .writeLog tail k)
    (hio : (s.th t).io = .ready) (h : writeLogStep g s t tail k = some s') : Inv g base s' := by
  obtain ⟨pins, E, hc, hl, hok, hun, hin, hcopied, hnew⟩ := hi.at_job hj rfl
  unfold writeLogStep at h
  split at h
  · split_ifs at h with hlt
    · exact inv_bread_sys hi hj hio (if_pos hlt) h
    · cases h
      have hall : tail = s.log.lh.length := by
        have : tail ≤ s.log.lh.length := hin
        omega
      exact inv_goto_sys (j := .writeHead .commit .read) hc hl hj hio rfl rfl rfl hl.lh rfl rfl
        ⟨hun, fun j hj => hcopied j (by rw [hall]; exact hj), by simp⟩
  · exact inv_bread_sys hi hj hio rfl h
  · rename_i src dst rest hr
    cases h
    obtain ⟨-, hsrc, hdst⟩ := hok.two hj hr rfl
    have hdata := data_of_sys (t := t) (i := src) hc hok hj (by simp [hr]) rfl
    refine inv_setData_sys hc hl hj hio rfl rfl rfl (by simp [hr]) rfl rfl (by rw [hdst]; rfl)
      ⟨hun, hin, hcopied, fun _ d hd => ?_⟩
    rw [List.mem_singleton.mp hd, hdata, hsrc]
    rfl
  · rename_i src dst rest hr
    cases h
    obtain ⟨-, -, hdst⟩ := hok.two hj hr rfl
    have hlt : tail < s.log.lh.length := hin
    have hch : (Job.writeLog tail .write).changed g s.log.lh = [(s.cache.buf dst).blockno] := by
      rw [hdst]
      rfl
    have hd := data_of_changed hc hok hj (by simp [hr]) hch (hnew rfl)
    have hne : (s.cache.buf dst).blockno ≠ g.start := by omega
    have hhome : ¬ g.home (s.cache.buf dst).blockno := by
      rw [hdst]
      exact hl.lh.not_home hlt
    obtain ⟨hh, hrec⟩ := hl.recover
    refine ⟨pins, _, logOk_bwrite (j := .writeLog tail .fst) hc hl hj hio rfl rfl rfl
      (by simp [hr]) rfl hch rfl rfl rfl rfl rfl
      ⟨[], (hun.recOk hrec).write_log hhome hne⟩ fun new => ⟨?_, hlt, ?_, by simp⟩⟩
    · exact hun.write_log hhome hne hl.lh
    · rw [hdst]
      exact copied_update hl.lh hlt hcopied hd
  · rename_i src rest hr
    exact inv_brelse_sys (j := .writeLog tail .snd) hc hl hj hio rfl rfl rfl
      (hok.erase hj hr rfl) rfl (fun _ => ⟨hun, hin, hcopied, by simp⟩) h
  · rename_i dst rest hr
    refine inv_brelse_sys (j := .writeLog (tail + 1) .log) hc hl hj hio rfl rfl rfl
      (hok.erase hj hr rfl) rfl (fun _ => ⟨hun, ?_, hcopied, by simp⟩) h
    exact Nat.succ_le_of_lt hin
  · cases h

/-! ## `install_trans` -/

theorem Committed.recOk (hm : Committed g v E C) {h : List ℕ}
    (hr : RecOk g v.disk C h) : RecOk g v.disk C v.lh := by
  have := hr.header
  rw [hm.header] at this
  cases this
  exact hr

theorem Committed.write_home (hm : Committed g v E C) (hb : g.home b) :
    Committed g { v with disk := update v.disk b d } E C := by
  refine ⟨?_, hm.pending, hm.home⟩
  show getHead (update v.disk b d g.start) = _
  have e : g.start ≠ b := by
    rintro rfl
    exact g.not_home_start hb
  rw [update_of_ne e]
  exact hm.header

/-- The log holds the blocks that `install_trans` copies. -/
theorem Committed.log_data {lh : List ℕ} {disk : ℕ → Block} (hr : RecOk g disk C lh)
    (hhome : ∀ b, g.home b → E b = C b) (ht : tail < lh.length) :
    disk (g.start + tail + 1) = E (lh.getD tail 0) := by
  have hb := hr.fits.home_getD ht
  rw [hhome _ hb, ← hr.install _ hb, installed_getD hr.fits ht]

theorem drop_getD {lh : List ℕ} (ht : tail < lh.length) :
    lh.drop tail = lh.getD tail 0 :: lh.drop (tail + 1) := by
  rw [List.getD_eq_getElem _ _ ht]
  exact List.drop_eq_getElem_cons ht

theorem mem_drop_succ {lh : List ℕ} (hlh : lh.Nodup) (ht : tail < lh.length) (b : ℕ) :
    b ∈ lh.drop (tail + 1) ↔ b ∈ lh.drop tail ∧ b ≠ lh.getD tail 0 := by
  have hn : (lh.getD tail 0 :: lh.drop (tail + 1)).Nodup := drop_getD ht ▸ hlh.drop
  rw [drop_getD ht]
  refine ⟨fun h => ⟨List.mem_cons_of_mem _ h, ?_⟩, fun h => ?_⟩
  · rintro rfl
    exact (List.nodup_cons.mp hn).1 h
  · exact (List.mem_cons.mp h.1).resolve_left h.2

theorem Phase.install_release {r : Bool} {new : List Block}
    (h : Phase g v pins E C new (.install r tail .fst)) (new' : List Block) :
    Phase g v pins E C new' (.install r tail .snd) := by
  cases r with
  | false => exact ⟨h.1, h.2.1, h.2.2.1, nofun, nofun⟩
  | true => exact ⟨h.1, h.2.1, h.2.2.1, nofun, h.2.2.2.2.1, nofun⟩

theorem Phase.install_next {r : Bool} {new : List Block}
    (h : Phase g v pins E C new (.install r tail .snd)) (new' : List Block) :
    Phase g v pins E C new' (.install r (tail + 1) .log) := by
  cases r with
  | false => exact ⟨h.1, Nat.succ_le_of_lt h.2.1, h.2.2.1, nofun, nofun⟩
  | true => exact ⟨h.1, h.2.1, Nat.succ_le_of_lt h.2.2.1, nofun, h.2.2.2.2.1, nofun⟩

theorem inv_install_io {r : Bool} (hi : Inv g base s)
    (hj : (s.th t).job = .install r tail k) (hio : (s.th t).io = .ready)
    (h : installStep g s t r tail k = some s') (hlt : tail < s.log.lh.length)
    (hk : k ≠ .move ∧ k ≠ .write ∧ k ≠ .unpin) : Inv g base s' := by
  obtain ⟨pins, E, hc, hl, hok, hph⟩ := hi.at_job hj rfl
  unfold installStep at h
  split at h
  · rw [if_pos hlt] at h
    exact inv_bread_sys hi hj hio (if_pos hlt) h
  · exact inv_bread_sys hi hj hio rfl h
  · exact absurd rfl hk.1
  · exact absurd rfl hk.2.1
  · exact absurd rfl hk.2.2
  · rename_i dst src rest hr
    have hne : s.log.lh.getD tail 0 ≠ g.start + tail + 1 := fun e =>
      hl.lh.not_home hlt (e ▸ hl.lh.home_getD hlt)
    exact inv_brelse_sys (j := .install r tail .snd) hc hl hj hio rfl rfl (by cases r <;> rfl)
      (hok.erase_second hj hr rfl hne) rfl hph.install_release h
  · rename_i dst rest hr
    exact inv_brelse_sys (j := .install r (tail + 1) .log) hc hl hj hio rfl rfl (by cases r <;> rfl)
      (hok.erase hj hr rfl) rfl hph.install_next h
  · cases h

theorem inv_install (hi : Inv g base s) (hj : (s.th t).job = .install false tail k)
    (hio : (s.th t).io = .ready) (h : installStep g s t false tail k = some s') :
    Inv g base s' := by
  have hinv := inv_install_io hi hj hio h
  obtain ⟨pins, E, hc, hl, hok, hcm, hin, hpins, hnew, hunpin⟩ := hi.at_job hj rfl
  obtain ⟨hh, hrec⟩ := hl.recover
  replace hrec := hcm.recOk hrec
  unfold installStep at h
  split at h
  · by_cases hlt : tail < s.log.lh.length
    · exact hinv hlt ⟨by simp, by simp, by simp⟩
    · rw [if_neg hlt] at h
      cases h
      have hall : s.log.lh.length ≤ tail := by omega
      refine inv_goto_sys (j := .writeHead .clear .read) hc hl hj hio rfl rfl rfl
        ⟨List.nodup_nil, by simp, by simp, by simp⟩ rfl rfl
        ⟨⟨rfl, ?_, hcm.pending, hcm.home⟩, by simp, by simp⟩
      rw [hpins]
      exact List.drop_eq_nil_of_le hall
  · exact hinv hin ⟨by simp, by simp, by simp⟩
  · rename_i dst src rest hr
    cases h
    obtain ⟨-, hdst, hsrc⟩ := hok.two hj hr rfl
    have hlt : tail < s.log.lh.length := hin
    have hdata := data_of_sys (t := t) (i := src) hc hok hj (by simp [hr]) rfl
    refine inv_setData_sys hc hl hj hio rfl rfl rfl (by simp [hr]) rfl rfl (by rw [hdst]; rfl)
      ⟨hcm, hin, hpins, fun _ d hd => ?_, by simp⟩
    have hdisk : s.cache.disk (g.start + tail + 1) = E (g.start + tail + 1) := by
      obtain ⟨users, hc⟩ := hc
      refine hc.disk _ fun hmem => hl.lh.not_home hlt (hl.lh.home _ ?_)
      rw [hpins] at hmem
      exact List.mem_of_mem_drop hmem
    rw [List.mem_singleton.mp hd, hdata, hsrc, ← hdisk]
    exact Committed.log_data hrec hcm.home hlt
  · rename_i dst src rest hr
    cases h
    obtain ⟨-, hdst, -⟩ := hok.two hj hr rfl
    have hlt : tail < s.log.lh.length := hin
    have hch : (Job.install false tail .write).changed g s.log.lh =
        [(s.cache.buf dst).blockno] := by
      rw [hdst]
      rfl
    have hd : (s.cache.buf dst).data = E (s.log.lh.getD tail 0) :=
      data_of_changed hc hok hj (by simp [hr]) hch (hnew rfl)
    have hE : update E (s.cache.buf dst).blockno (s.cache.buf dst).data = E := by
      rw [hdst, hd, update_eq_self]
    refine ⟨pins, _, logOk_bwrite (j := .install false tail .unpin) hc hl hj hio rfl rfl rfl
      (by simp [hr]) rfl hch rfl rfl rfl rfl rfl ⟨s.log.lh, ?_⟩ fun new => ?_⟩
    · exact hrec.write_home (hdst ▸ LhOk.getD_mem hlt)
    · rw [hE]
      refine ⟨hcm.write_home (hdst ▸ hl.lh.home_getD hlt), hin, hpins, by simp, fun _ => ?_⟩
      show update s.cache.disk (s.cache.buf dst).blockno (s.cache.buf dst).data
        (s.log.lh.getD tail 0) = E (s.log.lh.getD tail 0)
      rw [hdst, hd, update_self]
  · rename_i dst rest hr
    cases h
    have hlt : tail < s.log.lh.length := hin
    obtain ⟨hdst, -⟩ := hok.head hj hr rfl
    have hmem : (s.cache.buf dst).blockno ∈ pins := by
      rw [hdst, hpins]
      show _ ∈ s.log.lh.drop tail
      rw [drop_getD hlt]
      exact List.mem_cons_self
    have hdrop : ∀ b, b ∈ s.log.lh.drop (tail + 1) ↔ b ∈ pins ∧ b ≠ (s.cache.buf dst).blockno := by
      rw [hdst, hpins]
      exact mem_drop_succ hl.lh.nodup hlt
    exact inv_unpin (j := .install false tail .fst) hc hl hj hio rfl rfl rfl (by simp [hr]) rfl rfl
      hmem (by rw [hdst]; exact hunpin rfl) hdrop fun new => ⟨hcm, hin, rfl, by simp, by simp⟩
  · exact hinv hin ⟨by simp, by simp, by simp⟩
  · exact hinv hin ⟨by simp, by simp, by simp⟩
  · cases h

theorem installed_update {lh : List ℕ} (hlh : LhOk g lh) (ht : tail < lh.length)
    (h : ∀ j < tail, E (lh.getD j 0) = E (g.start + j + 1)) (hd : d = E (g.start + tail + 1)) :
    ∀ j < tail + 1, update E (lh.getD tail 0) d (lh.getD j 0) =
      update E (lh.getD tail 0) d (g.start + j + 1) := by
  intro j hj
  have e : g.start + j + 1 ≠ lh.getD tail 0 := by
    intro e
    exact hlh.not_home (show j < lh.length by omega) (e ▸ hlh.home_getD ht)
  rw [update_of_ne e]
  rcases eq_or_ne j tail with rfl | hne
  · rw [update_self, hd]
  · have e' : lh.getD j 0 ≠ lh.getD tail 0 := fun e' => hne (hlh.getD_inj (by omega) ht e')
    rw [update_of_ne e']
    exact h j (by omega)

/-- When all blocks of the log are in their places, recovery has the committed groups. -/
theorem RecOk.installed_all {lh : List ℕ} {disk : ℕ → Block} (hr : RecOk g disk C lh)
    (hdisk : ∀ b, disk b = E b)
    (h : ∀ j < lh.length, E (lh.getD j 0) = E (g.start + j + 1)) (hb : g.home b) : E b = C b := by
  rw [← hr.install b hb]
  unfold installed
  split_ifs with hmem
  · have := h _ (List.idxOf_lt_length_of_mem hmem)
    rw [getD_idxOf hmem] at this
    rw [this, hdisk]
  · rw [hdisk]

theorem inv_install_recovering (hi : Inv g base s)
    (hj : (s.th t).job = .install true tail k) (hio : (s.th t).io = .ready)
    (h : installStep g s t true tail k = some s') : Inv g base s' := by
  have hinv := inv_install_io hi hj hio h
  obtain ⟨pins, E, hc, hl, hok, hrv, hhead, hin, hkn, hcopied, hnew⟩ := hi.at_job hj rfl
  obtain ⟨hh, hrec⟩ := hl.recover
  obtain rfl : s.log.lh = hh := by
    have := hrec.header
    exact Option.some.inj (hhead.symm.trans this)
  unfold installStep at h
  split at h
  · by_cases hlt : tail < s.log.lh.length
    · exact hinv hlt ⟨by simp, by simp, by simp⟩
    · rw [if_neg hlt] at h
      cases h
      have hall : tail = s.log.lh.length := by
        have : tail ≤ s.log.lh.length := hin
        omega
      have hdisk : ∀ b, s.cache.disk b = E b := by
        obtain ⟨users, hc⟩ := hc
        intro b
        exact hc.disk b (by simp [hrv.pins])
      refine inv_goto_sys (j := .writeHead .recover .read) hc hl hj hio rfl rfl rfl
        ⟨List.nodup_nil, by simp, by simp, by simp⟩ rfl rfl
        ⟨⟨rfl, hrv.pins, hrv.pending, fun b hb => ?_⟩, by simp, by simp⟩
      exact hrec.installed_all hdisk (by rw [← hall]; exact hcopied) hb
  · exact hinv hin ⟨by simp, by simp, by simp⟩
  · rename_i dst src rest hr
    cases h
    obtain ⟨-, hdst, hsrc⟩ := hok.two hj hr rfl
    have hdata := data_of_sys (t := t) (i := src) hc hok hj (by simp [hr]) rfl
    refine inv_setData_sys hc hl hj hio rfl rfl rfl (by simp [hr]) rfl rfl (by rw [hdst]; rfl)
      ⟨hrv, hhead, hin, by simp, hcopied, fun _ d hd => ?_⟩
    rw [List.mem_singleton.mp hd, hdata, hsrc]
  · rename_i dst src rest hr
    cases h
    obtain ⟨-, hdst, -⟩ := hok.two hj hr rfl
    have hlt : tail < s.log.lh.length := hin
    have hch : (Job.install true tail .write).changed g s.log.lh = [(s.cache.buf dst).blockno] := by
      rw [hdst]
      rfl
    have hd := data_of_changed hc hok hj (by simp [hr]) hch (hnew rfl)
    have hrec' := hrec.write_home (d := (s.cache.buf dst).data) (LhOk.getD_mem hlt)
    rw [← hdst] at hrec'
    refine ⟨pins, _, logOk_bwrite (j := .install true tail .fst) hc hl hj hio rfl rfl rfl
      (by simp [hr]) rfl hch rfl rfl rfl rfl rfl
      ⟨s.log.lh, hrec'⟩ fun new => ⟨⟨hrv.pins, hrv.pending⟩, hrec'.header, hlt, by simp, ?_,
      by simp⟩⟩
    rw [hdst]
    exact installed_update hl.lh hlt hcopied hd
  · exact absurd rfl hkn
  · exact hinv hin ⟨by simp, by simp, by simp⟩
  · exact hinv hin ⟨by simp, by simp, by simp⟩
  · cases h

end TatakOS.Logging
