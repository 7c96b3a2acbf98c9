import Xv6.FsInv

/-!
# Cached blocks and the disk

A buffer that is valid and not locked has the data of its block on disk, or the block is in the header of the log, unless a
`write` has failed in the middle of a copy from user memory (`cache_in_step`).
-/

namespace Xv6

open Function (update)

variable {P : Type} [DecidableEq P]

namespace FsSys

variable {s s' : FsSys P} {t : P} {G : P → Ghost} {C D : Committing} {g : Ghost} {x : FsSt}

/-! ### The steps of a process -/

section

variable [Fintype P]

omit [DecidableEq P] in
theorem Inv.refcnt_pos (h : s.Inv G C) {i : Fin NBUF} (hi : ∃ u, refsTo (s.th u, G u) i ≠ 0) : (s.io.buf i).refcnt ≠ 0 := by
  obtain ⟨u, hu⟩ := hi
  have h1 : refsTo (s.th u, G u) i ≤ ∑ v, refsTo (s.th v, G v) i := le_sum (refsTo · i) (fun v => (s.th v, G v)) u
  have h2 := h.refs i
  omega

/-- The counts of the buffers change, and process `t` moves. -/
theorem Inv.recount (io : Store) (h : s.Inv G C) (hbuf : ∀ j, io.buf j = { s.io.buf j with refcnt := (io.buf j).refcnt })
    (hl : ∀ i, i ∈ io.lru) (hlog : io.log = s.io.log) (hdisk : io.disk = s.io.disk) (hx : x.Ok s.io (G t))
    (hr : ∀ i, (if x.near = some i then 1 else 0) + (s.io.buf i).refcnt ≤
      (if (s.th t).st.near = some i then 1 else 0) + (io.buf i).refcnt) : ((s.setIo io).goto t x).Inv G C := by
  have hb : ∀ j, (io.buf j).dev = (s.io.buf j).dev ∧ (io.buf j).blockno = (s.io.buf j).blockno := by
    intro j
    rw [hbuf j]
    exact ⟨rfl, rfl⟩
  have hk : s.KeepsBlocks ((s.setIo io).goto t x) G := fun i _ => hb i
  have hv : ∀ j, (io.buf j).valid = true → (s.io.buf j).valid = true ∧ (io.buf j).data = (s.io.buf j).data ∧
      (io.buf j).blockno = (s.io.buf j).blockno := by
    intro j hj
    rw [hbuf j] at hj ⊢
    exact ⟨hj, rfl, rfl⟩
  rw [← Function.update_eq_self t G]
  refine ⟨ok_keep h.ok rfl hk (hx.keep fun i _ => hb i), h.held.keep rfl (.refl _) hk,
    h.cache.keep hl hb (fun i hi => .inl (hv i hi).1), fun b hbp => ?_, h.refs.step rfl fun i => ?_,
    h.clean.keep (.refl _) hv hdisk, h.ops.keep rfl rfl hlog rfl rfl⟩
  · obtain ⟨i, hi⟩ := h.cached b hbp
    exact ⟨i, (hb i).1.trans hi.1, (hb i).2.trans hi.2⟩
  · have hp : pin io C.pins i = pin s.io C.pins i := by
      unfold pin
      rw [(hb i).1, (hb i).2]
    have := hr i
    simp only [refsTo]
    change _ + pin io C.pins i + _ ≤ _ + (io.buf i).refcnt
    omega

/-- A step of `t` that leaves the cache, the locks and the log alone. -/
theorem Inv.goto (h : s.Inv G C) (hx : x.Ok s.io (G t)) (hn : x.near = (s.th t).st.near) : (s.goto t x).Inv G C := by
  refine h.recount s.io (fun _ => rfl) h.cache.lru rfl rfl hx fun i => ?_
  rw [hn]

/-- `bget` has found the block. -/
theorem Inv.hit (h : s.Inv G C) {b : UInt32} {k : Fin NBUF → Prog Unit} {i : Fin NBUF}
    (hst : (s.th t).st = .run (.bread b k)) (hc : s.io.Caches ROOTDEV b i) :
    ((s.setIo (s.count i ((s.io.buf i).refcnt + 1))).goto t (.wait i k)).Inv G C := by
  have hok := h.ok t
  rw [hst] at hok
  refine h.recount _ (fun j => ?_) h.cache.lru rfl rfl ⟨hc.1, fun hg => ?_⟩ fun j => ?_
  · by_cases hj : j = i
    · subst hj
      simp [count]
    · simp [count, hj]
  · rw [hc.2]
    exact hok i hg
  · rw [hst]
    by_cases hj : j = i
    · subst hj
      simp only [FsSt.near, count, Store.setBuf_buf_self, if_pos]
      omega
    · simp [FsSt.near, count, hj, Ne.symm hj]

/-- The end of `brelse`. -/
theorem Inv.rel (h : s.Inv G C) {k : Prog Unit} {i : Fin NBUF} (hst : (s.th t).st = .rel i k) :
    ((s.setIo (s.io.release i)).goto t (.run k)).Inv G C := by
  have hok := h.ok t
  rw [hst] at hok
  refine h.recount _ (fun j => ?_) (fun j => Store.mem_release_lru h.cache.lru i j) (Store.release_log ..)
    (Store.release_disk ..) hok fun j => ?_
  · rw [Store.release_buf]
    by_cases hj : j = i
    · subst hj
      simp
    · simp [hj]
  · rw [Store.release_buf, hst]
    by_cases hj : j = i
    · subst hj
      have := h.refcnt_pos ⟨t, refers_of_near (by rw [hst]; rfl)⟩
      simp [FsSt.near]
      omega
    · simp [FsSt.near, hj, Ne.symm hj]

/-- `bget` has taken a buffer that nobody refers to. -/
theorem Inv.recycle (h : s.Inv G C) {b : UInt32} {k : Fin NBUF → Prog Unit} {i : Fin NBUF}
    (hst : (s.th t).st = .run (.bread b k)) (hc : ∀ j, ¬ s.io.Caches ROOTDEV b j) (h0 : (s.io.buf i).refcnt = 0) :
    ((s.setIo (s.assign i b)).goto t (.wait i k)).Inv G C := by
  have hok := h.ok t
  rw [hst] at hok
  have hi : (s.assign i b).buf i = { s.io.buf i with dev := ROOTDEV, blockno := b, valid := false, refcnt := 1 } :=
    Store.setBuf_buf_self ..
  have hne : ∀ j, j ≠ i → (s.assign i b).buf j = s.io.buf j := fun j hj => Store.setBuf_buf_ne s.io hj _
  have hk : s.KeepsBlocks ((s.setIo (s.assign i b)).goto t (.wait i k)) G := by
    intro j hj
    have hji : j ≠ i := by
      rintro rfl
      exact h.refcnt_pos hj h0
    change ((s.assign i b).buf j).dev = _ ∧ ((s.assign i b).buf j).blockno = _
    rw [hne j hji]
    exact ⟨rfl, rfl⟩
  rw [← Function.update_eq_self t G]
  refine ⟨ok_keep h.ok rfl hk ⟨by exact congrArg Buf.dev hi, fun hg => ?_⟩, h.held.keep rfl (.refl _) hk,
    ⟨h.cache.lru, fun j hj => ?_, fun j l hj hl hjl => ?_⟩, fun c hcp => ?_, h.refs.step rfl fun j => ?_,
    h.clean.keep (.refl _) (fun j hj => ?_) rfl, h.ops.keep rfl rfl rfl rfl rfl⟩
  · rw [show (((s.setIo (s.assign i b)).goto t (.wait i k)).io.buf i).blockno = b from congrArg Buf.blockno hi]
    exact hok i hg
  · change ((s.assign i b).buf j).valid = true at hj
    change ((s.assign i b).buf j).dev = ROOTDEV
    by_cases hji : j = i
    · rw [hji, hi] at hj
      cases hj
    · rw [hne j hji] at hj ⊢
      exact h.cache.dev j hj
  · change ((s.assign i b).buf j).dev = ROOTDEV at hj
    change ((s.assign i b).buf l).dev = ROOTDEV at hl
    change ((s.assign i b).buf j).blockno = ((s.assign i b).buf l).blockno at hjl
    by_cases hji : j = i <;> by_cases hli : l = i
    · rw [hji, hli]
    · rw [hji, hi, hne l hli] at hjl
      rw [hne l hli] at hl
      exact absurd ⟨hl, hjl.symm⟩ (hc l)
    · rw [hli, hi, hne j hji] at hjl
      rw [hne j hji] at hj
      exact absurd ⟨hj, hjl⟩ (hc j)
    · rw [hne j hji] at hj hjl
      rw [hne l hli] at hl hjl
      exact h.cache.unique j l hj hl hjl
  · -- the buffer of a pinned block is counted
    obtain ⟨m, hm⟩ := h.cached c hcp
    have hmi : m ≠ i := by
      rintro rfl
      have := h.refs m
      simp only [pin, hm.1, hm.2, hcp, and_self, if_true] at this
      omega
    refine ⟨m, ?_⟩
    change (s.assign i b).Caches ROOTDEV c m
    unfold Store.Caches
    rw [hne m hmi]
    exact hm
  · have hbp : b ∉ C.pins := fun hbp => (h.cached b hbp).elim fun m hm => hc m hm
    change refsTo _ j + pin (s.assign i b) C.pins j + (s.io.buf j).refcnt ≤ _ + ((s.assign i b).buf j).refcnt
    by_cases hji : j = i
    · subst hji
      simp only [refsTo, pin, hi, hst, FsSt.near, hbp, h0, and_false, if_false, if_true]
      omega
    · simp only [refsTo, pin, hne j hji, hst, FsSt.near, Option.some.injEq, Ne.symm hji, if_false]
      exact le_refl _
  · change ((s.assign i b).buf j).valid = true at hj
    change _ ∧ ((s.assign i b).buf j).data = _ ∧ ((s.assign i b).buf j).blockno = _
    by_cases hji : j = i
    · rw [hji, hi] at hj
      cases hj
    · rw [hne j hji] at hj ⊢
      exact ⟨hj, rfl, rfl⟩

/-- The sleep lock of the buffer is taken. -/
theorem Inv.lock (h : s.Inv G C) {k : Fin NBUF → Prog Unit} {i : Fin NBUF} (hst : (s.th t).st = .wait i k)
    (hl : s.lock i = none) : ((s.setLock i (some t)).goto t (.fill i k)).Inv
      (update G t ((G t).hold i (s.io.buf i).blockno false)) C := by
  have hok := h.ok t
  rw [hst] at hok
  have hfree : ∀ u, (G u).held i = none := by
    intro u
    by_contra hu
    obtain ⟨⟨b, c⟩, hb⟩ := Option.ne_none_iff_exists'.1 hu
    have := (h.held.held u i b c hb).1
    rw [hl] at this
    cases this
  have hk : s.KeepsBlocks ((s.setLock i (some t)).goto t (.fill i k)) G := fun _ _ => ⟨rfl, rfl⟩
  refine ⟨ok_keep h.ok rfl hk ⟨⟨_, Ghost.hold_held ..⟩, hok.2 (hfree t)⟩, ⟨fun u j b c hu => ?_, fun u j hu => ?_⟩,
    h.cache.keep h.cache.lru (fun _ => ⟨rfl, rfl⟩) (fun _ => .inl), h.cached, h.refs.step rfl fun j => ?_,
    h.clean.keep ?_ (fun _ hv => ⟨hv, rfl, rfl⟩) rfl, h.ops.keep rfl rfl rfl rfl rfl⟩
  · change update s.lock i (some t) j = some u ∧ (s.io.buf j).dev = ROOTDEV ∧ (s.io.buf j).blockno = b
    by_cases hut : u = t
    · subst hut
      rw [Function.update_self] at hu
      by_cases hji : j = i
      · subst hji
        rw [Ghost.hold_held] at hu
        cases hu
        exact ⟨Function.update_self .., hok.1, rfl⟩
      · rw [Ghost.held_of_ne hji] at hu
        rw [Function.update_of_ne hji]
        exact h.held.held u j b c hu
    · rw [Function.update_of_ne hut] at hu
      have hji : j ≠ i := by
        rintro rfl
        rw [hfree u] at hu
        cases hu
      rw [Function.update_of_ne hji]
      exact h.held.held u j b c hu
  · change update s.lock i (some t) j = some u at hu
    by_cases hji : j = i
    · subst hji
      rw [Function.update_self] at hu
      cases hu
      rw [Function.update_self, Ghost.hold_held]
      nofun
    · rw [Function.update_of_ne hji] at hu
      have hj := h.held.lock u j hu
      by_cases hut : u = t
      · subst hut
        rwa [Function.update_self, Ghost.held_of_ne hji]
      · rwa [Function.update_of_ne hut]
  · change _ + pin s.io C.pins j + (s.io.buf j).refcnt ≤ _ + (s.io.buf j).refcnt
    by_cases hji : j = i
    · subst hji
      simp only [refsTo, hst, FsSt.near, Ghost.hold_held, hfree t, Option.isSome_some, Option.isSome_none, if_true]
      simp
    · simp only [refsTo, hst, FsSt.near, Ghost.held_of_ne hji, Option.some.injEq, Ne.symm hji, if_false]
      simp
  · intro j b hj
    have hji : j ≠ i := by
      rintro rfl
      rw [hfree t] at hj
      cases hj
    exact ⟨b, by rwa [Ghost.held_of_ne hji]⟩

/-- `brelse` releases the sleep lock. -/
theorem Inv.brelse (h : s.Inv G C) {k : Prog Unit} {i : Fin NBUF} (hst : (s.th t).st = .run (.brelse i k))
    (hl : s.lock i = some t) : ∃ G', ((s.setLock i none).goto t (.rel i k)).Inv G' C := by
  have hok := h.ok t
  rw [hst] at hok
  obtain ⟨b, hi, hk⟩ := hok
  refine ⟨update G t ((G t).drop i), ?_⟩
  have hdrop : ∀ j, j ≠ i → ((G t).drop i).held j = (G t).held j := fun j hj => Function.update_of_ne hj ..
  have hdi : ((G t).drop i).held i = none := Function.update_self ..
  refine ⟨ok_keep h.ok rfl (fun _ _ => ⟨rfl, rfl⟩) hk, ⟨fun u j a c hu => ?_, fun u j hu => ?_⟩,
    h.cache.keep h.cache.lru (fun _ => ⟨rfl, rfl⟩) (fun _ => .inl), h.cached, h.refs.step rfl fun j => ?_,
    h.clean.keep ?_ (fun _ hv => ⟨hv, rfl, rfl⟩) rfl, h.ops.keep rfl rfl rfl rfl rfl⟩
  · change update s.lock i none j = some u ∧ (s.io.buf j).dev = ROOTDEV ∧ (s.io.buf j).blockno = a
    have hold : j ≠ i ∧ (G u).held j = some (a, c) := by
      by_cases hut : u = t
      · subst hut
        rw [Function.update_self] at hu
        have hji : j ≠ i := by
          rintro rfl
          rw [hdi] at hu
          cases hu
        rw [hdrop j hji] at hu
        exact ⟨hji, hu⟩
      · rw [Function.update_of_ne hut] at hu
        refine ⟨?_, hu⟩
        rintro rfl
        have := (h.held.held u j a c hu).1
        rw [hl] at this
        exact hut (Option.some.inj this).symm
    rw [Function.update_of_ne hold.1]
    exact h.held.held u j a c hold.2
  · change update s.lock i none j = some u at hu
    have hji : j ≠ i := by
      rintro rfl
      rw [Function.update_self] at hu
      cases hu
    rw [Function.update_of_ne hji] at hu
    have hj := h.held.lock u j hu
    by_cases hut : u = t
    · subst hut
      rwa [Function.update_self, hdrop j hji]
    · rwa [Function.update_of_ne hut]
  · change _ + pin s.io C.pins j + (s.io.buf j).refcnt ≤ _ + (s.io.buf j).refcnt
    by_cases hji : j = i
    · subst hji
      simp [refsTo, hst, FsSt.near, hdi, hi]
    · simp [refsTo, hst, FsSt.near, hdrop j hji, Ne.symm hji]
  · intro j a hj
    have hji : j ≠ i := by
      rintro rfl
      rw [hi] at hj
      cases hj
    exact ⟨a, by rwa [hdrop j hji]⟩

omit [Fintype P] in
private theorem stillDirty_ne {i j : Fin NBUF} {b : UInt32} {c : Bool} (hj : j ≠ i) {a : UInt32}
    (h : g.held j = some (a, true)) : ∃ a', (g.hold i b c).held j = some (a', true) :=
  ⟨a, by rwa [Ghost.held_of_ne hj]⟩

/-- The holder of buffer `i` changes its data. -/
theorem Inv.change (h : s.Inv G C) {i : Fin NBUF} {b : UInt32} {c f v : Bool} {d : Block} (hi : (G t).held i = some (b, c))
    (hx : x.Ok s.io ((G t).hold i b f)) (hn : x.near = none) (hst : (s.th t).st.near = none)
    (hc : f = false → v = true → d = s.io.disk b ∨ b ∈ C.lh ∧ b ∉ C.synced) :
    ((s.setIo (s.io.setBuf i { s.io.buf i with data := d, valid := v })).goto t x).Inv (update G t ((G t).hold i b f)) C := by
  obtain ⟨-, hdev, hb⟩ := h.held.held t i b c hi
  have hsame := Same.hold hi f
  let io := s.io.setBuf i { s.io.buf i with data := d, valid := v }
  have hbi : io.buf i = { s.io.buf i with data := d, valid := v } := Store.setBuf_buf_self ..
  have hne : ∀ j, j ≠ i → io.buf j = s.io.buf j := fun j hj => Store.setBuf_buf_ne s.io hj _
  have hbuf : ∀ j, (io.buf j).dev = (s.io.buf j).dev ∧ (io.buf j).blockno = (s.io.buf j).blockno ∧
      (io.buf j).refcnt = (s.io.buf j).refcnt := by
    intro j
    by_cases hji : j = i
    · rw [hji, hbi]
      exact ⟨rfl, rfl, rfl⟩
    · rw [hne j hji]
      exact ⟨rfl, rfl, rfl⟩
  have hk : s.KeepsBlocks ((s.setIo io).goto t x) G := fun j _ => ⟨(hbuf j).1, (hbuf j).2.1⟩
  refine ⟨ok_keep h.ok rfl hk (hx.keep fun j hj => ?_), h.held.keep rfl hsame hk,
    h.cache.keep h.cache.lru (fun j => ⟨(hbuf j).1, (hbuf j).2.1⟩) (fun j hj => ?_), fun a ha => ?_, h.refs.step rfl fun j => ?_,
    fun j hj hu => ?_, h.ops.keep rfl rfl rfl rfl rfl⟩
  · rw [hn] at hj
    cases hj
  · by_cases hji : j = i
    · rw [hji]
      exact .inr hdev
    · change (io.buf j).valid = true at hj
      rw [hne j hji] at hj
      exact .inl hj
  · obtain ⟨m, hm⟩ := h.cached a ha
    exact ⟨m, (hbuf m).1.trans hm.1, (hbuf m).2.1.trans hm.2⟩
  · change _ + pin io C.pins j + (s.io.buf j).refcnt ≤ _ + (io.buf j).refcnt
    simp only [refsTo, pin, (hbuf j).1, (hbuf j).2.1, (hbuf j).2.2, hn, hst, hsame.isSome]
    exact le_refl _
  · change (io.buf j).valid = true at hj
    change (io.buf j).data = s.io.disk (io.buf j).blockno ∨ (io.buf j).blockno ∈ C.lh ∧ (io.buf j).blockno ∉ C.synced
    by_cases hji : j = i
    · subst hji
      have hf : f = false := by
        cases hcc : f with
        | false => rfl
        | true =>
          refine absurd ?_ (hu t b)
          rw [Function.update_self, Ghost.hold_held, hcc]
      rw [hbi] at hj ⊢
      simp only [hb]
      exact hc hf hj
    · rw [hne j hji] at hj ⊢
      exact h.clean j hj (undirtied_of (fun a => stillDirty_ne hji) hu)

omit [Fintype P] in
private theorem hold_self {i : Fin NBUF} {b : UInt32} {c : Bool} (h : g.held i = some (b, c)) : g.hold i b c = g := by
  unfold Ghost.hold
  rw [← h, Function.update_eq_self]

/-- The block is read, if the buffer is not valid. -/
theorem Inv.fill (h : s.Inv G C) {k : Fin NBUF → Prog Unit} {i : Fin NBUF} (hst : (s.th t).st = .fill i k) :
    ((s.setIo (s.fillBuf i)).goto t (.run (k i))).Inv G C := by
  have hok := h.ok t
  rw [hst] at hok
  obtain ⟨⟨b, hi⟩, hk⟩ := hok
  have hn : (s.th t).st.near = none := by rw [hst]; rfl
  unfold fillBuf
  split
  · exact h.goto hk hn.symm
  · obtain ⟨-, -, hb⟩ := h.held.held t i b false hi
    have := h.change (x := .run (k i)) (f := false) (v := true) (d := s.io.disk (s.io.buf i).blockno) hi
      (by rw [hold_self hi]; exact hk) rfl hn (fun _ _ => .inl (by rw [hb]))
    rwa [hold_self hi, Function.update_eq_self] at this

omit [DecidableEq P] in
/-- While an operation is running nobody is in `commit`. -/
theorem Ops.no_commit (h : s.Ops G C) (ho : 1 ≤ s.io.log.outstanding) (u : P) : (s.th u).op ≠ .commit := by
  intro hu
  have hz : ∑ t, (if (s.th t).op = .inOp then 1 else 0) = 0 := by
    refine Finset.sum_eq_zero fun v _ => ?_
    rw [if_neg (h.quiet u v hu)]
  rw [h.outstanding, hz] at ho
  omega

omit [DecidableEq P] [Fintype P] in
private theorem logWrite_ok {lg lg' : Log} {b : UInt32} (h : lg.logWrite b = .ok lg') :
    1 ≤ lg.outstanding ∧ lg' = { lg with lh := absorb lg.lh b } := by
  unfold Log.logWrite at h
  split at h
  · cases h
  · split at h
    · cases h
    · cases h
      exact ⟨by omega, rfl⟩

theorem Inv.logWrite (h : s.Inv G C) {k : Prog Unit} {i : Fin NBUF} {lg : Log} (hst : (s.th t).st = .run (.logWrite i k))
    (hl : s.io.log.logWrite (s.io.buf i).blockno = .ok lg) :
    ∃ G' D, ((s.setIo (s.logged i lg)).goto t (.run k)).Inv G' D := by
  have hok := h.ok t
  rw [hst] at hok
  obtain ⟨hcom, b, c, hi, hk⟩ := hok
  obtain ⟨-, hdev, hb⟩ := h.held.held t i b c hi
  rw [hb] at hl
  obtain ⟨hout, rfl⟩ := logWrite_ok hl
  have hno := h.ops.no_commit hout
  obtain ⟨hpins, hsyn⟩ := h.ops.rest hno
  have hlh := h.ops.lh
  have hbuf : ∀ j, (s.count i (s.pinned i)).buf j = { s.io.buf j with refcnt := ((s.count i (s.pinned i)).buf j).refcnt } := by
    intro j
    by_cases hji : j = i
    · subst hji
      simp [count]
    · simp [count, hji]
  have hk' : s.KeepsBlocks ((s.setIo (s.logged i { s.io.log with lh := absorb s.io.log.lh b })).goto t (.run k)) G := by
    intro j _
    change ((s.count i (s.pinned i)).buf j).dev = _ ∧ ((s.count i (s.pinned i)).buf j).blockno = _
    rw [hbuf j]
    exact ⟨rfl, rfl⟩
  have hnd : (absorb C.lh b).Nodup := nodup_absorb h.ops.nodup b
  refine ⟨update G t ((G t).hold i b false), ⟨absorb C.lh b, absorb C.lh b, []⟩, ok_keep h.ok rfl hk' hk,
    h.held.keep rfl (.hold hi false) hk', h.cache.keep h.cache.lru (fun j => ?_) (fun j hj => ?_), fun a ha => ?_,
    h.refs.step rfl fun j => ?_, fun j hj hu => ?_, ?_⟩
  · change ((s.count i (s.pinned i)).buf j).dev = _ ∧ ((s.count i (s.pinned i)).buf j).blockno = _
    rw [hbuf j]
    exact ⟨rfl, rfl⟩
  · change ((s.count i (s.pinned i)).buf j).valid = true at hj
    rw [hbuf j] at hj
    exact .inl hj
  · have hm : ∃ m, s.io.Caches ROOTDEV a m := by
      rcases mem_absorb.1 ha with rfl | ha
      · exact ⟨i, hdev, hb⟩
      · exact h.cached a (hpins ▸ ha)
    obtain ⟨m, hm⟩ := hm
    refine ⟨m, ?_⟩
    change (s.count i (s.pinned i)).Caches ROOTDEV a m
    unfold Store.Caches
    rw [hbuf m]
    exact hm
  · change _ + pin (s.count i (s.pinned i)) (absorb C.lh b) j + (s.io.buf j).refcnt ≤ _ + ((s.count i (s.pinned i)).buf j).refcnt
    have hrefs : refsTo (⟨.run k, (s.th t).op⟩, (G t).hold i b false) j = refsTo (s.th t, G t) j := by
      simp only [refsTo, hst, FsSt.near, (Same.hold hi false).isSome]
      rfl
    rw [show refsTo (⟨.run k, ((s.setIo (s.logged i { s.io.log with lh := absorb s.io.log.lh b })).th t).op⟩,
      (G t).hold i b false) j = _ from hrefs, hpins]
    by_cases hji : j = i
    · subst hji
      have hcj : ((s.count j (s.pinned j)).buf j) = { s.io.buf j with refcnt := s.pinned j } := Store.setBuf_buf_self ..
      have h1 : pin (s.count j (s.pinned j)) (absorb C.lh b) j = 1 := by
        unfold pin
        rw [hcj]
        exact if_pos ⟨hdev, mem_absorb.2 (.inl hb)⟩
      rw [h1, hcj]
      by_cases hm : b ∈ s.io.log.lh
      · simp only [pin, pinned, hdev, hb, hlh, hm, true_and, if_true]
        omega
      · simp only [pin, pinned, hdev, hb, hlh, hm, true_and, if_false]
        omega
    · have hcj : ((s.count i (s.pinned i)).buf j) = s.io.buf j := Store.setBuf_buf_ne s.io hji _
      have hp : pin (s.count i (s.pinned i)) (absorb C.lh b) j = pin s.io C.lh j := by
        simp only [pin, hcj]
        refine if_congr (and_congr_right fun hd => ?_) rfl rfl
        rw [mem_absorb]
        refine or_iff_right fun hjb => hji (h.cache.unique j i hd hdev (hjb.trans hb.symm))
      rw [hp, hcj]
  · change ((s.count i (s.pinned i)).buf j).valid = true at hj
    change ((s.count i (s.pinned i)).buf j).data = s.io.disk ((s.count i (s.pinned i)).buf j).blockno ∨
      ((s.count i (s.pinned i)).buf j).blockno ∈ absorb C.lh b ∧ ((s.count i (s.pinned i)).buf j).blockno ∉ []
    rw [hbuf j] at hj ⊢
    by_cases hji : j = i
    · right
      rw [hji]
      exact ⟨mem_absorb.2 (.inl hb), List.not_mem_nil⟩
    · rcases h.clean j hj (undirtied_of (fun a => stillDirty_ne hji) hu) with hd | ⟨hd, -⟩
      · exact .inl hd
      · exact .inr ⟨mem_absorb.2 (.inr hd), List.not_mem_nil⟩
  · refine h.ops.step rfl rfl rfl rfl ?_ hnd hnd (fun _ => id) ?_ rfl (fun u _ hu => absurd hu (hno u)) fun _ => ⟨rfl, rfl⟩
    · change absorb C.lh b = absorb s.io.log.lh b
      rw [hlh]
    · rw [if_neg (hno t)]
      exact hcom

omit [DecidableEq P] in
/-- What the process in `commit` knows is true. -/
theorem Ops.committer (h : s.Ops G C) {y : Committing} (hy : (G t).com = some y) : y = C ∧ (s.th t).op = .commit := by
  have := h.com t
  rw [hy] at this
  split at this
  · cases this
    exact ⟨rfl, ‹_›⟩
  · cases this

theorem Inv.bwrite (h : s.Inv G C) {k : Prog Unit} {i : Fin NBUF} (hst : (s.th t).st = .run (.bwrite i k)) :
    ∃ G' D, ((s.setIo (s.writeOut i)).goto t (.run k)).Inv G' D := by
  have hok := h.ok t
  rw [hst] at hok
  obtain ⟨b, c, y, hi, hy, hk⟩ := hok
  obtain ⟨-, hdev, hb⟩ := h.held.held t i b c hi
  obtain ⟨rfl, hop⟩ := h.ops.committer hy
  have hk' : s.KeepsBlocks ((s.setIo (s.writeOut i)).goto t (.run k)) G := fun _ _ => ⟨rfl, rfl⟩
  have hsame : Same (G t) (Fs.withCom ((G t).hold i b false) { y with synced := b :: y.synced }) := Same.hold hi false
  refine ⟨update G t (Fs.withCom ((G t).hold i b false) { y with synced := b :: y.synced }), { y with synced := b :: y.synced },
    ok_keep h.ok rfl hk' hk, h.held.keep rfl hsame hk', h.cache.keep h.cache.lru (fun _ => ⟨rfl, rfl⟩) (fun _ => .inl), h.cached,
    h.refs.step rfl fun j => ?_, fun j hj hu => ?_, ?_⟩
  · change _ + pin s.io y.pins j + (s.io.buf j).refcnt ≤ _ + (s.io.buf j).refcnt
    simp only [refsTo, hst, FsSt.near, hsame.isSome]
    exact le_refl _
  · change (s.io.buf j).valid = true at hj
    change (s.io.buf j).data = update s.io.disk (s.io.buf i).blockno (s.io.buf i).data (s.io.buf j).blockno ∨
      (s.io.buf j).blockno ∈ y.lh ∧ (s.io.buf j).blockno ∉ b :: y.synced
    by_cases hji : j = i
    · left
      rw [hji, Function.update_self]
    · have hne : (s.io.buf j).blockno ≠ b := fun hjb =>
        hji (h.cache.unique j i (h.cache.dev j hj) hdev (hjb.trans hb.symm))
      rw [hb, Function.update_of_ne hne]
      refine (h.clean j hj (undirtied_of (fun a => ?_) hu)).imp id fun hd => ⟨hd.1, ?_⟩
      · exact stillDirty_ne hji
      · rw [List.mem_cons, not_or]
        exact ⟨hne, hd.2⟩
  · refine h.ops.step rfl rfl rfl rfl h.ops.lh h.ops.nodup h.ops.pins h.ops.sub ?_ rfl ?_ ?_
    · rw [if_pos hop]
      rfl
    · exact fun u hut hu => absurd (h.ops.alone u t hu hop) hut
    · exact fun hno => absurd hop (hno t)

theorem Inv.bunpin (h : s.Inv G C) {k : Prog Unit} {i : Fin NBUF} (hst : (s.th t).st = .run (.bunpin i k)) :
    ∃ G' D, ((s.setIo (s.count i ((s.io.buf i).refcnt - 1))).goto t (.run k)).Inv G' D := by
  have hok := h.ok t
  rw [hst] at hok
  obtain ⟨b, c, y, hi, hy, hbp, hk⟩ := hok
  obtain ⟨-, hdev, hb⟩ := h.held.held t i b c hi
  obtain ⟨rfl, hop⟩ := h.ops.committer hy
  let io := s.count i ((s.io.buf i).refcnt - 1)
  have hbi : io.buf i = { s.io.buf i with refcnt := (s.io.buf i).refcnt - 1 } := Store.setBuf_buf_self ..
  have hne : ∀ j, j ≠ i → io.buf j = s.io.buf j := fun j hj => Store.setBuf_buf_ne s.io hj _
  have hbuf : ∀ j, io.buf j = { s.io.buf j with refcnt := (io.buf j).refcnt } := by
    intro j
    by_cases hji : j = i
    · rw [hji, hbi]
    · rw [hne j hji]
  have hb' : ∀ j, (io.buf j).dev = (s.io.buf j).dev ∧ (io.buf j).blockno = (s.io.buf j).blockno := by
    intro j
    rw [hbuf j]
    exact ⟨rfl, rfl⟩
  have hk' : s.KeepsBlocks ((s.setIo io).goto t (.run k)) G := fun j _ => hb' j
  let D : Committing := { y with pins := y.pins.erase b }
  refine ⟨update G t (Fs.withCom (G t) D), D, ok_keep h.ok rfl hk' hk, h.held.keep rfl (fun _ => rfl) hk',
    h.cache.keep h.cache.lru hb' (fun j hj => ?_), fun a ha => ?_, h.refs.step rfl fun j => ?_,
    h.clean.keep (fun _ a ha => ⟨a, ha⟩) (fun j hj => ?_) rfl, ?_⟩
  · change (io.buf j).valid = true at hj
    rw [hbuf j] at hj
    exact .inl hj
  · obtain ⟨m, hm⟩ := h.cached a (List.mem_of_mem_erase ha)
    exact ⟨m, (hb' m).1.trans hm.1, (hb' m).2.trans hm.2⟩
  · have hrefs : refsTo (⟨.run k, (s.th t).op⟩, Fs.withCom (G t) D) j = refsTo (s.th t, G t) j := by
      simp only [refsTo, hst, FsSt.near]
      rfl
    change refsTo (⟨.run k, (s.th t).op⟩, Fs.withCom (G t) D) j + pin io (y.pins.erase b) j + (s.io.buf j).refcnt ≤
      _ + pin s.io y.pins j + (io.buf j).refcnt
    rw [hrefs]
    by_cases hji : j = i
    · subst hji
      have h1 : pin io (y.pins.erase b) j = 0 := by
        unfold pin
        rw [(hb' j).2, hb]
        exact if_neg fun hm => List.Nodup.not_mem_erase h.ops.pins hm.2
      have h2 : pin s.io y.pins j = 1 := by
        unfold pin
        rw [hb]
        exact if_pos ⟨hdev, hbp⟩
      have h3 : (io.buf j).refcnt = (s.io.buf j).refcnt - 1 := congrArg Buf.refcnt hbi
      rw [h1, h2, h3]
      omega
    · have hp : pin io (y.pins.erase b) j = pin s.io y.pins j := by
        unfold pin
        rw [(hb' j).1, (hb' j).2]
        refine if_congr (and_congr_right fun hd => ?_) rfl rfl
        exact List.mem_erase_of_ne fun hjb => hji (h.cache.unique j i hd hdev (hjb.trans hb.symm))
      rw [hp, hne j hji]
  · change (io.buf j).valid = true at hj
    change _ ∧ (io.buf j).data = _ ∧ (io.buf j).blockno = _
    rw [hbuf j] at hj ⊢
    exact ⟨hj, rfl, rfl⟩
  · refine h.ops.step rfl rfl rfl rfl h.ops.lh h.ops.nodup (h.ops.pins.erase b)
      (fun a ha => h.ops.sub a (List.mem_of_mem_erase ha)) ?_ rfl ?_ ?_
    · rw [if_pos hop]
      rfl
    · exact fun u hut hu => absurd (h.ops.alone u t hu hop) hut
    · exact fun hno => absurd hop (hno t)

theorem Inv.clearHead (h : s.Inv G C) {k : Prog Unit} (hst : (s.th t).st = .run (.clearHead k)) :
    ∃ G' D, ((s.setIo { s.io with log := { s.io.log with lh := [] } }).goto t (.run k)).Inv G' D := by
  have hok := h.ok t
  rw [hst] at hok
  obtain ⟨y, hy, hsyn, hpins, hk⟩ := hok
  obtain ⟨rfl, hop⟩ := h.ops.committer hy
  have hk' : s.KeepsBlocks ((s.setIo { s.io with log := { s.io.log with lh := [] } }).goto t (.run k)) G :=
    fun _ _ => ⟨rfl, rfl⟩
  refine ⟨update G t (Fs.withCom (G t) ⟨[], [], []⟩), ⟨[], [], []⟩, ok_keep h.ok rfl hk' hk, h.held.keep rfl (fun _ => rfl) hk',
    h.cache.keep h.cache.lru (fun _ => ⟨rfl, rfl⟩) (fun _ => .inl), fun _ => nofun, h.refs.step rfl fun j => ?_,
    fun j hj hu => ?_, ?_⟩
  · change _ + pin s.io [] j + (s.io.buf j).refcnt ≤ _ + (s.io.buf j).refcnt
    rw [hpins]
    simp only [refsTo, hst, FsSt.near]
    exact le_refl _
  · rcases h.clean j hj (undirtied_of (g := Fs.withCom (G t) ⟨[], [], []⟩) (fun a ha => ⟨a, ha⟩) hu) with hd | ⟨hd, hns⟩
    · exact .inl hd
    · exact absurd (hsyn _ hd) hns
  · refine h.ops.step rfl rfl rfl rfl rfl List.nodup_nil List.nodup_nil (fun _ => id) ?_ rfl ?_ fun _ => ⟨rfl, rfl⟩
    · rw [if_pos hop]
      rfl
    · exact fun u hut hu => absurd (h.ops.alone u t hu hop) hut

theorem Inv.move (h : s.Inv G C) (hm : s.Move t s') : ∃ G' D, s'.Inv G' D := by
  have hok := h.ok t
  cases hm with
  | hit hst hc => exact ⟨G, C, h.hit hst hc⟩
  | recycle hst hc h0 => exact ⟨G, C, h.recycle hst hc h0⟩
  | lock hst hl => exact ⟨_, C, h.lock hst hl⟩
  | fill hst => exact ⟨G, C, h.fill hst⟩
  | data hst =>
    rw [hst] at hok
    exact ⟨G, C, h.goto (hok _) (by rw [hst]; rfl)⟩
  | store hst =>
    rw [hst] at hok
    obtain ⟨b, c, hi, hk⟩ := hok
    exact ⟨_, C, h.change (f := true) hi hk rfl (by rw [hst]; rfl) nofun⟩
  | logWrite hst hl => exact h.logWrite hst hl
  | bwrite hst hl => exact h.bwrite hst
  | brelse hst hl => exact (h.brelse hst hl).imp fun _ h => ⟨C, h⟩
  | rel hst => exact ⟨G, C, h.rel hst⟩
  | bunpin hst => exact h.bunpin hst
  | readLog hst =>
    rw [hst] at hok
    obtain ⟨y, hy, hk⟩ := hok
    obtain ⟨rfl, -⟩ := h.ops.committer hy
    exact ⟨G, y, h.goto (hk _ h.ops.lh.symm) (by rw [hst]; rfl)⟩
  | clearHead hst => exact h.clearHead hst

/-! ### Copies and operations -/

/-- A copy from user memory fails only before it has changed the block, or the block is in the header already. -/
def CopySafe (s : FsSys P) : FsEv P → Prop
  | .copyin t src =>
    match (s.th t).st with
    | .run (.copyin i off m _) => src.length < m → overwrite (s.io.buf i).data off src = (s.io.buf i).data ∨
      (s.io.buf i).blockno ∈ s.io.log.lh
    | _ => True
  | _ => True

theorem Inv.copyin (h : s.Inv G C) {i : Fin NBUF} {off m : Nat} {k : Bool → Prog Unit} {src : List UInt8}
    (hst : (s.th t).st = .run (.copyin i off m k)) (hm : src.length ≤ m) (hc : s.CopySafe (.copyin t src)) :
    ∃ G', ((s.setIo (s.fillWith i (overwrite (s.io.buf i).data off src))).goto t (.run (k (src.length = m)))).Inv G' C := by
  have hok := h.ok t
  rw [hst] at hok
  obtain ⟨ho, b, c, hi, h1, h2⟩ := hok
  have hn : (s.th t).st.near = none := by rw [hst]; rfl
  obtain ⟨-, hdev, hb⟩ := h.held.held t i b c hi
  by_cases hlen : src.length = m
  · refine ⟨_, h.change (f := true) hi ?_ rfl hn nofun⟩
    rw [decide_eq_true hlen]
    exact h1
  · simp only [CopySafe, hst] at hc
    have hx : (FsSt.run (k (decide (src.length = m)))).Ok s.io ((G t).hold i b c) := by
      rw [hold_self hi, decide_eq_false hlen]
      exact h2
    refine ⟨_, h.change (f := c) hi hx rfl hn fun hcf hv => ?_⟩
    subst hcf
    -- the block has not been changed, or it is in the header and nobody is in `commit`
    rcases hc (by omega) with hd | hd
    · rw [hd, ← hb]
      refine h.clean i hv fun u a hu => ?_
      have hut : u = t := by
        have h3 := (h.held.held u i a true hu).1
        rw [(h.held.held t i b false hi).1] at h3
        exact (Option.some.inj h3).symm
      rw [hut, hi] at hu
      cases hu
    · right
      have hop : (s.th t).op = .inOp := (h.ops.inOp t).1 ho
      obtain ⟨-, hs⟩ := h.ops.rest fun u hu => h.ops.quiet u t hu hop
      rw [hs, h.ops.lh, ← hb]
      exact ⟨hd, List.not_mem_nil⟩

/-- Process `t` enters or leaves an operation or `commit`. -/
theorem Inv.reop (h : s.Inv G C) {lg : Log} {y : FsTh} (hok : y.st.Ok s.io g) (hn : y.st.near = (s.th t).st.near)
    (hg : g.held = (G t).held) (hp : D.pins = C.pins) (hl : ∀ b, b ∈ C.lh ∧ b ∉ C.synced → b ∈ D.lh ∧ b ∉ D.synced)
    (ho : ((s.setIo { s.io with log := lg }).setTh t y).Ops (update G t g) D) :
    ((s.setIo { s.io with log := lg }).setTh t y).Inv (update G t g) D := by
  have hk : s.KeepsBlocks ((s.setIo { s.io with log := lg }).setTh t y) G := fun _ _ => ⟨rfl, rfl⟩
  refine ⟨ok_keep h.ok rfl hk (hok.keep fun _ _ => ⟨rfl, rfl⟩), h.held.keep rfl (fun i => by rw [hg]) hk,
    h.cache.keep h.cache.lru (fun _ => ⟨rfl, rfl⟩) (fun _ => .inl), ?_, h.refs.step rfl fun i => ?_, fun i hv hu => ?_, ho⟩
  · rw [hp]
    exact h.cached
  · change _ + pin s.io D.pins i + (s.io.buf i).refcnt ≤ _ + (s.io.buf i).refcnt
    simp only [refsTo, hn, hg, hp]
    exact le_refl _
  · refine (h.clean i hv (undirtied_of (t := t) (g := g) (fun b hb => ⟨b, by rw [hg]; exact hb⟩) hu)).imp id fun hd => ?_
    exact hl _ hd

/-- One unit for an operation. -/
def opCount (y : FsTh) : Nat := if y.op = .inOp then 1 else 0

/-- The parts of `Ops` for a process `t` that is not in `commit` and stays outside. -/
theorem Ops.reop (h : s.Ops G C) {lg : Log} {y : FsTh} (ht : (s.th t).op ≠ .commit) (hy : y.op ≠ .commit)
    (hlh : lg.lh = s.io.log.lh) (hcm : lg.committing = s.io.log.committing)
    (hout : lg.outstanding + opCount (s.th t) = s.io.log.outstanding + opCount y)
    (hg : g.com = none) (ho : g.inOp = true ↔ y.op = .inOp) (hq : y.op = .inOp → lg.committing = false) :
    ((s.setIo { s.io with log := lg }).setTh t y).Ops (update G t g) C := by
  have hcommit : ∀ u, (update s.th t y u).op = .commit ↔ (s.th u).op = .commit := by
    intro u
    by_cases hut : u = t
    · rw [hut, Function.update_self]
      exact ⟨fun h => absurd h hy, fun h => absurd h ht⟩
    · rw [Function.update_of_ne hut]
  refine ⟨h.lh.trans hlh.symm, h.nodup, h.pins, h.sub, fun u => ?_, fun u => ?_, ?_, ?_, fun u v hu hv => ?_,
    fun u v hu hv => ?_, fun hno => ?_⟩
  · change _ ↔ (update s.th t y u).op = .inOp
    by_cases hut : u = t
    · rw [hut, Function.update_self, Function.update_self]
      exact ho
    · rw [Function.update_of_ne hut, Function.update_of_ne hut]
      exact h.inOp u
  · change _ = if (update s.th t y u).op = .commit then some C else none
    rw [if_congr (hcommit u) rfl rfl]
    by_cases hut : u = t
    · rw [hut, Function.update_self, if_neg ht]
      exact hg
    · rw [Function.update_of_ne hut]
      exact h.com u
  · change lg.outstanding = ((∑ u, opCount (update s.th t y u) : Nat) : Int)
    have h1 := sum_update opCount s.th t y
    have h2 : s.io.log.outstanding = ((∑ u, opCount (s.th u) : Nat) : Int) := h.outstanding
    omega
  · change lg.committing = true ↔ ∃ u, (update s.th t y u).op = .commit
    rw [hcm, h.committing]
    exact exists_congr fun u => (hcommit u).symm
  · exact h.alone u v ((hcommit u).1 hu) ((hcommit v).1 hv)
  · change (update s.th t y u).op = .commit at hu
    change (update s.th t y v).op = .inOp at hv
    rw [hcommit] at hu
    by_cases hvt : v = t
    · rw [hvt, Function.update_self] at hv
      have h1 := hq hv
      rw [hcm, h.committing.2 ⟨u, hu⟩] at h1
      cases h1
    · rw [Function.update_of_ne hvt] at hv
      exact h.quiet u v hu hv
  · exact h.rest fun u hu => hno u ((hcommit u).2 hu)

omit [Fintype P] [DecidableEq P] in
private theorem idle_eq (h : s.Idle t = true) : (s.th t).st = .run (.pure ()) := by
  unfold Idle at h
  split at h
  · assumption
  · cases h

omit [DecidableEq P] in
theorem Inv.done (h : s.Inv G C) (hi : s.Idle t = true) : (G t).Done := by
  have hok := h.ok t
  rw [idle_eq hi] at hok
  exact hok

omit [DecidableEq P] in
theorem Ops.com_none (h : s.Ops G C) (ht : (s.th t).op ≠ .commit) : (G t).com = none := by
  rw [h.com t, if_neg ht]

/-- The last operation ends, and `t` goes on to `commit`. -/
theorem Inv.startCommit (h : s.Inv G C) (hi : s.Idle t = true) (ht : (s.th t).op = .inOp) (h1 : s.io.log.outstanding - 1 = 0) :
    ∃ G', ((s.setIo { s.io with log := { s.io.log with outstanding := s.io.log.outstanding - 1, committing := true } }).setTh t
      ⟨.run Fs.commit, .commit⟩).Inv G' C := by
  have hno : ∀ u, (s.th u).op ≠ .commit := fun u hu => h.ops.quiet u t hu ht
  obtain ⟨hp, hs⟩ := h.ops.rest hno
  have hC : ∀ D : Committing, D.pins = D.lh → D.synced = [] → D = ⟨D.lh, D.lh, []⟩ := by
    rintro ⟨lh, pins, synced⟩ h1 h2
    dsimp only at h1 h2
    rw [h1, h2]
  have hsum := sum_update opCount s.th t ⟨.run Fs.commit, .commit⟩
  have hcount : opCount (s.th t) = 1 := if_pos ht
  have hout : s.io.log.outstanding = ((∑ u, opCount (s.th u) : Nat) : Int) := h.ops.outstanding
  have hzero : ∑ u, opCount (update s.th t ⟨.run Fs.commit, .commit⟩ u) = 0 := by
    have : opCount ⟨.run Fs.commit, .commit⟩ = 0 := rfl
    omega
  have hother : ∀ u, (update s.th t (⟨.run Fs.commit, .commit⟩ : FsTh) u).op = .commit ↔ u = t := by
    intro u
    by_cases hut : u = t
    · simp [hut]
    · simp [hut, hno u]
  refine ⟨update G t ⟨(G t).held, false, some C⟩, h.reop ?_ ?_ rfl rfl (fun _ => id) ⟨h.ops.lh, h.ops.nodup, h.ops.pins,
    h.ops.sub, fun u => ?_, fun u => ?_, ?_, ?_, fun u v hu hv => ?_, fun u v _ hv => ?_, fun hn => ?_⟩⟩
  · refine Fs.commit_wp C.lh (congrArg some (hC C hp hs)) fun l => ⟨(h.done hi).1, ?_⟩
    rintro y ⟨⟩
    exact ⟨rfl, rfl⟩
  · rw [idle_eq hi]
    rfl
  · change _ ↔ (update s.th t _ u).op = .inOp
    by_cases hut : u = t
    · simp [hut]
    · rw [Function.update_of_ne hut, Function.update_of_ne hut]
      exact h.ops.inOp u
  · change _ = if (update s.th t _ u).op = .commit then some C else none
    rw [if_congr (hother u) rfl rfl]
    by_cases hut : u = t
    · rw [hut, Function.update_self, if_pos rfl]
    · rw [Function.update_of_ne hut, if_neg hut]
      exact h.ops.com_none (hno u)
  · change s.io.log.outstanding - 1 = ((∑ u, opCount (update s.th t _ u) : Nat) : Int)
    rw [hzero, h1]
    rfl
  · exact iff_of_true rfl ⟨t, (hother t).2 rfl⟩
  · rw [(hother u).1 hu, (hother v).1 hv]
  · have h2 := Finset.sum_eq_zero_iff.1 hzero v (Finset.mem_univ v)
    simp only [opCount, ite_eq_right_iff, one_ne_zero, imp_false] at h2
    exact h2 hv
  · exact absurd ((hother t).2 rfl) (hn t)

/-- The end of `end_op` after `commit`. -/
theorem Inv.finish (h : s.Inv G C) (hi : s.Idle t = true) (ht : (s.th t).op = .commit) :
    ∃ G' D, ((s.setIo { s.io with log := { s.io.log with committing := false } }).setTh t { s.th t with op := .out }).Inv
      G' D := by
  have hcom := h.ops.com t
  rw [if_pos ht] at hcom
  obtain ⟨hlh, hp⟩ := (h.done hi).2 C hcom
  have hother : ∀ u, u ≠ t → (s.th u).op ≠ .commit := fun u hut hu => hut (h.ops.alone u t hu ht)
  have hno : ∀ u, (update s.th t { s.th t with op := .out } u).op ≠ .commit := by
    intro u
    by_cases hut : u = t
    · rw [hut, Function.update_self]
      nofun
    · rw [Function.update_of_ne hut]
      exact hother u hut
  refine ⟨update G t ⟨(G t).held, false, none⟩, ⟨[], [], []⟩, h.reop ?_ rfl rfl hp.symm ?_ ⟨?_, List.nodup_nil, List.nodup_nil,
    fun _ => id, fun u => ?_, fun u => ?_, ?_, ?_, fun u v hu => ?_, fun u v hu => ?_, fun _ => ⟨rfl, rfl⟩⟩⟩
  · change (s.th t).st.Ok _ _
    rw [idle_eq hi]
    exact ⟨(h.done hi).1, nofun⟩
  · rintro b ⟨hb, -⟩
    rw [hlh] at hb
    cases hb
  · exact hlh.symm.trans h.ops.lh
  · change _ ↔ (update s.th t _ u).op = .inOp
    by_cases hut : u = t
    · simp [hut]
    · rw [Function.update_of_ne hut, Function.update_of_ne hut]
      exact h.ops.inOp u
  · change _ = if (update s.th t _ u).op = .commit then _ else none
    rw [if_neg (hno u)]
    by_cases hut : u = t
    · rw [hut, Function.update_self]
    · rw [Function.update_of_ne hut]
      exact h.ops.com_none (hother u hut)
  · change s.io.log.outstanding = ((∑ u, opCount (update s.th t { s.th t with op := .out } u) : Nat) : Int)
    have h1 := sum_update opCount s.th t { s.th t with op := .out }
    have h2 : s.io.log.outstanding = ((∑ u, opCount (s.th u) : Nat) : Int) := h.ops.outstanding
    have h3 : opCount (s.th t) = 0 := by simp [opCount, ht]
    have h4 : opCount { s.th t with op := .out } = 0 := rfl
    omega
  · exact iff_of_false nofun fun ⟨u, hu⟩ => hno u hu
  · exact absurd hu (hno u)
  · exact absurd hu (hno u)

theorem Inv.step {sb : Superblock} {e : FsEv P} (h : s.Inv G C) (hc : s.CopySafe e) (hs : s.step sb e = some (.ok s')) :
    ∃ G' D, s'.Inv G' D := by
  cases e with
  | beginOp t =>
    simp only [FsSys.step] at hs
    split at hs
    · rename_i ht
      split at hs
      · cases hs
      · rename_i lg hlg
        cases hs
        unfold Log.beginOp at hlg
        split at hlg
        · cases hlg
        · rename_i hcm
          split at hlg
          · cases hlg
          · cases hlg
            have hcm' : s.io.log.committing = false := eq_false_of_ne_true hcm
            refine ⟨update G t ⟨(G t).held, true, none⟩, C, h.reop ?_ rfl rfl rfl (fun _ => id)
              (h.ops.reop (by rw [ht.2]; nofun) nofun rfl rfl ?_ rfl (iff_of_true rfl rfl) fun _ => hcm')⟩
            · rw [idle_eq ht.1]
              exact ⟨(h.done ht.1).1, nofun⟩
            · simp [opCount, ht.2]
    · cases hs
  | call t c =>
    simp only [FsSys.step] at hs
    split at hs
    · rename_i ht
      cases hs
      have hop : (s.th t).op ≠ .commit := by
        rcases ht.2 with h | h
        · rw [h]
          nofun
        · rw [h.1]
          nofun
      refine ⟨G, C, h.goto (Fs.call_wp c (h.ops.com_none hop) ?_ (h.done ht.1)) (by rw [idle_eq ht.1]; rfl)⟩
      exact ht.2.imp (h.ops.inOp t).2 And.right
    · cases hs
  | next t => exact h.move (next_move h.cache.lru hs)
  | copyin t src =>
    simp only [FsSys.step] at hs
    split at hs
    · rename_i i off m k hst
      split at hs
      · rename_i hm
        cases hs
        exact (h.copyin hst hm hc).imp fun _ h => ⟨C, h⟩
      · cases hs
    · cases hs
  | copyout t ok =>
    simp only [FsSys.step] at hs
    split at hs
    · rename_i i off m k hst
      cases hs
      have hok := h.ok t
      rw [hst] at hok
      exact ⟨G, C, h.goto (hok ok) (by rw [hst]; rfl)⟩
    · cases hs
  | endOp t =>
    simp only [FsSys.step] at hs
    split at hs
    · rename_i ht
      split at hs
      · cases hs
      · rename_i lg doCommit hlg
        cases hs
        unfold Log.endOp at hlg
        split at hlg
        · cases hlg
        · rename_i hcm
          split at hlg
          · cases hlg
            exact (h.startCommit ht.1 ht.2 ‹_›).imp fun _ h => ⟨C, h⟩
          · cases hlg
            refine ⟨update G t ⟨(G t).held, false, none⟩, C, h.reop ?_ rfl rfl rfl (fun _ => id)
              (h.ops.reop (by rw [ht.2]; nofun) nofun rfl rfl ?_ rfl (iff_of_false nofun nofun) nofun)⟩
            · change (s.th t).st.Ok _ _
              rw [idle_eq ht.1]
              exact ⟨(h.done ht.1).1, nofun⟩
            · simp [opCount, ht.2]
    · cases hs
  | finish t =>
    simp only [FsSys.step] at hs
    split at hs
    · rename_i ht
      cases hs
      exact h.finish ht.1 ht.2
    · cases hs

omit [DecidableEq P] in
theorem Inv.init (h : s.Init) : s.Inv (fun _ => ⟨fun _ => none, false, none⟩) ⟨[], [], []⟩ := by
  have hop : ∀ t, (s.th t).op = .out := fun t => by rw [h.th t]
  refine ⟨fun t => ?_, ⟨fun _ _ _ _ => nofun, fun t i hl => ?_⟩, ⟨h.lru, h.dev, h.unique⟩, fun _ => nofun, fun i => ?_,
    fun i hv _ => .inl (h.data i hv), ⟨h.lh.symm, List.nodup_nil, List.nodup_nil, fun _ => id, fun t => ?_, fun t => ?_, ?_, ?_,
      fun t u ht => ?_, fun t u ht => ?_, fun _ => ⟨rfl, rfl⟩⟩⟩
  · rw [h.th t]
    exact ⟨fun _ => rfl, nofun⟩
  · rw [h.lock i] at hl
    cases hl
  · have hz : ∑ t, refsTo (s.th t, ⟨fun _ => none, false, none⟩) i = 0 := by
      refine Finset.sum_eq_zero fun t _ => ?_
      rw [h.th t]
      rfl
    have hp : pin s.io [] i = 0 := if_neg fun hm => by cases hm.2
    rw [hz, hp]
    exact Nat.zero_le _
  · rw [hop t]
    exact iff_of_false nofun nofun
  · rw [hop t]
    rfl
  · simp only [hop]
    simp [h.outstanding]
  · simp only [hop]
    simp [h.committing]
  · rw [hop t] at ht
    cases ht
  · rw [hop t] at ht
    cases ht

end

end FsSys

/-- What the comment of `log_write` promises: a valid buffer that nobody holds agrees with the disk, or its block will be written. -/
def FsSys.InStep (s : FsSys P) : Prop :=
  ∀ i, (s.io.buf i).valid = true → s.lock i = none →
    (s.io.buf i).data = s.io.disk (s.io.buf i).blockno ∨ (s.io.buf i).blockno ∈ s.io.log.lh

/-- In every run in which no copy from user memory fails in the middle, the cache stays in step with the disk. -/
theorem cache_in_step [Fintype P] {sb : Superblock} {s : FsSys P} (h : ((fsLts P sb).guard FsSys.CopySafe).Reachable s) :
    s.InStep := by
  have hinv : ∃ G C, s.Inv G C := by
    refine h.invariant (I := fun s => ∃ G C, FsSys.Inv s G C) ?_ ?_
    · exact fun s hs => ⟨_, _, .init hs⟩
    · rintro s e s' ⟨G, C, hI⟩ ⟨hc, hst⟩
      exact hI.step hc hst
  obtain ⟨G, C, hI⟩ := hinv
  intro i hv hl
  refine (hI.clean i hv fun t b hb => ?_).imp id fun hd => ?_
  · have := (hI.held.held t i b true hb).1
    rw [hl] at this
    cases this
  · rw [← hI.ops.lh]
    exact hd.1

/-! ### Two runs -/

/-- A file system of 2000 blocks. -/
def sampleSb : Superblock := ⟨2000, 200, 33, 46⟩

/-- Its cache and its log at the start, with zeros on the disk. -/
def sampleFs : FsSys Unit where
  io := binit ⟨2, 31, 0, false, ROOTDEV, []⟩ fun _ _ => 0
  lock _ := none
  th _ := ⟨.run (.pure ()), .out⟩

/-- A file with data in block 50. -/
def sampleInode : Inode := { type := 2, major := 0, minor := 0, nlink := 1, size := 10, addrs := fun _ => 50, inum := 5 }

private theorem sampleFs_init : sampleFs.Init :=
  ⟨fun _ => rfl, fun _ => rfl, rfl, rfl, rfl, fun i => by simp [sampleFs, binit], nofun, nofun, nofun⟩

private def copySafeTest (s : FsSys Unit) : FsEv Unit → Bool
  | .copyin t src =>
    match (s.th t).st with
    | .run (.copyin _ _ m _) => m ≤ src.length
    | _ => true
  | _ => true

private theorem copySafe_of_test (s : FsSys Unit) (e : FsEv Unit) (h : copySafeTest s e = true) : s.CopySafe e := by
  unfold copySafeTest at h
  unfold FsSys.CopySafe
  split
  · dsimp only at h
    split
    · rename_i hst
      rw [hst] at h
      intro hlt
      exact absurd (of_decide_eq_true h) (by omega)
    · trivial
  · trivial

/-- `write` of two bytes, of which `src` can be copied, until the block is released. -/
def writeRun (src : List UInt8) (n : Nat) : List (FsEv Unit) :=
  [.beginOp (), .call () (.writei sampleInode 0 2), .next (), .next (), .next (), .copyin () src] ++ List.replicate n (.next ())

theorem cache_in_step_writeRun : ∃ s : FsSys Unit, s.InStep ∧ ∃ i, (s.io.buf i).valid = true ∧ s.lock i = none ∧
    (s.io.buf i).data ≠ s.io.disk (s.io.buf i).blockno := by
  obtain ⟨s, hr, hs⟩ := Lts.Reachable.replay_any (C := FsSys.CopySafe) (f := fun s e => s.step sampleSb e) copySafe_of_test
    (l := writeRun [1, 1] 3) sampleFs_init
    (P := fun s => (s.io.buf ⟨0, by decide⟩).valid && (s.lock ⟨0, by decide⟩).isNone &&
      (s.io.buf ⟨0, by decide⟩).data ⟨0, by decide⟩ != s.io.disk (s.io.buf ⟨0, by decide⟩).blockno ⟨0, by decide⟩)
    (by decide +kernel)
  simp only [Bool.and_eq_true, bne_iff_ne] at hs
  obtain ⟨⟨hv, hl⟩, hd⟩ := hs
  exact ⟨s, cache_in_step hr, _, hv, Option.isNone_iff_eq_none.1 hl, fun h => hd (congrFun h _)⟩

/-- Only the first byte can be copied: the block is released with a change that is not logged. -/
theorem failed_write_diverges : ∃ s : FsSys Unit, (fsLts Unit sampleSb).Reachable s ∧ ¬ s.InStep := by
  obtain ⟨s, hr, hs⟩ := Lts.Reachable.replay_any (C := fun _ _ => True) (f := fun s e => s.step sampleSb e) (c := fun _ _ => true)
    (fun _ _ _ => trivial) (l := writeRun [1] 2) sampleFs_init
    (P := fun s => (s.io.buf ⟨0, by decide⟩).valid && (s.lock ⟨0, by decide⟩).isNone && s.io.log.lh.isEmpty &&
      (s.io.buf ⟨0, by decide⟩).data ⟨0, by decide⟩ != s.io.disk (s.io.buf ⟨0, by decide⟩).blockno ⟨0, by decide⟩)
    (by decide +kernel)
  simp only [Bool.and_eq_true, bne_iff_ne] at hs
  obtain ⟨⟨⟨hv, hl⟩, he⟩, hd⟩ := hs
  refine ⟨s, hr.of_guard, fun h => ?_⟩
  rcases h _ hv (Option.isNone_iff_eq_none.1 hl) with h | h
  · exact hd (congrFun h _)
  · rw [List.isEmpty_iff.1 he] at h
    cases h

end Xv6
