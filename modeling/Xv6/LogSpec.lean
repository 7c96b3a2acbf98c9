import Xv6.BioSpec
import Xv6.LogDisk

/-!
# The writes of a commit

`commit` writes, in this order, the cached contents of the logged blocks to the log, the header, the same contents to
their home locations, and an empty header (`commitWrites`, `commit_spec`).  The only way for it to stop earlier is the
panic of `bget` when every buffer of the cache is referred to.
-/

namespace Xv6

open Store

/-! ### The header block -/

theorem getWord_setWord_self (b : Block) {i : Nat} (hi : i < NWORD) (w : UInt32) : getWord (setWord b i w) i = w := by
  have h : 4 * i + 3 < BSIZE := by
    simp only [NWORD, BSIZE] at *
    omega
  have hw := w.toNat_lt
  simp only [getWord, setWord, h, ↓reduceDIte, Nat.mul_div_cancel_left i (show 0 < 4 by omega),
    show (4 * i + 1) / 4 = i by omega, show (4 * i + 2) / 4 = i by omega, show (4 * i + 3) / 4 = i by omega,
    ↓reduceIte, show (4 * i) % 4 = 0 by omega, show (4 * i + 1) % 4 = 1 by omega, show (4 * i + 2) % 4 = 2 by omega,
    show (4 * i + 3) % 4 = 3 by omega, UInt8.toNat_ofNat']
  have : w.toNat / 256 ^ 0 % 2 ^ 8 + 256 * (w.toNat / 256 ^ 1 % 2 ^ 8) + 256 ^ 2 * (w.toNat / 256 ^ 2 % 2 ^ 8) +
      256 ^ 3 * (w.toNat / 256 ^ 3 % 2 ^ 8) = w.toNat := by omega
  rw [this]
  exact UInt32.ofNat_toNat

theorem getWord_setWord_ne (b : Block) {i j : Nat} (hij : j ≠ i) (w : UInt32) :
    getWord (setWord b i w) j = getWord b j := by
  simp only [getWord, setWord, show 4 * j / 4 ≠ i by omega, show (4 * j + 1) / 4 ≠ i by omega,
    show (4 * j + 2) / 4 ≠ i by omega, show (4 * j + 3) / 4 ≠ i by omega, ↓reduceIte]

theorem getWord_setWords_lt (b : Block) {i j : Nat} (hj : j < i) (ws : List UInt32) :
    getWord (setWords b i ws) j = getWord b j := by
  induction ws generalizing b i with
  | nil => rfl
  | cons w ws ih => rw [setWords, ih _ (by omega), getWord_setWord_ne _ (by omega)]

theorem getWord_setWords (b : Block) {i : Nat} {ws : List UInt32} (h : i + ws.length ≤ NWORD) {j : Nat}
    (hj : j < ws.length) : getWord (setWords b i ws) (i + j) = ws[j] := by
  induction ws generalizing b i j with
  | nil => simp at hj
  | cons w ws ih =>
    simp only [List.length_cons] at h hj
    rw [setWords]
    cases j with
    | zero =>
      change getWord (setWords (setWord b i w) (i + 1) ws) i = w
      rw [getWord_setWords_lt _ (by omega), getWord_setWord_self _ (by omega)]
    | succ j =>
      rw [show i + (j + 1) = i + 1 + j by omega, ih _ (by omega) (by omega)]
      rfl

theorem headerCount_putHeader (b : Block) {lh : List UInt32} (h : lh.length ≤ LOGSIZE) :
    headerCount (putHeader b lh) = lh.length := by
  have hw : getWord (putHeader b lh) 0 = .ofNat lh.length := by
    rw [putHeader, getWord_setWords_lt _ (by omega), getWord_setWord_self _ (by decide)]
  have hlen : lh.length < 2 ^ 31 := by
    simp only [LOGSIZE, MAXOPBLOCKS] at h
    omega
  have hnat : (UInt32.ofNat lh.length).toNat = lh.length := UInt32.toNat_ofNat_of_lt' (by simp only [UInt32.size]; omega)
  rw [headerCount, hw, hnat, if_pos hlen]

/-- Reading the header back gives what was written. -/
theorem header_putHeader (b : Block) {lh : List UInt32} (h : lh.length ≤ LOGSIZE) : header (putHeader b lh) = lh := by
  apply List.ext_getElem
  · simp [header, headerCount_putHeader b h]
  · intro j h1 h2
    simp only [header, List.getElem_map, List.getElem_range, putHeader]
    rw [Nat.add_comm, getWord_setWords _ _ h2]
    simp only [LOGSIZE, MAXOPBLOCKS, NWORD, BSIZE] at *
    omega

/-! ### One write of the log -/

/-- From `s` to `t` the blocks `ws` were written, each through a buffer that then agrees with the disk; no reference
to a buffer is left over. -/
structure Store.Wrote (s t : Store) (dev : UInt32) (ws : List (UInt32 × Block)) : Prop where
  wf : t.Wf
  log : t.log = s.log
  disk : t.disk = applyWrites s.disk ws
  writes : t.writes = s.writes ++ ws
  coherent : ∀ c, s.Coherent dev c ∨ (∃ w ∈ ws, w.1 = c) → t.Coherent dev c
  pinned : ∀ c v, (∀ w ∈ ws, w.1 ≠ c) → s.Pinned dev c v → t.Pinned dev c v
  refcnt : ∀ k, (t.buf k).refcnt ≤ (s.buf k).refcnt

theorem Store.Wrote.refl {s : Store} (hs : s.Wf) (dev : UInt32) : s.Wrote s dev [] :=
  ⟨hs, rfl, rfl, by simp, fun _ h => h.resolve_right (by simp), fun _ _ _ => id, fun _ => Nat.le_refl _⟩

theorem Store.Wrote.trans {s t u : Store} {dev : UInt32} {ws vs : List (UInt32 × Block)} (h : s.Wrote t dev ws)
    (h' : t.Wrote u dev vs) : s.Wrote u dev (ws ++ vs) where
  wf := h'.wf
  log := h'.log.trans h.log
  disk := by rw [h'.disk, h.disk, applyWrites_append]
  writes := by rw [h'.writes, h.writes, List.append_assoc]
  coherent c hc := by
    rcases hc with hc | ⟨w, hw, rfl⟩
    · exact h'.coherent c (.inl (h.coherent c (.inl hc)))
    · rcases List.mem_append.1 hw with hw | hw
      · exact h'.coherent _ (.inl (h.coherent _ (.inr ⟨w, hw, rfl⟩)))
      · exact h'.coherent _ (.inr ⟨w, hw, rfl⟩)
  pinned c v hc hp :=
    h'.pinned c v (fun w hw => hc w (List.mem_append_right _ hw)) (h.pinned c v (fun w hw =>
      hc w (List.mem_append_left _ hw)) hp)
  refcnt k := Nat.le_trans (h'.refcnt k) (h.refcnt k)

/-- Some buffer is not referred to. -/
def Store.HasFree (s : Store) : Prop := ∃ k, (s.buf k).refcnt = 0

theorem Store.Wrote.hasFree {s t : Store} {dev : UInt32} {ws : List (UInt32 × Block)} (h : s.Wrote t dev ws)
    (hf : s.HasFree) : t.HasFree := by
  obtain ⟨k, hk⟩ := hf
  exact ⟨k, Nat.le_zero.1 (hk ▸ h.refcnt k)⟩

/-- No buffer is referred to, as after a boot. -/
def Store.Quiet (s : Store) : Prop := ∀ k, (s.buf k).refcnt = 0

theorem Store.Wrote.quiet {s t : Store} {dev : UInt32} {ws : List (UInt32 × Block)} (h : s.Wrote t dev ws)
    (hq : s.Quiet) : t.Quiet :=
  fun k => Nat.le_zero.1 (hq k ▸ h.refcnt k)

/-- A block was read through buffer `i` and released again. -/
theorem Store.Wrote.read {s t : Store} {dev b : UInt32} {i : Fin NBUF} {v : Block} (hs : s.Wf) (hd : dev ≠ 0)
    (hg : s.Got dev b i v) (hbuf : t.buf = Function.update s.buf i ⟨true, dev, b, (s.buf i).refcnt, v⟩)
    (hl : ∀ k, k ∈ t.lru) (hlog : t.log = s.log) (hdisk : t.disk = s.disk) (hw : t.writes = s.writes) :
    s.Wrote t dev [] := by
  have hset : s.Settled t dev b i (s.buf i).refcnt v := ⟨⟨_, hg⟩, hbuf⟩
  refine ⟨hset.wf hs hd hl, hlog, hdisk, by simp [hw], fun c hc => ?_, fun c w _ hp => ?_, fun k => ?_⟩
  · have hc' : s.Coherent dev c := hc.resolve_right (by simp)
    by_cases hcb : c = b
    · subst hcb
      exact hset.coherent hs hd (by rw [hdisk, hg.eq_disk hc'])
    · exact hset.coherent_ne hcb (by rw [hdisk]) hc'
  · by_cases hcb : c = b
    · subst hcb
      obtain ⟨rfl, hr⟩ := hg.of_pinned hs hd hp
      exact hset.pinned hr
    · exact hset.pinned_ne hcb hp
  · rw [hbuf]
    by_cases hk : k = i <;> simp [hk]

/-- A block was written through buffer `i`, which then was released. -/
theorem Store.Wrote.write {s t : Store} {dev b : UInt32} {i : Fin NBUF} {r : Nat} {v w : Block} (hs : s.Wf)
    (hd : dev ≠ 0) (hg : s.Got dev b i w) (hbuf : t.buf = Function.update s.buf i ⟨true, dev, b, r, v⟩)
    (hr : r ≤ (s.buf i).refcnt) (hl : ∀ k, k ∈ t.lru) (hlog : t.log = s.log)
    (hdisk : t.disk = Function.update s.disk b v) (hw : t.writes = s.writes ++ [(b, v)]) : s.Wrote t dev [(b, v)] := by
  have hset : s.Settled t dev b i r v := ⟨⟨_, hg⟩, hbuf⟩
  refine ⟨hset.wf hs hd hl, hlog, hdisk, hw, fun c hc => ?_, fun c w hc hp => ?_, fun k => ?_⟩
  · by_cases hcb : c = b
    · subst hcb
      exact hset.coherent hs hd (by simp [hdisk])
    · refine hset.coherent_ne hcb (by simp [hdisk, hcb]) (hc.resolve_right ?_)
      simpa using Ne.symm hcb
  · exact hset.pinned_ne (Ne.symm (by simpa using hc)) hp
  · rw [hbuf]
    by_cases hk : k = i
    · simpa [hk] using hr
    · simp [hk]

private theorem Got.of_disk {s t : Store} {dev b : UInt32} {i : Fin NBUF} {v : Block} (h : s.Got dev b i v)
    (hbuf : t.buf = s.buf) (hdisk : t.disk b = s.disk b) : t.Got dev b i v := by
  simpa only [Got, Caches, hbuf, hdisk] using h

theorem writeLogEntry_spec {s : Store} {lg : Log} {tail : Nat} {b : UInt32} {v : Block} (hs : s.Wf) (hd : lg.dev ≠ 0)
    (hne : lg.slot tail ≠ b) (hp : s.Pinned lg.dev b v) :
    wp (writeLogEntry lg tail b) (fun _ t => s.Wrote t lg.dev [(lg.slot tail, v)])
      (fun _ t => t.writes = s.writes ∧ ¬ s.HasFree) s := by
  simp only [writeLogEntry, wp_bind, wp_get, setData, bwrite, virtioDiskRw, brelse, wp_modify, ↓reduceIte]
  refine wp_mono (bread_spec hs.lru _ _) ?_ (fun _ t h => ⟨by rw [h.1], fun hf => Exists.elim hf h.2.2⟩)
  rintro i _ ⟨v₁, hi, rfl⟩
  refine wp_mono (bread_spec (by exact hs.lru) _ _) ?_ (fun _ t h => ?_)
  · rintro j _ ⟨v₂, hj, rfl⟩
    obtain ⟨hji, hj'⟩ := hj.second hne
    -- first the log block is written through `i`, then the pinned buffer `j` is read
    let s₁ : Store := { s.setBuf i ⟨true, lg.dev, lg.slot tail, (s.buf i).refcnt, v⟩ with
      disk := Function.update s.disk (lg.slot tail) v, writes := s.writes ++ [(lg.slot tail, v)] }
    have h₁ : s.Wrote s₁ lg.dev [(lg.slot tail, v)] := .write hs hd hi rfl (Nat.le_refl _) hs.lru rfl rfl rfl
    have hj₁ : s₁.Got lg.dev b j v₂ := Got.of_disk (hj' (s.buf i).refcnt v) rfl (by simp [s₁, Ne.symm hne])
    obtain ⟨rfl, -⟩ := hj₁.of_pinned h₁.wf hd (h₁.pinned b v (by simpa using hne) hp)
    refine h₁.trans (.read h₁.wf hd hj₁ ?_ ?_ ?_ ?_ ?_)
    · funext k
      by_cases hki : k = i
      · subst hki
        simp [release_buf, s₁, setBuf, Ne.symm hji]
      · by_cases hkj : k = j
        · subst hkj
          simp [release_buf, s₁, setBuf, hji]
        · simp [release_buf, s₁, setBuf, hki, hkj]
    · refine mem_release_lru (fun k => mem_release_lru (fun k => ?_) _ _) _
      exact hs.lru k
    · simp [s₁]
    · simp [s₁, Ne.symm hji]
    · simp [s₁, Ne.symm hji]
  · -- the home block is cached, so `bread` finds it
    have hs₁ : s.Settled (s.setBuf i ⟨true, lg.dev, lg.slot tail, (s.buf i).refcnt + 1, v₁⟩) lg.dev (lg.slot tail) i
      ((s.buf i).refcnt + 1) v₁ := ⟨⟨_, hi⟩, rfl⟩
    obtain ⟨k, hk, -⟩ := hs₁.pinned_ne (Ne.symm hne) hp
    exact absurd hk (h.2.1 k)

theorem installEntry_spec {s : Store} {lg : Log} {tail : Nat} {b : UInt32} (recovering : Bool) (hs : s.Wf)
    (hd : lg.dev ≠ 0) (hne : lg.slot tail ≠ b) (hc : s.Coherent lg.dev (lg.slot tail)) :
    wp (installEntry lg recovering tail b) (fun _ t => s.Wrote t lg.dev [(b, s.disk (lg.slot tail))])
      (fun _ t => t.writes = s.writes ∧ ¬ s.Quiet ∧ ∀ w, s.Pinned lg.dev b w → ¬ s.HasFree) s := by
  simp only [installEntry, wp_bind, wp_get, setData, bwrite, virtioDiskRw, brelse, bunpin, wp_modify, wp_ite,
    ↓reduceIte]
  refine wp_mono (bread_spec hs.lru _ _) ?_ (fun _ t h => ⟨by rw [h.1], fun hq => h.2.2 ⟨0, by decide⟩ (hq _),
    fun _ _ hp => Exists.elim hp h.2.2⟩)
  rintro i _ ⟨v₁, hi, rfl⟩
  refine wp_mono (bread_spec (by exact hs.lru) _ _) ?_ (fun _ t h => ?_)
  · rintro j _ ⟨v₂, hj, rfl⟩
    obtain ⟨hji, hj'⟩ := hj.second hne
    obtain rfl := hi.eq_disk hc
    -- the log block is read through `i`, then the home block is written through `j`
    let s₁ : Store := s.setBuf i ⟨true, lg.dev, lg.slot tail, (s.buf i).refcnt, s.disk (lg.slot tail)⟩
    have h₁ : s.Wrote s₁ lg.dev [] := .read hs hd hi rfl hs.lru rfl rfl rfl
    have hj₁ : s₁.Got lg.dev b j v₂ := hj' (s.buf i).refcnt _
    cases recovering
    · refine h₁.trans (.write (r := (s.buf j).refcnt - 1) h₁.wf hd hj₁ ?_ ?_ ?_ ?_ ?_ ?_)
      · funext k
        by_cases hki : k = i
        · subst hki
          simp [release_buf, s₁, setBuf, Ne.symm hji]
        · by_cases hkj : k = j
          · subst hkj
            simp [release_buf, s₁, setBuf, hji, Ne.symm hji]
          · simp [release_buf, s₁, setBuf, hki, hkj]
      · simp [s₁, hji]
      · refine mem_release_lru (fun k => mem_release_lru (fun k => ?_) _ _) _
        exact hs.lru k
      · simp [s₁]
      · simp [s₁, Ne.symm hji]
      · simp [s₁, Ne.symm hji]
    · refine h₁.trans (.write (r := (s.buf j).refcnt) h₁.wf hd hj₁ ?_ ?_ ?_ ?_ ?_ ?_)
      · funext k
        by_cases hki : k = i
        · subst hki
          simp [release_buf, s₁, setBuf, Ne.symm hji]
        · by_cases hkj : k = j
          · subst hkj
            simp [release_buf, s₁, setBuf, hji, Ne.symm hji]
          · simp [release_buf, s₁, setBuf, hki, hkj]
      · simp [s₁, hji]
      · refine mem_release_lru (fun k => mem_release_lru (fun k => ?_) _ _) _
        exact hs.lru k
      · simp [s₁]
      · simp [s₁, Ne.symm hji]
      · simp [s₁, Ne.symm hji]
  · refine ⟨by rw [h.1]; rfl, fun hq => ?_, fun w hp => ?_⟩
    · -- of two buffers nobody refers to, the log block took one
      obtain ⟨k, hk⟩ : ∃ k : Fin NBUF, k ≠ i := by
        by_cases hi0 : i = ⟨0, by decide⟩
        · exact ⟨⟨1, by decide⟩, by simp [hi0]⟩
        · exact ⟨⟨0, by decide⟩, Ne.symm hi0⟩
      exact absurd (hq k) (by simpa [hk] using h.2.2 k)
    · have hs₁ : s.Settled (s.setBuf i ⟨true, lg.dev, lg.slot tail, (s.buf i).refcnt + 1, v₁⟩) lg.dev (lg.slot tail) i
        ((s.buf i).refcnt + 1) v₁ := ⟨⟨_, hi⟩, rfl⟩
      obtain ⟨k, hk, -⟩ := hs₁.pinned_ne (Ne.symm hne) hp
      exact absurd hk (h.2.1 k)

theorem writeHead_spec {s : Store} (hs : s.Wf) (hd : s.log.dev ≠ 0) :
    wp writeHead (fun _ t => ∃ x, s.Wrote t s.log.dev [(s.log.start, putHeader x s.log.lh)])
      (fun _ t => t.writes = s.writes ∧ ¬ s.HasFree) s := by
  simp only [writeHead, wp_bind, wp_get, setData, bwrite, virtioDiskRw, brelse, wp_modify, ↓reduceIte]
  refine wp_mono (bread_spec hs.lru _ _) ?_ (fun _ t h => ⟨by rw [h.1], fun hf => Exists.elim hf h.2.2⟩)
  rintro i _ ⟨v, hi, rfl⟩
  refine ⟨v, .write (r := (s.buf i).refcnt) hs hd hi ?_ (Nat.le_refl _) ?_ ?_ ?_ ?_⟩
  · simp [release_buf, setBuf]
  · exact mem_release_lru (by exact hs.lru) _
  · simp
  · simp
  · simp

/-! ### The writes of a commit and of a recovery -/

/-- The contents `v` of the blocks `bs`, written to the log from entry `tail` on. -/
def logWrites (lg : Log) (v : UInt32 → Block) : Nat → List UInt32 → List (UInt32 × Block)
  | _, [] => []
  | tail, b :: bs => (lg.slot tail, v b) :: logWrites lg v (tail + 1) bs

/-- The contents `v` of the blocks `bs`, written to their home locations. -/
def homeWrites (v : UInt32 → Block) (bs : List UInt32) : List (UInt32 × Block) := bs.map fun b => (b, v b)

theorem mem_logWrites {lg : Log} {v : UInt32 → Block} {tail : Nat} {bs : List UInt32} {w : UInt32 × Block} :
    w ∈ logWrites lg v tail bs ↔ ∃ k b, bs[k]? = some b ∧ w = (lg.slot (tail + k), v b) := by
  induction bs generalizing tail with
  | nil => simp [logWrites]
  | cons b bs ih =>
    rw [logWrites, List.mem_cons, ih]
    constructor
    · rintro (rfl | ⟨k, c, hk, rfl⟩)
      · exact ⟨0, b, rfl, rfl⟩
      · exact ⟨k + 1, c, hk, by rw [show tail + (k + 1) = tail + 1 + k by omega]⟩
    · rintro ⟨k, c, hk, rfl⟩
      cases k with
      | zero =>
        obtain rfl : b = c := by simpa using hk
        exact .inl rfl
      | succ k => exact .inr ⟨k, c, hk, by rw [show tail + (k + 1) = tail + 1 + k by omega]⟩

/-- The outcome of a loop that stopped early: some of its writes were made. -/
def Store.CutIn (s t : Store) (ws : List (UInt32 × Block)) : Prop := ∃ vs, vs <+: ws ∧ t.writes = s.writes ++ vs

theorem Store.CutIn.of_eq {s t : Store} (h : t.writes = s.writes) (ws : List (UInt32 × Block)) : s.CutIn t ws :=
  ⟨[], List.nil_prefix, by simp [h]⟩

theorem Store.Wrote.cutIn {s t u : Store} {dev : UInt32} {ws vs : List (UInt32 × Block)} (h : s.Wrote t dev ws)
    (hu : t.CutIn u vs) : s.CutIn u (ws ++ vs) := by
  obtain ⟨xs, hxs, hu⟩ := hu
  exact ⟨ws ++ xs, List.prefix_append_right_inj ws |>.2 hxs, by rw [hu, h.writes, List.append_assoc]⟩

theorem Store.CutIn.append {s t : Store} {ws : List (UInt32 × Block)} (h : s.CutIn t ws)
    (vs : List (UInt32 × Block)) : s.CutIn t (ws ++ vs) := by
  obtain ⟨xs, hxs, ht⟩ := h
  exact ⟨xs, hxs.trans (List.prefix_append ws vs), ht⟩

theorem writeLogFrom_spec {s : Store} {lg : Log} {v : UInt32 → Block} {tail : Nat} {bs : List UInt32} (hs : s.Wf)
    (hd : lg.dev ≠ 0) (hne : ∀ k < bs.length, lg.slot (tail + k) ∉ bs) (hp : ∀ b ∈ bs, s.Pinned lg.dev b (v b)) :
    wp (writeLogFrom lg tail bs) (fun _ t => s.Wrote t lg.dev (logWrites lg v tail bs))
      (fun _ t => s.CutIn t (logWrites lg v tail bs) ∧ ¬ s.HasFree) s := by
  induction bs generalizing s tail with
  | nil => exact .refl hs _
  | cons b bs ih =>
    simp only [List.mem_cons, List.length_cons, not_or] at hne hp
    simp only [writeLogFrom, wp_bind]
    refine wp_mono (writeLogEntry_spec hs hd (hne 0 (by omega)).1 (hp b (.inl rfl))) (fun _ t h => ?_)
      (fun _ t h => ⟨.of_eq h.1 _, h.2⟩)
    refine wp_mono (ih h.wf (fun k hk => ?_) (fun c hc => ?_)) (fun _ u hu => h.trans hu)
      (fun _ u hu => ⟨h.cutIn hu.1, fun hf => hu.2 (h.hasFree hf)⟩)
    · rw [show tail + 1 + k = tail + (k + 1) by omega]
      exact (hne (k + 1) (by omega)).2
    · refine h.pinned c _ (fun w hw => ?_) (hp c (.inr hc))
      obtain rfl := List.mem_singleton.1 hw
      rintro rfl
      exact (hne 0 (by omega)).2 hc

theorem installFrom_spec {s : Store} {lg : Log} {v : UInt32 → Block} {tail : Nat} {bs : List UInt32}
    (recovering : Bool) (hs : s.Wf) (hd : lg.dev ≠ 0) (hnd : bs.Nodup)
    (hne : ∀ k < bs.length, lg.slot (tail + k) ∉ bs)
    (hc : ∀ k b, bs[k]? = some b → s.Coherent lg.dev (lg.slot (tail + k)) ∧ s.disk (lg.slot (tail + k)) = v b) :
    wp (installFrom lg recovering tail bs) (fun _ t => s.Wrote t lg.dev (homeWrites v bs))
      (fun _ t => s.CutIn t (homeWrites v bs) ∧ ¬ s.Quiet ∧
        ((∀ b ∈ bs, ∃ w, s.Pinned lg.dev b w) → ¬ s.HasFree)) s := by
  induction bs generalizing s tail with
  | nil => exact .refl hs _
  | cons b bs ih =>
    simp only [List.mem_cons, List.length_cons, not_or] at hne
    rw [List.nodup_cons] at hnd
    obtain ⟨hc0, hv⟩ := hc 0 b rfl
    simp only [installFrom, wp_bind]
    refine wp_mono (installEntry_spec recovering hs hd (hne 0 (by omega)).1 hc0) (fun _ t h => ?_)
      (fun _ t h => ⟨.of_eq h.1 _, h.2.1, fun hp => ?_⟩)
    · rw [Nat.add_zero] at hv
      rw [hv] at h
      refine wp_mono (ih h.wf hnd.2 (fun k hk => ?_) (fun k c hk => ?_)) (fun _ u hu => h.trans hu)
        (fun _ u hu => ⟨h.cutIn hu.1, fun hq => hu.2.1 (h.quiet hq), fun hp hf => ?_⟩)
      · rw [show tail + 1 + k = tail + (k + 1) by omega]
        exact (hne (k + 1) (by omega)).2
      · have hlt : k < bs.length := (List.getElem?_eq_some_iff.1 hk).1
        have hkb : lg.slot (tail + (k + 1)) ≠ b := (hne (k + 1) (by omega)).1
        obtain ⟨hco, hcv⟩ := hc (k + 1) c hk
        rw [show tail + 1 + k = tail + (k + 1) by omega]
        exact ⟨h.coherent _ (.inl hco), by rw [h.disk]; simpa [hkb] using hcv⟩
      · refine hu.2.2 (fun c hc' => ?_) (h.hasFree hf)
        obtain ⟨w, hw⟩ := hp c (List.mem_cons_of_mem _ hc')
        refine ⟨w, h.pinned c w (fun x hx => ?_) hw⟩
        obtain rfl := List.mem_singleton.1 hx
        rintro rfl
        exact hnd.1 hc'
    · obtain ⟨w, hw⟩ := hp b List.mem_cons_self
      exact h.2.2 w hw

/-! ### Commit -/

/-- The blocks of the log: the header block and the `nlog - 1` blocks after it. -/
def Log.Region (lg : Log) (b : UInt32) : Prop := ∃ k : Nat, (k : Int) < lg.size ∧ b = lg.start + .ofNat k

/-- A transaction that is about to be committed: up to `LOGSIZE` distinct blocks outside the log, each cached with
the contents `v` in a buffer that `log_write` has pinned, and an empty header on disk. -/
structure Store.Ready (s : Store) (v : UInt32 → Block) : Prop where
  wf : s.Wf
  dev : s.log.dev ≠ 0
  pos : 1 ≤ s.log.lh.length
  le : s.log.lh.length ≤ LOGSIZE
  lt : (s.log.lh.length : Int) ≤ s.log.size - 1
  nodup : s.log.lh.Nodup
  home : ∀ b ∈ s.log.lh, ¬ s.log.Region b
  pinned : ∀ b ∈ s.log.lh, s.Pinned s.log.dev b (v b)
  empty : headerCount (s.disk s.log.start) = 0

/-- The writes of `commit`; `x` and `y` are what the header block held beyond the entries that are written. -/
def commitWrites (lg : Log) (v : UInt32 → Block) (x y : Block) : List (UInt32 × Block) :=
  logWrites lg v 0 lg.lh ++ ((lg.start, putHeader x lg.lh) :: (homeWrites v lg.lh ++ [(lg.start, putHeader y [])]))

theorem Log.slot_inj {lg : Log} {j k : Nat} (hj : j < LOGSIZE) (hk : k < LOGSIZE) (h : lg.slot j = lg.slot k) :
    j = k := by
  have h1 : UInt32.ofNat j = UInt32.ofNat k := by
    simpa [slot] using h
  simp only [LOGSIZE, MAXOPBLOCKS] at hj hk
  have h2 := congrArg UInt32.toNat h1
  rwa [UInt32.toNat_ofNat_of_lt' (by simp only [UInt32.size]; omega),
    UInt32.toNat_ofNat_of_lt' (by simp only [UInt32.size]; omega)] at h2

theorem Log.slot_ne_start {lg : Log} {k : Nat} (hk : k < LOGSIZE) : lg.slot k ≠ lg.start := by
  intro h
  have h1 : UInt32.ofNat (k + 1) = 0 := by
    have : lg.start + UInt32.ofNat (k + 1) = lg.start + 0 := by
      rw [UInt32.ofNat_add, ← UInt32.add_assoc, UInt32.add_zero]
      exact h
    exact (UInt32.add_right_inj _).1 this
  simp only [LOGSIZE, MAXOPBLOCKS] at hk
  have h2 := congrArg UInt32.toNat h1
  rw [UInt32.toNat_ofNat_of_lt' (by simp only [UInt32.size]; omega)] at h2
  simp at h2

theorem Log.region_start {lg : Log} (h : 1 ≤ lg.size) : lg.Region lg.start := ⟨0, by omega, by simp⟩

theorem Log.region_slot {lg : Log} {k : Nat} (h : (k : Int) + 1 < lg.size) : lg.Region (lg.slot k) :=
  ⟨k + 1, by omega, by rw [UInt32.ofNat_add, ← UInt32.add_assoc]; rfl⟩

theorem applyWrites_logWrites {lg : Log} {v : UInt32 → Block} {bs : List UInt32} (hle : bs.length ≤ LOGSIZE) {k : Nat}
    {b : UInt32} (hk : bs[k]? = some b) (d : Disk) : applyWrites d (logWrites lg v 0 bs) (lg.slot k) = v b := by
  refine applyWrites_of_mem (fun w hw hwk => ?_) ⟨_, mem_logWrites.2 ⟨k, b, hk, rfl⟩, by simp⟩ d
  obtain ⟨j, c, hj, rfl⟩ := mem_logWrites.1 hw
  simp only [Nat.zero_add] at hwk
  have hkl := (List.getElem?_eq_some_iff.1 hk).1
  have hjl := (List.getElem?_eq_some_iff.1 hj).1
  obtain rfl := Log.slot_inj (by omega) (by omega) hwk
  rw [hk, Option.some.injEq] at hj
  rw [hj]

section

variable {s : Store} {v : UInt32 → Block}

theorem Store.Ready.slot_ne (h : s.Ready v) {k : Nat} (hk : k < s.log.lh.length) {b : UInt32} (hb : b ∈ s.log.lh) :
    s.log.slot k ≠ b := by
  rintro rfl
  have := h.lt
  exact h.home _ hb (Log.region_slot (by omega))

theorem Store.Ready.start_ne (h : s.Ready v) {b : UInt32} (hb : b ∈ s.log.lh) : s.log.start ≠ b := by
  rintro rfl
  have := h.lt
  exact h.home _ hb (Log.region_start (by omega))

/-- `commit` performs its writes in order.  It stops early only for want of a buffer, when every buffer of the cache
is referred to. -/
theorem commit_spec (h : s.Ready v) :
    wp commit (fun _ t => ∃ x y, t.writes = s.writes ++ commitWrites s.log v x y)
      (fun _ t => (∃ x y, s.CutIn t (commitWrites s.log v x y)) ∧ ¬ s.HasFree) s := by
  have hle := h.le
  simp only [commit, wp_bind, wp_get, wp_ite, writeLog, installTrans, clearHeader, wp_modify]
  rw [if_pos (show s.log.lh.length > 0 from h.pos)]
  refine wp_mono (writeLogFrom_spec h.wf h.dev (fun k hk hm => ?_) h.pinned) (fun _ t₁ h₁ => ?_)
    (fun _ t ht => ⟨⟨fun _ => 0, fun _ => 0, ht.1.append _⟩, ht.2⟩)
  · rw [Nat.zero_add] at hm
    exact h.slot_ne hk hm rfl
  refine wp_mono (writeHead_spec h₁.wf (by rw [h₁.log]; exact h.dev)) ?_
    (fun _ t ht => ⟨⟨fun _ => 0, fun _ => 0, h₁.cutIn (.of_eq ht.1 _)⟩, fun hf => ht.2 (h₁.hasFree hf)⟩)
  rintro _ t₂ ⟨x, h₂⟩
  rw [h₁.log] at h₂
  have h₁₂ := h₁.trans h₂
  -- the log blocks hold the cached contents, on disk and in the cache
  have hlog : ∀ k b, s.log.lh[k]? = some b →
      t₂.Coherent s.log.dev (s.log.slot (0 + k)) ∧ t₂.disk (s.log.slot (0 + k)) = v b := by
    intro k b hk
    have hkl := (List.getElem?_eq_some_iff.1 hk).1
    rw [Nat.zero_add]
    refine ⟨h₁₂.coherent _ (.inr ⟨_, List.mem_append_left _ (mem_logWrites.2 ⟨k, b, hk, rfl⟩), by simp⟩), ?_⟩
    rw [h₁₂.disk, applyWrites_append, applyWrites_cons, applyWrites_nil,
      Function.update_of_ne (Log.slot_ne_start (by omega)), applyWrites_logWrites h.le hk]
  have hpin : ∀ b ∈ s.log.lh, ∃ w, t₂.Pinned s.log.dev b w := by
    intro b hb
    refine ⟨_, h₁₂.pinned b _ (fun w hw => ?_) (h.pinned b hb)⟩
    rcases List.mem_append.1 hw with hw | hw
    · obtain ⟨k, c, hk, rfl⟩ := mem_logWrites.1 hw
      rw [Nat.zero_add]
      exact h.slot_ne (List.getElem?_eq_some_iff.1 hk).1 hb
    · obtain rfl := List.mem_singleton.1 hw
      exact h.start_ne hb
  rw [h₁₂.log]
  refine wp_mono (installFrom_spec false h₁₂.wf h.dev h.nodup (fun k hk hm => ?_) hlog) (fun _ t₃ h₃ => ?_)
    (fun _ t ht => ⟨⟨x, fun _ => 0, ?_⟩, fun hf => ht.2.2 hpin (h₁₂.hasFree hf)⟩)
  · rw [Nat.zero_add] at hm
    exact h.slot_ne hk hm rfl
  · have h₁₃ := h₁₂.trans h₃
    refine wp_mono (writeHead_spec (s := { t₃ with log := { t₃.log with lh := [] } }) ⟨h₁₃.wf.lru, h₁₃.wf.key⟩
      (by rw [h₁₃.log]; exact h.dev)) ?_ (fun _ t ht => ⟨⟨x, fun _ => 0, ?_⟩, fun hf => ht.2 (h₁₃.hasFree hf)⟩)
    · rintro _ t₄ ⟨y, h₄⟩
      refine ⟨x, y, ?_⟩
      rw [h₄.writes, h₁₃.writes, h₁₃.log]
      simp [commitWrites]
    · have := h₁₃.cutIn (.of_eq ht.1 [(s.log.start, putHeader (fun _ => 0) [])])
      simpa [commitWrites] using this
  · have := (h₁₂.cutIn ht.1).append [(s.log.start, putHeader (fun _ => 0) [])]
    simpa [commitWrites] using this

end

/-- A commit completes as long as one buffer of the cache is not referred to. -/
theorem commit_completes {s : Store} {v : UInt32 → Block} (h : s.Ready v) (hf : s.HasFree) :
    ∃ t x y, commit s = .ok () t ∧ t.writes = s.writes ++ commitWrites s.log v x y := by
  have hw := commit_spec h
  unfold wp at hw
  cases hc : commit s with
  | ok a t =>
    rw [hc] at hw
    obtain ⟨x, y, ht⟩ := hw
    exact ⟨t, x, y, rfl, ht⟩
  | error e t =>
    rw [hc] at hw
    exact absurd hf hw.2

end Xv6
