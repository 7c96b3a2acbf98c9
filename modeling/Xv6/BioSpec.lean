import Xv6.Bio

/-!
# What `bread` and `brelse` do to the cache

`bread` returns a buffer with the contents of the block: the cached ones, or else the ones on disk
(`Store.Got`, `bread_spec`).  Two facts about a block survive the traffic of other blocks through the cache:

* `Store.Pinned`: a buffer that somebody refers to holds it, so it is not recycled;
* `Store.Coherent`: disk and cache agree on it, so it does not matter whether it is recycled.
-/

namespace Xv6

namespace Store

/-- Every buffer is on the list, and a block is cached at most once. -/
structure Wf (s : Store) : Prop where
  lru : ∀ i, i ∈ s.lru
  key : ∀ {dev b i j}, dev ≠ 0 → s.Caches dev b i → s.Caches dev b j → i = j

/-- Buffer `i`, found in the cache or recycled, gets block `b` with the contents `v`. -/
def Got (s : Store) (dev b : UInt32) (i : Fin NBUF) (v : Block) : Prop :=
  (s.Caches dev b i ∧ v = if (s.buf i).valid then (s.buf i).data else s.disk b) ∨
    ((∀ j, ¬ s.Caches dev b j) ∧ (s.buf i).refcnt = 0 ∧ v = s.disk b)

/-- `bread` cannot serve `b`: it is not cached, and all buffers are referred to. -/
def NoBuffer (s : Store) (dev b : UInt32) : Prop := (∀ j, ¬ s.Caches dev b j) ∧ ∀ j, (s.buf j).refcnt ≠ 0

def Pinned (s : Store) (dev b : UInt32) (v : Block) : Prop :=
  ∃ i, s.Caches dev b i ∧ (s.buf i).valid = true ∧ (s.buf i).refcnt ≠ 0 ∧ (s.buf i).data = v

def Coherent (s : Store) (dev b : UInt32) : Prop :=
  ∀ i, s.Caches dev b i → (s.buf i).valid = true → (s.buf i).data = s.disk b

end Store

open Store

theorem bget_spec {s : Store} (hl : ∀ i, i ∈ s.lru) (dev b : UInt32) :
    wp (bget dev b)
      (fun i t => (s.Caches dev b i ∧ t = s.setBuf i { s.buf i with refcnt := (s.buf i).refcnt + 1 }) ∨
        ((∀ j, ¬ s.Caches dev b j) ∧ (s.buf i).refcnt = 0 ∧
          t = s.setBuf i { s.buf i with dev := dev, blockno := b, valid := false, refcnt := 1 }))
      (fun _ t => t = s ∧ s.NoBuffer dev b) s := by
  unfold wp bget
  cases hf : s.lru.find? fun i => s.Caches dev b i with
  | some i =>
    have := List.find?_some hf
    exact .inl ⟨by simpa using this, rfl⟩
  | none =>
    have hnone : ∀ j, ¬ s.Caches dev b j := fun j => by simpa using List.find?_eq_none.1 hf j (hl j)
    cases hr : s.lru.reverse.find? fun i => (s.buf i).refcnt = 0 with
    | some i =>
      have := List.find?_some hr
      exact .inr ⟨hnone, by simpa using this, rfl⟩
    | none =>
      exact ⟨rfl, hnone, fun j => by simpa using List.find?_eq_none.1 hr j (by simp [hl j])⟩

theorem bread_spec {s : Store} (hl : ∀ i, i ∈ s.lru) (dev b : UInt32) :
    wp (bread dev b)
      (fun i t => ∃ v, s.Got dev b i v ∧ t = s.setBuf i ⟨true, dev, b, (s.buf i).refcnt + 1, v⟩)
      (fun _ t => t = s ∧ s.NoBuffer dev b) s := by
  unfold bread
  rw [wp_bind]
  refine wp_mono (bget_spec hl dev b) (fun i t h => ?_) (fun _ _ h => h)
  simp only [wp_bind, wp_get, wp_ite, wp_pure, virtioDiskRw, wp_modify]
  rcases h with ⟨hc, rfl⟩ | ⟨hn, h0, rfl⟩
  · obtain ⟨rfl, rfl⟩ := id hc
    cases hv : (s.buf i).valid with
    | true =>
      simp only [setBuf_buf_self, hv, Bool.not_true, Bool.false_eq_true, ↓reduceIte]
      exact ⟨_, .inl ⟨hc, rfl⟩, by simp [hv]⟩
    | false =>
      simp only [setBuf_buf_self, hv, Bool.not_false, Bool.false_eq_true, ↓reduceIte, setBuf_setBuf]
      exact ⟨_, .inl ⟨hc, rfl⟩, by simp [hv]⟩
  · simp only [setBuf_buf_self, Bool.not_false, Bool.false_eq_true, ↓reduceIte, setBuf_setBuf]
    exact ⟨_, .inr ⟨hn, h0, rfl⟩, by simp [h0]⟩

namespace Store

/-! ### Releasing a buffer -/

theorem release_buf (s : Store) (i : Fin NBUF) :
    (s.release i).buf = Function.update s.buf i { s.buf i with refcnt := (s.buf i).refcnt - 1 } := by
  unfold release
  dsimp only
  split <;> rfl

@[simp] theorem release_log (s : Store) (i : Fin NBUF) : (s.release i).log = s.log := by
  unfold release
  dsimp only
  split <;> rfl

@[simp] theorem release_disk (s : Store) (i : Fin NBUF) : (s.release i).disk = s.disk := by
  unfold release
  dsimp only
  split <;> rfl

@[simp] theorem release_writes (s : Store) (i : Fin NBUF) : (s.release i).writes = s.writes := by
  unfold release
  dsimp only
  split <;> rfl

theorem mem_release_lru {s : Store} (h : ∀ k, k ∈ s.lru) (i k : Fin NBUF) : k ∈ (s.release i).lru := by
  unfold release
  dsimp only
  split
  · by_cases hk : k = i
    · simp [hk]
    · exact List.mem_cons_of_mem _ ((List.mem_erase_of_ne hk).2 (h k))
  · exact h k

/-! ### The buffer that `bread` returned -/

theorem Got.eq_disk {s : Store} {dev b : UInt32} {i : Fin NBUF} {v : Block} (h : s.Got dev b i v)
    (hc : s.Coherent dev b) : v = s.disk b := by
  rcases h with ⟨hi, rfl⟩ | ⟨-, -, rfl⟩
  · split
    · exact hc i hi ‹_›
    · rfl
  · rfl

theorem Got.of_pinned {s : Store} {dev b : UInt32} {i : Fin NBUF} {v w : Block} (h : s.Got dev b i v) (hs : s.Wf)
    (hd : dev ≠ 0) (hp : s.Pinned dev b w) : v = w ∧ (s.buf i).refcnt ≠ 0 := by
  obtain ⟨j, hj, hv, hr, rfl⟩ := hp
  rcases h with ⟨hi, rfl⟩ | ⟨hn, -⟩
  · obtain rfl := hs.key hd hi hj
    exact ⟨by simp [hv], hr⟩
  · exact absurd hj (hn j)

/-- No other buffer holds the block that `bread` put into `i`. -/
theorem Got.unique {s : Store} {dev b : UInt32} {i j : Fin NBUF} {v : Block} (h : s.Got dev b i v) (hs : s.Wf)
    (hd : dev ≠ 0) (hj : s.Caches dev b j) : j = i := by
  rcases h with ⟨hi, -⟩ | ⟨hn, -⟩
  · exact hs.key hd hj hi
  · exact absurd hj (hn j)

/-- A second `bread`, of another block, returns another buffer, whatever becomes of the first one. -/
theorem Got.second {s : Store} {dev a b : UInt32} {i j : Fin NBUF} {r : Nat} {v w : Block}
    (h : (s.setBuf i ⟨true, dev, a, r + 1, v⟩).Got dev b j w) (hab : a ≠ b) :
    j ≠ i ∧ ∀ r' v', (s.setBuf i ⟨true, dev, a, r', v'⟩).Got dev b j w := by
  have hji : j ≠ i := by
    rintro rfl
    rcases h with ⟨hc, -⟩ | ⟨-, h0, -⟩
    · exact hab (by simpa [Caches] using hc)
    · simp at h0
  refine ⟨hji, fun r' v' => ?_⟩
  have hcache : ∀ k, (s.setBuf i ⟨true, dev, a, r', v'⟩).Caches dev b k ↔
      (s.setBuf i ⟨true, dev, a, r + 1, v⟩).Caches dev b k := by
    intro k
    by_cases hk : k = i
    · simp [Caches, hk]
    · simp [Caches, hk]
  simpa [Got, hcache, hji] using h

/-! ### A buffer that now holds block `b` -/

section

variable {s t : Store} {dev b : UInt32} {i : Fin NBUF} {r : Nat} {v w : Block}

/-- `t` differs from `s` in buffer `i`, which `bread` returned for `b`. -/
structure Settled (s t : Store) (dev b : UInt32) (i : Fin NBUF) (r : Nat) (v : Block) : Prop where
  got : ∃ w, s.Got dev b i w
  buf : t.buf = Function.update s.buf i ⟨true, dev, b, r, v⟩

theorem Settled.caches_ne (h : s.Settled t dev b i r v) {dev' c : UInt32} {k : Fin NBUF} (hk : k ≠ i) :
    t.Caches dev' c k ↔ s.Caches dev' c k := by
  simp [Caches, h.buf, hk]

theorem Settled.wf (h : s.Settled t dev b i r v) (hs : s.Wf) (hd : dev ≠ 0) (hl : ∀ k, k ∈ t.lru) : t.Wf where
  lru := hl
  key {dev' c k l} hd' hk hl' := by
    obtain ⟨w, hg⟩ := h.got
    have self : ∀ {m}, t.Caches dev' c m → m ≠ i → t.Caches dev' c i → False := by
      intro m hm hmi hi
      obtain ⟨rfl, rfl⟩ : dev = dev' ∧ b = c := by simpa [Caches, h.buf] using hi
      exact hmi (hg.unique hs hd ((h.caches_ne hmi).1 hm))
    by_cases hki : k = i
    · subst hki
      by_contra hne
      exact self hl' (Ne.symm hne) hk
    · by_cases hli : l = i
      · subst hli
        exact (self hk hki hl').elim
      · exact hs.key hd' ((h.caches_ne hki).1 hk) ((h.caches_ne hli).1 hl')

theorem Settled.coherent_ne (h : s.Settled t dev b i r v) {c : UInt32} (hbc : c ≠ b) (hdisk : t.disk c = s.disk c)
    (hc : s.Coherent dev c) : t.Coherent dev c := by
  intro k hk hv
  have hki : k ≠ i := by
    rintro rfl
    have : b = c := by simpa [Caches, h.buf] using hk
    exact hbc this.symm
  rw [hdisk]
  simp only [h.buf, Function.update_of_ne hki] at hv ⊢
  exact hc k ((h.caches_ne hki).1 hk) hv

theorem Settled.coherent (h : s.Settled t dev b i r v) (hs : s.Wf) (hd : dev ≠ 0) (hdisk : t.disk b = v) :
    t.Coherent dev b := by
  obtain ⟨w, hg⟩ := h.got
  intro k hk _
  have hki : k = i := by
    by_contra hki
    exact hki (hg.unique hs hd ((h.caches_ne hki).1 hk))
  simp [hki, h.buf, hdisk]

theorem Settled.pinned_ne (h : s.Settled t dev b i r v) {c : UInt32} (hbc : c ≠ b) (hp : s.Pinned dev c w) :
    t.Pinned dev c w := by
  obtain ⟨k, hk, hv, hr, hw⟩ := hp
  obtain ⟨w', hg⟩ := h.got
  have hki : k ≠ i := by
    rintro rfl
    rcases hg with ⟨hc, -⟩ | ⟨-, h0, -⟩
    · exact hbc (hk.2.symm.trans hc.2)
    · exact hr h0
  exact ⟨k, (h.caches_ne hki).2 hk, by simpa [h.buf, hki] using hv, by simpa [h.buf, hki] using hr,
    by simpa [h.buf, hki] using hw⟩

theorem Settled.pinned (h : s.Settled t dev b i r v) (hr : r ≠ 0) : t.Pinned dev b v :=
  ⟨i, by simp [Caches, h.buf], by simp [h.buf], by simpa [h.buf] using hr, by simp [h.buf]⟩

end

end Store

end Xv6
