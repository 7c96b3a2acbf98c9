import Xv6.UmallocSpec

/-!
# The heap of a user program

The loop of `malloc` finds a block with room, or it has seen that there is none, and then the one of `morecore` has room.  So every
call returns, and the free list and the allocations stay apart in every run whose requests fit (`heap_invariant`).
-/

namespace Xv6

namespace Umalloc

variable {base lo : Nat} {L A B : List Blk} {C : List Cell} {s : St} {n : Nat}

/-! ### The loop of `malloc` -/

theorem mallocLoop_room {oks : Nat → Bool} {fuel x p : Nat} (h : n ≤ size s.m p) :
    mallocLoop n oks (fuel + 1) x p s = some (take n x p s) := by
  rw [mallocLoop, if_pos h]

theorem mallocLoop_next {oks : Nat → Bool} {fuel x p : Nat} (h : size s.m p < n) (hp : p ≠ s.freep) :
    mallocLoop n oks (fuel + 1) x p s = mallocLoop n oks fuel p (ptr s.m p) s := by
  rw [mallocLoop, if_neg (Nat.not_le.2 h), if_neg hp]

/-- If a block in front of the loop has room, one is taken. -/
theorem mallocLoop_found (oks : Nat → Bool) {Y : List Nat} {x : Nat} (hp : Path (ptr s.m) (x :: Y) s.freep) (hf : s.freep ∉ Y)
    (hroom : ∃ y ∈ Y ++ [s.freep], n ≤ size s.m y) :
    ∃ p ∈ x :: Y, n ≤ size s.m (ptr s.m p) ∧
      ∀ fuel, mallocLoop n oks (fuel + (Y.length + 1)) x (ptr s.m x) s = some (take n p (ptr s.m p) s) := by
  induction Y generalizing x with
  | nil =>
    obtain ⟨y, hy, hroom⟩ := hroom
    obtain rfl := List.mem_singleton.1 hy
    rw [← show ptr s.m x = s.freep from hp.1] at hroom
    exact ⟨x, List.mem_cons_self, hroom, fun fuel => mallocLoop_room hroom⟩
  | cons y Y ih =>
    obtain ⟨hx, hp⟩ := hp
    replace hx : ptr s.m x = y := hx
    by_cases hy : n ≤ size s.m y
    · rw [← hx] at hy
      exact ⟨x, List.mem_cons_self, hy, fun fuel => mallocLoop_room hy⟩
    · obtain ⟨p, hpm, hroom, hloop⟩ := ih hp (fun hmem => hf (List.mem_cons_of_mem y hmem)) (by
        obtain ⟨z, hz, hroom⟩ := hroom
        rcases List.mem_cons.1 hz with rfl | hz
        · exact absurd hroom hy
        · exact ⟨z, hz, hroom⟩)
      refine ⟨p, List.mem_cons_of_mem x hpm, hroom, fun fuel => ?_⟩
      rw [List.length_cons, ← Nat.add_assoc, hx, mallocLoop_next (Nat.not_le.1 hy) fun he => hf (he ▸ List.mem_cons_self)]
      exact hloop fuel

/-- The loop after a call of `morecore`. -/
def afterMore (n : Nat) (oks : Nat → Bool) (fuel : Nat) : Option (Nat × St) → Option (Nat × St)
  | none => none
  | some (p, s) => if p = 0 then some (0, s) else mallocLoop n (fun i => oks (i + 1)) fuel p (ptr s.m p) s

/-- If no block has room, `morecore` is called. -/
theorem mallocLoop_more (oks : Nat → Bool) {Y : List Nat} {x : Nat} (hp : Path (ptr s.m) (x :: Y) s.freep) (hf : s.freep ∉ Y)
    (hsmall : ∀ y ∈ Y ++ [s.freep], size s.m y < n) (fuel : Nat) :
    mallocLoop n oks (fuel + (Y.length + 1)) x (ptr s.m x) s = afterMore n oks fuel (morecore (oks 0) fuel n s) := by
  induction Y generalizing x with
  | nil =>
    rw [show ptr s.m x = s.freep from hp.1, List.length_nil, mallocLoop, if_neg (Nat.not_le.2 (hsmall _ (by simp))), if_pos rfl]
    rfl
  | cons y Y ih =>
    obtain ⟨hx, hp⟩ := hp
    rw [show ptr s.m x = y from hx, List.length_cons, ← Nat.add_assoc,
      mallocLoop_next (hsmall y (by simp)) fun he => hf (he ▸ List.mem_cons_self)]
    exact ih hp (fun hmem => hf (List.mem_cons_of_mem y hmem)) fun z hz => hsmall z (List.mem_cons_of_mem y hz)

/-! ### The heap between two calls -/

/-- The free list and the allocations in memory. -/
structure Heap (base lo : Nat) (s : St) (L : List Blk) (C : List Cell) : Prop where
  arena : Arena base lo s.brk L C
  gaps : Gaps L
  holds : Holds s.m base L C
  freep : s.freep ∈ L.map Blk.addr

/-- The free list entered at `freep`. -/
theorem Heap.circle (h : Heap base lo s L C) :
    ∃ Y, Path (ptr s.m) (s.freep :: Y) s.freep ∧ (s.freep :: Y).Perm (L.map Blk.addr) ∧ s.freep ∉ Y := by
  obtain ⟨l, rfl⟩ := h.arena.cons
  have hpath : Path (ptr s.m) (base :: l.map Blk.addr) base := h.holds.path
  obtain ⟨Y, hY, hperm⟩ := hpath.enter (show s.freep ∈ base :: l.map Blk.addr from h.freep)
  have hnodup : ((baseBlk base :: l).map Blk.addr).Nodup := by
    refine List.Pairwise.map _ (fun b c hbc => hbc) ?_
    refine h.arena.sorted.imp_of_mem fun {b c} hb hc hbc he => ?_
    have := h.arena.addr_lt_fin hb
    omega
  exact ⟨Y, hY, hperm, (List.nodup_cons.1 (hperm.nodup_iff.2 hnodup)).1⟩

/-- A block with room is taken, at the next turn of the loop or later. -/
theorem Heap.take (h : Heap base lo s L C) (hn : 1 ≤ n) (hroom : ∃ b ∈ L, n ≤ b.size) (oks : Nat → Bool) :
    ∃ p s' L' k, (∀ fuel, k ≤ fuel → mallocLoop n oks fuel s.freep (ptr s.m s.freep) s = some (p + 16, s')) ∧
      Heap base lo s' L' ((p, n) :: C) ∧ s'.brk = s.brk ∧ s'.sbrks = s.sbrks := by
  obtain ⟨Y, hY, hperm, hf⟩ := h.circle
  have hmem : ∀ a, a ∈ Y ++ [s.freep] ↔ a ∈ L.map Blk.addr := fun a => by
    rw [← hperm.mem_iff, List.mem_append, List.mem_singleton, List.mem_cons, or_comm]
  obtain ⟨p, hp, hsize, hloop⟩ := mallocLoop_found oks hY hf (by
    obtain ⟨b, hb, hroom⟩ := hroom
    exact ⟨b.addr, (hmem _).2 (List.mem_map_of_mem hb), (h.holds.size b hb).symm ▸ hroom⟩)
  -- the block after `p`
  obtain ⟨x, hx, rfl⟩ := List.mem_map.1 (hperm.mem_iff.1 hp)
  obtain ⟨A, B, rfl⟩ := List.append_of_mem hx
  have hnext : ptr s.m x.addr = (B.map Blk.addr).headD base := by
    have := h.holds.path
    rw [List.map_append, List.map_cons] at this
    exact this.next_eq
  cases B with
  | nil =>
    obtain ⟨l, hl⟩ := h.arena.cons
    have hbase := h.holds.size (baseBlk base) (by rw [hl]; exact List.mem_cons_self)
    rw [hnext] at hsize
    have : size s.m base = 0 := hbase
    simp only [List.map_nil, List.headD_nil] at hsize
    omega
  | cons b B =>
    replace hnext : ptr s.m x.addr = b.addr := hnext
    rw [hnext, h.holds.size b (by simp)] at hsize
    obtain ⟨q, s', L', htake, h1, h2, h3, h4, h5, h6⟩ := take_spec h.arena h.gaps h.holds hn hsize
    refine ⟨q, s', L', Y.length + 1, fun fuel hfuel => ?_, ⟨h5.symm ▸ h1, h2, h3, h4⟩, h5, h6⟩
    obtain ⟨k, rfl⟩ := Nat.exists_eq_add_of_le hfuel
    rw [Nat.add_comm, hloop k, hnext, htake]

/-! ### `morecore` -/

theorem toInt_of_lt {k : Nat} (h : k < 2 ^ 31) : toInt k = k := by
  have hmod : k % 2 ^ 32 = k := Nat.mod_eq_of_lt (by omega)
  rw [toInt, hmod, if_pos h]

theorem toInt_lt (k : Nat) : toInt k < 2 ^ 31 := by
  have : k % 2 ^ 32 < 2 ^ 32 := Nat.mod_lt _ (by decide)
  unfold toInt
  split <;> omega

theorem growproc_pos (ok : Bool) (brk : Nat) {k : Nat} (h : 0 < k) :
    growproc ok brk k = if ok = true ∧ brk + k < 2 ^ 64 then some (brk + k) else none := by
  rw [growproc, if_pos (by omega), Int.toNat_natCast]

/-- If all blocks are too small, the new one is not, and the call of `sbrk` is exact. -/
theorem Heap.more (h : Heap base lo s L C) (hn : n * 16 < 2 ^ 31) (hsmall : ∀ b ∈ L, b.size < n) (ok : Bool) :
    ∃ c : SbrkCall, c.Exact ∧
      ((c.grown = none ∧ ∀ fuel, morecore ok fuel n s = some (0, { s with sbrks := c :: s.sbrks })) ∨
        ∃ s' L' k, (∀ fuel, k ≤ fuel → morecore ok fuel n s = some (s'.freep, s')) ∧ Heap base lo s' L' C ∧
          (∃ b ∈ L', n ≤ b.size) ∧ s'.sbrks = c :: s.sbrks) := by
  obtain ⟨nu, hnu, hle, hpos, hlt⟩ : ∃ nu, (if n < 4096 then 4096 else n) = nu ∧ n ≤ nu ∧ 0 < nu ∧ nu * 16 < 2 ^ 31 := by
    refine ⟨_, rfl, ?_⟩
    split <;> omega
  have hgrow := growproc_pos ok s.brk (k := nu * 16) (by omega)
  have hint := toInt_of_lt hlt
  by_cases hok : ok = true ∧ s.brk + nu * 16 < 2 ^ 64
  · rw [if_pos hok] at hgrow
    let c : SbrkCall := ⟨nu * 16, (nu * 16 : Nat), some (s.brk, s.brk + nu * 16)⟩
    have hsbrk : sbrk ok (nu * 16) s = (some s.brk, { s with brk := s.brk + nu * 16, sbrks := c :: s.sbrks }) := by
      simp only [sbrk, hint, hgrow]
      rfl
    have harena := h.arena.grow hpos (by omega : s.brk + 16 * nu < 2 ^ 64)
    rw [Nat.mul_comm 16 nu] at harena
    have hnew : ∀ b ∈ L, Apart s.brk b.addr := fun b hb => (harena.apart_cell hb List.mem_cons_self).symm
    have hcell : ∀ d ∈ C, Apart s.brk d.1 := by
      intro d hd
      have h1 := h.arena.cells d hd
      simp only [Cell.fin] at h1
      right
      omega
    have hholds : Holds (setSize s.m s.brk nu) base L ((s.brk, nu) :: C) := by
      have hm := h.holds.congr (fun b hb => sameAt_setSize s.m nu (hnew b hb)) fun d hd => sameAt_setSize s.m nu (hcell d hd)
      refine ⟨hm.path, hm.size, fun d hd => ?_⟩
      rcases List.mem_cons.1 hd with rfl | hd
      · rw [size_setSize_self]
        exact Nat.mod_eq_of_lt (by omega)
      · exact hm.cells d hd
    have hplus : plus s.brk 1 = s.brk + 16 := Nat.mod_eq_of_lt (by omega)
    obtain ⟨s', L', ⟨k, hk⟩, h1, h2, h3, h4, h5, h6, h7⟩ := free_spec
      (s := { s with m := setSize s.m s.brk nu, brk := s.brk + nu * 16, sbrks := c :: s.sbrks }) harena h.gaps hholds h.freep
    refine ⟨c, ⟨rfl, ?_⟩, .inr ⟨s', L', k, fun fuel hfuel => ?_, ⟨h5.symm ▸ h1, h2, h3, h4⟩, ?_, h6⟩⟩
    · rintro a b ⟨⟩
      rfl
    · have := hk fuel hfuel
      dsimp only at this
      rw [morecore, hnu, hsbrk]
      dsimp only
      rw [hplus, this]
    · obtain ⟨b, hb, hroom⟩ := h7 (fun b hb => by have := hsmall b hb; omega) (by omega)
      exact ⟨b, hb, hle.trans hroom⟩
  · rw [if_neg hok] at hgrow
    refine ⟨⟨nu * 16, toInt (nu * 16), none⟩, ⟨hint, by rintro a b ⟨⟩⟩, .inl ⟨rfl, fun fuel => ?_⟩⟩
    rw [morecore, hnu]
    simp only [sbrk, hint, hgrow]

/-! ### The whole of `malloc` -/

/-- A call returns a new allocation, or 0 after a call of `sbrk` that failed; if `sbrk` is called, then exactly. -/
theorem Heap.malloc (h : Heap base lo s L C) (hn : 1 ≤ n) (hcond : n * 16 < 2 ^ 31 ∨ ∃ b ∈ L, n ≤ b.size) (oks : Nat → Bool) :
    ∃ ap s' L', Returns (fun fuel => mallocLoop n oks fuel s.freep (ptr s.m s.freep) s) (ap, s') ∧
      (s'.sbrks = s.sbrks ∨ ∃ c : SbrkCall, c.Exact ∧ s'.sbrks = c :: s.sbrks) ∧
      ((ap = 0 ∧ (∃ c, s'.sbrks = c :: s.sbrks ∧ c.grown = none) ∧ Heap base lo s' L' C) ∨
        ∃ p, ap = p + 16 ∧ Heap base lo s' L' ((p, n) :: C)) := by
  by_cases hroom : ∃ b ∈ L, n ≤ b.size
  · obtain ⟨p, s', L', k, hk, h', hbrk, hsbrks⟩ := h.take hn hroom oks
    exact ⟨p + 16, s', L', ⟨k, hk⟩, .inl hsbrks, .inr ⟨p, rfl, h'⟩⟩
  · have hfits := hcond.resolve_right hroom
    have hsmall : ∀ b ∈ L, b.size < n := fun b hb => Nat.not_le.1 fun hle => hroom ⟨b, hb, hle⟩
    obtain ⟨Y, hY, hperm, hf⟩ := h.circle
    have hloop := fun fuel => mallocLoop_more oks hY hf (n := n) (fun y hy => by
      have hy : y ∈ L.map Blk.addr := by
        rw [← hperm.mem_iff]
        rcases List.mem_append.1 hy with hy | hy
        · exact List.mem_cons_of_mem _ hy
        · exact List.mem_singleton.1 hy ▸ List.mem_cons_self
      obtain ⟨b, hb, rfl⟩ := List.mem_map.1 hy
      rw [h.holds.size b hb]
      exact hsmall b hb) fuel
    obtain ⟨c, hc, ⟨hfail, hmore⟩ | ⟨s₁, L₁, k, hmore, h₁, hroom₁, hsbrks₁⟩⟩ := h.more hfits hsmall (oks 0)
    · refine ⟨0, { s with sbrks := c :: s.sbrks }, L, ⟨Y.length + 1, fun fuel hfuel => ?_⟩, .inr ⟨c, hc, rfl⟩, .inl ⟨rfl, ⟨c, rfl, hfail⟩, ?_⟩⟩
      · obtain ⟨j, rfl⟩ := Nat.exists_eq_add_of_le hfuel
        dsimp only
        rw [Nat.add_comm, hloop j, hmore j]
        rfl
      · exact ⟨h.arena, h.gaps, h.holds, h.freep⟩
    · obtain ⟨p, s', L', k', hk', h', hbrk, hsbrks⟩ := h₁.take hn hroom₁ fun i => oks (i + 1)
      have hpos : s₁.freep ≠ 0 := by
        obtain ⟨b, hb, he⟩ := List.mem_map.1 h₁.freep
        have h1 := h₁.arena.base_le hb
        have h2 := h₁.arena.base_pos
        omega
      refine ⟨p + 16, s', L', ⟨k + k' + (Y.length + 1), fun fuel hfuel => ?_⟩, .inr ⟨c, hc, hsbrks.trans hsbrks₁⟩, .inr ⟨p, rfl, h'⟩⟩
      obtain ⟨j, rfl⟩ := Nat.exists_eq_add_of_le hfuel
      dsimp only
      rw [show k + k' + (Y.length + 1) + j = (k + k' + j) + (Y.length + 1) by omega, hloop, hmore _ (by omega), afterMore,
        if_neg hpos]
      exact hk' _ (by omega)

end Umalloc

end Xv6
