import Xv6.Umalloc

/-!
# The free list of `umalloc.c`

The free blocks, in address order from `base`, have an extent each, which the block and nothing else may use.  It is the size of the
block, or more: where a size passed `2 ^ 32` when two blocks were put together, the rest of the extent is lost.  `Arena` says how the
extents and the allocations lie in memory, `Holds` that the headers in memory describe them.

* `Arena.insert`, `Arena.merge`, `Arena.remove`, `Arena.split`: what `free` and `malloc` do to the blocks.
* `linkUp_spec`, `linkDown_spec`, `take_spec`: what they write.
-/

namespace Xv6

namespace Umalloc

open Bytes

variable {m m' : Bytes}

/-! ### Blocks -/

structure Blk where
  addr : Nat
  size : Nat
  ext : Nat

namespace Blk

/-- The end of the extent. -/
def fin (b : Blk) : Nat := b.addr + 16 * b.ext

/-- The address after the block. -/
def next (b : Blk) : Nat := b.addr + 16 * b.size

/-- Two blocks put together; the size is a `uint`. -/
def merge (b c : Blk) : Blk := ⟨b.addr, (b.size + c.size) % 2 ^ 32, b.ext + c.ext⟩

end Blk

/-- The static header, a block without room. -/
def baseBlk (base : Nat) : Blk := ⟨base, 0, 1⟩

theorem baseBlk_fin (base : Nat) : (baseBlk base).fin = base + 16 := rfl

/-- The address and the units of an allocation, from its header on. -/
abbrev Cell := Nat × Nat

def Cell.fin (c : Cell) : Nat := c.1 + 16 * c.2

/-- The blocks `L` and the allocations `C` between `lo`, where the memory of `sbrk` begins, and the break. -/
structure Arena (base lo brk : Nat) (L : List Blk) (C : List Cell) : Prop where
  head : L.head? = some (baseBlk base)
  ext : ∀ b ∈ L, b.size ≤ b.ext ∧ 1 ≤ b.ext
  sorted : L.Pairwise fun b c => b.fin ≤ c.addr
  inside : ∀ b ∈ L, b = baseBlk base ∨ lo ≤ b.addr ∧ b.fin ≤ brk
  cells : ∀ c ∈ C, 1 ≤ c.2 ∧ lo ≤ c.1 ∧ Cell.fin c ≤ brk
  off : ∀ c ∈ C, ∀ b ∈ L, Cell.fin c ≤ b.addr ∨ b.fin ≤ c.1
  pairs : C.Pairwise fun c d => Cell.fin c ≤ d.1 ∨ Cell.fin d ≤ c.1
  base_pos : 0 < base
  base_lt : base + 16 ≤ lo
  lo_le : lo ≤ brk
  brk_lt : brk < 2 ^ 64

/-- No block ends where one after it begins. -/
def Gaps (L : List Blk) : Prop := L.Pairwise fun b c => b.next ≠ c.addr

namespace Arena

variable {base lo brk : Nat} {L A B : List Blk} {C : List Cell} {b c : Blk}

theorem base_le (h : Arena base lo brk L C) (hb : b ∈ L) : base ≤ b.addr := by
  rcases h.inside b hb with rfl | hb
  · exact Nat.le_refl base
  · have := h.base_lt
    omega

theorem fin_lt (h : Arena base lo brk L C) (hb : b ∈ L) : b.fin < 2 ^ 64 := by
  have h1 := h.base_lt
  have h2 := h.lo_le
  have h3 := h.brk_lt
  rcases h.inside b hb with rfl | hb
  · rw [baseBlk_fin]
    omega
  · omega

theorem next_le (h : Arena base lo brk L C) (hb : b ∈ L) : b.next ≤ b.fin := by
  have := (h.ext b hb).1
  unfold Blk.next Blk.fin
  omega

/-- A block is not empty. -/
theorem addr_lt_fin (h : Arena base lo brk L C) (hb : b ∈ L) : b.addr + 16 ≤ b.fin := by
  have := (h.ext b hb).2
  unfold Blk.fin
  omega

theorem lt_of_before (h : Arena base lo brk (A ++ b :: B) C) (hc : c ∈ B) : b.fin ≤ c.addr :=
  (List.pairwise_cons.1 (List.pairwise_append.1 h.sorted).2.1).1 c hc

theorem lt_of_after (h : Arena base lo brk (A ++ b :: B) C) (hc : c ∈ A) : c.fin ≤ b.addr :=
  (List.pairwise_append.1 h.sorted).2.2 c hc b List.mem_cons_self

/-- A block that touches the one after it has no room left, and is not `base`. -/
theorem touch (h : Arena base lo brk (A ++ b :: c :: B) C) (ht : b.next = c.addr) : b.size = b.ext ∧ b ≠ baseBlk base := by
  have hle := h.lt_of_before (List.mem_cons_self (a := c) (l := B))
  have hext := h.ext b (by simp)
  have hsize : b.size = b.ext := by
    unfold Blk.fin at hle
    unfold Blk.next at ht
    omega
  refine ⟨hsize, ?_⟩
  rintro rfl
  cases hsize

theorem head_replace {A B B' : List Blk} {b b' : Blk} (h : (A ++ b :: B).head? = some (baseBlk base)) (hb : A = [] → b' = baseBlk base) :
    (A ++ b' :: B').head? = some (baseBlk base) := by
  cases A with
  | nil => exact congrArg some (hb rfl)
  | cons a A => exact h

/-- An allocation becomes a block. -/
theorem insert {bp n : Nat} (h : Arena base lo brk (A ++ b :: B) ((bp, n) :: C)) (hlt : b.addr < bp) (hle : ∀ c ∈ B, bp ≤ c.addr) :
    Arena base lo brk (A ++ b :: ⟨bp, n, n⟩ :: B) C := by
  obtain ⟨hn, hlo, hbrk⟩ := h.cells (bp, n) List.mem_cons_self
  have hoff := h.off (bp, n) List.mem_cons_self
  have hfin : (⟨bp, n, n⟩ : Blk).fin = Cell.fin (bp, n) := rfl
  simp only [Cell.fin] at hoff hbrk hfin
  have hb : b.fin ≤ bp := by
    rcases hoff b (by simp) with hf | hf
    · omega
    · exact hf
  have hB : ∀ c ∈ B, bp + 16 * n ≤ c.addr := by
    intro c hc
    have h1 := hle c hc
    have h2 := h.addr_lt_fin (b := c) (by simp [hc])
    rcases hoff c (by simp [hc]) with hf | hf
    · exact hf
    · omega
  have hmem : ∀ c, c ∈ A ++ b :: ⟨bp, n, n⟩ :: B ↔ c ∈ A ++ b :: B ∨ c = ⟨bp, n, n⟩ := by
    intro c
    simp only [List.mem_append, List.mem_cons]
    tauto
  obtain ⟨hsA, hsB, hsAB⟩ := List.pairwise_append.1 h.sorted
  obtain ⟨hsb, hsB⟩ := List.pairwise_cons.1 hsB
  refine { h with head := ?_, ext := ?_, sorted := ?_, inside := ?_, cells := ?_, off := ?_, pairs := ?_ }
  · exact head_replace h.head fun hA => by
      have := h.head
      rw [hA] at this
      exact Option.some.inj this
  · intro c hc
    rcases (hmem c).1 hc with hc | rfl
    · exact h.ext c hc
    · exact ⟨Nat.le_refl n, hn⟩
  · refine List.pairwise_append.2 ⟨hsA, List.pairwise_cons.2 ⟨?_, List.pairwise_cons.2 ⟨?_, hsB⟩⟩, ?_⟩
    · intro c hc
      rcases List.mem_cons.1 hc with rfl | hc
      · exact hb
      · exact hsb c hc
    · intro c hc
      rw [hfin]
      exact hB c hc
    · intro a ha c hc
      have hab := hsAB a ha b List.mem_cons_self
      rcases List.mem_cons.1 hc with rfl | hc
      · exact hab
      rcases List.mem_cons.1 hc with rfl | hc
      · exact Nat.le_of_lt (Nat.lt_of_le_of_lt hab hlt)
      · exact hsAB a ha c (List.mem_cons_of_mem b hc)
  · intro c hc
    rcases (hmem c).1 hc with hc | rfl
    · exact h.inside c hc
    · exact .inr ⟨hlo, hbrk⟩
  · exact fun c hc => h.cells c (List.mem_cons_of_mem _ hc)
  · intro c hc d hd
    rcases (hmem d).1 hd with hd | rfl
    · exact h.off c (List.mem_cons_of_mem _ hc) d hd
    · exact ((List.pairwise_cons.1 h.pairs).1 c hc).symm
  · exact (List.pairwise_cons.1 h.pairs).2

/-- A block and the one that it touches become one. -/
theorem merge (h : Arena base lo brk (A ++ b :: c :: B) C) (ht : b.next = c.addr) : Arena base lo brk (A ++ b.merge c :: B) C := by
  obtain ⟨hsize, hbase⟩ := h.touch ht
  have hbc := h.lt_of_before (List.mem_cons_self (a := c) (l := B))
  have hfin : (b.merge c).fin = c.fin := by
    unfold Blk.next at ht
    simp only [Blk.fin, Blk.merge]
    omega
  have hmem : ∀ d, d ∈ A ++ b.merge c :: B → d ∈ A ++ b :: c :: B ∨ d = b.merge c := by
    intro d
    simp only [List.mem_append, List.mem_cons]
    tauto
  have hb := h.ext b (by simp)
  have hc := h.ext c (by simp)
  obtain ⟨hsA, hsB, hsAB⟩ := List.pairwise_append.1 h.sorted
  obtain ⟨hsc, hsB⟩ := List.pairwise_cons.1 (List.pairwise_cons.1 hsB).2
  refine { h with head := ?_, ext := ?_, sorted := ?_, inside := ?_, off := ?_ }
  · refine head_replace h.head fun hA => absurd ?_ hbase
    have := h.head
    rw [hA] at this
    exact Option.some.inj this
  · intro d hd
    rcases hmem d hd with hd | rfl
    · exact h.ext d hd
    · have := Nat.mod_le (b.size + c.size) (2 ^ 32)
      simp only [Blk.merge]
      omega
  · refine List.pairwise_append.2 ⟨hsA, List.pairwise_cons.2 ⟨fun d hd => hfin ▸ hsc d hd, hsB⟩, fun a ha d hd => ?_⟩
    rcases List.mem_cons.1 hd with rfl | hd
    · exact hsAB a ha b (by simp)
    · exact hsAB a ha d (by simp [hd])
  · intro d hd
    rcases hmem d hd with hd | rfl
    · exact h.inside d hd
    · refine .inr ⟨((h.inside b (by simp)).resolve_left hbase).1, ?_⟩
      rw [hfin]
      rcases h.inside c (by simp) with rfl | hin
      · have h1 := h.base_lt
        have h2 := h.lo_le
        rw [baseBlk_fin]
        omega
      · exact hin.2
  · intro d hd e he
    rcases hmem e he with he | rfl
    · exact h.off d hd e he
    · have h1 := h.off d hd b (by simp)
      have h2 := h.off d hd c (by simp)
      have h3 := (h.cells d hd).1
      rw [hfin]
      unfold Blk.next at ht
      simp only [Cell.fin, Blk.fin, Blk.merge] at h1 h2 ⊢
      omega

/-- A block becomes an allocation. -/
theorem remove (h : Arena base lo brk (A ++ b :: B) C) (hs : 1 ≤ b.size) : Arena base lo brk (A ++ B) ((b.addr, b.size) :: C) := by
  have hbase : b ≠ baseBlk base := by
    rintro rfl
    exact absurd hs (Nat.not_succ_le_zero 0)
  have hnext := h.next_le (b := b) (by simp)
  have hsub : ∀ c ∈ A ++ B, c ∈ A ++ b :: B := by
    intro c
    simp only [List.mem_append, List.mem_cons]
    tauto
  have hin := (h.inside b (by simp)).resolve_left hbase
  unfold Blk.next at hnext
  refine { h with head := ?_, ext := ?_, sorted := ?_, inside := ?_, cells := ?_, off := ?_, pairs := ?_ }
  · cases A with
    | nil => exact absurd (Option.some.inj h.head) hbase
    | cons a A => exact h.head
  · exact fun c hc => h.ext c (hsub c hc)
  · exact h.sorted.sublist ((List.Sublist.refl A).append (List.sublist_cons_self b B))
  · exact fun c hc => h.inside c (hsub c hc)
  · intro c hc
    rcases List.mem_cons.1 hc with rfl | hc
    · exact ⟨hs, hin.1, Nat.le_trans hnext hin.2⟩
    · exact h.cells c hc
  · intro c hc d hd
    rcases List.mem_cons.1 hc with rfl | hc
    · simp only [Cell.fin]
      rcases List.mem_append.1 hd with hd | hd
      · exact .inr (h.lt_of_after hd)
      · exact .inl (Nat.le_trans hnext (h.lt_of_before hd))
    · exact h.off c hc d (hsub d hd)
  · refine List.pairwise_cons.2 ⟨fun c hc => ?_, h.pairs⟩
    have := h.off c hc b (by simp)
    simp only [Cell.fin] at this ⊢
    omega

/-- The tail of a block becomes an allocation. -/
theorem split {n : Nat} (h : Arena base lo brk (A ++ b :: B) C) (hn : 1 ≤ n) (hs : n < b.size) :
    Arena base lo brk (A ++ ⟨b.addr, b.size - n, b.size - n⟩ :: B) ((b.addr + 16 * (b.size - n), n) :: C) := by
  have hbase : b ≠ baseBlk base := by
    rintro rfl
    exact absurd hs (Nat.not_lt_zero n)
  have hext := h.ext b (by simp)
  have hfin : (⟨b.addr, b.size - n, b.size - n⟩ : Blk).fin + 16 * n ≤ b.fin := by
    simp only [Blk.fin]
    omega
  have hmem : ∀ d, d ∈ A ++ ⟨b.addr, b.size - n, b.size - n⟩ :: B → (d ∈ A ∨ d ∈ B) ∧ d ∈ A ++ b :: B ∨
      d = ⟨b.addr, b.size - n, b.size - n⟩ := by
    intro d
    simp only [List.mem_append, List.mem_cons]
    tauto
  have hin := (h.inside b (by simp)).resolve_left hbase
  obtain ⟨hsA, hsB, hsAB⟩ := List.pairwise_append.1 h.sorted
  obtain ⟨hsb, hsB⟩ := List.pairwise_cons.1 hsB
  refine { h with head := ?_, ext := ?_, sorted := ?_, inside := ?_, cells := ?_, off := ?_, pairs := ?_ }
  · refine head_replace h.head fun hA => absurd ?_ hbase
    have := h.head
    rw [hA] at this
    exact Option.some.inj this
  · intro d hd
    rcases hmem d hd with ⟨-, hd⟩ | rfl
    · exact h.ext d hd
    · exact ⟨Nat.le_refl _, Nat.sub_pos_of_lt hs⟩
  · refine List.pairwise_append.2 ⟨hsA, List.pairwise_cons.2 ⟨fun d hd => ?_, hsB⟩, fun a ha d hd => ?_⟩
    · have := hsb d hd
      omega
    · rcases List.mem_cons.1 hd with rfl | hd
      · exact hsAB a ha b (by simp)
      · exact hsAB a ha d (by simp [hd])
  · intro d hd
    rcases hmem d hd with ⟨-, hd⟩ | rfl
    · exact h.inside d hd
    · exact .inr ⟨hin.1, by omega⟩
  · intro c hc
    rcases List.mem_cons.1 hc with rfl | hc
    · simp only [Cell.fin, Blk.fin] at hfin hin ⊢
      omega
    · exact h.cells c hc
  · intro c hc d hd
    rcases List.mem_cons.1 hc with rfl | hc
    · simp only [Cell.fin, Blk.fin] at hfin ⊢
      rcases hmem d hd with ⟨hd | hd, -⟩ | rfl
      · have := h.lt_of_after hd
        simp only [Blk.fin] at this
        omega
      · have := h.lt_of_before hd
        simp only [Blk.fin] at this
        omega
      · exact .inr (Nat.le_refl _)
    · rcases hmem d hd with ⟨-, hd⟩ | rfl
      · exact h.off c hc d hd
      · have := h.off c hc b (by simp)
        show Cell.fin c ≤ b.addr ∨ _
        omega
  · refine List.pairwise_cons.2 ⟨fun c hc => ?_, h.pairs⟩
    have := h.off c hc b (by simp)
    simp only [Cell.fin, Blk.fin] at this hfin ⊢
    omega

/-- The break is raised for a new allocation. -/
theorem grow {n : Nat} (h : Arena base lo brk L C) (hn : 1 ≤ n) (hlt : brk + 16 * n < 2 ^ 64) :
    Arena base lo (brk + 16 * n) L ((brk, n) :: C) := by
  have hlo := h.lo_le
  refine { h with inside := ?_, cells := ?_, off := ?_, pairs := ?_, lo_le := by omega, brk_lt := hlt }
  · intro b hb
    rcases h.inside b hb with hb | ⟨h1, h2⟩
    · exact .inl hb
    · exact .inr ⟨h1, by omega⟩
  · intro c hc
    rcases List.mem_cons.1 hc with rfl | hc
    · exact ⟨hn, hlo, Nat.le_refl _⟩
    · obtain ⟨h1, h2, h3⟩ := h.cells c hc
      exact ⟨h1, h2, by omega⟩
  · intro c hc b hb
    rcases List.mem_cons.1 hc with rfl | hc
    · right
      rcases h.inside b hb with rfl | hin
      · have := h.base_lt
        rw [baseBlk_fin]
        omega
      · exact hin.2
    · exact h.off c hc b hb
  · exact List.pairwise_cons.2 ⟨fun c hc => .inr (h.cells c hc).2.2, h.pairs⟩

theorem perm {C' : List Cell} (h : Arena base lo brk L C) (hp : C.Perm C') : Arena base lo brk L C' where
  __ := h
  cells c hc := h.cells c (hp.mem_iff.2 hc)
  off c hc := h.off c (hp.mem_iff.2 hc)
  pairs := (hp.pairwise_iff fun h => Or.symm h).1 h.pairs

end Arena

/-! ### Memory -/

/-- The headers describe the blocks and the allocations. -/
structure Holds (m : Bytes) (base : Nat) (L : List Blk) (C : List Cell) : Prop where
  path : Path (ptr m) (L.map Blk.addr) base
  size : ∀ b ∈ L, size m b.addr = b.size
  cells : ∀ c ∈ C, Umalloc.size m c.1 = c.2

/-- The memory in the middle of `free`: the block `nb` follows `b`, but `b` has its old successor. -/
structure Floats (m : Bytes) (base : Nat) (A : List Blk) (b nb : Blk) (B : List Blk) (C : List Cell) : Prop where
  front : Path (ptr m) (A.map Blk.addr) b.addr
  back : Path (ptr m) (B.map Blk.addr) base
  next : ptr m nb.addr = (B.map Blk.addr).headD base
  size : ∀ c ∈ A ++ b :: nb :: B, size m c.addr = c.size
  cells : ∀ c ∈ C, Umalloc.size m c.1 = c.2

variable {base lo brk : Nat} {L A B : List Blk} {C : List Cell} {b c nb : Blk}

/-- The headers of the memories at `a` are the same. -/
def SameAt (m m' : Bytes) (a : Nat) : Prop := ptr m' a = ptr m a ∧ size m' a = size m a

theorem Holds.congr (h : Holds m base L C) (hL : ∀ b ∈ L, SameAt m m' b.addr) (hC : ∀ c ∈ C, SameAt m m' c.1) :
    Holds m' base L C where
  path := h.path.congr fun a ha => by
    obtain ⟨b, hb, rfl⟩ := List.mem_map.1 ha
    exact (hL b hb).1
  size b hb := (hL b hb).2.trans (h.size b hb)
  cells c hc := (hC c hc).2.trans (h.cells c hc)

theorem sameAt_setPtr (m : Bytes) (v : Nat) {a b : Nat} (h : Apart a b) : SameAt m (setPtr m a v) b := ⟨ptr_setPtr h, size_setPtr h⟩

theorem sameAt_setSize (m : Bytes) (v : Nat) {a b : Nat} (h : Apart a b) : SameAt m (setSize m a v) b :=
  ⟨ptr_setSize h, size_setSize h⟩

theorem SameAt.trans {m m' m'' : Bytes} {a : Nat} (h : SameAt m m' a) (h' : SameAt m' m'' a) : SameAt m m'' a :=
  ⟨h'.1.trans h.1, h'.2.trans h.2⟩

namespace Arena

theorem apart_after (h : Arena base lo brk (A ++ b :: B) C) (hc : c ∈ B) : Apart b.addr c.addr :=
  .inl (Nat.le_trans (h.addr_lt_fin (by simp)) (h.lt_of_before hc))

theorem apart_before (h : Arena base lo brk (A ++ b :: B) C) (hc : c ∈ A) : Apart b.addr c.addr :=
  .inr (Nat.le_trans (h.addr_lt_fin (by simp [hc])) (h.lt_of_after hc))

theorem apart_cell (h : Arena base lo brk L C) (hb : b ∈ L) {d : Cell} (hd : d ∈ C) : Apart b.addr d.1 := by
  have h1 := h.addr_lt_fin hb
  have h2 := (h.cells d hd).1
  have h3 := h.off d hd b hb
  unfold Apart
  simp only [Cell.fin] at h3
  omega

/-- The end of a block as the program computes it. -/
theorem plus_size (h : Arena base lo brk L C) (hb : b ∈ L) : plus b.addr b.size = b.next :=
  Nat.mod_eq_of_lt (Nat.lt_of_le_of_lt (h.next_le hb) (h.fin_lt hb))

theorem addr_lt (h : Arena base lo brk L C) (hb : b ∈ L) : b.addr < 2 ^ 64 := by
  have h1 := h.addr_lt_fin hb
  have h2 := h.fin_lt hb
  omega

end Arena

theorem headD_map (B : List Blk) (base : Nat) : (B.map Blk.addr).headD base = base ∨ ∃ c B', B = c :: B' ∧
    (B.map Blk.addr).headD base = c.addr := by
  cases B with
  | nil => exact .inl rfl
  | cons c B' => exact .inr ⟨c, B', rfl, rfl⟩

/-! ### `free` -/

/-- The gaps of a list with a block in the middle. -/
theorem gaps_append : Gaps (A ++ b :: B) ↔
    Gaps A ∧ Gaps B ∧ (∀ c ∈ A, c.next ≠ b.addr) ∧ (∀ c ∈ B, b.next ≠ c.addr) ∧ ∀ c ∈ A, ∀ d ∈ B, c.next ≠ d.addr := by
  simp only [Gaps, List.pairwise_append, List.pairwise_cons, List.mem_cons, forall_eq_or_imp]
  constructor
  · rintro ⟨h1, ⟨h2, h3⟩, h4⟩
    exact ⟨h1, h3, fun c hc => (h4 c hc).1, h2, fun c hc => (h4 c hc).2⟩
  · rintro ⟨h1, h2, h3, h4, h5⟩
    exact ⟨h1, ⟨h4, h2⟩, fun c hc => ⟨h3 c hc, h5 c hc⟩⟩

/-- A block does not end where one begins that is not the next one. -/
theorem Arena.next_ne (h : Arena base lo brk (A ++ b :: B) C) (hc : c ∈ A) {d : Blk} (hd : d ∈ B) : c.next ≠ d.addr := by
  have h1 := h.next_le (b := c) (by simp [hc])
  have h2 := h.lt_of_after hc
  have h3 := h.addr_lt_fin (b := b) (by simp)
  have h4 := h.lt_of_before hd
  omega

/-- Two blocks that touch, put together, have a gap where the second one has. -/
theorem Arena.merge_gap (h : Arena base lo brk (A ++ b :: c :: B) C) (ht : b.next = c.addr) (hg : ∀ d ∈ B, c.next ≠ d.addr) :
    ∀ d ∈ B, (b.merge c).next ≠ d.addr := by
  intro d hd
  have h1 := (h.touch ht).1
  have h2 := (h.ext c (by simp)).1
  have h3 : Arena base lo brk ((A ++ [b]) ++ c :: B) C := by simpa using h
  have h4 := h3.lt_of_before hd
  have h5 := hg d hd
  have h6 := Nat.mod_le (b.size + c.size) (2 ^ 32)
  simp only [Blk.next, Blk.fin, Blk.merge] at ht h4 h5 ⊢
  omega

/-- What is left to say of the memory with the new block: the rest has not changed. -/
theorem Holds.floats {cell : Cell} (hm : Holds m base (A ++ b :: B) (cell :: C)) {B₁ B' : List Blk} (hB : B = B₁ ++ B')
    (hsame : ∀ x ∈ A ++ b :: B', SameAt m m' x.addr) (hC : ∀ d ∈ C, SameAt m m' d.1)
    (hnext : ptr m' nb.addr = (B'.map Blk.addr).headD base) (hsize : Umalloc.size m' nb.addr = nb.size) : Floats m' base A b nb B' C := by
  subst hB
  have hpath := hm.path
  rw [List.map_append, Path.append, List.map_cons] at hpath
  obtain ⟨hfront, -, hback⟩ := hpath
  rw [List.map_append, Path.append] at hback
  refine ⟨hfront.congr fun x hx => ?_, hback.2.congr fun x hx => ?_, hnext, fun x hx => ?_, fun d hd => ?_⟩
  · obtain ⟨d, hd, rfl⟩ := List.mem_map.1 hx
    exact (hsame d (by simp [hd])).1
  · obtain ⟨d, hd, rfl⟩ := List.mem_map.1 hx
    exact (hsame d (by simp [hd])).1
  · simp only [List.mem_append, List.mem_cons] at hx
    rcases hx with hx | rfl | rfl | hx
    · exact (hsame x (by simp [hx])).2.trans (hm.size x (by simp [hx]))
    · exact (hsame x (by simp)).2.trans (hm.size x (by simp))
    · exact hsize
    · exact (hsame x (by simp [hx])).2.trans (hm.size x (by simp [hx]))
  · exact (hC d hd).2.trans (hm.cells d (List.mem_cons_of_mem _ hd))

/-- The first half of `free`: the allocation at `bp` becomes a block, with the one after it if they touch. -/
theorem linkUp_spec {bp n : Nat} (h : Arena base lo brk (A ++ b :: ⟨bp, n, n⟩ :: B) C) (hg : Gaps (A ++ b :: B))
    (hm : Holds m base (A ++ b :: B) ((bp, n) :: C)) :
    ∃ nb B', nb.addr = bp ∧ Arena base lo brk (A ++ b :: nb :: B') C ∧ Gaps (nb :: B') ∧
      Floats (linkUp m bp b.addr) base A b nb B' C ∧
      ((∀ x ∈ B, x.size < 2 ^ 30) → n < 2 ^ 30 → n ≤ nb.size ∧ nb.size < 2 ^ 31) := by
  have h' : Arena base lo brk ((A ++ [b]) ++ ⟨bp, n, n⟩ :: B) C := by simpa using h
  have hnb : size m bp = n := hm.cells _ List.mem_cons_self
  have hplus : plus bp n = bp + 16 * n := h.plus_size (b := ⟨bp, n, n⟩) (by simp)
  have hptr : ptr m b.addr = (B.map Blk.addr).headD base := by
    have := hm.path
    rw [List.map_append, List.map_cons] at this
    exact this.next_eq
  have hptr_lt : ptr m b.addr < 2 ^ 64 := ptr_lt ..
  obtain ⟨hgA, hgB, -, -, -⟩ := gaps_append.1 hg
  -- the headers of the other blocks and allocations
  have hfront : ∀ x ∈ A ++ [b], Apart bp x.addr := fun x hx => h'.apart_before hx
  have hback : ∀ x ∈ B, Apart bp x.addr := fun x hx => h'.apart_after hx
  have hcells : ∀ d ∈ C, Apart bp d.1 := fun d hd => h.apart_cell (b := ⟨bp, n, n⟩) (by simp) hd
  have hall : ∀ B' : List Blk, (∀ x ∈ B', x ∈ B) → ∀ x ∈ A ++ b :: B', Apart bp x.addr := by
    intro B' hB' x hx
    simp only [List.mem_append, List.mem_cons] at hx
    rcases hx with hx | rfl | hx
    · exact hfront x (by simp [hx])
    · exact hfront x (by simp)
    · exact hback x (hB' x hx)
  unfold linkUp
  rw [hnb, hplus, hptr]
  by_cases ht : bp + 16 * n = (B.map Blk.addr).headD base
  · -- the block touches the next one
    rw [if_pos ht]
    rcases headD_map B base with hB | ⟨c, B', rfl, hB⟩
    · have h1 := h.base_le (b := b) (by simp)
      have h2 := h.lt_of_before (c := ⟨bp, n, n⟩) (by simp)
      have h3 := h.addr_lt_fin (b := b) (by simp)
      simp only at h2
      omega
    · rw [hB] at ht ⊢
      have hc := hback c List.mem_cons_self
      have hsize : size m c.addr = c.size := hm.size c (by simp)
      have hnext : ptr (setSize m bp (n + size m c.addr)) (ptr (setSize m bp (n + size m c.addr)) b.addr) =
          (B'.map Blk.addr).headD base := by
        have hp := hm.path
        rw [show A ++ b :: c :: B' = (A ++ [b]) ++ c :: B' by simp, List.map_append, List.map_cons] at hp
        rw [ptr_setSize (hfront b (by simp)), hptr, hB, ptr_setSize hc]
        exact hp.next_eq
      have hlt : (B'.map Blk.addr).headD base < 2 ^ 64 := hnext ▸ ptr_lt ..
      have hgap : ∀ d ∈ B', c.next ≠ d.addr := (List.pairwise_cons.1 hgB).1
      refine ⟨Blk.merge ⟨bp, n, n⟩ c, B', rfl, by simpa using h'.merge ht, ?_, ?_, fun hsmall hn => ?_⟩
      · exact List.pairwise_cons.2 ⟨h'.merge_gap ht hgap, (List.pairwise_cons.1 hgB).2⟩
      · refine hm.floats (show c :: B' = [c] ++ B' from rfl) (fun x hx => ?_) (fun d hd => ?_) ?_ ?_
        · have hx := hall B' (fun x hx => List.mem_cons_of_mem c hx) x hx
          exact (sameAt_setSize m _ hx).trans (sameAt_setPtr _ _ hx)
        · exact (sameAt_setSize m _ (hcells d hd)).trans (sameAt_setPtr _ _ (hcells d hd))
        · show ptr (setPtr _ bp _) bp = _
          rw [hnext]
          exact ptr_setPtr_self hlt
        · show size (setPtr _ bp _) bp = (n + c.size) % 2 ^ 32
          rw [size_setPtr_self, size_setSize_self, hsize]
      · have hc := hsmall c List.mem_cons_self
        have hmod : (n + c.size) % 2 ^ 32 = n + c.size := Nat.mod_eq_of_lt (by omega)
        simp only [Blk.merge]
        omega
  · rw [if_neg ht]
    refine ⟨⟨bp, n, n⟩, B, rfl, h, ?_, ?_, fun _ hn => ⟨Nat.le_refl n, Nat.lt_trans hn (by decide)⟩⟩
    · refine List.pairwise_cons.2 ⟨fun d hd he => ?_, hgB⟩
      -- a later block does not begin there either
      cases B with
      | nil => cases hd
      | cons c B' =>
        rcases List.mem_cons.1 hd with rfl | hd
        · exact ht he
        · have h1 := h'.lt_of_before (c := c) (by simp)
          have h2 : Arena base lo brk ((A ++ [b, ⟨bp, n, n⟩]) ++ c :: B') C := by simpa using h
          have h3 := h2.lt_of_before hd
          have h4 := h2.addr_lt_fin (b := c) (by simp)
          simp only [Blk.next, Blk.fin] at he h1 h3 h4
          omega
    · refine hm.floats (show B = [] ++ B from rfl) (fun x hx => ?_) (fun d hd => ?_) ?_ ?_
      · exact sameAt_setPtr m _ (hall B (fun _ => id) x hx)
      · exact sameAt_setPtr m _ (hcells d hd)
      · exact ptr_setPtr_self (hptr ▸ hptr_lt)
      · show size (setPtr m bp _) bp = n
        rw [size_setPtr_self, hnb]

/-- The second half of `free`: the new block is linked to the one before it, or becomes part of it. -/
theorem linkDown_spec (h : Arena base lo brk (A ++ b :: nb :: B) C) (hgA : Gaps A) (hgb : ∀ c ∈ A, c.next ≠ b.addr)
    (hg : Gaps (nb :: B)) (hm : Floats m base A b nb B C) :
    ∃ L', Arena base lo brk L' C ∧ Gaps L' ∧ Holds (linkDown m nb.addr b.addr) base L' C ∧ b.addr ∈ L'.map Blk.addr ∧
      (b.size < 2 ^ 30 → nb.size < 2 ^ 31 → ∃ x ∈ L', nb.size ≤ x.size) := by
  have h' : Arena base lo brk ((A ++ [b]) ++ nb :: B) C := by simpa using h
  obtain ⟨hgnb, hgB⟩ := List.pairwise_cons.1 hg
  have hnbsize : size m nb.addr = nb.size := hm.size nb (by simp)
  have hbsize : size m b.addr = b.size := hm.size b (by simp)
  have hplus : plus b.addr b.size = b.next := h.plus_size (by simp)
  have hfront : ∀ x ∈ A, Apart b.addr x.addr := fun x hx => h.apart_before hx
  have hback : ∀ x ∈ nb :: B, Apart b.addr x.addr := fun x hx => h.apart_after hx
  have hcells : ∀ d ∈ C, Apart b.addr d.1 := fun d hd => h.apart_cell (by simp) hd
  have hgAB : ∀ c ∈ A, ∀ d ∈ B, c.next ≠ d.addr := fun c hc d hd => h.next_ne hc (List.mem_cons_of_mem nb hd)
  unfold linkDown
  rw [hbsize, hplus, hnbsize]
  by_cases ht : b.next = nb.addr
  · rw [if_pos ht]
    have hlt : (B.map Blk.addr).headD base < 2 ^ 64 := hm.next ▸ ptr_lt ..
    refine ⟨A ++ b.merge nb :: B, h.merge ht, ?_, ⟨?_, fun x hx => ?_, fun d hd => ?_⟩, ?_, fun hb hnb => ?_⟩
    · exact gaps_append.2 ⟨hgA, hgB, hgb, h.merge_gap ht hgnb, hgAB⟩
    · rw [List.map_append, Path.append]
      refine ⟨hm.front.congr fun x hx => ?_, ?_, hm.back.congr fun x hx => ?_⟩
      · obtain ⟨c, hc, rfl⟩ := List.mem_map.1 hx
        rw [ptr_setPtr (hfront c hc), ptr_setSize (hfront c hc)]
      · show ptr (setPtr _ b.addr _) b.addr = _
        rw [ptr_setSize (hback nb (by simp)), hm.next]
        exact ptr_setPtr_self hlt
      · obtain ⟨c, hc, rfl⟩ := List.mem_map.1 hx
        rw [ptr_setPtr (hback c (by simp [hc])), ptr_setSize (hback c (by simp [hc]))]
    · simp only [List.mem_append, List.mem_cons] at hx
      rcases hx with hx | rfl | hx
      · rw [size_setPtr (hfront x hx), size_setSize (hfront x hx)]
        exact hm.size x (by simp [hx])
      · show size (setPtr _ b.addr _) b.addr = (b.size + nb.size) % 2 ^ 32
        rw [size_setPtr_self, size_setSize_self]
      · rw [size_setPtr (hback x (by simp [hx])), size_setSize (hback x (by simp [hx]))]
        exact hm.size x (by simp [hx])
    · rw [size_setPtr (hcells d hd), size_setSize (hcells d hd)]
      exact hm.cells d hd
    · simp [Blk.merge]
    · refine ⟨b.merge nb, by simp, ?_⟩
      have hmod : (b.size + nb.size) % 2 ^ 32 = b.size + nb.size := Nat.mod_eq_of_lt (by omega)
      simp only [Blk.merge]
      omega
  · rw [if_neg ht]
    have hlt : nb.addr < 2 ^ 64 := h.addr_lt (by simp)
    refine ⟨A ++ b :: nb :: B, h, ?_, ⟨?_, fun x hx => ?_, fun d hd => ?_⟩, by simp, fun _ _ => ⟨nb, by simp, Nat.le_refl _⟩⟩
    · refine gaps_append.2 ⟨hgA, hg, hgb, fun d hd => ?_, fun c hc d hd => h.next_ne hc hd⟩
      rcases List.mem_cons.1 hd with rfl | hd
      · exact ht
      · exact h'.next_ne (by simp) hd
    · rw [List.map_append, Path.append]
      refine ⟨hm.front.congr fun x hx => ?_, ?_, ?_, hm.back.congr fun x hx => ?_⟩
      · obtain ⟨c, hc, rfl⟩ := List.mem_map.1 hx
        exact ptr_setPtr (hfront c hc)
      · exact ptr_setPtr_self hlt
      · rw [ptr_setPtr (hback nb (by simp))]
        exact hm.next
      · obtain ⟨c, hc, rfl⟩ := List.mem_map.1 hx
        exact ptr_setPtr (hback c (by simp [hc]))
    · by_cases hxb : x = b
      · subst hxb
        rw [size_setPtr_self, hbsize]
      · have hx' : x ∈ A ∨ x ∈ nb :: B := by
          simp only [List.mem_append, List.mem_cons] at hx ⊢
          tauto
        rw [size_setPtr (hx'.elim (hfront x) (hback x))]
        exact hm.size x hx
    · rw [size_setPtr (hcells d hd)]
      exact hm.cells d hd

/-! ### The whole of `free` -/

/-- The block below an address. -/
theorem exists_below {bp : Nat} (l : List Blk) {x : Blk} (hx : x.addr < bp) :
    ∃ A b B, x :: l = A ++ b :: B ∧ b.addr < bp ∧ ∀ c ∈ B.head?, bp ≤ c.addr := by
  induction l generalizing x with
  | nil => exact ⟨[], x, [], rfl, hx, by simp⟩
  | cons y l ih =>
    by_cases hy : y.addr < bp
    · obtain ⟨A, b, B, he, hb⟩ := ih hy
      exact ⟨x :: A, b, B, by rw [he, List.cons_append], hb⟩
    · refine ⟨[], x, y :: l, rfl, hx, fun c hc => ?_⟩
      obtain rfl := Option.some.inj hc
      exact Nat.not_lt.1 hy

theorem Arena.cons (h : Arena base lo brk L C) : ∃ l, L = baseBlk base :: l := by
  cases L with
  | nil => cases h.head
  | cons b l => exact ⟨l, by rw [Option.some.inj h.head]⟩

/-- The address of an allocation is above `base`, and no block has it. -/
theorem Arena.cell_addr (h : Arena base lo brk L C) {d : Cell} (hd : d ∈ C) : base < d.1 ∧ ∀ b ∈ L, b.addr ≠ d.1 := by
  constructor
  · have h1 := (h.cells d hd).2.1
    have h2 := h.base_lt
    omega
  · intro b hb he
    have := h.apart_cell hb hd
    unfold Apart at this
    omega

/-- The loop of `free` stops at the block below `bp`. -/
theorem stopAt_iff {bp n : Nat} (h : Arena base lo brk (A ++ b :: B) ((bp, n) :: C)) (hm : Holds m base (A ++ b :: B) ((bp, n) :: C)) :
    stopAt m bp b.addr = true ↔ b.addr < bp ∧ ∀ c ∈ B.head?, bp ≤ c.addr := by
  obtain ⟨hlow, hne⟩ := h.cell_addr (d := (bp, n)) List.mem_cons_self
  have hptr : ptr m b.addr = (B.map Blk.addr).headD base := by
    have := hm.path
    rw [List.map_append, List.map_cons] at this
    exact this.next_eq
  have hb := h.base_le (b := b) (by simp)
  simp only at hlow hne
  simp only [stopAt, hptr, Bool.or_eq_true, Bool.and_eq_true, decide_eq_true_eq]
  cases B with
  | nil =>
    simp only [List.map_nil, List.headD_nil, List.head?_nil]
    constructor
    · intro h
      exact ⟨by omega, by simp⟩
    · rintro ⟨h, -⟩
      omega
  | cons c B =>
    have hc := hne c (by simp)
    have hbc := h.lt_of_before (c := c) (by simp)
    have hext := h.addr_lt_fin (b := b) (by simp)
    simp only [List.map_cons, List.headD_cons, List.head?_cons, Option.mem_some_iff, forall_eq']
    omega

/-- An allocation is given back. -/
theorem free_spec {s : St} {bp n : Nat} (h : Arena base lo brk L ((bp, n) :: C)) (hg : Gaps L) (hm : Holds s.m base L ((bp, n) :: C))
    (hf : s.freep ∈ L.map Blk.addr) :
    ∃ s' L', Returns (fun fuel => free fuel (bp + 16) s) s' ∧ Arena base lo brk L' C ∧ Gaps L' ∧ Holds s'.m base L' C ∧
      s'.freep ∈ L'.map Blk.addr ∧ s'.brk = s.brk ∧ s'.sbrks = s.sbrks ∧
      ((∀ x ∈ L, x.size < 2 ^ 30) → n < 2 ^ 30 → ∃ x ∈ L', n ≤ x.size) := by
  obtain ⟨l, rfl⟩ := h.cons
  have hpath : Path (ptr s.m) (base :: l.map Blk.addr) base := hm.path
  obtain ⟨Y, hY, hperm⟩ := hpath.enter (show s.freep ∈ base :: l.map Blk.addr from hf)
  -- the loop ends
  have hstop : ∃ p ∈ s.freep :: Y, stopAt s.m bp p = true := by
    obtain ⟨A, b, B, he, hb⟩ := exists_below l (x := baseBlk base) (h.cell_addr (d := (bp, n)) List.mem_cons_self).1
    refine ⟨b.addr, hperm.mem_iff.2 ?_, ?_⟩
    · show b.addr ∈ (baseBlk base :: l).map Blk.addr
      rw [he]
      simp
    · rw [he] at h hm
      exact (stopAt_iff h hm).2 hb
  obtain ⟨p, hp, hpstop, hseek⟩ := seek_spec hY hstop
  obtain ⟨b, hb, rfl⟩ := List.mem_map.1 (show p ∈ (baseBlk base :: l).map Blk.addr from hperm.mem_iff.1 hp)
  obtain ⟨A, B, he⟩ := List.append_of_mem hb
  rw [he] at h hm hg ⊢
  obtain ⟨hlt, hhead⟩ := (stopAt_iff h hm).1 hpstop
  have hle : ∀ c ∈ B, bp ≤ c.addr := by
    intro c hc
    cases B with
    | nil => cases hc
    | cons d B =>
      have hd := hhead d rfl
      rcases List.mem_cons.1 hc with rfl | hc
      · exact hd
      · have h' : Arena base lo brk ((A ++ [b]) ++ d :: B) ((bp, n) :: C) := by simpa using h
        have h1 := h'.lt_of_before hc
        have h2 := h'.addr_lt_fin (b := d) (by simp)
        omega
  obtain ⟨hgA, -, hgb, -, -⟩ := gaps_append.1 hg
  obtain ⟨nb, B', hnb, h1, hg1, hm1, hsize1⟩ := linkUp_spec (h.insert hlt hle) hg hm
  obtain ⟨L', h2, hg2, hm2, hf2, hsize2⟩ := linkDown_spec h1 hgA hgb hg1 hm1
  rw [hnb] at hm2
  have hret : Returns (fun fuel => free fuel (bp + 16) s)
      { s with m := linkDown (linkUp s.m bp b.addr) bp b.addr, freep := b.addr } := by
    refine ⟨Y.length + 1, fun fuel hfuel => ?_⟩
    obtain ⟨k, rfl⟩ := Nat.exists_eq_add_of_le hfuel
    dsimp only
    rw [free, Nat.add_sub_cancel, Nat.add_comm, hseek k]
  refine ⟨_, L', hret, ?_⟩
  dsimp only
  refine ⟨h2, hg2, hm2, hf2, rfl, rfl, fun hsmall hn => ?_⟩
  obtain ⟨hle1, hlt1⟩ := hsize1 (fun x hx => hsmall x (by simp [hx])) hn
  obtain ⟨x, hx, hle2⟩ := hsize2 (hsmall b (by simp)) hlt1
  exact ⟨x, hx, hle1.trans hle2⟩

/-! ### `malloc` -/

/-- The block after `x` has room for `n` units. -/
theorem take_spec {s : St} {n : Nat} {x : Blk} (h : Arena base lo brk (A ++ x :: b :: B) C) (hg : Gaps (A ++ x :: b :: B))
    (hm : Holds s.m base (A ++ x :: b :: B) C) (hn : 1 ≤ n) (hle : n ≤ b.size) :
    ∃ p s' L', take n x.addr b.addr s = (p + 16, s') ∧ Arena base lo brk L' ((p, n) :: C) ∧ Gaps L' ∧
      Holds s'.m base L' ((p, n) :: C) ∧ s'.freep ∈ L'.map Blk.addr ∧ s'.brk = s.brk ∧ s'.sbrks = s.sbrks := by
  have h' : Arena base lo brk ((A ++ [x]) ++ b :: B) C := by simpa using h
  have hg' : Gaps ((A ++ [x]) ++ b :: B) := by simpa using hg
  have hm' : Holds s.m base ((A ++ [x]) ++ b :: B) C := by simpa using hm
  have hsize : size s.m b.addr = b.size := hm.size b (by simp)
  have hsize_lt : b.size < 2 ^ 32 := hsize ▸ size_lt ..
  have hfin := h.fin_lt (b := b) (by simp)
  have hext := h.addr_lt_fin (b := b) (by simp)
  have hnext := h.next_le (b := b) (by simp)
  have hpath := hm.path
  rw [List.map_append, Path.append] at hpath
  obtain ⟨hfront, hx, hb, hback⟩ := hpath
  obtain ⟨hgA, hgB, hgb, hgb', hgAB⟩ := gaps_append.1 hg'
  unfold take
  rw [hsize]
  by_cases he : b.size = n
  · -- the whole block
    rw [if_pos he, show plus b.addr 1 = b.addr + 16 from Nat.mod_eq_of_lt (by omega)]
    have harena := h'.remove (by omega)
    rw [he, List.append_assoc] at harena
    have hgaps : Gaps (A ++ [x] ++ B) := List.pairwise_append.2 ⟨hgA, hgB, hgAB⟩
    rw [List.append_assoc] at hgaps
    have hother : ∀ y ∈ A ++ b :: B, Apart x.addr y.addr := by
      intro y hy
      rcases List.mem_append.1 hy with hy | hy
      · exact h.apart_before hy
      · exact h.apart_after hy
    have hcells : ∀ d ∈ C, Apart x.addr d.1 := fun d hd => h.apart_cell (by simp) hd
    have hptr : ptr s.m b.addr < 2 ^ 64 := ptr_lt ..
    refine ⟨b.addr, _, A ++ [x] ++ B, rfl, by simpa using harena, by simpa using hgaps, ?_, by simp, rfl, rfl⟩
    dsimp only
    refine ⟨?_, fun y hy => ?_, fun d hd => ?_⟩
    · rw [List.append_assoc, List.map_append, Path.append]
      refine ⟨hfront.congr fun a ha => ?_, ?_, hback.congr fun a ha => ?_⟩
      · obtain ⟨y, hy, rfl⟩ := List.mem_map.1 ha
        exact ptr_setPtr (hother y (by simp [hy]))
      · exact (ptr_setPtr_self hptr).trans hb
      · obtain ⟨y, hy, rfl⟩ := List.mem_map.1 ha
        exact ptr_setPtr (hother y (by simp [hy]))
    · simp only [List.mem_append, List.mem_singleton] at hy
      rcases hy with (hy | rfl) | hy
      · rw [size_setPtr (hother y (by simp [hy]))]
        exact hm.size y (by simp [hy])
      · rw [size_setPtr_self]
        exact hm.size y (by simp)
      · rw [size_setPtr (hother y (by simp [hy]))]
        exact hm.size y (by simp [hy])
    · rcases List.mem_cons.1 hd with rfl | hd
      · rw [size_setPtr (hother b (by simp)), hsize, he]
      · rw [size_setPtr (hcells d hd)]
        exact hm.cells d hd
  · -- the tail of the block
    rw [if_neg he]
    have harena := h'.split hn (by omega)
    set p := b.addr + 16 * (b.size - n) with hp
    have hsub : (b.size - n) % 2 ^ 32 = b.size - n := Nat.mod_eq_of_lt (by omega)
    have hplus : plus b.addr (size (setSize s.m b.addr (b.size - n)) b.addr) = p := by
      rw [size_setSize_self, hsub]
      exact Nat.mod_eq_of_lt (by simp only [Blk.next] at hnext; omega)
    have hplus1 : plus p 1 = p + 16 := Nat.mod_eq_of_lt (by simp only [Blk.next] at hnext; omega)
    dsimp only
    rw [hplus, hplus1]
    have hblk : ∀ y ∈ (A ++ [x]) ++ ⟨b.addr, b.size - n, b.size - n⟩ :: B, Apart p y.addr := fun y hy =>
      (harena.apart_cell hy List.mem_cons_self).symm
    have hcell : ∀ d ∈ C, Apart p d.1 := by
      intro d hd
      have h1 := (List.pairwise_cons.1 harena.pairs).1 d hd
      have h2 := (h.cells d hd).1
      unfold Apart
      simp only [Cell.fin] at h1
      omega
    have hb_other : ∀ y ∈ (A ++ [x]) ++ B, Apart b.addr y.addr := by
      intro y hy
      rcases List.mem_append.1 hy with hy | hy
      · exact h'.apart_before hy
      · exact h'.apart_after hy
    have hb_cell : ∀ d ∈ C, Apart b.addr d.1 := fun d hd => h.apart_cell (by simp) hd
    refine ⟨p, _, _, rfl, harena, ?_, ?_, by simp, rfl, rfl⟩
    · refine gaps_append.2 ⟨hgA, hgB, hgb, fun d hd => ?_, hgAB⟩
      have := h'.lt_of_before hd
      simp only [Blk.next] at hnext ⊢
      omega
    · dsimp only
      have hptr : ∀ a ∈ ((A ++ [x]) ++ b :: B).map Blk.addr,
          ptr (setSize (setSize s.m b.addr (b.size - n)) p n) a = ptr s.m a := by
        intro a ha
        obtain ⟨y, hy, rfl⟩ := List.mem_map.1 ha
        by_cases hyb : y = b
        · subst hyb
          rw [ptr_setSize (hblk ⟨y.addr, y.size - n, y.size - n⟩ (by simp)), ptr_setSize_self]
        · rcases List.mem_append.1 hy with hy | hy
          · rw [ptr_setSize (hblk y (List.mem_append_left _ hy)), ptr_setSize (hb_other y (List.mem_append_left _ hy))]
          · have hy := (List.mem_cons.1 hy).resolve_left hyb
            rw [ptr_setSize (hblk y (List.mem_append_right _ (List.mem_cons_of_mem _ hy))),
              ptr_setSize (hb_other y (List.mem_append_right _ hy))]
      refine ⟨?_, fun y hy => ?_, fun d hd => ?_⟩
      · have : Path (ptr (setSize (setSize s.m b.addr (b.size - n)) p n)) _ _ := hm'.path.congr hptr
        simpa using this
      · rw [size_setSize (hblk y hy)]
        rcases List.mem_append.1 hy with hy | hy
        · rw [size_setSize (hb_other y (List.mem_append_left B hy))]
          exact hm'.size y (List.mem_append_left _ hy)
        rcases List.mem_cons.1 hy with rfl | hy
        · rw [size_setSize_self, hsub]
        · rw [size_setSize (hb_other y (List.mem_append_right _ hy))]
          exact hm'.size y (List.mem_append_right _ (List.mem_cons_of_mem b hy))
      · rcases List.mem_cons.1 hd with rfl | hd
        · rw [size_setSize_self]
          exact Nat.mod_eq_of_lt (by omega)
        · rw [size_setSize (hcell d hd), size_setSize (hb_cell d hd)]
          exact hm.cells d hd

end Umalloc

end Xv6
