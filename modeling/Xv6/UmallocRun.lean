import Mathlib.Data.List.Pairwise
import Xv6.UmallocHeap

/-!
# Runs of `malloc` and `free`

As long as each request fits in an `int`, or finds a block that has room, the free list and the allocations keep apart whatever the
program does with its allocations (`heap_invariant`).  A request that does not fit and finds no room hands `sbrk` another number
(`malloc_honest`).
-/

namespace Xv6

namespace Umalloc

variable {base lo : Nat} {L : List Blk} {C : List Cell} {x y : Proc} {n : Nat}

/-! ### The heap of a process -/

/-- The allocations from their headers on. -/
def cells (live : List (Nat × Nat)) : List Cell := live.map fun c => (c.1 - 16, nunits c.2)

theorem mem_cells {live : List (Nat × Nat)} {c : Nat × Nat} (h : c ∈ live) : (c.1 - 16, nunits c.2) ∈ cells live :=
  List.mem_map_of_mem (f := fun c : Nat × Nat => (c.1 - 16, nunits c.2)) h

theorem nunits_eq {nbytes : Nat} (h : nbytes < 2 ^ 32) : nunits nbytes = (nbytes + 15) / 16 + 1 := by
  unfold nunits
  omega

/-- Before the first call there is no heap. -/
def Proc.Inv (base lo : Nat) (x : Proc) : Prop :=
  (x.s.freep = 0 ∧ x.live = [] ∧ x.s.brk = lo) ∨ (∃ L, Heap base lo x.s L (cells x.live)) ∧ ∀ c ∈ x.live, c.2 < 2 ^ 32

theorem Returns.unique {α : Type} {f : Nat → Option α} {a b : α} (ha : Returns f a) (hb : Returns f b) : a = b := by
  obtain ⟨j, hj⟩ := ha
  obtain ⟨k, hk⟩ := hb
  exact Option.some.inj ((hj (j + k) (by omega)).symm.trans (hk (j + k) (by omega)))

theorem Heap.freep_ne {s : St} (h : Heap base lo s L C) : s.freep ≠ 0 := by
  obtain ⟨b, hb, he⟩ := List.mem_map.1 h.freep
  have h1 := h.arena.base_le hb
  have h2 := h.arena.base_pos
  omega

/-- The blocks as the condition on requests sees them. -/
theorem Heap.room_iff {s : St} (h : Heap base lo s L C) (n : Nat) :
    (∃ k, n ≤ size s.m ((ptr s.m)^[k] s.freep)) ↔ ∃ b ∈ L, n ≤ b.size := by
  obtain ⟨Y, hY, hperm, -⟩ := h.circle
  constructor
  · rintro ⟨k, hk⟩
    obtain ⟨b, hb, he⟩ := List.mem_map.1 (hperm.mem_iff.1 (hY.iterate_mem k))
    refine ⟨b, hb, ?_⟩
    rwa [← he, h.holds.size b hb] at hk
  · rintro ⟨b, hb, hroom⟩
    obtain ⟨k, hk⟩ := hY.exists_iterate (hperm.mem_iff.2 (List.mem_map_of_mem hb))
    exact ⟨k, by rwa [hk, h.holds.size b hb]⟩

/-- The heap after `malloc` has set up `base`. -/
theorem initBase_heap {s : St} (hbase : 0 < base) (hlt : base + 16 ≤ s.brk) (hbrk : s.brk < 2 ^ 64) (hf : s.freep = 0) :
    Heap base s.brk (initBase base s) [baseBlk base] [] := by
  have hb : base < 2 ^ 64 := by omega
  rw [initBase, if_pos hf]
  refine ⟨⟨rfl, fun b hb => ?_, List.pairwise_singleton .., fun b hb => .inl (List.mem_singleton.1 hb), by simp, by simp, .nil, hbase, hlt,
    Nat.le_refl _, hbrk⟩, List.pairwise_singleton .., ⟨⟨?_, trivial⟩, fun b hb => ?_, by simp⟩, by simp [baseBlk]⟩
  · rw [List.mem_singleton.1 hb]
    exact ⟨Nat.zero_le 1, Nat.le_refl 1⟩
  · exact ptr_setSize_self.trans (ptr_setPtr_self hb)
  · rw [List.mem_singleton.1 hb]
    exact size_setSize_self

/-- The heap that `malloc` works on. -/
theorem Proc.Inv.start (h : x.Inv base lo) (hbase : 0 < base) (hlt : base + 16 ≤ lo) (hlo : lo < 2 ^ 64) :
    (∃ L, Heap base lo (initBase base x.s) L (cells x.live) ∧ ((∃ b ∈ L, 1 ≤ n ∧ n ≤ b.size) ↔ 1 ≤ n ∧ Room x n)) ∧
      (initBase base x.s).sbrks = x.s.sbrks := by
  rcases h with ⟨hf, hlive, hbrk⟩ | ⟨⟨L, h⟩, -⟩
  · have h0 := initBase_heap (s := x.s) hbase (hbrk ▸ hlt) (hbrk ▸ hlo) hf
    rw [hbrk] at h0
    refine ⟨⟨[baseBlk base], by rwa [hlive], ?_⟩, by rw [initBase, if_pos hf]⟩
    constructor
    · rintro ⟨b, hb, h1, hle⟩
      rw [List.mem_singleton.1 hb] at hle
      exact absurd (h1.trans hle) (Nat.not_succ_le_zero 0)
    · rintro ⟨-, hroom, -⟩
      exact absurd hf hroom
  · have hs : initBase base x.s = x.s := by rw [initBase, if_neg h.freep_ne]
    rw [hs]
    refine ⟨⟨L, h, ?_⟩, rfl⟩
    rw [Room, h.room_iff]
    constructor
    · rintro ⟨b, hb, h1, hle⟩
      exact ⟨h1, h.freep_ne, b, hb, hle⟩
    · rintro ⟨h1, -, b, hb, hle⟩
      exact ⟨b, hb, h1, hle⟩

/-! ### Calls -/

theorem nunits_pos {nbytes : Nat} (h : nbytes < 2 ^ 32) : 1 ≤ nunits nbytes := by
  rw [nunits_eq h]
  omega

/-- A request that fits or finds room. -/
def Meets (x : Proc) (nbytes : Nat) : Prop := Fits nbytes ∨ Room x (nunits nbytes)

theorem Proc.Inv.malloc (h : x.Inv base lo) (hbase : 0 < base) (hlt : base + 16 ≤ lo) (hlo : lo < 2 ^ 64) {nbytes : Nat}
    (hbytes : nbytes < 2 ^ 32) (hc : Meets x nbytes) (oks : Nat → Bool) :
    ∃ ap s' L', Returns (fun fuel => Umalloc.malloc base oks nbytes fuel x.s) (ap, s') ∧
      (s'.sbrks = x.s.sbrks ∨ ∃ c : SbrkCall, c.Exact ∧ s'.sbrks = c :: x.s.sbrks) ∧
      ((ap = 0 ∧ (∃ c, s'.sbrks = c :: x.s.sbrks ∧ c.grown = none) ∧ Heap base lo s' L' (cells x.live)) ∨
        ap ≠ 0 ∧ Heap base lo s' L' (cells ((ap, nbytes) :: x.live))) := by
  obtain ⟨⟨L, hheap, hroom⟩, hsbrks⟩ := h.start (n := nunits nbytes) hbase hlt hlo
  have hpos := nunits_pos hbytes
  have hcond : nunits nbytes * 16 < 2 ^ 31 ∨ ∃ b ∈ L, nunits nbytes ≤ b.size := by
    refine hc.imp id fun hr => ?_
    obtain ⟨b, hb, -, hle⟩ := hroom.2 ⟨hpos, hr⟩
    exact ⟨b, hb, hle⟩
  obtain ⟨ap, s', L', hret, hcalls, hres⟩ := hheap.malloc hpos hcond oks
  rw [hsbrks] at hcalls hres
  refine ⟨ap, s', L', hret, hcalls, hres.imp_right ?_⟩
  rintro ⟨p, rfl, h'⟩
  exact ⟨by omega, h'⟩

theorem Heap.perm {s : St} {C' : List Cell} (h : Heap base lo s L C) (hp : C.Perm C') : Heap base lo s L C' :=
  ⟨h.arena.perm hp, h.gaps, ⟨h.holds.path, h.holds.size, fun c hc => h.holds.cells c (hp.mem_iff.2 hc)⟩, h.freep⟩

/-- Where a live allocation is. -/
theorem Heap.cell {s : St} {live : List (Nat × Nat)} (h : Heap base lo s L (cells live)) (hbytes : ∀ c ∈ live, c.2 < 2 ^ 32)
    {c : Nat × Nat} (hc : c ∈ live) : lo + 16 ≤ c.1 ∧ c.1 + c.2 ≤ c.1 - 16 + 16 * nunits c.2 ∧ c.1 - 16 + 16 * nunits c.2 ≤ s.brk := by
  have hcell := h.arena.cells (c.1 - 16, nunits c.2) (mem_cells hc)
  have h1 := h.arena.base_pos
  have h2 := h.arena.base_lt
  have h3 := nunits_eq (hbytes c hc)
  simp only [Cell.fin] at hcell
  omega

theorem Proc.Inv.free (h : x.Inv base lo) {ap nbytes : Nat} (hc : (ap, nbytes) ∈ x.live) :
    ∃ s' L', Returns (fun fuel => Umalloc.free fuel ap x.s) s' ∧ Heap base lo s' L' (cells (x.live.erase (ap, nbytes))) := by
  rcases h with ⟨-, hlive, -⟩ | ⟨⟨L, h⟩, hbytes⟩
  · rw [hlive] at hc
    cases hc
  · have hperm : (cells x.live).Perm ((ap - 16, nunits nbytes) :: cells (x.live.erase (ap, nbytes))) :=
      (List.perm_cons_erase hc).map _
    have h' := h.perm hperm
    obtain ⟨s', L', hret, h1, h2, h3, h4, h5, -⟩ := free_spec h'.arena h'.gaps h'.holds h'.freep
    have hap : ap - 16 + 16 = ap := by
      have := (h.cell hbytes hc).1
      omega
    rw [hap] at hret
    exact ⟨s', L', hret, h5.symm ▸ h1, h2, h3, h4⟩

theorem Arena.cells_apart {brk : Nat} (h : Arena base lo brk L C) {c d : Cell} (hc : c ∈ C) (hd : d ∈ C) (hne : c ≠ d) :
    Cell.fin c ≤ d.1 ∨ Cell.fin d ≤ c.1 := by
  have : Std.Symm fun c d : Cell => Cell.fin c ≤ d.1 ∨ Cell.fin d ≤ c.1 := ⟨fun _ _ => Or.symm⟩
  exact h.pairs.forall hc hd hne

/-- The program writes into its allocations. -/
theorem Heap.write {s : St} {live : List (Nat × Nat)} (h : Heap base lo s L (cells live)) (hbytes : ∀ c ∈ live, c.2 < 2 ^ 32)
    {m : Bytes} (hm : ∀ a, (∀ c ∈ live, a < c.1 ∨ c.1 + c.2 ≤ a) → m a = s.m a) : Heap base lo { s with m } L (cells live) := by
  refine ⟨h.arena, h.gaps, h.holds.congr (fun b hb => ?_) (fun d hd => ?_), h.freep⟩
  · apply header_congr
    intro a ha hlt
    refine hm a fun c hc => ?_
    have h1 := h.cell hbytes hc
    have h2 := h.arena.off _ (mem_cells hc) b hb
    have h3 := h.arena.addr_lt_fin hb
    simp only [Cell.fin] at h2
    omega
  · obtain ⟨d, hdlive, rfl⟩ := List.mem_map.1 (show d ∈ live.map fun c => (c.1 - 16, nunits c.2) from hd)
    apply header_congr
    intro a ha hlt
    refine hm a fun c hc => ?_
    have h1 := h.cell hbytes hc
    have h2 := h.cell hbytes hdlive
    have h3 := nunits_pos (hbytes d hdlive)
    by_cases hcd : (c.1 - 16, nunits c.2) = (d.1 - 16, nunits d.2)
    · rw [Prod.mk.injEq] at hcd
      simp only at ha hlt
      omega
    · have h4 := h.arena.cells_apart (mem_cells hc) hd hcd
      simp only [Cell.fin] at h4 ha hlt
      omega

/-- The requests of a run. -/
def Asks (x : Proc) : Ev → Prop
  | .malloc nbytes _ => Meets x nbytes
  | _ => True

theorem Proc.Inv.step (hbase : 0 < base) (hlt : base + 16 ≤ lo) (hlo : lo < 2 ^ 64) (h : x.Inv base lo) {e : Ev} (he : Asks x e)
    (hs : Step base x e y) : y.Inv base lo := by
  have hlive : ∀ c ∈ x.live, c.2 < 2 ^ 32 := by
    rcases h with ⟨-, hl, -⟩ | ⟨-, h⟩
    · rw [hl]
      simp
    · exact h
  cases hs with
  | @malloc nbytes oks ap s hbytes hret =>
    obtain ⟨ap', s', L', hret', -, hres⟩ := h.malloc hbase hlt hlo hbytes he oks
    obtain ⟨rfl, rfl⟩ := Prod.mk.inj (hret.unique hret')
    right
    rcases hres with ⟨h0, -, h'⟩ | ⟨h0, h'⟩
    · rw [if_pos h0]
      exact ⟨⟨L', h'⟩, hlive⟩
    · rw [if_neg h0]
      refine ⟨⟨L', h'⟩, fun c hc => ?_⟩
      rcases List.mem_cons.1 hc with rfl | hc
      · exact hbytes
      · exact hlive c hc
  | @free ap nbytes s hmem hret =>
    obtain ⟨s', L', hret', h'⟩ := h.free hmem
    obtain rfl := hret.unique hret'
    exact .inr ⟨⟨L', h'⟩, fun c hc => hlive c (List.mem_of_mem_erase hc)⟩
  | @write m hm =>
    rcases h with ⟨hf, hl, hb⟩ | ⟨⟨L, h⟩, -⟩
    · exact .inl ⟨hf, hl, hb⟩
    · exact .inr ⟨⟨L, h.write hlive hm⟩, hlive⟩

theorem Proc.Inv.reachable (hbase : 0 < base) (hlt : base + 16 ≤ lo) (hlo : lo < 2 ^ 64)
    (hx : ((procLts base lo).guard Asks).Reachable x) : x.Inv base lo := by
  refine Lts.Reachable.invariant (fun z hz => ?_) (fun z e t hz hs => ?_) hx
  · exact .inl ⟨hz.1, hz.2.2.2, hz.2.1⟩
  · obtain ⟨he, t', ht, hs⟩ := hs
    cases ht
    exact hz.step hbase hlt hlo he hs

/-! ### More fuel -/

theorem free_more {fuel ap : Nat} {s t : St} (h : free fuel ap s = some t) (more : Nat) : free (fuel + more) ap s = some t := by
  unfold free at h ⊢
  dsimp only at h ⊢
  cases hp : seek (ptr s.m) (stopAt s.m (ap - 16)) fuel s.freep with
  | none =>
    rw [hp] at h
    cases h
  | some p =>
    rw [hp] at h
    rwa [seek_more hp more]

theorem morecore_more {ok : Bool} {fuel nu : Nat} {s : St} {r : Nat × St} (h : morecore ok fuel nu s = some r) (more : Nat) :
    morecore ok (fuel + more) nu s = some r := by
  unfold morecore at h ⊢
  dsimp only at h ⊢
  split at h
  · exact h
  · rename_i hp s' hsbrk
    cases hf : free fuel (plus hp 1) { s' with m := setSize s'.m hp (if nu < 4096 then 4096 else nu) } with
    | none =>
      rw [hf] at h
      cases h
    | some t =>
      rw [hf] at h
      rwa [free_more hf more]

theorem mallocLoop_fuel {nunits fuel prevp p : Nat} {oks : Nat → Bool} {s : St} {r : Nat × St}
    (h : mallocLoop nunits oks fuel prevp p s = some r) (more : Nat) : mallocLoop nunits oks (fuel + more) prevp p s = some r := by
  induction fuel generalizing oks prevp p s with
  | zero => cases h
  | succ fuel ih =>
    rw [Nat.add_right_comm]
    rw [mallocLoop] at h ⊢
    split
    · rwa [if_pos ‹_›] at h
    rw [if_neg ‹_›] at h
    split
    · rw [if_pos ‹_›] at h
      cases hm : morecore (oks 0) fuel nunits s with
      | none =>
        rw [hm] at h
        cases h
      | some x =>
        rw [hm] at h
        rw [morecore_more hm more]
        dsimp only at h ⊢
        split
        · rwa [if_pos ‹_›] at h
        · rw [if_neg ‹_›] at h
          exact ih h
    · rw [if_neg ‹_›] at h
      exact ih h

/-- What a call returns with some fuel, it returns. -/
theorem returns_of_eval {α : Type} {f : Nat → Option α} {fuel : Nat} {r : α} (hmore : ∀ more, f fuel = some r → f (fuel + more) = some r)
    (h : f fuel = some r) : Returns f r :=
  ⟨fuel, fun n hn => Nat.add_sub_cancel' hn ▸ hmore (n - fuel) h⟩

/-! ### What the program can rely on -/

/-- The free list with its blocks at `base` and `l`, and the allocations.  `lo` is where the memory of `sbrk` begins. -/
structure HeapOk (base lo : Nat) (x : Proc) (l : List Nat) : Prop where
  circle : Path (ptr x.s.m) (base :: l) base
  freep : x.s.freep ∈ base :: l
  order : (base :: l).Pairwise (· < ·)
  -- no two blocks overlap or touch
  blocks : ∀ a ∈ base :: l, ∀ b ∈ base :: l, a < b → a + 16 * size x.s.m a < b
  inside : ∀ c ∈ x.live, lo + 16 ≤ c.1 ∧ c.1 + c.2 ≤ x.s.brk
  -- an allocation is outside of the blocks and their headers
  off : ∀ c ∈ x.live, ∀ a ∈ base :: l, c.1 + c.2 ≤ a ∨ a + 16 ≤ c.1 ∧ a + 16 * size x.s.m a ≤ c.1
  -- and of the other allocations with their headers
  apart : x.live.Pairwise fun c d => c.1 + c.2 ≤ d.1 - 16 ∨ d.1 + d.2 ≤ c.1 - 16

theorem Heap.ok (h : Heap base lo x.s L (cells x.live)) (hbytes : ∀ c ∈ x.live, c.2 < 2 ^ 32) : ∃ l, HeapOk base lo x l := by
  obtain ⟨l, rfl⟩ := h.arena.cons
  have hmem : ∀ {a}, a ∈ base :: l.map Blk.addr → ∃ b ∈ baseBlk base :: l, b.addr = a := fun ha =>
    List.mem_map.1 (show _ ∈ (baseBlk base :: l).map Blk.addr from ha)
  have horder : ((baseBlk base :: l).map Blk.addr).Pairwise (· < ·) := by
    refine List.Pairwise.map _ (fun b c hbc => hbc) (h.arena.sorted.imp_of_mem fun {b c} hb _ hbc => ?_)
    have := h.arena.addr_lt_fin hb
    omega
  refine ⟨l.map Blk.addr, h.holds.path, h.freep, horder, fun a ha b hb hab => ?_, fun c hc => ?_, fun c hc a ha => ?_, ?_⟩
  · obtain ⟨a, hamem, rfl⟩ := hmem ha
    obtain ⟨b, hbmem, rfl⟩ := hmem hb
    replace ha := hamem
    replace hb := hbmem
    rw [h.holds.size a ha]
    have hne : a ≠ b := fun he => by
      rw [he] at hab
      omega
    have hall := (h.arena.sorted.and h.gaps)
    obtain ⟨A, B, hAB⟩ := List.append_of_mem ha
    rw [hAB] at hall hb
    rcases List.mem_append.1 hb with hb | hb
    · have h1 := ((List.pairwise_append.1 hall).2.2 b hb a List.mem_cons_self).1
      have h2 := h.arena.addr_lt_fin (b := b) (by rw [hAB]; simp [hb])
      omega
    · have hb := (List.mem_cons.1 hb).resolve_left (Ne.symm hne)
      obtain ⟨h1, h2⟩ := (List.pairwise_cons.1 (List.pairwise_append.1 hall).2.1).1 b hb
      have h3 := h.arena.next_le ha
      simp only [Blk.next] at h2 h3
      omega
  · have := h.cell hbytes hc
    omega
  · obtain ⟨a, hamem, rfl⟩ := hmem ha
    replace ha := hamem
    rw [h.holds.size a ha]
    have h1 := h.cell hbytes hc
    have h2 := h.arena.off _ (mem_cells hc) a ha
    have h3 := h.arena.addr_lt_fin ha
    have h4 := h.arena.next_le ha
    simp only [Cell.fin, Blk.next] at h2 h4
    omega
  · have hpairs := List.pairwise_map.1 (show (x.live.map fun c => (c.1 - 16, nunits c.2)).Pairwise _ from h.arena.pairs)
    refine hpairs.imp_of_mem fun {c d} hc hd hcd => ?_
    have h1 := h.cell hbytes hc
    have h2 := h.cell hbytes hd
    simp only [Cell.fin] at hcd
    omega

/-- The requests that fit. -/
def AsksFit (_ : Proc) : Ev → Prop
  | .malloc nbytes _ => Fits nbytes
  | _ => True

theorem AsksFit.asks {e : Ev} (h : AsksFit x e) : Asks x e := by
  cases e with
  | malloc nbytes oks => exact .inl h
  | free ap => trivial
  | write => trivial

/-- In every run of calls whose requests fit, the free list is a circle of blocks that do not overlap or touch, the allocations are
apart from them and from each other, and every call returns; `malloc` returns 0 only if `sbrk` has failed. -/
theorem heap_invariant {base brk : Nat} (hbase : 0 < base) (hlt : base + 16 < brk) (hbrk : brk < 2 ^ 64) {x : Proc}
    (hx : ((procLts base brk).guard AsksFit).Reachable x) :
    ((x.s.freep = 0 ∧ x.live = []) ∨ ∃ l, HeapOk base brk x l) ∧
    (∀ nbytes oks, nbytes < 2 ^ 32 → Fits nbytes → ∃ ap s', Returns (fun fuel => malloc base oks nbytes fuel x.s) (ap, s') ∧
      s'.freep ≠ 0 ∧ (ap = 0 → ∃ c, s'.sbrks = c :: x.s.sbrks ∧ c.grown = none)) ∧
    ∀ c ∈ x.live, ∃ s', Returns (fun fuel => free fuel c.1 x.s) s' ∧ s'.freep ≠ 0 := by
  have hinv := Proc.Inv.reachable hbase (Nat.le_of_lt hlt) hbrk (Lts.Reachable.guard_mono (fun _ _ => AsksFit.asks) hx)
  refine ⟨?_, fun nbytes oks hbytes hfits => ?_, fun c hc => ?_⟩
  · rcases hinv with ⟨hf, hlive, -⟩ | ⟨⟨L, h⟩, hbytes⟩
    · exact .inl ⟨hf, hlive⟩
    · exact .inr (h.ok hbytes)
  · obtain ⟨ap, s', L', hret, -, hres⟩ := hinv.malloc hbase (Nat.le_of_lt hlt) hbrk hbytes (.inl hfits) oks
    refine ⟨ap, s', hret, ?_⟩
    rcases hres with ⟨-, hfail, h'⟩ | ⟨h0, h'⟩
    · exact ⟨h'.freep_ne, fun _ => hfail⟩
    · exact ⟨h'.freep_ne, fun he => absurd he h0⟩
  · obtain ⟨s', L', hret, h'⟩ := hinv.free hc
    exact ⟨s', hret, h'.freep_ne⟩

/-- A process before its first call, with its static data at 4096 and its break at 8192. -/
def sampleProc : Proc := ⟨{ m := fun _ => 0, brk := 8192 }, []⟩

/-- Two allocations, of which the first is given back. -/
def sampleCalls : Option Proc := do
  let (ap, s) ← malloc 4096 (fun _ => true) 100 10 sampleProc.s
  let (ap', s') ← malloc 4096 (fun _ => true) 200 10 s
  let t ← free 10 ap s'
  if ap ≠ 0 ∧ ap' ≠ 0 then some ⟨t, [(ap', 200)]⟩ else none

theorem sampleCalls_reachable (h : sampleCalls = some x) : ((procLts 4096 8192).guard AsksFit).Reachable x := by
  obtain ⟨⟨ap, s⟩, hs, h⟩ := Option.bind_eq_some_iff.1 h
  obtain ⟨⟨ap', s'⟩, hs', h⟩ := Option.bind_eq_some_iff.1 h
  obtain ⟨t, ht, h⟩ := Option.bind_eq_some_iff.1 h
  split at h
  · rename_i hne
    cases h
    have h0 : ((procLts 4096 8192).guard AsksFit).Reachable sampleProc := .of_init ⟨rfl, rfl, rfl, rfl⟩
    have h1 := Lts.Reachable.step (e := Ev.malloc 100 fun _ => true) h0 ⟨show Fits 100 by unfold Fits nunits; decide, _, rfl,
      .malloc (by decide) (returns_of_eval (fun more h => mallocLoop_fuel h more) hs)⟩
    rw [if_neg hne.1] at h1
    have h2 := Lts.Reachable.step (e := Ev.malloc 200 fun _ => true) h1 ⟨show Fits 200 by unfold Fits nunits; decide, _, rfl,
      .malloc (by decide) (returns_of_eval (fun more h => mallocLoop_fuel h more) hs')⟩
    rw [if_neg hne.2] at h2
    have h3 := Lts.Reachable.step (e := Ev.free ap) h2 ⟨trivial, _, rfl, .free (show (ap, 100) ∈ _ from List.mem_cons_of_mem _ List.mem_cons_self)
      (returns_of_eval (fun more h => free_more h more) ht)⟩
    have hlive : ((ap', 200) :: (ap, 100) :: sampleProc.live).erase (ap, 100) = [(ap', 200)] := by
      rw [List.erase_cons_tail (by simp), List.erase_cons_head]
      rfl
    rwa [hlive] at h3
  · cases h

/-- There are a live allocation and free blocks, and the allocation can be given back. -/
theorem heap_invariant_sampleProc : ∃ x : Proc, ((procLts 4096 8192).guard AsksFit).Reachable x ∧ x.live = [(73392, 200)] ∧
    (∃ l, l ≠ [] ∧ HeapOk 4096 8192 x l) ∧ ∃ s', Returns (fun fuel => free fuel 73392 x.s) s' ∧ s'.freep ≠ 0 := by
  obtain ⟨x, hx, hlive, hfree⟩ : ∃ x, sampleCalls = some x ∧ x.live = [(73392, 200)] ∧ ptr x.s.m 4096 ≠ 4096 := by
    have : sampleCalls.any (fun x => x.live = [(73392, 200)] ∧ ptr x.s.m 4096 ≠ 4096) = true := by decide +kernel
    obtain ⟨x, hx, h⟩ := (Option.any_eq_true _ _).1 this
    exact ⟨x, hx, of_decide_eq_true h⟩
  have hreach := sampleCalls_reachable hx
  obtain ⟨hheap, -, hcall⟩ := heap_invariant (by decide) (by decide) (by decide) hreach
  refine ⟨x, hreach, hlive, ?_, hcall (73392, 200) (by rw [hlive]; exact List.mem_singleton_self _)⟩
  rcases hheap with ⟨-, h0⟩ | ⟨l, hl⟩
  · rw [hlive] at h0
    cases h0
  · refine ⟨l, ?_, hl⟩
    rintro rfl
    exact hfree hl.circle.1

/-! ### Requests that do not fit -/

/-- `malloc` gives memory that the process has and that is not in use, or 0, and its calls of `sbrk` are exact. -/
def Honest (base : Nat) (x : Proc) (nbytes : Nat) (oks : Nat → Bool) : Prop :=
  ∃ ap s', Returns (fun fuel => malloc base oks nbytes fuel x.s) (ap, s') ∧
    (ap = 0 ∨ ap + nbytes ≤ s'.brk ∧ ∀ c ∈ x.live, c.1 + c.2 ≤ ap ∨ ap + nbytes ≤ c.1) ∧
    ∀ l, s'.sbrks = l ++ x.s.sbrks → ∀ c ∈ l, c.Exact

theorem free_sbrks {fuel ap : Nat} {s s' : St} (h : free fuel ap s = some s') : s'.sbrks = s.sbrks := by
  unfold free at h
  dsimp only at h
  split at h
  · cases h
  · cases h
    rfl

theorem morecore_sbrks {ok : Bool} {fuel p : Nat} {s s' : St} (h : morecore ok fuel n s = some (p, s')) :
    ∃ g, s'.sbrks = ⟨(if n < 4096 then 4096 else n) * 16, toInt ((if n < 4096 then 4096 else n) * 16), g⟩ :: s.sbrks := by
  unfold morecore sbrk at h
  dsimp only at h
  cases hg : growproc ok s.brk (toInt ((if n < 4096 then 4096 else n) * 16)) with
  | none =>
    rw [hg] at h
    cases h
    exact ⟨none, rfl⟩
  | some brk =>
    rw [hg] at h
    dsimp only at h
    split at h
    · cases h
    · rename_i s₁ hfree
      cases h
      exact ⟨_, free_sbrks hfree⟩

/-- Calls of `sbrk` are not forgotten. -/
theorem mallocLoop_sbrks {oks : Nat → Bool} {fuel p q : Nat} {s : St} {r : Nat × St} (h : mallocLoop n oks fuel p q s = some r) :
    ∃ l, r.2.sbrks = l ++ s.sbrks := by
  induction fuel generalizing oks p q s with
  | zero => cases h
  | succ fuel ih =>
    unfold mallocLoop at h
    split at h
    · cases h
      refine ⟨[], ?_⟩
      unfold take
      split <;> rfl
    · split at h
      · split at h
        · cases h
        · rename_i p' s₁ hmore
          obtain ⟨g, hg⟩ := morecore_sbrks hmore
          split at h
          · cases h
            exact ⟨[_], hg⟩
          · obtain ⟨l, hl⟩ := ih h
            exact ⟨l ++ [_], by rw [hl, hg, List.append_assoc]; rfl⟩
      · exact ih h

theorem Heap.not_room {s : St} (h : Heap base lo s L C) (hroom : ¬∃ b ∈ L, n ≤ b.size) {Y : List Nat}
    (hperm : (s.freep :: Y).Perm (L.map Blk.addr)) : ∀ y ∈ Y ++ [s.freep], size s.m y < n := by
  intro y hy
  have hy : y ∈ L.map Blk.addr := by
    rw [← hperm.mem_iff]
    rcases List.mem_append.1 hy with hy | hy
    · exact List.mem_cons_of_mem _ hy
    · exact List.mem_singleton.1 hy ▸ List.mem_cons_self
  obtain ⟨b, hb, rfl⟩ := List.mem_map.1 hy
  rw [h.holds.size b hb]
  exact Nat.not_le.1 fun hle => hroom ⟨b, hb, hle⟩

/-- A request that does not fit and finds no room asks `sbrk` for another number of bytes. -/
theorem Honest.meets (h : x.Inv base lo) (hbase : 0 < base) (hlt : base + 16 ≤ lo) (hlo : lo < 2 ^ 64) {nbytes : Nat}
    (hbytes : nbytes < 2 ^ 32) {oks : Nat → Bool} (hh : Honest base x nbytes oks) : Meets x nbytes := by
  by_contra hno
  obtain ⟨hfits, hnoroom⟩ := not_or.1 hno
  obtain ⟨⟨L, hheap, hroom⟩, hsbrks⟩ := h.start (n := nunits nbytes) hbase hlt hlo
  have hnone : ¬∃ b ∈ L, nunits nbytes ≤ b.size := fun ⟨b, hb, hle⟩ => hnoroom (hroom.1 ⟨b, hb, nunits_pos hbytes, hle⟩).2
  obtain ⟨ap, s', ⟨k, hk⟩, -, hexact⟩ := hh
  obtain ⟨Y, hY, hperm, hf⟩ := hheap.circle
  -- the call of `morecore`
  have hret := hk (k + (Y.length + 1)) (by omega)
  unfold malloc at hret
  dsimp only at hret
  rw [mallocLoop_more oks hY hf (hheap.not_room hnone hperm)] at hret
  cases hmore : morecore (oks 0) k (nunits nbytes) (initBase base x.s) with
  | none =>
    rw [hmore] at hret
    cases hret
  | some r =>
    rw [hmore] at hret
    obtain ⟨p, s₁⟩ := r
    obtain ⟨g, hg⟩ := morecore_sbrks hmore
    have hall : ∃ l, s'.sbrks = l ++ s₁.sbrks := by
      unfold afterMore at hret
      split at hret
      · rename_i heq
        cases heq
      · rename_i heq
        cases heq
        split at hret
        · cases hret
          exact ⟨[], rfl⟩
        · exact mallocLoop_sbrks hret
    obtain ⟨l, hl⟩ := hall
    have hbig : ¬nunits nbytes < 4096 := by
      unfold Fits at hfits
      omega
    rw [hg, hsbrks, if_neg hbig, ← List.singleton_append, ← List.append_assoc] at hl
    have hc := (hexact _ hl _ (List.mem_append_right l (List.mem_singleton_self _))).1
    have hint := toInt_lt (nunits nbytes * 16)
    simp only at hc
    unfold Fits at hfits
    omega

/-- In a run whose requests fit or find room, the next request is honest exactly if it fits or finds room. -/
theorem malloc_honest {base brk : Nat} (hbase : 0 < base) (hlt : base + 16 ≤ brk) (hbrk : brk < 2 ^ 64) {x : Proc}
    (hx : ((procLts base brk).guard Asks).Reachable x) {nbytes : Nat} (hbytes : nbytes < 2 ^ 32) (oks : Nat → Bool) :
    Honest base x nbytes oks ↔ Meets x nbytes := by
  have hinv := Proc.Inv.reachable hbase hlt hbrk hx
  refine ⟨Honest.meets hinv hbase hlt hbrk hbytes, fun hmeets => ?_⟩
  obtain ⟨ap, s', L', hret, hcalls, hres⟩ := hinv.malloc hbase hlt hbrk hbytes hmeets oks
  refine ⟨ap, s', hret, ?_, fun l hl c hc => ?_⟩
  · rcases hres with ⟨h0, -⟩ | ⟨-, h'⟩
    · exact .inl h0
    · right
      have hlive : ∀ c ∈ (ap, nbytes) :: x.live, c.2 < 2 ^ 32 := by
        intro c hc
        rcases List.mem_cons.1 hc with rfl | hc
        · exact hbytes
        · rcases hinv with ⟨-, hl, -⟩ | ⟨-, h⟩
          · rw [hl] at hc
            cases hc
          · exact h c hc
      obtain ⟨l, hok⟩ := h'.ok (x := ⟨s', (ap, nbytes) :: x.live⟩) hlive
      refine ⟨(hok.inside _ List.mem_cons_self).2, fun c hc => ?_⟩
      have h1 := (List.pairwise_cons.1 hok.apart).1 c hc
      omega
  · rcases hcalls with hs | ⟨d, hd, hs⟩
    · rw [hs] at hl
      rw [List.self_eq_append_left.1 hl] at hc
      cases hc
    · rw [hs, ← List.singleton_append, List.append_cancel_right_eq] at hl
      rw [← hl] at hc
      exact List.mem_singleton.1 hc ▸ hd

theorem malloc_honest_sampleProc : Honest 4096 sampleProc 100 fun _ => true :=
  (@malloc_honest 4096 8192 (by decide) (by decide) (by decide) sampleProc (.of_init ⟨rfl, rfl, rfl, rfl⟩)
    100 (by decide) _).2 (.inl (by unfold Fits nunits; decide))

/-- The largest request, as the first one: `sbrk` is asked for 16 bytes. -/
theorem malloc_dishonest : ¬∀ (base brk : Nat) (x : Proc) (nbytes : Nat) (oks : Nat → Bool), 0 < base → base + 16 ≤ brk → brk < 2 ^ 64 →
    ((procLts base brk).guard AsksFit).Reachable x → nbytes < 2 ^ 32 → Honest base x nbytes oks := by
  intro h
  have hh := h 4096 8192 sampleProc (2 ^ 32 - 1) (fun _ => true) (by decide) (by decide) (by decide) (.of_init ⟨rfl, rfl, rfl, rfl⟩)
    (by decide)
  have hinv : sampleProc.Inv 4096 8192 := .inl ⟨rfl, rfl, rfl⟩
  rcases hh.meets hinv (by decide) (by decide) (by decide) (by decide) with hfits | hroom
  · unfold Fits nunits at hfits
    exact absurd hfits (by decide)
  · exact hroom.1 rfl

end Umalloc

end Xv6
