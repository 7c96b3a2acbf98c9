import Mathlib.Data.Multiset.Range
import Xv6.Virtio

/-!
# The discipline of the virtio driver

The invariant has four parts: who has the lock (`Locks`), that the processes hold disjoint descriptors and the others are free
(`Own`), what the descriptors of a process say (`RwPc.Ok`), and the requests that are with the device (`Flight`).  The heads that the
device or the handler has still to deal with, `heads`, are those of the processes that wait with their flag set, each once; the
device moves them from one list to the next.
-/

namespace Xv6

namespace Virtio

open Function (update)

variable {T B : Type}

/-! ### Descriptors -/

namespace Disk

variable {d : Disk B}

theorem links_congr {d' : Disk B} {l : List Nat} (h : ∀ i ∈ l, d'.desc i = d.desc i) (hl : d.Links l) : d'.Links l := by
  induction l with
  | nil => exact hl
  | cons i l ih =>
    have hi := h i (List.mem_cons_self ..)
    cases l with
    | nil =>
      show (d'.desc i).hasNext = false
      rw [hi]
      exact hl
    | cons j l =>
      obtain ⟨h1, h2, h3⟩ := hl
      refine ⟨?_, ?_, ih (fun k hk => h k (List.mem_cons_of_mem _ hk)) h3⟩
      · rwa [hi]
      · rwa [hi]

/-- A request as the device finds it: three descriptors, and `info` for the handler. -/
structure Request (d : Disk B) (b : B) (i j k : Nat) : Prop where
  links : d.Links [i, j, k]
  data : (d.desc j).addr = .data b
  status : (d.desc k).addr = .status i
  info : (d.info i).b = some b

theorem Request.parts {b : B} {i j k : Nat} (h : d.Request b i j k) : d.parts i = some (d.desc j, d.desc k) := by
  obtain ⟨h1, rfl, h2, rfl, h3⟩ := h.links
  have h3 : (d.desc (d.desc (d.desc i).next).next).hasNext = false := h3
  simp [Disk.parts, h1, h2, h3]

theorem Request.dataOf {b : B} {i j k : Nat} (h : d.Request b i j k) : d.dataOf i = some b := by
  have hd := h.data
  rw [Disk.dataOf, h.parts]
  cases hx : d.desc j with
  | mk addr len flags next =>
    rw [hx] at hd
    simp only at hd
    subst hd
    rfl

theorem Request.statusOf {b : B} {i j k : Nat} (h : d.Request b i j k) : d.statusOf i = some i := by
  have hd := h.status
  rw [Disk.statusOf, h.parts]
  cases hx : d.desc k with
  | mk addr len flags next =>
    rw [hx] at hd
    simp only at hd
    subst hd
    rfl

theorem Request.congr {d' : Disk B} {b : B} {i j k : Nat} (h : d.Request b i j k) (hd : ∀ x ∈ [i, j, k], d'.desc x = d.desc x)
    (hi : (d'.info i).b = (d.info i).b) : d'.Request b i j k where
  links := links_congr hd h.links
  data := by rw [hd j (by simp), h.data]
  status := by rw [hd k (by simp), h.status]
  info := by rw [hi, h.info]

theorem format_request (b : B) (sector : Nat) (write : Bool) {i j k : Nat} (h : [i, j, k].Nodup) :
    (d.format b sector write i j k).Request b i j k := by
  simp only [List.nodup_cons, List.mem_cons, List.not_mem_nil, or_false, not_or, not_false_eq_true, List.nodup_nil, and_true] at h
  obtain ⟨⟨hij, hik⟩, hjk⟩ := h
  have hi : (d.format b sector write i j k).desc i = ⟨.op i, 16, VRING_DESC_F_NEXT, j⟩ := by
    simp [format, Function.update_of_ne, hij, hik]
  have hj : (d.format b sector write i j k).desc j =
      ⟨.data b, 1024, (if write then 0 else VRING_DESC_F_WRITE) ||| VRING_DESC_F_NEXT, k⟩ := by
    simp [format, Function.update_of_ne, hjk]
  have hk : (d.format b sector write i j k).desc k = ⟨.status i, 1, VRING_DESC_F_WRITE, 0⟩ := by simp [format]
  refine ⟨⟨?_, ?_, ?_, ?_, ?_⟩, ?_, ?_, ?_⟩
  · rw [hi]
    simp [Desc.hasNext, VRING_DESC_F_NEXT]
  · rw [hi]
  · rw [hj]
    cases write <;> simp [Desc.hasNext, VRING_DESC_F_NEXT, VRING_DESC_F_WRITE]
  · rw [hj]
  · show Desc.hasNext _ = false
    rw [hk]
    simp [Desc.hasNext, VRING_DESC_F_NEXT, VRING_DESC_F_WRITE]
  · rw [hj]
  · rw [hk]
  · simp [format]

theorem allocDesc_spec {i : Nat} {d' : Disk B} (h : d.allocDesc = some (i, d')) :
    i < NUM ∧ d.free i = true ∧ d' = { d with free := update d.free i false } := by
  unfold allocDesc at h
  rw [Option.map_eq_some_iff] at h
  obtain ⟨x, hx, h⟩ := h
  cases h
  exact ⟨List.mem_range.1 (List.mem_of_find?_eq_some hx), by simpa using List.find?_some hx, rfl⟩

theorem freeDesc_ok {i : Nat} (hi : i < NUM) (hf : d.free i = false) :
    d.freeDesc i = .ok { d with desc := update d.desc i ⟨.null, 0, 0, 0⟩, free := update d.free i true } := by
  rw [freeDesc, if_neg (by omega), hf]
  rfl

end Disk

/-! ### Locks -/

/-- The points that only the holder of `vdisk_lock` is at. -/
structure Locks (lock : Option (T ⊕ Fin NCPU)) (rw : T → RwPc B) (intr : Fin NCPU → IntrPc) : Prop where
  rw : ∀ t, (rw t).locked = true → lock = some (.inl t)
  intr : ∀ c, (intr c).locked = true → lock = some (.inr c)

namespace Locks

variable {lock : Option (T ⊕ Fin NCPU)} {rw : T → RwPc B} {intr : Fin NCPU → IntrPc}

theorem setRw [DecidableEq T] (h : Locks lock rw intr) {t : T} {x : RwPc B} (hx : x.locked = (rw t).locked) : Locks lock (update rw t x) intr := by
  refine ⟨fun u hu => ?_, h.intr⟩
  by_cases hut : u = t
  · subst hut
    rw [Function.update_self, hx] at hu
    exact h.rw u hu
  · rw [Function.update_of_ne hut] at hu
    exact h.rw u hu

theorem acquireRw [DecidableEq T] (h : Locks none rw intr) (t : T) (x : RwPc B) : Locks (some (.inl t)) (update rw t x) intr := by
  refine ⟨fun u hu => ?_, fun c hc => nomatch h.intr c hc⟩
  by_cases hut : u = t
  · rw [hut]
  · rw [Function.update_of_ne hut] at hu
    exact nomatch h.rw u hu

theorem releaseRw [DecidableEq T] (h : Locks lock rw intr) {t : T} {x : RwPc B} (ht : (rw t).locked = true) (hx : x.locked = false) :
    Locks none (update rw t x) intr := by
  have hl := h.rw t ht
  refine ⟨fun u hu => ?_, fun c hc => nomatch hl.symm.trans (h.intr c hc)⟩
  by_cases hut : u = t
  · subst hut
    rw [Function.update_self, hx] at hu
    cases hu
  · rw [Function.update_of_ne hut] at hu
    cases hl.symm.trans (h.rw u hu)
    exact absurd rfl hut

theorem setIntr (h : Locks lock rw intr) {c : Fin NCPU} {x : IntrPc} (hx : x.locked = (intr c).locked) :
    Locks lock rw (update intr c x) := by
  refine ⟨h.rw, fun e he => ?_⟩
  by_cases hec : e = c
  · subst hec
    rw [Function.update_self, hx] at he
    exact h.intr e he
  · rw [Function.update_of_ne hec] at he
    exact h.intr e he

theorem acquireIntr (h : Locks none rw intr) (c : Fin NCPU) (x : IntrPc) : Locks (some (.inr c)) rw (update intr c x) := by
  refine ⟨fun t ht => (nomatch h.rw t ht), fun e he => ?_⟩
  by_cases hec : e = c
  · rw [hec]
  · rw [Function.update_of_ne hec] at he
    exact nomatch h.intr e he

theorem releaseIntr (h : Locks lock rw intr) {c : Fin NCPU} {x : IntrPc} (hc : (intr c).locked = true) (hx : x.locked = false) :
    Locks none rw (update intr c x) := by
  have hl := h.intr c hc
  refine ⟨fun t ht => (nomatch hl.symm.trans (h.rw t ht)), fun e he => ?_⟩
  by_cases hec : e = c
  · subst hec
    rw [Function.update_self, hx] at he
    cases he
  · rw [Function.update_of_ne hec] at he
    cases hl.symm.trans (h.intr e he)
    exact absurd rfl hec

end Locks

/-! ### Descriptors of the processes -/

/-- The processes hold disjoint descriptors, all others are free, and their calls are on different buffers. -/
structure Own (free : Nat → Bool) (rw : T → RwPc B) : Prop where
  lt : ∀ t, ∀ i ∈ (rw t).chain, i < NUM
  nodup : ∀ t, (rw t).chain.Nodup
  disjoint : ∀ t u i, i ∈ (rw t).chain → i ∈ (rw u).chain → t = u
  free : ∀ i < NUM, free i = true ↔ ∀ t, i ∉ (rw t).chain
  buf : ∀ t u b, (rw t).buf = some b → (rw u).buf = some b → t = u

namespace Own

variable {free : Nat → Bool} {rw : T → RwPc B}

theorem free_eq_false (h : Own free rw) {t : T} {i : Nat} (hi : i ∈ (rw t).chain) : free i = false := by
  cases hf : free i with
  | false => rfl
  | true => exact absurd hi ((h.free i (h.lt t i hi)).1 hf t)

theorem not_mem (h : Own free rw) {t u : T} {i : Nat} (hi : i ∈ (rw t).chain) (hut : u ≠ t) : i ∉ (rw u).chain :=
  fun hu => hut (h.disjoint u t i hu hi)

/-- A process that keeps its buffer, or has none afterwards. -/
theorem other_buf (h : Own free rw) {t : T} {x : RwPc B} (hx : x.buf = (rw t).buf ∨ x.buf = none) (b : B) (hb : x.buf = some b) (u : T)
    (hut : u ≠ t) : (rw u).buf ≠ some b := by
  intro hu
  rcases hx with hx | hx
  · exact hut (h.buf u t b hu (hx ▸ hb))
  · rw [hx] at hb
    cases hb

variable [DecidableEq T]

/-- The buffer of one process is changed to one that no other has. -/
theorem set_buf (h : Own free rw) {t : T} {x : RwPc B} (hb : ∀ b, x.buf = some b → ∀ u, u ≠ t → (rw u).buf ≠ some b) (u v : T) (b : B)
    (hu : (update rw t x u).buf = some b) (hv : (update rw t x v).buf = some b) : u = v := by
  by_cases hut : u = t <;> by_cases hvt : v = t
  · rw [hut, hvt]
  · subst hut
    rw [Function.update_self] at hu
    rw [Function.update_of_ne hvt] at hv
    exact absurd hv (hb b hu v hvt)
  · subst hvt
    rw [Function.update_self] at hv
    rw [Function.update_of_ne hut] at hu
    exact absurd hu (hb b hv u hut)
  · rw [Function.update_of_ne hut] at hu
    rw [Function.update_of_ne hvt] at hv
    exact h.buf u v b hu hv

theorem set (h : Own free rw) {t : T} {x : RwPc B} (hc : x.chain = (rw t).chain)
    (hb : ∀ b, x.buf = some b → ∀ u, u ≠ t → (rw u).buf ≠ some b) : Own free (update rw t x) := by
  have hch (u : T) : (update rw t x u).chain = (rw u).chain := by
    by_cases hut : u = t
    · subst hut
      rw [Function.update_self, hc]
    · rw [Function.update_of_ne hut]
  refine ⟨?_, ?_, ?_, ?_, h.set_buf hb⟩
  · simpa only [hch] using h.lt
  · simpa only [hch] using h.nodup
  · simpa only [hch] using h.disjoint
  · simpa only [hch] using h.free

/-- A free descriptor is allocated. -/
theorem grow (h : Own free rw) {t : T} {x : RwPc B} {i : Nat} (hi : i < NUM) (hf : free i = true) (hc : x.chain = (rw t).chain ++ [i])
    (hb : x.buf = (rw t).buf) : Own (update free i false) (update rw t x) := by
  have hno := (h.free i hi).1 hf
  have hmem (u : T) (j : Nat) : j ∈ (update rw t x u).chain ↔ j ∈ (rw u).chain ∨ u = t ∧ j = i := by
    by_cases hut : u = t
    · subst hut
      simp [hc]
    · simp [hut]
  refine ⟨fun u j hj => ?_, fun u => ?_, fun u v j hu hv => ?_, fun j hj => ?_, h.set_buf (h.other_buf (.inl hb))⟩
  · rcases (hmem u j).1 hj with hj | ⟨-, rfl⟩
    · exact h.lt u j hj
    · exact hi
  · by_cases hut : u = t
    · subst hut
      rw [Function.update_self, hc]
      exact (h.nodup u).append (List.nodup_singleton i) (List.disjoint_singleton.2 (hno u))
    · rw [Function.update_of_ne hut]
      exact h.nodup u
  · rcases (hmem u j).1 hu with hu | ⟨hut, hj⟩ <;> rcases (hmem v j).1 hv with hv | ⟨hvt, hj'⟩
    · exact h.disjoint u v j hu hv
    · exact absurd hu (hj' ▸ hno u)
    · exact absurd hv (hj ▸ hno v)
    · rw [hut, hvt]
  · by_cases hji : j = i
    · subst hji
      rw [Function.update_self]
      exact ⟨fun hf => (nomatch hf), fun hn => absurd ((hmem t j).2 (.inr ⟨rfl, rfl⟩)) (hn t)⟩
    · rw [Function.update_of_ne hji, h.free j hj]
      simp only [hmem, hji, and_false, or_false]

/-- The first descriptor of a chain is freed. -/
theorem shrink (h : Own free rw) {t : T} {x : RwPc B} {i : Nat} (hc : (rw t).chain = i :: x.chain) (hb : x.buf = (rw t).buf) :
    Own (update free i true) (update rw t x) := by
  have hi : i ∈ (rw t).chain := by simp [hc]
  have hnd := h.nodup t
  rw [hc, List.nodup_cons] at hnd
  have hmem (u : T) (j : Nat) : j ∈ (update rw t x u).chain ↔ j ∈ (rw u).chain ∧ j ≠ i := by
    by_cases hut : u = t
    · subst hut
      rw [Function.update_self, hc, List.mem_cons]
      constructor
      · intro hj
        exact ⟨.inr hj, fun hji => hnd.1 (hji ▸ hj)⟩
      · rintro ⟨hj | hj, hji⟩
        · exact absurd hj hji
        · exact hj
    · rw [Function.update_of_ne hut]
      exact ⟨fun hj => ⟨hj, fun hji => h.not_mem hi hut (hji ▸ hj)⟩, fun hj => hj.1⟩
  refine ⟨fun u j hj => h.lt u j ((hmem u j).1 hj).1, fun u => ?_,
    fun u v j hu hv => h.disjoint u v j ((hmem u j).1 hu).1 ((hmem v j).1 hv).1, fun j hj => ?_, h.set_buf (h.other_buf (.inl hb))⟩
  · by_cases hut : u = t
    · subst hut
      rw [Function.update_self]
      exact hnd.2
    · rw [Function.update_of_ne hut]
      exact h.nodup u
  · by_cases hji : j = i
    · subst hji
      rw [Function.update_self]
      exact ⟨fun _ u hu => ((hmem u j).1 hu).2 rfl, fun _ => rfl⟩
    · rw [Function.update_of_ne hji, h.free j hj]
      simp only [hmem, ne_eq, hji, not_false_eq_true, and_true]

end Own

/-! ### What the descriptors say -/

/-- The descriptors of a process that has formatted them. -/
def RwPc.Ok (d : Disk B) (flag : B → Bool) : RwPc B → Prop
  | ring b i j k | publish b i j k => d.Request b i j k ∧ flag b = true
  | wait b i j k | asleep b i j k => d.Request b i j k
  | free _ i rest => d.Links (i :: rest)
  | _ => True

/-- A process's descriptors depend on nothing else. -/
theorem RwPc.Ok.congr {d d' : Disk B} {flag flag' : B → Bool} {x : RwPc B} (h : x.Ok d flag) (hd : ∀ i ∈ x.chain, d'.desc i = d.desc i)
    (hi : ∀ i ∈ x.chain, (d'.info i).b = (d.info i).b) (hf : ∀ b, x.buf = some b → x.waiting = none → flag' b = flag b) :
    x.Ok d' flag' := by
  cases x with
  | ring b i j k | publish b i j k => exact ⟨h.1.congr hd (hi i (by simp [chain])), (hf b rfl rfl).trans h.2⟩
  | wait b i j k | asleep b i j k => exact Disk.Request.congr h hd (hi i (by simp [chain]))
  | free b i rest => exact Disk.links_congr hd h
  | _ => trivial

/-- The step of one process. -/
theorem ok_set [DecidableEq T] {d d' : Disk B} {flag flag' : B → Bool} {rw : T → RwPc B} (h : ∀ t, (rw t).Ok d flag) {t : T} {x : RwPc B}
    (hx : x.Ok d' flag') (hd : ∀ u, u ≠ t → ∀ i ∈ (rw u).chain, d'.desc i = d.desc i)
    (hi : ∀ u, u ≠ t → ∀ i ∈ (rw u).chain, (d'.info i).b = (d.info i).b)
    (hf : ∀ u, u ≠ t → ∀ b, (rw u).buf = some b → flag' b = flag b) (u : T) : (update rw t x u).Ok d' flag' := by
  by_cases hut : u = t
  · subst hut
    rwa [Function.update_self]
  · rw [Function.update_of_ne hut]
    exact (h u).congr (hd u hut) (hi u hut) fun b hb _ => hf u hut b hb

/-! ### The requests with the device -/

/-- Entries that the device has not seen. -/
def unseen (d : Disk B) (dev : Dev) : List Nat := Ring.window NUM W d.avail.ring dev.lastAvail d.avail.idx

/-- Entries that the handler has not dealt with. -/
def unhandled (d : Disk B) : List Nat := Ring.window NUM W d.used.ring d.usedIdx d.used.idx

/-- The heads of the chains with the device or in a ring. -/
def heads (d : Disk B) (dev : Dev) : Multiset Nat :=
  (unseen d dev : Multiset Nat) + dev.started + dev.finished + dev.adding.toList + unhandled d

/-- A process waits for `b` with the head `i`, and the flag is set. -/
def Waits (rw : T → RwPc B) (flag : B → Bool) (b : B) (i : Nat) : Prop := ∃ t, (rw t).waiting = some (b, i) ∧ flag b = true

structure Flight (d : Disk B) (flag : B → Bool) (rw : T → RwPc B) (intr : Fin NCPU → IntrPc) (dev : Dev) : Prop where
  lastAvail : dev.lastAvail < W
  avail : d.avail.idx < W
  usedIdx : d.usedIdx < W
  used : d.used.idx < W
  nodup : (heads d dev).Nodup
  mem : ∀ i, i ∈ heads d dev ↔ ∃ b, Waits rw flag b i
  status : ∀ i, i ∈ dev.finished ∨ dev.adding = some i ∨ i ∈ unhandled d → (d.info i).status = 0
  publish : ∀ t b i j k, rw t = .publish b i j k → d.avail.ring (d.avail.idx % NUM) = i
  adding : ∀ i, dev.adding = some i → d.used.ring (d.used.idx % NUM) = i
  fetch : ∀ c, intr c = .fetch → unhandled d ≠ []
  entry : ∀ c id, intr c = .entry id → ∃ l, unhandled d = id :: l

structure Inv (s : Sys T B) : Prop where
  locks : Locks s.lock s.rw s.intr
  own : Own s.disk.free s.rw
  ok : ∀ t, (s.rw t).Ok s.disk s.b
  flight : Flight s.disk s.b s.rw s.intr s.dev

theorem RwPc.waiting_chain {x : RwPc B} {b : B} {i : Nat} (h : x.waiting = some (b, i)) : i ∈ x.chain := by
  cases x with
  | wait c j k l | asleep c j k l =>
    cases h
    exact List.mem_cons_self ..
  | _ => cases h

theorem RwPc.waiting_buf {x : RwPc B} {b : B} {i : Nat} (h : x.waiting = some (b, i)) : x.buf = some b := by
  cases x with
  | wait c j k l | asleep c j k l =>
    cases h
    rfl
  | _ => cases h

theorem RwPc.Ok.request {d : Disk B} {flag : B → Bool} {x : RwPc B} {b : B} {i : Nat} (h : x.Ok d flag) (hw : x.waiting = some (b, i)) :
    ∃ j k, d.Request b i j k := by
  cases x with
  | wait c l j k | asleep c l j k =>
    cases hw
    exact ⟨j, k, h⟩
  | _ => cases hw

/-- A step of a process that leaves the rings and the flags of the others alone. -/
theorem Flight.set [DecidableEq T] {d d' : Disk B} {flag flag' : B → Bool} {rw : T → RwPc B} {intr : Fin NCPU → IntrPc} {dev : Dev}
    (h : Flight d flag rw intr dev) {t : T} {x : RwPc B} (ha : d'.avail = d.avail) (hu : d'.used = d.used) (hs : d'.usedIdx = d.usedIdx)
    (hi : ∀ i ∈ heads d dev, (d'.info i).status = (d.info i).status)
    (hm : ∀ b i, Waits (update rw t x) flag' b i ↔ Waits rw flag b i)
    (hp : ∀ b i j k, x ≠ .publish b i j k) : Flight d' flag' (update rw t x) intr dev := by
  have hn : unseen d' dev = unseen d dev := by rw [unseen, ha, unseen]
  have hd : unhandled d' = unhandled d := by rw [unhandled, hu, hs, unhandled]
  have hh : heads d' dev = heads d dev := by rw [heads, hn, hd, heads]
  refine ⟨h.lastAvail, ha ▸ h.avail, hs ▸ h.usedIdx, hu ▸ h.used, hh ▸ h.nodup, fun i => ?_, fun i him => ?_, fun u b i j k hu => ?_, ?_, ?_, ?_⟩
  · simp only [hh, h.mem, hm]
  · rw [hd] at him
    rw [hi i ?_, h.status i him]
    simp only [heads, Multiset.mem_add, Multiset.mem_coe, Option.mem_toList]
    rcases him with him | him | him <;> simp [him]
  · rw [ha]
    by_cases hut : u = t
    · subst hut
      rw [Function.update_self] at hu
      exact absurd hu (hp b i j k)
    · rw [Function.update_of_ne hut] at hu
      exact h.publish u b i j k hu
  · rw [hu]
    exact h.adding
  · rw [hd]
    exact h.fetch
  · rw [hd]
    exact h.entry

/-- A process that waits before and after, or neither. -/
theorem waits_set [DecidableEq T] {f : T → RwPc B} {t : T} {x : RwPc B} (h : x.waiting = (f t).waiting) (flag : B → Bool) (b : B)
    (i : Nat) : Waits (update f t x) flag b i ↔ Waits f flag b i := by
  have hu (u : T) : (update f t x u).waiting = (f u).waiting := by
    by_cases hut : u = t
    · subst hut
      rw [Function.update_self, h]
    · rw [Function.update_of_ne hut]
  simp only [Waits, hu]

namespace Inv

variable {s : Sys T B}

/-- Whose head it is. -/
theorem head (h : Inv s) {i : Nat} (hi : i ∈ heads s.disk s.dev) :
    ∃ t b, (s.rw t).waiting = some (b, i) ∧ s.b b = true ∧ ∃ j k, s.disk.Request b i j k := by
  obtain ⟨b, t, hw, hb⟩ := (h.flight.mem i).1 hi
  exact ⟨t, b, hw, hb, (h.ok t).request hw⟩

/-- The descriptors of a process that does not wait are not the head of a chain with the device. -/
theorem not_head (h : Inv s) {t : T} (ht : (s.rw t).waiting = none) {i : Nat} (hi : i ∈ (s.rw t).chain) : i ∉ heads s.disk s.dev := by
  intro hh
  obtain ⟨b, u, hw, -⟩ := (h.flight.mem i).1 hh
  have hut := h.own.disjoint u t i (RwPc.waiting_chain hw) hi
  rw [← hut, hw] at ht
  cases ht

theorem head_lt (h : Inv s) {i : Nat} (hi : i ∈ heads s.disk s.dev) : i < NUM := by
  obtain ⟨b, t, hw, -⟩ := (h.flight.mem i).1 hi
  exact h.own.lt t i (RwPc.waiting_chain hw)

/-- There are fewer than `NUM` chains beside one that is not with the device. -/
theorem card_lt (h : Inv s) {i : Nat} (hi : i < NUM) (hh : i ∉ heads s.disk s.dev) : (heads s.disk s.dev).card < NUM := by
  have hnd : (i ::ₘ heads s.disk s.dev).Nodup := Multiset.nodup_cons.2 ⟨hh, h.flight.nodup⟩
  have hle : i ::ₘ heads s.disk s.dev ≤ Multiset.range NUM := by
    rw [Multiset.le_iff_subset hnd]
    intro j hj
    rw [Multiset.mem_range]
    rcases Multiset.mem_cons.1 hj with rfl | hj
    · exact hi
    · exact h.head_lt hj
  have := Multiset.card_le_card hle
  rw [Multiset.card_cons, Multiset.card_range] at this
  omega

theorem card_le (h : Inv s) : (heads s.disk s.dev).card ≤ NUM := by
  have hle : heads s.disk s.dev ≤ Multiset.range NUM := by
    rw [Multiset.le_iff_subset h.flight.nodup]
    exact fun j hj => Multiset.mem_range.2 (h.head_lt hj)
  have := Multiset.card_le_card hle
  rwa [Multiset.card_range] at this

theorem card_heads (d : Disk B) (dev : Dev) : (heads d dev).card =
    (unseen d dev).length + dev.started.length + dev.finished.length + dev.adding.toList.length + (unhandled d).length := by
  simp [heads, Nat.add_assoc]

/-- A place of the available ring is free for a process that does not wait. -/
theorem unseen_lt (h : Inv s) {t : T} (ht : (s.rw t).waiting = none) {i : Nat} (hi : i ∈ (s.rw t).chain) :
    Ring.count W s.dev.lastAvail s.disk.avail.idx < NUM := by
  have hc := h.card_lt (h.own.lt t i hi) (h.not_head ht hi)
  rw [card_heads] at hc
  have hl : (unseen s.disk s.dev).length = _ := Ring.length_window _
  omega

end Inv

/-! ### Steps of the processes -/

namespace Inv

variable [DecidableEq T] {s : Sys T B} {t : T}

/-- A step that changes only who has the lock. -/
theorem lock_step (h : Inv s) {x : RwPc B} {lock : Option (T ⊕ Fin NCPU)} (hl : Locks lock (update s.rw t x) s.intr)
    (hc : x.chain = (s.rw t).chain) (hb : x.buf = (s.rw t).buf ∨ x.buf = none) (hx : x.Ok s.disk s.b)
    (hw : x.waiting = (s.rw t).waiting) (hp : ∀ b i j k, x ≠ .publish b i j k) : Inv ({ s with lock := lock }.setRw t x) where
  locks := hl
  own := h.own.set hc (h.own.other_buf hb)
  ok := ok_set h.ok hx (fun _ _ _ _ => rfl) (fun _ _ _ _ => rfl) fun _ _ _ _ => rfl
  flight := h.flight.set rfl rfl rfl (fun _ _ => rfl) (waits_set hw s.b) hp

/-- A step of a process that does not wait, on its own descriptors. -/
theorem own_step (h : Inv s) {x : RwPc B} {d : Disk B} (hl : x.locked = (s.rw t).locked) (ho : Own d.free (update s.rw t x))
    (hx : x.Ok d s.b) (hd : ∀ i, i ∉ (s.rw t).chain → d.desc i = s.disk.desc i) (ha : d.avail = s.disk.avail) (hu : d.used = s.disk.used)
    (hs : d.usedIdx = s.disk.usedIdx) (hi : d.info = s.disk.info) (hw : x.waiting = none) (ht : (s.rw t).waiting = none)
    (hp : ∀ b i j k, x ≠ .publish b i j k) : Inv ({ s with disk := d }.setRw t x) where
  locks := h.locks.setRw hl
  own := ho
  ok := ok_set h.ok hx (fun u hut i hiu => hd i fun hit => hut (h.own.disjoint u t i hiu hit)) (fun _ _ _ _ => congrArg Info.b (congrFun hi _))
    fun _ _ _ _ => rfl
  flight := h.flight.set ha hu hs (fun i _ => congrArg Info.status (congrFun hi i)) (waits_set (hw.trans ht.symm) s.b) hp

theorem alloc_step (h : Inv s) {r : Req B} {idx : List Nat} (ht : s.rw t = .alloc r idx) : Inv (s.allocStep t r idx) := by
  have hw : (s.rw t).waiting = none := by rw [ht]; rfl
  have hl : (s.rw t).locked = true := by rw [ht]; rfl
  have hc : (s.rw t).chain = idx := by rw [ht]; rfl
  have hb : (s.rw t).buf = some r.b := by rw [ht]; rfl
  unfold Sys.allocStep
  split
  · exact h.lock_step (h.locks.setRw hl.symm) hc.symm (.inl hb.symm) trivial hw.symm fun _ _ _ _ hx => nomatch hx
  · split
    · rename_i i d hd
      obtain ⟨hi, hf, rfl⟩ := Disk.allocDesc_spec hd
      refine h.own_step hl.symm (h.own.grow hi hf ?_ hb.symm) trivial (fun _ _ => rfl) rfl rfl rfl rfl rfl hw fun _ _ _ _ hx => nomatch hx
      rw [hc]
      rfl
    · exact h.lock_step (h.locks.setRw hl.symm) hc.symm (.inl hb.symm) trivial hw.symm fun _ _ _ _ hx => nomatch hx

theorem undo_step (h : Inv s) {r : Req B} {i : Nat} {idx : List Nat} (ht : s.rw t = .undo r (i :: idx)) :
    ∃ d, s.disk.freeDesc i = .ok d ∧ Inv ({ s with disk := d }.setRw t (.undo r idx)) := by
  have hw : (s.rw t).waiting = none := by rw [ht]; rfl
  have hc : (s.rw t).chain = i :: idx := by rw [ht]; rfl
  have hi : i ∈ (s.rw t).chain := by simp [hc]
  refine ⟨_, Disk.freeDesc_ok (h.own.lt t i hi) (h.own.free_eq_false hi), ?_⟩
  refine h.own_step (by rw [ht]; rfl) (h.own.shrink hc (by rw [ht]; rfl)) trivial (fun j hj => ?_) rfl rfl rfl rfl rfl hw fun _ _ _ _ hx => nomatch hx
  exact Function.update_of_ne (ne_of_mem_of_not_mem hi hj).symm _ _

theorem free_step (h : Inv s) {b : B} {i : Nat} {rest : List Nat} (ht : s.rw t = .free b i rest) :
    ∃ s', s.freeStep t b i rest = .ok s' ∧ Inv s' := by
  have hw : (s.rw t).waiting = none := by rw [ht]; rfl
  have hl : (s.rw t).locked = true := by rw [ht]; rfl
  have hc : (s.rw t).chain = i :: rest := by rw [ht]; rfl
  have hb : (s.rw t).buf = some b := by rw [ht]; rfl
  have hi : i ∈ (s.rw t).chain := by simp [hc]
  have hok : s.disk.Links (i :: rest) := by
    have := h.ok t
    rwa [ht] at this
  have hnd := h.own.nodup t
  rw [hc, List.nodup_cons] at hnd
  have hd (j : Nat) (hj : j ∉ (s.rw t).chain) : update s.disk.desc i ⟨.null, 0, 0, 0⟩ j = s.disk.desc j :=
    Function.update_of_ne (ne_of_mem_of_not_mem hi hj).symm _ _
  simp only [Sys.freeStep, Disk.freeDesc_ok (h.own.lt t i hi) (h.own.free_eq_false hi)]
  refine ⟨_, rfl, ?_⟩
  cases rest with
  | nil =>
    have hn : (s.disk.desc i).hasNext = false := hok
    simp only [hn, Bool.false_eq_true, if_false]
    exact h.own_step hl.symm (h.own.shrink hc hb.symm) trivial hd rfl rfl rfl rfl rfl hw fun _ _ _ _ hx => nomatch hx
  | cons j rest =>
    obtain ⟨hn, hj, hrest⟩ := hok
    simp only [hn, if_true, hj, List.tail_cons]
    refine h.own_step hl.symm (h.own.shrink hc hb.symm) ?_ hd rfl rfl rfl rfl rfl hw fun _ _ _ _ hx => nomatch hx
    refine Disk.links_congr (fun k hk => ?_) hrest
    exact Function.update_of_ne (ne_of_mem_of_not_mem hk hnd.1) _ _

theorem ring_step (h : Inv s) {b : B} {i j k : Nat} (ht : s.rw t = .ring b i j k) :
    Inv ({ s with disk := s.disk.putAvail i }.setRw t (.publish b i j k)) := by
  have hw : (s.rw t).waiting = none := by rw [ht]; rfl
  have hl : (s.rw t).locked = true := by rw [ht]; rfl
  have hc : (s.rw t).chain = [i, j, k] := by rw [ht]; rfl
  have hb : (s.rw t).buf = some b := by rw [ht]; rfl
  have hok : s.disk.Request b i j k ∧ s.b b = true := by
    have := h.ok t
    rwa [ht] at this
  have hlt := h.unseen_lt hw (i := i) (by simp [hc])
  refine ⟨h.locks.setRw hl.symm, h.own.set hc.symm (h.own.other_buf (.inl hb.symm)),
    ok_set h.ok ⟨hok.1.congr (fun _ _ => rfl) rfl, hok.2⟩ (fun _ _ _ _ => rfl) (fun _ _ _ _ => rfl) fun _ _ _ _ => rfl, ?_⟩
  have hn : unseen (s.disk.putAvail i) s.dev = unseen s.disk s.dev :=
    Ring.window_write (by decide) h.flight.lastAvail h.flight.avail hlt _ i
  have hh : heads (s.disk.putAvail i) s.dev = heads s.disk s.dev := by
    rw [heads, hn]
    rfl
  show Flight (s.disk.putAvail i) s.b (update s.rw t (.publish b i j k)) s.intr s.dev
  refine { h.flight with nodup := hh ▸ h.flight.nodup, mem := fun l => ?_, publish := fun u c i' j' k' hu => ?_ }
  · simp only [hh, h.flight.mem, waits_set (x := .publish b i j k) hw.symm]
  · by_cases hut : u = t
    · subst hut
      rw [Function.update_self] at hu
      cases hu
      exact Function.update_self ..
    · -- nobody else is there, as it has no lock
      rw [Function.update_of_ne hut] at hu
      cases (h.locks.rw t hl).symm.trans (h.locks.rw u (by rw [hu]; rfl))
      exact absurd rfl hut

/-- One more process waits. -/
theorem waits_publish (h : Inv s) {b : B} {i j k : Nat} (ht : s.rw t = .publish b i j k) (c : B) (l : Nat) :
    Waits (update s.rw t (.wait b i j k)) s.b c l ↔ Waits s.rw s.b c l ∨ c = b ∧ l = i := by
  have hok : s.disk.Request b i j k ∧ s.b b = true := by
    have := h.ok t
    rwa [ht] at this
  constructor
  · rintro ⟨u, hu, hc⟩
    by_cases hut : u = t
    · subst hut
      rw [Function.update_self] at hu
      cases hu
      exact .inr ⟨rfl, rfl⟩
    · rw [Function.update_of_ne hut] at hu
      exact .inl ⟨u, hu, hc⟩
  · rintro (⟨u, hu, hc⟩ | ⟨rfl, rfl⟩)
    · have hut : u ≠ t := by
        rintro rfl
        rw [ht] at hu
        cases hu
      exact ⟨u, by rwa [Function.update_of_ne hut], hc⟩
    · exact ⟨t, by rw [Function.update_self]; rfl, hok.2⟩

theorem publish_step (h : Inv s) {b : B} {i j k : Nat} (ht : s.rw t = .publish b i j k) :
    Inv ({ s with disk := s.disk.bumpAvail }.setRw t (.wait b i j k)) := by
  have hw : (s.rw t).waiting = none := by rw [ht]; rfl
  have hl : (s.rw t).locked = true := by rw [ht]; rfl
  have hc : (s.rw t).chain = [i, j, k] := by rw [ht]; rfl
  have hb : (s.rw t).buf = some b := by rw [ht]; rfl
  have hi : i ∈ (s.rw t).chain := by simp [hc]
  have hok : s.disk.Request b i j k ∧ s.b b = true := by
    have := h.ok t
    rwa [ht] at this
  have hlt := h.unseen_lt hw hi
  refine ⟨h.locks.setRw hl.symm, h.own.set hc.symm (h.own.other_buf (.inl hb.symm)),
    ok_set h.ok (hok.1.congr (fun _ _ => rfl) rfl) (fun _ _ _ _ => rfl) (fun _ _ _ _ => rfl) fun _ _ _ _ => rfl, ?_⟩
  have hn : unseen s.disk.bumpAvail s.dev = unseen s.disk s.dev ++ [i] := by
    rw [← h.flight.publish t b i j k ht]
    refine Ring.window_push (by decide) h.flight.lastAvail h.flight.avail ?_ _
    have hW : NUM + 1 < W := by decide
    omega
  have hh : heads s.disk.bumpAvail s.dev = i ::ₘ heads s.disk s.dev := by
    rw [heads, hn, ← Multiset.coe_add, Multiset.coe_singleton, Multiset.add_comm _ {i}, Multiset.singleton_add]
    simp only [Multiset.cons_add]
    rfl
  show Flight s.disk.bumpAvail s.b (update s.rw t (.wait b i j k)) s.intr s.dev
  refine { h.flight with avail := Nat.mod_lt _ (by decide), nodup := ?_, mem := fun l => ?_, publish := fun u c i' j' k' hu => ?_ }
  · rw [hh, Multiset.nodup_cons]
    exact ⟨h.not_head hw hi, h.flight.nodup⟩
  · simp only [hh, Multiset.mem_cons, h.flight.mem, h.waits_publish ht]
    constructor
    · rintro (rfl | ⟨c, hc⟩)
      · exact ⟨b, .inr ⟨rfl, rfl⟩⟩
      · exact ⟨c, .inl hc⟩
    · rintro ⟨c, hc | hc⟩
      · exact .inr ⟨c, hc⟩
      · exact .inl hc.2
  · by_cases hut : u = t
    · subst hut
      rw [Function.update_self] at hu
      cases hu
    · rw [Function.update_of_ne hut] at hu
      cases (h.locks.rw t hl).symm.trans (h.locks.rw u (by rw [hu]; rfl))
      exact absurd rfl hut

/-- The process did not wait any more. -/
theorem waits_done {b : B} {i j k : Nat} (ht : s.rw t = .wait b i j k) (hf : s.b b = false) (c : B) (l : Nat) :
    Waits (update s.rw t (.free b i [j, k])) s.b c l ↔ Waits s.rw s.b c l := by
  constructor
  · rintro ⟨u, hu, hc⟩
    by_cases hut : u = t
    · subst hut
      rw [Function.update_self] at hu
      cases hu
    · rw [Function.update_of_ne hut] at hu
      exact ⟨u, hu, hc⟩
  · rintro ⟨u, hu, hc⟩
    have hut : u ≠ t := by
      rintro rfl
      rw [ht] at hu
      cases hu
      rw [hf] at hc
      cases hc
    exact ⟨u, by rwa [Function.update_of_ne hut], hc⟩

/-- The flag was cleared, and the chain is to be freed. -/
theorem done_step (h : Inv s) {b : B} {i j k : Nat} (ht : s.rw t = .wait b i j k) (hf : s.b b = false) :
    Inv ({ s with disk := s.disk.dropInfo i }.setRw t (.free b i [j, k])) := by
  have hc : (s.rw t).chain = [i, j, k] := by rw [ht]; rfl
  have hb : (s.rw t).buf = some b := by rw [ht]; rfl
  have hok : s.disk.Request b i j k := by
    have := h.ok t
    rwa [ht] at this
  refine ⟨h.locks.setRw (by rw [ht]; rfl), h.own.set hc.symm (h.own.other_buf (.inl hb.symm)), ?_, ?_⟩
  · refine ok_set h.ok (Disk.links_congr (fun _ _ => rfl) hok.links) (fun _ _ _ _ => rfl) (fun u hut l hl => ?_) fun _ _ _ _ => rfl
    have hli : l ≠ i := by
      rintro rfl
      exact hut (h.own.disjoint u t _ hl (by simp [hc]))
    exact congrArg Info.b (Function.update_of_ne hli _ _)
  · refine h.flight.set rfl rfl rfl (fun l hl => ?_) (waits_done ht hf) fun _ _ _ _ hx => nomatch hx
    · by_cases hli : l = i
      · subst hli
        simp [Disk.dropInfo]
      · exact congrArg Info.status (Function.update_of_ne hli _ _)

variable [DecidableEq B]

/-- A flag that belongs to a process which does not wait does not matter for those who do. -/
theorem waits_flag (h : Inv s) {x : RwPc B} (hx : x.waiting = none) (ht : (s.rw t).waiting = none) {b : B} (hb : (s.rw t).buf = some b)
    (y : Bool) (c : B) (i : Nat) : Waits (update s.rw t x) (update s.b b y) c i ↔ Waits s.rw s.b c i := by
  rw [waits_set (hx.trans ht.symm)]
  have hne {u : T} (hu : (s.rw u).waiting = some (c, i)) : update s.b b y c = s.b c := by
    refine Function.update_of_ne ?_ _ _
    rintro rfl
    have hut := h.own.buf u t c (RwPc.waiting_buf hu) hb
    rw [hut, ht] at hu
    cases hu
  constructor
  · rintro ⟨u, hu, hc⟩
    exact ⟨u, hu, hne hu ▸ hc⟩
  · rintro ⟨u, hu, hc⟩
    exact ⟨u, hu, (hne hu).trans hc⟩

theorem format_step (h : Inv s) {r : Req B} {i j k : Nat} (ht : s.rw t = .format r i j k) :
    Inv ({ s with disk := s.disk.format r.b r.sector r.write i j k, b := update s.b r.b true }.setRw t (.ring r.b i j k)) := by
  have hw : (s.rw t).waiting = none := by rw [ht]; rfl
  have hc : (s.rw t).chain = [i, j, k] := by rw [ht]; rfl
  have hb : (s.rw t).buf = some r.b := by rw [ht]; rfl
  have hnd := h.own.nodup t
  rw [hc] at hnd
  have hne {u : T} (hut : u ≠ t) {l : Nat} (hl : l ∈ (s.rw u).chain) : l ≠ i ∧ l ≠ j ∧ l ≠ k := by
    refine ⟨?_, ?_, ?_⟩ <;>
    · rintro rfl
      exact hut (h.own.disjoint u t _ hl (by simp [hc]))
  have hhd {l : Nat} (hl : l ∈ heads s.disk s.dev) : l ≠ i := by
    rintro rfl
    exact h.not_head hw (by simp [hc]) hl
  refine ⟨h.locks.setRw (by rw [ht]; rfl), h.own.set hc.symm (h.own.other_buf (.inl hb.symm)), ?_, ?_⟩
  · refine ok_set h.ok ⟨Disk.format_request r.b r.sector r.write hnd, Function.update_self ..⟩ (fun u hut l hl => ?_) (fun u hut l hl => ?_)
      fun u hut c hc => ?_
    · obtain ⟨h1, h2, h3⟩ := hne hut hl
      simp [Disk.format, Function.update_of_ne, h1, h2, h3]
    · simp [Disk.format, Function.update_of_ne, (hne hut hl).1]
    · refine Function.update_of_ne ?_ _ _
      rintro rfl
      exact hut (h.own.buf u t _ hc hb)
  · refine h.flight.set rfl rfl rfl (fun l hl => ?_) (h.waits_flag rfl hw hb true) fun _ _ _ _ hx => nomatch hx
    simp [Disk.format, Function.update_of_ne, hhd hl]

end Inv

end Virtio

end Xv6
