import Xv6.VirtioSpec

/-!
# Steps of the virtio driver

The handler, the device and the processes keep the invariant, and no step panics (`Virtio.Inv.step`).
-/

namespace Xv6

namespace Virtio

open Function (update)

variable {T B : Type} {s : Sys T B}

namespace Inv

/-! ### The device -/

theorem consume_step (h : Inv s) (hne : s.dev.lastAvail ≠ s.disk.avail.idx) :
    Inv { s with dev := { s.dev with
      lastAvail := (s.dev.lastAvail + 1) % W, started := s.disk.avail.ring (s.dev.lastAvail % NUM) :: s.dev.started } } := by
  refine ⟨h.locks, h.own, fun u => (h.ok u).congr (fun _ _ => rfl) (fun _ _ => rfl) fun _ _ _ => rfl, ?_⟩
  have hu : unseen s.disk s.dev = s.disk.avail.ring (s.dev.lastAvail % NUM) :: _ :=
    Ring.window_pop (by decide) h.flight.lastAvail h.flight.avail hne _
  have hh : heads s.disk { s.dev with
      lastAvail := (s.dev.lastAvail + 1) % W, started := s.disk.avail.ring (s.dev.lastAvail % NUM) :: s.dev.started } =
      heads s.disk s.dev := by
    simp only [heads, hu, ← Multiset.cons_coe, Multiset.cons_add, Multiset.add_cons]
    rfl
  exact { h.flight with lastAvail := Nat.mod_lt _ (by decide), nodup := hh ▸ h.flight.nodup, mem := fun i => by rw [hh, h.flight.mem] }

/-- An element is moved to the front of another list. -/
theorem coe_erase {l : List Nat} {i : Nat} (hi : i ∈ l) : (l : Multiset Nat) = i ::ₘ (l.erase i : Multiset Nat) := by
  rw [Multiset.cons_coe]
  exact Multiset.coe_eq_coe.2 (List.perm_cons_erase hi)

theorem finish_step (h : Inv s) {i : Nat} (hi : i ∈ s.dev.started) : s.disk.statusOf i = some i ∧
    Inv { s with
      disk := s.disk.setStatus i
      dev := { s.dev with started := s.dev.started.erase i, finished := i :: s.dev.finished } } := by
  obtain ⟨t, b, hw, hb, j, k, hq⟩ := h.head (i := i) (by simp [heads, hi])
  refine ⟨hq.statusOf, h.locks, h.own, fun u => ?_, ?_⟩
  · refine (h.ok u).congr (fun _ _ => rfl) (fun l _ => ?_) fun _ _ _ => rfl
    by_cases hli : l = i
    · subst hli
      simp [Disk.setStatus]
    · simp [Disk.setStatus, Function.update_of_ne hli]
  have hh : heads (s.disk.setStatus i) { s.dev with started := s.dev.started.erase i, finished := i :: s.dev.finished } =
      heads s.disk s.dev := by
    simp only [heads, coe_erase hi, ← Multiset.cons_coe, Multiset.cons_add, Multiset.add_cons]
    rfl
  refine { h.flight with nodup := hh ▸ h.flight.nodup, mem := fun l => by rw [hh, h.flight.mem], status := fun l hl => ?_ }
  by_cases hli : l = i
  · subst hli
    simp [Disk.setStatus]
  · have hl' : l ∈ s.dev.finished ∨ s.dev.adding = some l ∨ l ∈ unhandled s.disk := by
      refine hl.imp_left fun hm => ?_
      rcases List.mem_cons.1 hm with rfl | hm
      · exact absurd rfl hli
      · exact hm
    exact (congrArg Info.status (Function.update_of_ne hli _ _)).trans (h.flight.status l hl')

/-- An entry is written where no other is. -/
theorem unhandled_add (h : Inv s) {i : Nat} (hi : i ∈ s.dev.finished) : unhandled (s.disk.putUsed i) = unhandled s.disk := by
  have hlt : Ring.count W s.disk.usedIdx s.disk.used.idx < NUM := by
    have hc := h.card_le
    have hpos := List.length_pos_of_mem hi
    rw [card_heads] at hc
    have hl : (unhandled s.disk).length = _ := Ring.length_window _
    omega
  exact Ring.window_write (by decide) h.flight.usedIdx h.flight.used hlt _ i

theorem add_step (h : Inv s) {i : Nat} (ha : s.dev.adding = none) (hi : i ∈ s.dev.finished) :
    Inv { s with disk := s.disk.putUsed i, dev := { s.dev with finished := s.dev.finished.erase i, adding := some i } } := by
  refine ⟨h.locks, h.own, fun u => (h.ok u).congr (fun _ _ => rfl) (fun _ _ => rfl) fun _ _ _ => rfl, ?_⟩
  have hu := h.unhandled_add hi
  have hh : heads (s.disk.putUsed i) { s.dev with finished := s.dev.finished.erase i, adding := some i } = heads s.disk s.dev := by
    have hn : unseen (s.disk.putUsed i) { s.dev with finished := s.dev.finished.erase i, adding := some i } = unseen s.disk s.dev := rfl
    simp only [heads, hn, hu, coe_erase hi, ha, Option.toList_some, Option.toList_none, Multiset.coe_singleton, Multiset.coe_nil,
      ← Multiset.singleton_add, Multiset.add_zero, Multiset.add_assoc]
    rw [← Multiset.add_assoc (s.dev.finished.erase i : Multiset Nat), Multiset.add_comm _ {i}, Multiset.add_assoc]
  refine { h.flight with
    nodup := hh ▸ h.flight.nodup, mem := fun l => by rw [hh, h.flight.mem], status := fun l hl => h.flight.status l ?_,
    adding := fun l hl => ?_, fetch := fun c hc => hu ▸ h.flight.fetch c hc, entry := fun c id hc => hu ▸ h.flight.entry c id hc }
  · rw [hu] at hl
    rcases hl with hl | hl | hl
    · exact .inl (List.mem_of_mem_erase hl)
    · cases hl
      exact .inl hi
    · exact .inr (.inr hl)
  · cases hl
    exact Function.update_self ..

theorem unhandled_count (h : Inv s) {i : Nat} (ha : s.dev.adding = some i) : unhandled s.disk.bumpUsed = unhandled s.disk ++ [i] := by
  have hc := h.card_le
  rw [card_heads] at hc
  have hl : (unhandled s.disk).length = _ := Ring.length_window _
  have hW : NUM + 1 < W := by decide
  rw [← h.flight.adding i ha]
  exact Ring.window_push (by decide) h.flight.usedIdx h.flight.used (by omega) _

theorem count_step (h : Inv s) (ha : s.dev.adding.isSome = true) :
    Inv { s with disk := s.disk.bumpUsed, dev := { s.dev with adding := none } } := by
  obtain ⟨i, hi⟩ := Option.isSome_iff_exists.1 ha
  have hu := h.unhandled_count hi
  refine ⟨h.locks, h.own, fun u => (h.ok u).congr (fun _ _ => rfl) (fun _ _ => rfl) fun _ _ _ => rfl, ?_⟩
  have hh : heads s.disk.bumpUsed { s.dev with adding := none } = heads s.disk s.dev := by
    simp only [heads, hu, hi, Option.toList_some, Option.toList_none, ← Multiset.coe_add, Multiset.coe_singleton, Multiset.coe_nil,
      Multiset.add_zero, Multiset.add_assoc, Multiset.add_comm {i}]
    rfl
  refine { h.flight with
    used := Nat.mod_lt _ (by decide), nodup := hh ▸ h.flight.nodup, mem := fun l => by rw [hh, h.flight.mem],
    status := fun l hl => h.flight.status l ?_, adding := fun l hl => (by cases hl), fetch := fun c hc => ?_, entry := fun c id hc => ?_ }
  · rw [hu, List.mem_append, List.mem_singleton] at hl
    rcases hl with hl | hl | hl | rfl
    · exact .inl hl
    · cases hl
    · exact .inr (.inr hl)
    · exact .inr (.inl hi)
  · rw [hu]
    simp
  · obtain ⟨l, hl⟩ := h.flight.entry c id hc
    exact ⟨l ++ [i], by rw [hu, hl, List.cons_append]⟩

/-! ### The handler -/

theorem unhandled_ne (h : Inv s) : unhandled s.disk ≠ [] ↔ s.disk.usedIdx ≠ s.disk.used.idx := by
  rw [ne_eq, ← List.length_eq_zero_iff, unhandled, Ring.length_window, Ring.count_eq_zero h.flight.usedIdx h.flight.used]

/-- The first entry that is not dealt with. -/
theorem unhandled_eq (h : Inv s) (hne : s.disk.usedIdx ≠ s.disk.used.idx) :
    unhandled s.disk = s.disk.used.ring (s.disk.usedIdx % NUM) :: unhandled s.disk.bumpSeen :=
  Ring.window_pop (by decide) h.flight.usedIdx h.flight.used hne _

/-- The handler moves without changing the disk. -/
theorem intr_step (h : Inv s) {c : Fin NCPU} {x : IntrPc} {lock : Option (T ⊕ Fin NCPU)} (hl : Locks lock s.rw (update s.intr c x))
    (hf : x = .fetch → unhandled s.disk ≠ []) (he : ∀ id, x = .entry id → ∃ l, unhandled s.disk = id :: l) :
    Inv ({ s with lock := lock }.setIntr c x) where
  locks := hl
  own := h.own
  ok := h.ok
  flight := { h.flight with
    fetch := fun e hx => by
      by_cases hec : e = c
      · subst hec
        exact hf (by simpa [Sys.setIntr] using hx)
      · exact h.flight.fetch e (by simpa [Sys.setIntr, Function.update_of_ne hec] using hx)
    entry := fun e id hx => by
      by_cases hec : e = c
      · subst hec
        exact he id (by simpa [Sys.setIntr] using hx)
      · exact h.flight.entry e id (by simpa [Sys.setIntr, Function.update_of_ne hec] using hx) }

/-- What the handler finds under an entry. -/
theorem entry_request (h : Inv s) {c : Fin NCPU} {id : Nat} (hc : s.intr c = .entry id) :
    ∃ t b j k, (s.rw t).waiting = some (b, id) ∧ s.b b = true ∧ s.disk.Request b id j k ∧ (s.disk.info id).status = 0 := by
  obtain ⟨l, hl⟩ := h.flight.entry c id hc
  have hu : id ∈ unhandled s.disk := by simp [hl]
  obtain ⟨t, b, hw, hb, j, k, hr⟩ := h.head (i := id) (by simp [heads, hu])
  exact ⟨t, b, j, k, hw, hb, hr, h.flight.status id (.inr (.inr hu))⟩

variable [DecidableEq B]

/-- The other buffers' flags stay. -/
theorem flag_entry (h : Inv s) {t u : T} {b c : B} {id : Nat} (hw : (s.rw t).waiting = some (b, id)) (hut : u ≠ t)
    (hu : (s.rw u).buf = some c) : update s.b b false c = s.b c := by
  refine Function.update_of_ne ?_ _ _
  rintro rfl
  exact hut (h.own.buf u t c hu (RwPc.waiting_buf hw))

/-- One process waits no more. -/
theorem waits_entry (h : Inv s) {t : T} {b : B} {id : Nat} (hw : (s.rw t).waiting = some (b, id)) (c : B) (i : Nat) :
    Waits s.rw (update s.b b false) c i ↔ Waits s.rw s.b c i ∧ i ≠ id := by
  constructor
  · rintro ⟨u, hu, hc⟩
    have hut : u ≠ t := by
      rintro rfl
      rw [hw] at hu
      cases hu
      rw [Function.update_self] at hc
      cases hc
    refine ⟨⟨u, hu, h.flag_entry hw hut (RwPc.waiting_buf hu) ▸ hc⟩, ?_⟩
    rintro rfl
    exact hut (h.own.disjoint u t i (RwPc.waiting_chain hu) (RwPc.waiting_chain hw))
  · rintro ⟨⟨u, hu, hc⟩, hne⟩
    have hut : u ≠ t := by
      rintro rfl
      rw [hw] at hu
      cases hu
      exact hne rfl
    exact ⟨u, hu, (h.flag_entry hw hut (RwPc.waiting_buf hu)).trans hc⟩

/-- The flag of the buffer is cleared. -/
theorem entry_step (h : Inv s) {c : Fin NCPU} {id : Nat} (hc : s.intr c = .entry id) {t : T} {b : B}
    (hw : (s.rw t).waiting = some (b, id)) : Inv ({ s with disk := s.disk.bumpSeen, b := update s.b b false }.setIntr c .loop) := by
  have hlc : (s.intr c).locked = true := by rw [hc]; rfl
  obtain ⟨l, hl⟩ := h.flight.entry c id hc
  have hne : s.disk.usedIdx ≠ s.disk.used.idx := h.unhandled_ne.1 (by simp [hl])
  have hu := h.unhandled_eq hne
  rw [hl, List.cons.injEq] at hu
  have hh : heads s.disk s.dev = id ::ₘ heads s.disk.bumpSeen s.dev := by
    rw [heads, hl, hu.2, ← Multiset.cons_coe, Multiset.add_cons]
    rfl
  have hnd := h.flight.nodup
  rw [hh, Multiset.nodup_cons] at hnd
  have hother {e : Fin NCPU} (hec : e ≠ c) : (s.intr e).locked = false := by
    cases hle : (s.intr e).locked with
    | false => rfl
    | true =>
      cases (h.locks.intr c hlc).symm.trans (h.locks.intr e hle)
      exact absurd rfl hec
  refine ⟨h.locks.setIntr hlc.symm, h.own, fun u => ?_, ?_⟩
  · refine (h.ok u).congr (fun _ _ => rfl) (fun _ _ => rfl) fun e hue hun => ?_
    refine h.flag_entry hw ?_ hue
    rintro rfl
    rw [hw] at hun
    cases hun
  show Flight s.disk.bumpSeen (update s.b b false) s.rw (update s.intr c .loop) s.dev
  refine { h.flight with
    usedIdx := Nat.mod_lt _ (by decide), nodup := hnd.2, mem := fun i => ?_, status := fun i hi => h.flight.status i ?_,
    fetch := fun e he => ?_, entry := fun e i he => ?_ }
  · have hm : i ∈ heads s.disk s.dev ↔ i = id ∨ i ∈ heads s.disk.bumpSeen s.dev := by rw [hh, Multiset.mem_cons]
    simp only [h.waits_entry hw]
    constructor
    · intro hi
      obtain ⟨e, he⟩ := (h.flight.mem i).1 (hm.2 (.inr hi))
      refine ⟨e, he, ?_⟩
      rintro rfl
      exact hnd.1 hi
    · rintro ⟨e, he, hne⟩
      exact (hm.1 ((h.flight.mem i).2 ⟨e, he⟩)).resolve_left hne
  · rw [hl, hu.2]
    exact hi.imp_right (.imp_right (List.mem_cons_of_mem _))
  · by_cases hec : e = c
    · subst hec
      rw [Function.update_self] at he
      cases he
    · rw [Function.update_of_ne hec] at he
      have := hother hec
      rw [he] at this
      cases this
  · by_cases hec : e = c
    · subst hec
      rw [Function.update_self] at he
      cases he
    · rw [Function.update_of_ne hec] at he
      have := hother hec
      rw [he] at this
      cases this

/-- The handler takes a step. -/
theorem irun (h : Inv s) {c : Fin NCPU} {r : Except String (Sys T B)} (hr : s.irun c = some r) : ∃ s', r = .ok s' ∧ Inv s' := by
  have hl := h.locks
  unfold Sys.irun at hr
  cases hc : s.intr c with
  | idle =>
    simp only [hc] at hr
    cases hr
  | acquire =>
    simp only [hc] at hr
    split at hr
    · rename_i hn
      cases hr
      rw [Option.isNone_iff_eq_none.1 hn] at hl
      exact ⟨_, rfl, h.intr_step (hl.acquireIntr c _) (fun hx => nomatch hx) fun _ hx => nomatch hx⟩
    · cases hr
  | loop =>
    simp only [hc] at hr
    split at hr
    · cases hr
      exact ⟨_, rfl, h.intr_step (hl.releaseIntr (by rw [hc]; rfl) rfl) (fun hx => nomatch hx) fun _ hx => nomatch hx⟩
    · rename_i hne
      cases hr
      exact ⟨_, rfl, h.intr_step (hl.setIntr (by rw [hc]; rfl)) (fun _ => h.unhandled_ne.2 hne) fun _ hx => nomatch hx⟩
  | fetch =>
    simp only [hc] at hr
    cases hr
    refine ⟨_, rfl, h.intr_step (hl.setIntr (by rw [hc]; rfl)) (fun hx => nomatch hx) fun id hx => ?_⟩
    cases hx
    exact ⟨_, h.unhandled_eq (h.unhandled_ne.1 (h.flight.fetch c hc))⟩
  | entry id =>
    obtain ⟨t, b, j, k, hw, hb, hq, hs⟩ := h.entry_request hc
    simp only [hc, hs, hq.info, ne_eq, not_true_eq_false, if_false] at hr
    cases hr
    exact ⟨_, rfl, h.entry_step hc hw⟩

/-! ### The processes -/

variable [DecidableEq T]

/-- A process takes a step. -/
theorem run (h : Inv s) {t : T} {r : Except String (Sys T B)} (hr : s.run t = some r) : ∃ s', r = .ok s' ∧ Inv s' := by
  have hl := h.locks
  unfold Sys.run at hr
  cases ht : s.rw t with
  | idle =>
    simp only [ht] at hr
    cases hr
  | acquire q =>
    simp only [ht] at hr
    split at hr
    · rename_i hn
      cases hr
      rw [Option.isNone_iff_eq_none.1 hn] at hl
      exact ⟨_, rfl, h.lock_step (hl.acquireRw t _) (by rw [ht]; rfl) (.inl (by rw [ht]; rfl)) trivial (by rw [ht]; rfl) fun _ _ _ _ hx => nomatch hx⟩
    · cases hr
  | alloc q idx =>
    simp only [ht] at hr
    cases hr
    exact ⟨_, rfl, h.alloc_step ht⟩
  | undo q idx =>
    cases idx with
    | nil =>
      simp only [ht] at hr
      cases hr
      exact ⟨_, rfl, h.lock_step (hl.releaseRw (by rw [ht]; rfl) rfl) (by rw [ht]; rfl) (.inl (by rw [ht]; rfl)) trivial (by rw [ht]; rfl)
        fun _ _ _ _ hx => nomatch hx⟩
    | cons i idx =>
      obtain ⟨d, hd, hi⟩ := h.undo_step ht
      simp only [ht, hd] at hr
      cases hr
      exact ⟨_, rfl, hi⟩
  | format q i j k =>
    simp only [ht] at hr
    cases hr
    exact ⟨_, rfl, h.format_step ht⟩
  | ring b i j k =>
    simp only [ht] at hr
    cases hr
    exact ⟨_, rfl, h.ring_step ht⟩
  | publish b i j k =>
    simp only [ht] at hr
    cases hr
    exact ⟨_, rfl, h.publish_step ht⟩
  | wait b i j k =>
    simp only [ht] at hr
    have hok := h.ok t
    split at hr
    · cases hr
      refine ⟨_, rfl, h.lock_step (hl.releaseRw (by rw [ht]; rfl) rfl) (by rw [ht]; rfl) (.inl (by rw [ht]; rfl)) ?_ (by rw [ht]; rfl)
        fun _ _ _ _ hx => nomatch hx⟩
      rwa [ht] at hok
    · rename_i hf
      cases hr
      exact ⟨_, rfl, h.done_step ht (by simpa using hf)⟩
  | asleep b i j k =>
    simp only [ht] at hr
    have hok := h.ok t
    split at hr
    · rename_i hn
      cases hr
      rw [Option.isNone_iff_eq_none.1 hn] at hl
      refine ⟨_, rfl, h.lock_step (hl.acquireRw t _) (by rw [ht]; rfl) (.inl (by rw [ht]; rfl)) ?_ (by rw [ht]; rfl) fun _ _ _ _ hx => nomatch hx⟩
      rwa [ht] at hok
    · cases hr
  | free b i rest =>
    obtain ⟨s', hs, hi⟩ := h.free_step ht
    simp only [ht, hs] at hr
    cases hr
    exact ⟨_, rfl, hi⟩
  | release b =>
    simp only [ht] at hr
    cases hr
    exact ⟨_, rfl, h.lock_step (hl.releaseRw (by rw [ht]; rfl) rfl) (by rw [ht]; rfl) (.inr rfl) trivial (by rw [ht]; rfl) fun _ _ _ _ hx => nomatch hx⟩

/-- Every step keeps the invariant, and none panics. -/
theorem step (h : Inv s) {e : Ev T B} (hd : Distinct s e) {r : Except String (Sys T B)} (hr : s.step e = some r) :
    ∃ s', r = .ok s' ∧ Inv s' := by
  cases e with
  | call t b blockno write =>
    simp only [Sys.step] at hr
    split at hr
    · rename_i ht
      cases hr
      refine ⟨_, rfl, h.locks.setRw (by rw [ht]; rfl), h.own.set (by rw [ht]; rfl) fun c hc u _ => ?_, ?_, ?_⟩
      · cases hc
        exact hd u
      · exact ok_set h.ok trivial (fun _ _ _ _ => rfl) (fun _ _ _ _ => rfl) fun _ _ _ _ => rfl
      · exact h.flight.set rfl rfl rfl (fun _ _ => rfl) (waits_set (by rw [ht]; rfl) s.b) fun _ _ _ _ hx => nomatch hx
    · cases hr
  | run t => exact h.run hr
  | intr c =>
    simp only [Sys.step] at hr
    split at hr
    · rename_i hc
      cases hr
      exact ⟨_, rfl, h.intr_step (h.locks.setIntr (by rw [hc]; rfl)) (fun hx => nomatch hx) fun _ hx => nomatch hx⟩
    · cases hr
  | irun c => exact h.irun hr
  | consume =>
    simp only [Sys.step] at hr
    split at hr
    · cases hr
    · rename_i hne
      cases hr
      exact ⟨_, rfl, h.consume_step hne⟩
  | finish i =>
    simp only [Sys.step] at hr
    split at hr
    · rename_i hi
      obtain ⟨hq, hi⟩ := h.finish_step hi
      simp only [hq] at hr
      cases hr
      exact ⟨_, rfl, hi⟩
    · cases hr
  | add i =>
    simp only [Sys.step] at hr
    split at hr
    · rename_i hi
      cases hr
      exact ⟨_, rfl, h.add_step hi.1 hi.2⟩
    · cases hr
  | count =>
    simp only [Sys.step] at hr
    split at hr
    · rename_i ha
      cases hr
      exact ⟨_, rfl, h.count_step ha⟩
    · cases hr

end Inv

theorem Init.inv (h : Init s) : Inv s := by
  have hn : unseen s.disk s.dev = [] := by
    rw [unseen, h.avail, h.dev]
    exact Ring.window_self _ (by decide)
  have hu : unhandled s.disk = [] := by
    rw [unhandled, h.used, h.usedIdx]
    exact Ring.window_self _ (by decide)
  have hh : heads s.disk s.dev = 0 := by
    rw [heads, hn, hu]
    simp [h.dev]
  refine ⟨⟨fun t ht => ?_, fun c hc => ?_⟩, ⟨fun t => ?_, fun t => ?_, fun t u i hi => ?_, fun i hi => ?_, fun t u b hb => ?_⟩, fun t => ?_, ?_⟩
  · rw [h.rw] at ht
    cases ht
  · rw [h.intr] at hc
    cases hc
  · simp [h.rw, RwPc.chain]
  · simp [h.rw, RwPc.chain]
  · simp [h.rw, RwPc.chain] at hi
  · simp [h.free i hi, h.rw, RwPc.chain]
  · rw [h.rw] at hb
    cases hb
  · rw [h.rw]
    trivial
  · have hW : 0 < W := by decide
    refine ⟨?_, h.avail ▸ hW, h.usedIdx ▸ hW, h.used ▸ hW, by simp [hh], fun i => ?_, fun i hi => ?_, fun t b i j k ht => ?_, fun i hi => ?_, fun c hc => ?_, fun c id hc => ?_⟩
    · rw [h.dev]
      exact hW
    · simp [hh, Waits, h.rw, RwPc.waiting]
    · simp [hu, h.dev] at hi
    · rw [h.rw] at ht
      cases ht
    · rw [h.dev] at hi
      cases hi
    · rw [h.intr] at hc
      cases hc
    · rw [h.intr] at hc
      cases hc

end Virtio

end Xv6
