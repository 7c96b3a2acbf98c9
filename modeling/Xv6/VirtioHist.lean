import Xv6.VirtioRun

/-!
# Runs of the virtio driver

In every state reached, the handler has cleared the flags of a first part of the completed chains, in the order of their completion,
and the rest of them is in the used ring (`Virtio.HistInv`).  `Virtio.discipline` collects what holds in every state reached.
-/

namespace Xv6

namespace Virtio

open Function (update)

variable {T B : Type} [DecidableEq T] [DecidableEq B] {s : Sys T B}

/-! ### What a step does to the flags and the rings -/

omit [DecidableEq T] [DecidableEq B] in
theorem freeDesc_rings {d d' : Disk B} {i : Nat} (h : d.freeDesc i = .ok d') :
    d'.avail = d.avail ∧ d'.used = d.used ∧ d'.usedIdx = d.usedIdx := by
  unfold Disk.freeDesc at h
  split at h
  · cases h
  · split at h
    · cases h
    · cases h
      exact ⟨rfl, rfl, rfl⟩

omit [DecidableEq B] in
theorem freeStep_ok {t : T} {b : B} {i : Nat} {rest : List Nat} {s' : Sys T B} (h : s.freeStep t b i rest = .ok s') :
    ∃ d x, s' = { s with disk := d }.setRw t x ∧ x.waiting = none ∧ d.avail = s.disk.avail ∧ d.used = s.disk.used ∧
      d.usedIdx = s.disk.usedIdx := by
  unfold Sys.freeStep at h
  cases hd : s.disk.freeDesc i with
  | error msg =>
    rw [hd] at h
    cases h
  | ok d =>
    rw [hd] at h
    cases h
    refine ⟨d, _, rfl, ?_, freeDesc_rings hd⟩
    split <;> rfl

/-- The step of a process only adds to the available ring, and clears no flag. -/
structure Kept (s s' : Sys T B) (t : T) : Prop where
  used : s'.disk.used = s.disk.used
  usedIdx : s'.disk.usedIdx = s.disk.usedIdx
  dev : s'.dev = s.dev
  flag : ∀ b, s.b b = true → s'.b b = true
  ring : s'.disk.avail.ring = s.disk.avail.ring ∨
    ∃ b i j k, s.rw t = .ring b i j k ∧ s'.disk.avail.ring = update s.disk.avail.ring (s.disk.avail.idx % NUM) i

theorem run_kept {t : T} {s' : Sys T B} (hr : s.run t = some (.ok s')) : Kept s s' t := by
  unfold Sys.run at hr
  cases ht : s.rw t with
  | idle =>
    simp only [ht] at hr
    cases hr
  | acquire q =>
    simp only [ht] at hr
    split at hr
    · cases hr
      exact ⟨rfl, rfl, rfl, fun _ hb => hb, .inl rfl⟩
    · cases hr
  | alloc q idx =>
    simp only [ht, Sys.allocStep] at hr
    split at hr
    · cases hr
      exact ⟨rfl, rfl, rfl, fun _ hb => hb, .inl rfl⟩
    · split at hr
      · rename_i hd
        cases hr
        obtain ⟨-, -, rfl⟩ := Disk.allocDesc_spec hd
        exact ⟨rfl, rfl, rfl, fun _ hb => hb, .inl rfl⟩
      · cases hr
        exact ⟨rfl, rfl, rfl, fun _ hb => hb, .inl rfl⟩
  | undo q idx =>
    cases idx with
    | nil =>
      simp only [ht] at hr
      cases hr
      exact ⟨rfl, rfl, rfl, fun _ hb => hb, .inl rfl⟩
    | cons i idx =>
      simp only [ht] at hr
      cases hd : s.disk.freeDesc i with
      | error msg =>
        rw [hd] at hr
        cases hr
      | ok d =>
        rw [hd] at hr
        cases hr
        obtain ⟨ha, hu, hi⟩ := freeDesc_rings hd
        exact ⟨hu, hi, rfl, fun _ hb => hb, .inl (congrArg Queue.ring ha)⟩
  | format q i j k =>
    simp only [ht] at hr
    cases hr
    refine ⟨rfl, rfl, rfl, fun b hb => ?_, .inl rfl⟩
    by_cases hbq : b = q.b
    · subst hbq
      simp
    · simpa [Function.update_of_ne hbq] using hb
  | ring b i j k =>
    simp only [ht] at hr
    cases hr
    exact ⟨rfl, rfl, rfl, fun _ hb => hb, .inr ⟨b, i, j, k, ht, rfl⟩⟩
  | publish b i j k =>
    simp only [ht] at hr
    cases hr
    exact ⟨rfl, rfl, rfl, fun _ hb => hb, .inl rfl⟩
  | wait b i j k =>
    simp only [ht] at hr
    split at hr <;>
    · cases hr
      exact ⟨rfl, rfl, rfl, fun _ hb => hb, .inl rfl⟩
  | asleep b i j k =>
    simp only [ht] at hr
    split at hr
    · cases hr
      exact ⟨rfl, rfl, rfl, fun _ hb => hb, .inl rfl⟩
    · cases hr
  | free b i rest =>
    simp only [ht] at hr
    obtain ⟨d, x, rfl, -, ha, hu, hi⟩ := freeStep_ok (Option.some.inj hr)
    exact ⟨hu, hi, rfl, fun _ hb => hb, .inl (congrArg Queue.ring ha)⟩
  | release b =>
    simp only [ht] at hr
    cases hr
    exact ⟨rfl, rfl, rfl, fun _ hb => hb, .inl rfl⟩

/-- The step of a process changes who waits only when it publishes a chain. -/
theorem Inv.waits_run (h : Inv s) {t : T} {s' : Sys T B} (hr : s.run t = some (.ok s')) (c : B) (l : Nat) :
    Waits s'.rw s'.b c l ↔ Waits s.rw s.b c l ∨ ∃ j k, s.rw t = .publish c l j k := by
  unfold Sys.run at hr
  cases ht : s.rw t with
  | idle =>
    simp only [ht] at hr
    cases hr
  | acquire q =>
    simp only [ht] at hr
    split at hr
    · cases hr
      simpa using waits_set (f := s.rw) (t := t) (x := .alloc q []) (by rw [ht]; rfl) s.b c l
    · cases hr
  | alloc q idx =>
    simp only [ht, Sys.allocStep] at hr
    split at hr
    · cases hr
      simpa using waits_set (f := s.rw) (t := t) (x := .format q _ _ _) (by rw [ht]; rfl) s.b c l
    · split at hr
      · cases hr
        simpa using waits_set (f := s.rw) (t := t) (x := .alloc q _) (by rw [ht]; rfl) s.b c l
      · cases hr
        simpa using waits_set (f := s.rw) (t := t) (x := .undo q idx) (by rw [ht]; rfl) s.b c l
  | undo q idx =>
    cases idx with
    | nil =>
      simp only [ht] at hr
      cases hr
      simpa using waits_set (f := s.rw) (t := t) (x := .acquire q) (by rw [ht]; rfl) s.b c l
    | cons i idx =>
      obtain ⟨d, hd, -⟩ := h.undo_step ht
      simp only [ht, hd] at hr
      cases hr
      simpa using waits_set (f := s.rw) (t := t) (x := .undo q idx) (by rw [ht]; rfl) s.b c l
  | format q i j k =>
    simp only [ht] at hr
    cases hr
    simpa using h.waits_flag (x := .ring q.b i j k) rfl (by rw [ht]; rfl) (by rw [ht]; rfl) true c l
  | ring b i j k =>
    simp only [ht] at hr
    cases hr
    simpa using waits_set (f := s.rw) (t := t) (x := .publish b i j k) (by rw [ht]; rfl) s.b c l
  | publish b i j k =>
    simp only [ht] at hr
    cases hr
    have he : (c = b ∧ l = i) ↔ ∃ j' k', RwPc.publish b i j k = .publish c l j' k' := by
      constructor
      · rintro ⟨rfl, rfl⟩
        exact ⟨j, k, rfl⟩
      · rintro ⟨j', k', hp⟩
        cases hp
        exact ⟨rfl, rfl⟩
    rw [← he]
    exact h.waits_publish ht c l
  | wait b i j k =>
    simp only [ht] at hr
    split at hr
    · cases hr
      simpa using waits_set (f := s.rw) (t := t) (x := .asleep b i j k) (by rw [ht]; rfl) s.b c l
    · rename_i hf
      cases hr
      simpa using waits_done ht (by simpa using hf) c l
  | asleep b i j k =>
    simp only [ht] at hr
    split at hr
    · cases hr
      simpa using waits_set (f := s.rw) (t := t) (x := .wait b i j k) (by rw [ht]; rfl) s.b c l
    · cases hr
  | free b i rest =>
    simp only [ht] at hr
    obtain ⟨d, x, rfl, hx, -⟩ := freeStep_ok (Option.some.inj hr)
    simpa using waits_set (f := s.rw) (t := t) (hx.trans (by rw [ht]; rfl)) s.b c l
  | release b =>
    simp only [ht] at hr
    cases hr
    simpa using waits_set (f := s.rw) (t := t) (x := .idle) (by rw [ht]; rfl) s.b c l

/-! ### The history -/

/-- The entries of the used ring are those of `tail`, which are to be cleared next. -/
structure HistInv (s : Sys T B) (η : Hist B) : Prop where
  done : ∃ tail, η.completed = η.cleared ++ tail ∧ List.Forall₂ (fun i b => Waits s.rw s.b b i) (unhandled s.disk) tail
  flagged : ∀ b i, Waits s.rw s.b b i → η.published.count b = η.cleared.count b + 1
  rest : ∀ b, (∀ i, ¬ Waits s.rw s.b b i) → η.published.count b = η.cleared.count b

omit [DecidableEq T] in
/-- A step that adds nothing to the history. -/
theorem HistInv.same {s' : Sys T B} {η : Hist B} (h : HistInv s η) (hw : ∀ b i, Waits s'.rw s'.b b i ↔ Waits s.rw s.b b i)
    (hu : unhandled s'.disk = unhandled s.disk) : HistInv s' η := by
  obtain ⟨tail, ht, hf⟩ := h.done
  refine ⟨⟨tail, ht, ?_⟩, fun b i hb => h.flagged b i ((hw b i).1 hb), fun b hb => h.rest b fun i hi => hb i ((hw b i).2 hi)⟩
  simpa only [hw, hu] using hf

theorem HistInv.run {η : Hist B} (hi : Inv s) (h : HistInv s η) {t : T} {s' : Sys T B} (hr : s.run t = some (.ok s')) :
    HistInv s' (η.next s (.run t)) := by
  have hw := hi.waits_run hr
  have hk := run_kept hr
  have hu : unhandled s'.disk = unhandled s.disk := by rw [unhandled, hk.used, hk.usedIdx, unhandled]
  by_cases hp : ∃ b i j k, s.rw t = .publish b i j k
  · obtain ⟨b, i, j, k, ht⟩ := hp
    have hn : η.next s (.run t) = { η with published := η.published ++ [b] } := by simp only [Hist.next, ht]
    have hb : ∀ l, ¬ Waits s.rw s.b b l := by
      rintro l ⟨u, hu, -⟩
      have hut := hi.own.buf u t b (RwPc.waiting_buf hu) (by rw [ht]; rfl)
      rw [hut, ht] at hu
      cases hu
    obtain ⟨tail, htail, hf⟩ := h.done
    have hcount {c : B} (hcb : c ≠ b) : (η.published ++ [b]).count c = η.published.count c := by
      rw [List.count_append, List.count_singleton, if_neg (by simpa using hcb.symm), Nat.add_zero]
    rw [hn]
    refine ⟨⟨tail, htail, ?_⟩, fun c l hc => ?_, fun c hc => ?_⟩
    · rw [hu]
      exact hf.imp fun i' b' hb' => (hw b' i').2 (.inl hb')
    · rcases (hw c l).1 hc with hc | ⟨j', k', hc⟩
      · have hcb : c ≠ b := by
          rintro rfl
          exact hb l hc
        rw [hcount hcb]
        exact h.flagged c l hc
      · rw [ht] at hc
        cases hc
        rw [List.count_append, List.count_singleton_self, h.rest b hb]
    · have hcb : c ≠ b := by
        rintro rfl
        exact hc i ((hw c i).2 (.inr ⟨j, k, ht⟩))
      rw [hcount hcb]
      exact h.rest c fun l hl => hc l ((hw c l).2 (.inl hl))
  · have hn : η.next s (.run t) = η := by
      simp only [Hist.next]
      split
      · rename_i hx
        exact absurd ⟨_, _, _, _, hx⟩ hp
      · rfl
    rw [hn]
    refine h.same (fun b i => ?_) hu
    rw [hw]
    constructor
    · rintro (hb | ⟨j, k, hb⟩)
      · exact hb
      · exact absurd ⟨b, i, j, k, hb⟩ hp
    · exact .inl

omit [DecidableEq T] in
theorem HistInv.irun {η : Hist B} (hi : Inv s) (h : HistInv s η) {c : Fin NCPU} {s' : Sys T B} (hr : s.irun c = some (.ok s')) :
    HistInv s' (η.next s (.irun c)) := by
  unfold Sys.irun at hr
  cases hc : s.intr c with
  | idle =>
    simp only [hc] at hr
    cases hr
  | acquire =>
    simp only [hc] at hr
    split at hr
    · cases hr
      simp only [Hist.next, hc]
      exact h.same (fun _ _ => Iff.rfl) rfl
    · cases hr
  | loop =>
    simp only [hc] at hr
    split at hr <;>
    · cases hr
      simp only [Hist.next, hc]
      exact h.same (fun _ _ => Iff.rfl) rfl
  | fetch =>
    simp only [hc] at hr
    cases hr
    simp only [Hist.next, hc]
    exact h.same (fun _ _ => Iff.rfl) rfl
  | entry id =>
    obtain ⟨t, b, j, k, hw, hb, hq, hs⟩ := hi.entry_request hc
    simp only [hc, hs, hq.info, ne_eq, not_true_eq_false, if_false] at hr
    cases hr
    have hn : η.next s (.irun c) = { η with cleared := η.cleared ++ [b] } := by simp [Hist.next, hc, hq.info]
    obtain ⟨l, hl⟩ := hi.flight.entry c id hc
    have hu := hi.unhandled_eq (hi.unhandled_ne.1 (by simp [hl]))
    rw [hl, List.cons.injEq] at hu
    obtain ⟨tail, htail, hf⟩ := h.done
    have hne : id ∉ l := by
      intro hm
      have hnd := hi.flight.nodup
      rw [heads, hl] at hnd
      exact (List.nodup_cons.1 (Multiset.nodup_add.1 hnd).2.1).1 hm
    have hb' {c : B} (hcw : Waits s.rw s.b c id) : c = b := by
      obtain ⟨u, hu, -⟩ := hcw
      rw [hi.own.disjoint u t id (RwPc.waiting_chain hu) (RwPc.waiting_chain hw), hw] at hu
      cases hu
      rfl
    have hcount {c : B} (hcb : c ≠ b) : (η.cleared ++ [b]).count c = η.cleared.count c := by
      rw [List.count_append, List.count_singleton, if_neg (by simpa using hcb.symm), Nat.add_zero]
    rw [hl] at hf
    cases hf with
    | cons hid hf =>
      rename_i b' tail
      obtain rfl := hb' hid
      rw [hn]
      refine ⟨⟨tail, by simp [htail], ?_⟩, fun c i hcw => ?_, fun c hcw => ?_⟩
      · show List.Forall₂ _ (unhandled s.disk.bumpSeen) tail
        rw [← hu.2]
        refine List.Forall₂.imp ?_ ((List.forall₂_and_left l tail).2 ⟨fun i him => ne_of_mem_of_not_mem him hne, hf⟩)
        exact fun i c hic => (hi.waits_entry hw c i).2 ⟨hic.2, hic.1⟩
      · obtain ⟨⟨u, hu, hcu⟩, hid'⟩ : Waits s.rw s.b c i ∧ i ≠ id := (hi.waits_entry hw c i).1 hcw
        have hcb : c ≠ b' := by
          rintro rfl
          rw [hi.own.buf u t c (RwPc.waiting_buf hu) (RwPc.waiting_buf hw), hw] at hu
          cases hu
          exact hid' rfl
        rw [hcount hcb]
        exact h.flagged c i ⟨u, hu, hcu⟩
      · by_cases hcb : c = b'
        · subst hcb
          rw [List.count_append, List.count_singleton_self, h.flagged c id hid]
        · rw [hcount hcb]
          refine h.rest c fun i hic => hcw i ((hi.waits_entry hw c i).2 ⟨hic, ?_⟩)
          rintro rfl
          exact hcb (hb' hic)

omit [DecidableEq T] in
/-- A chain is completed. -/
theorem HistInv.count {η : Hist B} (hi : Inv s) (h : HistInv s η) (ha : s.dev.adding.isSome = true) :
    HistInv { s with disk := s.disk.bumpUsed, dev := { s.dev with adding := none } } (η.next s .count) := by
  obtain ⟨i, hai⟩ := Option.isSome_iff_exists.1 ha
  obtain ⟨t, b, hw, hb, j, k, hq⟩ := hi.head (i := i) (by simp [heads, hai])
  have hn : η.next s .count = { η with completed := η.completed ++ [b] } := by simp [Hist.next, hai, hq.dataOf]
  obtain ⟨tail, htail, hf⟩ := h.done
  rw [hn]
  refine ⟨⟨tail ++ [b], by simp [htail], ?_⟩, h.flagged, h.rest⟩
  show List.Forall₂ _ (unhandled s.disk.bumpUsed) (tail ++ [b])
  rw [hi.unhandled_count hai]
  exact List.rel_append hf (.cons ⟨t, hw, hb⟩ .nil)

/-- Every step keeps it. -/
theorem HistInv.step {η : Hist B} (hi : Inv s) (h : HistInv s η) {e : Ev T B} {s' : Sys T B} (hr : s.step e = some (.ok s')) :
    HistInv s' (η.next s e) := by
  cases e with
  | call t b blockno write =>
    simp only [Sys.step] at hr
    split at hr
    · rename_i ht
      cases hr
      exact h.same (waits_set (by rw [ht]; rfl) s.b) rfl
    · cases hr
  | run t => exact h.run hi hr
  | intr c =>
    simp only [Sys.step] at hr
    split at hr
    · cases hr
      exact h.same (fun _ _ => Iff.rfl) rfl
    · cases hr
  | irun c => exact h.irun hi hr
  | consume =>
    simp only [Sys.step] at hr
    split at hr
    · cases hr
    · cases hr
      exact h.same (fun _ _ => Iff.rfl) rfl
  | finish i =>
    simp only [Sys.step] at hr
    split at hr
    · split at hr
      · cases hr
      · cases hr
        exact h.same (fun _ _ => Iff.rfl) rfl
    · cases hr
  | add i =>
    simp only [Sys.step] at hr
    split at hr
    · rename_i ha
      cases hr
      exact h.same (fun _ _ => Iff.rfl) (hi.unhandled_add ha.2)
    · cases hr
  | count =>
    simp only [Sys.step] at hr
    split at hr
    · rename_i ha
      cases hr
      exact h.count hi ha
    · cases hr

/-! ### Every state reached -/

/-- What holds in a state with its history, and of each step from it. -/
structure Disciplined (s : Sys T B) (η : Hist B) : Prop where
  -- no two processes have a descriptor in common, in a chain being built, in flight or being freed
  disjoint : ∀ t u, t ≠ u → (s.rw t).chain.Disjoint (s.rw u).chain
  -- the chain of a process that waits is a linked triple
  triple : ∀ t b i, (s.rw t).waiting = some (b, i) → ∃ j k, (s.rw t).chain = [i, j, k] ∧ [i, j, k].Nodup ∧
    (∀ l ∈ [i, j, k], l < NUM) ∧ s.disk.Links [i, j, k]
  free : ∀ i < NUM, s.disk.free i = true ↔ ∀ t, i ∉ (s.rw t).chain
  -- what is with the device or in the used ring is in flight, once
  heads : (heads s.disk s.dev).Nodup ∧ ∀ i ∈ heads s.disk s.dev, ∃ t b, (s.rw t).waiting = some (b, i)
  -- the handler clears the flags of completed chains only, in their order, and of all of them when it ends
  cleared : η.cleared <+: η.completed
  caughtUp : ∀ c, s.intr c = .loop → s.disk.usedIdx = s.disk.used.idx → η.cleared = η.completed
  flag : ∀ t b i, (s.rw t).waiting = some (b, i) → (s.b b = false ↔ η.cleared.count b = η.published.count b)
  clear : ∀ e s', s.step e = some (.ok s') → ∀ b, (s.b b = true ∧ s'.b b = false) ↔
    ∃ c id, e = .irun c ∧ s.intr c = .entry id ∧ (s.disk.info id).b = some b
  -- the entries of the available ring that the device has not consumed
  avail : ∀ e s', s.step e = some (.ok s') → ∀ k < Ring.count W s.dev.lastAvail s.disk.avail.idx,
    s'.disk.avail.ring ((s.dev.lastAvail + k) % NUM) = s.disk.avail.ring ((s.dev.lastAvail + k) % NUM)
  panics : ∀ e msg, Distinct s e → s.step e ≠ some (.error msg)

omit [DecidableEq T] [DecidableEq B] in
theorem RwPc.Ok.triple {d : Disk B} {flag : B → Bool} {x : RwPc B} {b : B} {i : Nat} (h : x.Ok d flag) (hw : x.waiting = some (b, i)) :
    ∃ j k, x.chain = [i, j, k] ∧ d.Links [i, j, k] := by
  cases x with
  | wait c l j k | asleep c l j k =>
    cases hw
    exact ⟨j, k, rfl, Disk.Request.links h⟩
  | _ => cases hw

omit [DecidableEq T] in
/-- The step of the handler leaves the available ring, and clears the flag under an entry. -/
theorem irun_kept {c : Fin NCPU} {s' : Sys T B} (hr : s.irun c = some (.ok s')) : s'.disk.avail = s.disk.avail ∧
    (s'.b = s.b ∧ (∀ id, s.intr c ≠ .entry id) ∨
      ∃ id b, s.intr c = .entry id ∧ (s.disk.info id).b = some b ∧ s'.b = update s.b b false) := by
  unfold Sys.irun at hr
  cases hc : s.intr c with
  | idle =>
    simp only [hc] at hr
    cases hr
  | acquire =>
    simp only [hc] at hr
    split at hr
    · cases hr
      exact ⟨rfl, .inl ⟨rfl, fun _ hx => nomatch hx⟩⟩
    · cases hr
  | loop =>
    simp only [hc] at hr
    split at hr <;>
    · cases hr
      exact ⟨rfl, .inl ⟨rfl, fun _ hx => nomatch hx⟩⟩
  | fetch =>
    simp only [hc] at hr
    cases hr
    exact ⟨rfl, .inl ⟨rfl, fun _ hx => nomatch hx⟩⟩
  | entry id =>
    simp only [hc] at hr
    split at hr
    · cases hr
    · split at hr
      · cases hr
      · rename_i b hb
        cases hr
        exact ⟨rfl, .inr ⟨id, b, rfl, hb, rfl⟩⟩

/-- All other steps leave both. -/
theorem step_kept {e : Ev T B} {s' : Sys T B} (hr : s.step e = some (.ok s')) (hrun : ∀ t, e ≠ .run t) (hirun : ∀ c, e ≠ .irun c) :
    s'.disk.avail = s.disk.avail ∧ s'.b = s.b := by
  cases e with
  | run t => exact absurd rfl (hrun t)
  | irun c => exact absurd rfl (hirun c)
  | finish i =>
    simp only [Sys.step] at hr
    split at hr
    · split at hr <;> cases hr
      exact ⟨rfl, rfl⟩
    · cases hr
  | _ =>
    simp only [Sys.step] at hr
    split at hr <;> cases hr
    exact ⟨rfl, rfl⟩

/-- Only the handler clears a flag. -/
theorem Inv.clear (h : Inv s) {e : Ev T B} {s' : Sys T B} (hr : s.step e = some (.ok s')) (b : B) :
    (s.b b = true ∧ s'.b b = false) ↔ ∃ c id, e = .irun c ∧ s.intr c = .entry id ∧ (s.disk.info id).b = some b := by
  constructor
  · rintro ⟨hb, hb'⟩
    by_cases hirun : ∃ c, e = .irun c
    · obtain ⟨c, rfl⟩ := hirun
      rcases (irun_kept hr).2 with ⟨hk, -⟩ | ⟨id, b', hc, hi, hk⟩
      · rw [hk, hb] at hb'
        cases hb'
      · by_cases hbb : b = b'
        · subst hbb
          exact ⟨c, id, rfl, hc, hi⟩
        · rw [hk, Function.update_of_ne hbb, hb] at hb'
          cases hb'
    · by_cases hrun : ∃ t, e = .run t
      · obtain ⟨t, rfl⟩ := hrun
        rw [(run_kept hr).flag b hb] at hb'
        cases hb'
      · have hk := (step_kept hr (fun t ht => hrun ⟨t, ht⟩) fun c hc => hirun ⟨c, hc⟩).2
        rw [hk, hb] at hb'
        cases hb'
  · rintro ⟨c, id, rfl, hc, hi⟩
    obtain ⟨t, b', j, k, -, hb, hq, -⟩ := h.entry_request hc
    rw [hq.info] at hi
    cases hi
    rcases (irun_kept hr).2 with ⟨-, hk⟩ | ⟨id', b', hc', hi', hk⟩
    · exact absurd hc (hk id)
    · rw [hc] at hc'
      cases hc'
      rw [hq.info] at hi'
      cases hi'
      rw [hk]
      exact ⟨hb, Function.update_self ..⟩

/-- Only a process writes to the available ring, at a place that is not in use. -/
theorem Inv.avail (h : Inv s) {e : Ev T B} {s' : Sys T B} (hr : s.step e = some (.ok s')) {k : Nat}
    (hk : k < Ring.count W s.dev.lastAvail s.disk.avail.idx) :
    s'.disk.avail.ring ((s.dev.lastAvail + k) % NUM) = s.disk.avail.ring ((s.dev.lastAvail + k) % NUM) := by
  by_cases hirun : ∃ c, e = .irun c
  · obtain ⟨c, rfl⟩ := hirun
    rw [(irun_kept hr).1]
  by_cases hrun : ∃ t, e = .run t
  · obtain ⟨t, rfl⟩ := hrun
    rcases (run_kept hr).ring with hq | ⟨b, i, j, l, ht, hq⟩
    · rw [hq]
    · rw [hq]
      have hlt := h.unseen_lt (t := t) (i := i) (by rw [ht]; rfl) (by simp [ht, RwPc.chain])
      exact Ring.write_of_lt (by decide) h.flight.lastAvail h.flight.avail hlt _ i hk
  · rw [(step_kept hr (fun t ht => hrun ⟨t, ht⟩) fun c hc => hirun ⟨c, hc⟩).1]

theorem Inv.disciplined (h : Inv s) {η : Hist B} (hη : HistInv s η) : Disciplined s η where
  disjoint t u htu i ht hu := htu (h.own.disjoint t u i ht hu)
  triple t b i hw := by
    obtain ⟨j, k, hc, hl⟩ := (h.ok t).triple hw
    have hnd := h.own.nodup t
    have hlt := h.own.lt t
    rw [hc] at hnd hlt
    exact ⟨j, k, hc, hnd, hlt, hl⟩
  free := h.own.free
  heads := by
    refine ⟨h.flight.nodup, fun i hi => ?_⟩
    obtain ⟨t, b, hw, -⟩ := h.head hi
    exact ⟨t, b, hw⟩
  cleared := by
    obtain ⟨tail, ht, -⟩ := hη.done
    exact ⟨tail, ht.symm⟩
  caughtUp c _ hu := by
    obtain ⟨tail, ht, hf⟩ := hη.done
    have hn : unhandled s.disk = [] := by
      rw [unhandled, hu]
      exact Ring.window_self _ h.flight.used
    rw [hn] at hf
    cases hf
    rw [ht, List.append_nil]
  flag t b i hw := by
    constructor
    · intro hb
      refine (hη.rest b ?_).symm
      rintro l ⟨u, -, hu⟩
      rw [hb] at hu
      cases hu
    · intro hc
      cases hb : s.b b with
      | false => rfl
      | true =>
        have := hη.flagged b i ⟨t, hw, hb⟩
        omega
  clear _ _ hr b := h.clear hr b
  avail _ _ hr _ hk := h.avail hr hk
  panics e msg hd hr := by
    obtain ⟨s', hs, -⟩ := h.step hd hr
    cases hs

omit [DecidableEq T] in
theorem Init.histInv (h : Init s) : HistInv s ⟨[], [], []⟩ := by
  have hu : unhandled s.disk = [] := by
    rw [unhandled, h.used, h.usedIdx]
    exact Ring.window_self _ (by decide)
  refine ⟨⟨[], rfl, hu ▸ .nil⟩, fun b i hb => ?_, fun _ _ => rfl⟩
  obtain ⟨t, ht, -⟩ := hb
  rw [h.rw] at ht
  cases ht

/-- The driver with the history. -/
def sys (T B : Type) [DecidableEq T] [DecidableEq B] : Lts (Sys T B × Hist B) (Ev T B) :=
  (Lts.ofFun (fun x => Init x.1 ∧ x.2 = ⟨[], [], []⟩) (Lts.histStep (fun s => s.step) Hist.next)).guard fun x => Distinct x.1

theorem discipline {x : Sys T B × Hist B} (h : (sys T B).Reachable x) : Disciplined x.1 x.2 := by
  have hi : Inv x.1 ∧ HistInv x.1 x.2 := by
    refine Lts.Reachable.invariant (L := sys T B) (I := fun x => Inv x.1 ∧ HistInv x.1 x.2) ?_ ?_ h
    · rintro ⟨s, η⟩ ⟨h0, rfl⟩
      exact ⟨h0.inv, h0.histInv⟩
    · rintro x e y ⟨hx, hη⟩ ⟨hd, hs⟩
      obtain ⟨hs, hy⟩ := Lts.histStep_ok hs
      obtain ⟨s', he, hi⟩ := hx.step hd hs
      cases he
      exact ⟨hi, hy ▸ hη.step hx hs⟩
  exact hi.1.disciplined hi.2

/-- After `virtio_disk_init`, with two processes and two buffers. -/
def boot : Sys (Fin 2) (Fin 2) :=
  ⟨⟨fun _ => ⟨.null, 0, 0, 0⟩, ⟨0, fun _ => 0⟩, ⟨0, fun _ => 0⟩, fun i => decide (i < NUM), 0, fun _ => ⟨none, 0⟩, fun _ => ⟨0, 0⟩⟩,
    fun _ => false, none, fun _ => .idle, fun _ => .idle, ⟨0, [], [], none⟩⟩

theorem boot_init : Init boot where
  free _ hi := decide_eq_true hi
  avail := rfl
  used := rfl
  usedIdx := rfl
  b _ := rfl
  lock := rfl
  rw _ := rfl
  intr _ := rfl
  dev := rfl

def distinct (x : Sys (Fin 2) (Fin 2) × Hist (Fin 2)) : Ev (Fin 2) (Fin 2) → Bool
  | .call _ b _ _ => decide (∀ u, (x.1.rw u).buf ≠ some b)
  | _ => true

/-- Process 0 writes the buffer 1, and sleeps until the handler has cleared its flag. -/
def writeRun : List (Ev (Fin 2) (Fin 2)) :=
  let cpu : Fin NCPU := ⟨0, NCPU_pos⟩
  let t : Fin 2 := ⟨0, Nat.two_pos⟩
  [.call t ⟨1, Nat.one_lt_two⟩ 7 true, .run t, .run t, .run t, .run t, .run t, .run t, .run t, .run t, .run t,
    .consume, .finish 0, .add 0, .count, .intr cpu, .irun cpu, .irun cpu, .irun cpu, .irun cpu, .irun cpu]

theorem discipline_writeRun : ∃ x : Sys (Fin 2) (Fin 2) × Hist (Fin 2), x.2.cleared = [1] ∧ Disciplined x.1 x.2 := by
  have hrun : (Lts.replay (Lts.histStep (fun s => s.step) Hist.next) distinct (boot, ⟨[], [], []⟩) writeRun).any
      (fun x => decide (x.2.cleared = [1])) = true := by decide +kernel
  have hc (x : Sys (Fin 2) (Fin 2) × Hist (Fin 2)) (e : Ev (Fin 2) (Fin 2)) (h : distinct x e = true) : Distinct x.1 e := by
    cases e with
    | call t b blockno write =>
      show ∀ u, (x.1.rw u).buf ≠ some b
      exact of_decide_eq_true h
    | _ => trivial
  obtain ⟨x, hx, hp⟩ := Lts.Reachable.replay_any (I := fun x => Init x.1 ∧ x.2 = ⟨[], [], []⟩) hc ⟨boot_init, rfl⟩ hrun
  exact ⟨x, of_decide_eq_true hp, discipline hx⟩

end Virtio

end Xv6
