import Xv6.MemInv

/-!
# Owners of the pages, and the shape of the address spaces

In every state of a run each process outside a call has an address space of the right shape, and in every state without calls each
page of the allocator has exactly one owner.  No call ends in a panic of `vm.c`, `kalloc.c`, `file.c` or `exec.c`.
-/

namespace Xv6

open Function (update)

theorem call_wp [KernelText] {im : Img} (h : im.Ok) (p initproc : Fin NPROC) (c : MemCall) : Mem.wp (c.code p initproc im) CallPost im.res := by
  cases c with
  | fork => exact Mem.fork_wp h p im.contp
  | cfork contp => exact Mem.cfork_wp h p contp
  | exec a => exact Mem.sysExec_wp h a
  | sbrk n => exact Mem.growproc_wp h n
  | openFile found => exact Mem.sysOpen_wp h found
  | dup fd => exact Mem.sysDup_wp h fd
  | pipe fdarray => exact Mem.sysPipe_wp h fdarray
  | close fd => exact Mem.sysClose_wp h fd
  | exit => exact Mem.exit_wp h p initproc
  | wait addr => exact Mem.wait_wp h p addr

namespace MemSys

/-- What process `p` holds, in a call or outside one. -/
def Holds [KernelText] (s : MemSys) (p : Fin NPROC) (g : Multiset Res) : Prop :=
  match s.th p with
  | none => g = 0 ∧ (s.k.slot p).st ≠ .incall
  | some c => (s.k.slot p).st = .incall ∧ Mem.wp c CallPost g

variable {L : Layout} {s t : MemSys}

/-- What each process holds accounts for the kernel. -/
structure InvAt (L : Layout) (s : MemSys) (own : Fin NPROC → Multiset Res) : Prop where
  acc : Acc L s.k (held s.k.slot own)
  holds : ∀ p, s.Holds p (own p)

def Inv (L : Layout) (s : MemSys) : Prop := ∃ own, s.InvAt L own

/-! ### The start -/

theorem run_acc {α : Type} {p : Fin NPROC} {c : Mem α} {Q : α → Multiset Res → Prop} {k k' : Kernel} {own : Fin NPROC → Multiset Res}
    {a : α} (h : Acc L k (held k.slot own)) (hst : ∀ q, (k.slot q).st ≠ .incall) (hc : Mem.wp c Q (own p))
    (hr : Kernel.run L c k = some (a, k')) :
    ∃ g, Q a g ∧ Acc L k' (held k'.slot (update own p g)) ∧ ∀ q, (k'.slot q).st ≠ .incall := by
  unfold Mem.wp at hc
  induction c generalizing k own with
  | ret b =>
    simp only [Kernel.run, Option.some.injEq, Prod.mk.injEq] at hr
    obtain ⟨rfl, rfl⟩ := hr
    exact ⟨own p, hc, by rwa [Function.update_eq_self], hst⟩
  | panic msg => simp [Kernel.run] at hr
  | call o f ih =>
    simp only [Kernel.run] at hr
    split at hr
    · rename_i x k1 hx
      obtain ⟨y, k2, he, hst', g, hg, h', -⟩ := h.exec hc hx
      cases he
      obtain ⟨g', hg', h'', hst''⟩ := ih x h' (fun q => (hst' q).not.2 (hst q)) (by rw [Function.update_self]; exact hg) hr
      rw [Function.update_idem] at h''
      exact ⟨g', hg', h'', hst''⟩
    · cases hr

theorem fresh_acc {k : Kernel} (h : k.Fresh L) : Acc L k (held k.slot fun _ => 0) := by
  have hheld : ∀ r, held k.slot (fun _ => 0) r = 0 := by
    intro r
    simp [held, MemSlot.res, h.slot]
  refine ⟨fun p => ?_, ⟨fun f => ?_, fun f hf => ?_, fun f _ => ?_, fun pi w => ?_, fun pi x hx => ?_⟩,
    ⟨fun q => ?_, fun q _ => ?_, fun q hq => ?_, fun q hq => ?_, ?_, fun q _ => ?_⟩⟩
  · have := congrArg (Multiset.count p) h.free
    rw [Multiset.count_add, Multiset.coe_count] at this
    rw [heldPage, hheld, hheld, h.pipe]
    simpa using this
  · rw [hheld, hheld, h.file]
  · rw [hheld] at hf
    omega
  · rw [h.file]
  · rw [hheld, Acc.isOpen_none (h.pipe pi), Kernel.ends]
    simp [h.file]
  · rw [h.pipe] at hx
    cases hx
  · rw [hheld, h.slot]
    rfl
  · rw [h.slot]
  · rw [h.slot] at hq
    simp at hq
  · rw [h.slot] at hq
    simp at hq
  · rw [h.unused]
    exact List.nodup_finRange NPROC
  · rw [h.slot]

theorem Inv.init (h : s.Init L) : s.Inv L := by
  obtain ⟨k, contRoot, q, k', hf, hr, rfl⟩ := h
  have hst : ∀ q, (k.slot q).st ≠ .incall := fun q => by
    rw [hf.slot]
    simp
  obtain ⟨g, hg, h', hst'⟩ := run_acc (p := ⟨0, by decide⟩) (fresh_acc hf) hst (Mem.userinit_wp contRoot) hr
  obtain rfl := hg (by simp)
  rw [Function.update_eq_self] at h'
  refine ⟨fun _ => 0, ⟨h'.pages, ?_, ?_⟩, fun p => ⟨rfl, hst' p⟩⟩
  · exact h'.files.congr rfl rfl (fun f => ⟨rfl, rfl⟩) fun _ _ => rfl
  · exact h'.slots.congr rfl rfl fun _ => rfl

/-! ### Steps -/

theorem Holds.none {p : Fin NPROC} {g : Multiset Res} (h : s.Holds p g) (ht : s.th p = none) :
    g = 0 ∧ (s.k.slot p).st ≠ .incall := by
  unfold Holds at h
  rwa [ht] at h

theorem Holds.some {p : Fin NPROC} {g : Multiset Res} {c : Mem Outcome} (h : s.Holds p g) (ht : s.th p = some c) :
    (s.k.slot p).st = .incall ∧ Mem.wp c CallPost g := by
  unfold Holds at h
  rwa [ht] at h

/-- A step of `p` leaves what the other processes hold. -/
theorem Holds.other {q : Fin NPROC} {g : Multiset Res} (h : s.Holds q g) (ht : t.th q = s.th q)
    (hst : (t.k.slot q).st = .incall ↔ (s.k.slot q).st = .incall) : t.Holds q g := by
  unfold Holds
  rw [ht]
  cases hq : s.th q with
  | none => exact ⟨(h.none hq).1, hst.not.2 (h.none hq).2⟩
  | some c => exact ⟨hst.2 (h.some hq).1, (h.some hq).2⟩

/-- The slot of `p` takes over what `p` held in the call, or gives it to the call. -/
theorem held_setSlot (k : Kernel) {own : Fin NPROC → Multiset Res} {p : Fin NPROC} {x : MemSlot} {g : Multiset Res}
    (hg : own p + (k.slot p).res = g + x.res) (r : Res) : held (k.setSlot p x).slot (update own p g) r = held k.slot own r := by
  have h1 : Moved (held k.slot own) (held k.slot (update own p g)) (own p) g := by
    have := held_own k.slot (p := p) (b := g) (add_zero (own p)).symm
    rwa [add_zero] at this
  have h2 := held_slot k.slot (update own p g) p x r
  have h3 := congrArg (Multiset.count r) hg
  have h4 := h1 r
  simp only [Multiset.count_add] at h3
  change held (update k.slot p x) _ r = _
  omega

theorem acc_slot {k : Kernel} {own : Fin NPROC → Multiset Res} (h : Acc L k (held k.slot own)) {p : Fin NPROC} {x : MemSlot}
    (hst : (k.slot p).st ≠ .used ∧ (k.slot p).st ≠ .unused) (hx : x.st ≠ .used ∧ x.st ≠ .unused)
    (hok : x.st = .live ∨ x.st = .zombie → x.im.Ok) (hclosed : x.st = .zombie → x.im.ofile = fun _ => none)
    {g : Multiset Res} (hg : own p + (k.slot p).res = g + x.res) :
    Acc L (k.setSlot p x) (held (k.setSlot p x).slot (update own p g)) := by
  have hsame := held_setSlot k hg
  refine h.setSlot (fun r _ => hsame r) (fun i _ => hsame _) ?_ (fun h => absurd h hx.2) hok hclosed h.slots.nodup fun i hi => ?_
  · rw [hsame, h.slots.slot, if_neg hst.1, if_neg hx.1]
  · rw [if_neg]
    · exact hi
    · rintro rfl
      exact hst.2 (h.slots.unused i hi)

/-- `reparent` does not concern memory. -/
theorem held_parent {k k' : Kernel} (own : Fin NPROC → Multiset Res)
    (hs : ∀ q, (k'.slot q).st = (k.slot q).st ∧ (k'.slot q).im = (k.slot q).im) : held k'.slot own = held k.slot own := by
  funext r
  have : ∀ q, (k'.slot q).res = (k.slot q).res := fun q => by rw [MemSlot.res, MemSlot.res, (hs q).1, (hs q).2]
  simp only [held, this]

theorem acc_parent {k k' : Kernel} {own : Fin NPROC → Multiset Res} (h : Acc L k (held k.slot own)) (hf : k'.free = k.free)
    (hfile : k'.file = k.file) (hp : k'.pipe = k.pipe) (hu : k'.unused = k.unused)
    (hs : ∀ q, (k'.slot q).st = (k.slot q).st ∧ (k'.slot q).im = (k.slot q).im) : Acc L k' (held k'.slot own) := by
  rw [held_parent own hs]
  refine ⟨h.pages.congr hf hp fun _ => rfl, h.files.congr hfile hp (fun _ => ⟨rfl, rfl⟩) fun _ _ => rfl, ?_⟩
  refine ⟨fun q => ?_, fun q => ?_, fun q => ?_, fun q => ?_, hu ▸ h.slots.nodup, fun q hq => ?_⟩
  · rw [(hs q).1, h.slots.slot]
  · rw [(hs q).1, (hs q).2]
    exact h.slots.blank q
  · rw [(hs q).1, (hs q).2]
    exact h.slots.ok q
  · rw [(hs q).1, (hs q).2]
    exact h.slots.closed q
  · rw [(hs q).1]
    exact h.slots.unused q (hu ▸ hq)

variable {own : Fin NPROC → Multiset Res}

theorem InvAt.call (h : s.InvAt L own) {p : Fin NPROC} (hl : (s.k.slot p).st = .live) (c : MemCall) : ∃ own',
    InvAt L ⟨s.k.setSlot p { s.k.slot p with st := .incall }, update s.th p (some (c.code p s.k.initproc (s.k.slot p).im))⟩ own' ∧
      ∀ r, held (s.k.setSlot p { s.k.slot p with st := .incall }).slot own' r = held s.k.slot own r := by
  have hth : s.th p = none := by
    cases ht : s.th p with
    | none => rfl
    | some c =>
      have := ((h.holds p).some ht).1
      rw [hl] at this
      cases this
  have him := h.acc.slots.ok p (.inl hl)
  have hg : own p + (s.k.slot p).res = (s.k.slot p).im.res + MemSlot.res { s.k.slot p with st := .incall } := by
    rw [((h.holds p).none hth).1, MemSlot.res, MemSlot.res, hl, zero_add, add_zero]
  refine ⟨update own p (s.k.slot p).im.res, ⟨acc_slot h.acc ?_ ?_ ?_ ?_ hg, fun q => ?_⟩, held_setSlot s.k hg⟩
  · rw [hl]
    simp
  · simp
  · simp
  · simp
  · by_cases hq : q = p
    · subst hq
      unfold Holds
      simp only [Function.update_self, Kernel.setSlot]
      exact ⟨trivial, call_wp him q s.k.initproc c⟩
    · rw [Function.update_of_ne hq]
      refine (h.holds q).other (Function.update_of_ne hq ..) ?_
      simp only [Kernel.setSlot, Function.update_of_ne hq]

theorem InvAt.done (h : s.InvAt L own) {p : Fin NPROC} {r : Outcome} (ht : s.th p = some (.ret r)) :
    ∃ own', InvAt L (s.done p r) own' ∧ ∀ x, held (s.done p r).k.slot own' x = held s.k.slot own x := by
  obtain ⟨hst, hwp⟩ := (h.holds p).some ht
  unfold Mem.wp at hwp
  obtain ⟨hok, hres, hexit⟩ : CallPost r (own p) := hwp
  have hstate : ∀ (k : Kernel) (x : MemSlot), (s.done p r).k = k.setSlot p x → Acc L k (held k.slot own) →
      held k.slot own = held s.k.slot own → (∀ q, (k.slot q).st = (s.k.slot q).st) → x.im = r.im → x.st = .live ∨ x.st = .zombie →
      (x.st = .zombie → r.exited = true) →
      ∃ own', InvAt L (s.done p r) own' ∧ ∀ x, held (s.done p r).k.slot own' x = held s.k.slot own x := by
    intro k x hk hacc' hheld hst' him hx hz
    have hg : own p + (k.slot p).res = 0 + x.res := by
      have hxres : x.res = r.im.res := by
        rw [MemSlot.res, him]
        rcases hx with hx | hx <;> rw [hx]
      rw [hxres, hres, zero_add, MemSlot.res, hst' p, hst, add_zero]
    refine ⟨update own p 0, ⟨?_, fun q => ?_⟩, fun y => ?_⟩
    · rw [hk]
      refine acc_slot hacc' ?_ ?_ (fun _ => him ▸ hok) (fun h => him ▸ hexit (hz h)) hg
      · rw [hst' p, hst]
        simp
      · rcases hx with hx | hx <;> simp [hx]
    · by_cases hq : q = p
      · subst hq
        unfold Holds
        rw [hk]
        simp only [MemSys.done, Function.update_self, Kernel.setSlot]
        rcases hx with hx | hx <;> simp [hx]
      · rw [Function.update_of_ne hq]
        refine (h.holds q).other (Function.update_of_ne hq ..) ?_
        rw [hk]
        simp only [Kernel.setSlot, Function.update_of_ne hq, hst' q]
    · rw [hk, held_setSlot k hg, hheld]
  by_cases he : r.exited = true
  · have hk : (s.done p r).k = s.k.exited p r.im := if_pos he
    exact hstate _ _ hk (acc_parent h.acc rfl rfl rfl rfl fun q => ⟨rfl, rfl⟩) (held_parent own fun q => ⟨rfl, rfl⟩) (fun q => rfl)
      rfl (.inr rfl) fun _ => he
  · have hk : (s.done p r).k = s.k.setSlot p { s.k.slot p with st := .live, im := r.im } := if_neg he
    exact hstate _ _ hk h.acc rfl (fun q => rfl) rfl (.inl rfl) fun h => by cases h

/-- One operation of a call. -/
theorem InvAt.next (h : s.InvAt L own) {p : Fin NPROC} {o : MemOp} {f : o.Ans → Mem Outcome} (ht : s.th p = some (.call o f))
    {killed : Bool} {r : Except String (o.Ans × Kernel)} (hr : s.k.exec L killed o = some r) :
    ∃ x k' own', r = .ok (x, k') ∧ InvAt L ⟨k', update s.th p (some (f x))⟩ own' ∧ ∀ pi, held k'.slot own' (.dead pi) +
      Acc.deadOut (held s.k.slot own) o pi = held s.k.slot own (.dead pi) + Acc.deadIn o x pi := by
  obtain ⟨hst, hwp⟩ := (h.holds p).some ht
  unfold Mem.wp at hwp
  obtain ⟨x, k', rfl, hst', g, hg, hacc', hdead⟩ := h.acc.exec hwp hr
  refine ⟨x, k', update own p g, rfl, ⟨hacc', fun q => ?_⟩, hdead⟩
  by_cases hq : q = p
  · subst hq
    unfold Holds
    simp only [Function.update_self]
    refine ⟨(hst' q).2 hst, ?_⟩
    unfold Mem.wp
    exact hg
  · rw [Function.update_of_ne hq]
    exact (h.holds q).other (Function.update_of_ne hq ..) (hst' q)

/-- A step keeps the invariant, and panics only as `MemPanic` says. -/
theorem Inv.step (h : s.Inv L) {e : MemEv} {r : Except String MemSys} (hs : s.step L e = some r) :
    (∀ t, r = .ok t → t.Inv L) ∧ ∀ msg, r = .error msg → MemPanic msg := by
  obtain ⟨own, h⟩ := h
  cases e with
  | call p c =>
    simp only [MemSys.step] at hs
    split at hs
    · rename_i hl
      cases hs
      refine ⟨fun t ht => ?_, fun msg hm => by cases hm⟩
      cases ht
      obtain ⟨own', h', -⟩ := h.call hl c
      exact ⟨own', h'⟩
    · cases hs
  | next p killed =>
    simp only [MemSys.step] at hs
    split at hs
    · rename_i c ht
      cases c with
      | ret a => simp [MemSys.next] at hs
      | panic msg =>
        simp only [MemSys.next, Option.some.injEq] at hs
        subst hs
        refine ⟨fun t ht => ?_, fun msg' hm => ?_⟩
        · cases ht
        · cases hm
          have hwp := ((h.holds p).some ht).2
          unfold Mem.wp at hwp
          exact hwp
      | call o f =>
        simp only [MemSys.next] at hs
        split at hs
        · cases hs
        · rename_i msg he
          obtain ⟨x, k', own', hr, -⟩ := h.next ht he
          cases hr
        · rename_i x k' he
          obtain ⟨x', k'', own', hr, h', -⟩ := h.next ht he
          cases hr
          cases hs
          refine ⟨fun t ht => ?_, fun msg hm => by cases hm⟩
          cases ht
          exact ⟨own', h'⟩
    · cases hs
  | done p =>
    simp only [MemSys.step] at hs
    split at hs
    · rename_i a ht
      cases hs
      refine ⟨fun t ht' => ?_, fun msg hm => by cases hm⟩
      cases ht'
      obtain ⟨own', h', -⟩ := h.done ht
      exact ⟨own', h'⟩
    · cases hs

theorem Inv.reachable (h : (memLts L).Reachable s) : s.Inv L :=
  Lts.Reachable.invariant (fun _ h => Inv.init h) (fun _ _ t h hs => (Inv.step h hs).1 t rfl) h

end MemSys

/-- A process outside a call holds pages and references only. -/
theorem MemSlot.count_other (x : MemSlot) {r : Res} (hp : ∀ p, r ≠ .page p) (hf : ∀ f, r ≠ .ref f) : x.res.count r = 0 := by
  apply Multiset.count_eq_zero_of_notMem
  have himg : ∀ im : Img, r ∉ im.res := by
    intro im
    simp only [Img.res, Multiset.mem_add, not_or]
    refine ⟨⟨?_, ?_⟩, ?_⟩
    · cases im.trapframe with
      | none => simp
      | some p => simpa using hp p
    · cases im.pagetable with
      | none => simp
      | some t =>
        simp only [Option.elim_some, PageTable.space, Res.ofPages, Multiset.mem_add, Multiset.mem_map, not_or, not_exists, not_and]
        exact ⟨fun p _ h => hp p h.symm, fun p _ h => hp p h.symm⟩
    · simp only [Img.refs, Multiset.mem_sum, not_exists, not_and]
      intro fd _
      cases im.ofile fd with
      | none => simp
      | some f => simpa using hf f
  unfold MemSlot.res
  split <;> first | exact himg _ | simp

theorem held_quiet (slot : Fin NPROC → MemSlot) {r : Res} (hp : ∀ p, r ≠ .page p) (hf : ∀ f, r ≠ .ref f) :
    held slot (fun _ => 0) r = 0 := by
  simp [held, MemSlot.count_other _ hp hf]

namespace MemSys

variable {L : Layout} {s : MemSys}

/-- No process is in a call. -/
def Quiet (s : MemSys) : Prop := ∀ p, s.th p = none

/-- Outside of calls nothing but the slots holds anything. -/
theorem Inv.quiet (h : s.Inv L) (hq : s.Quiet) : Acc L s.k (held s.k.slot fun _ => 0) ∧ ∀ p, (s.k.slot p).st ≠ .used ∧
    (s.k.slot p).st ≠ .incall := by
  obtain ⟨own, hacc, hh⟩ := h
  have hown : own = fun _ => 0 := funext fun p => ((hh p).none (hq p)).1
  subst hown
  refine ⟨hacc, fun p => ⟨fun hu => ?_, ((hh p).none (hq p)).2⟩⟩
  -- a slot in use by a call would be held
  have hslot := hacc.slots.slot p
  rw [held_quiet s.k.slot (by simp) (by simp), if_pos hu] at hslot
  cases hslot

end MemSys

/-! ### Address spaces -/

/-- The mappings of an address space of size `sz`. -/
structure UserSpace (t : PageTable) (sz : Nat) : Prop where
  mapped : ∀ i < 2 ^ 27, (t.get i).isSome ↔ i * PGSIZE < PGROUNDUP sz ∨ i * PGSIZE = TRAPFRAME ∨ i * PGSIZE = TRAMPOLINE
  kernel : ∀ i e, t.get i = some e → i * PGSIZE = TRAPFRAME ∨ i * PGSIZE = TRAMPOLINE → e.perm.u = false

theorem Shape.userSpace [KernelText] {t : PageTable} {sz : Nat} {page : Page} (h : Shape t (npages sz) page) : UserSpace t sz := by
  have hf : TRAPFRAME = TFPAGE * PGSIZE := by decide
  have hr : TRAMPOLINE = TRPAGE * PGSIZE := by decide
  have hpos : 0 < PGSIZE := by decide
  have hinj : ∀ i j : Nat, i * PGSIZE = j * PGSIZE ↔ i = j := fun i j => Nat.mul_left_inj (by decide)
  refine ⟨fun i hi => ?_, fun i e he hk => ?_⟩
  · rw [pgroundup_eq, hf, hr, hinj, hinj, Nat.mul_lt_mul_right hpos]
    constructor
    · intro hsome
      by_contra hno
      simp only [not_or, Nat.not_lt] at hno
      rw [h.rest i hi hno.1 hno.2.1 hno.2.2] at hsome
      cases hsome
    · rintro (hlt | rfl | rfl)
      · obtain ⟨e, he, -⟩ := h.user i hlt
        rw [he]
        rfl
      · rw [h.frame]
        rfl
      · rw [h.tramp]
        rfl
  · rw [hf, hr, hinj, hinj] at hk
    rcases hk with rfl | rfl
    · rw [h.frame] at he
      cases he
      rfl
    · rw [h.tramp] at he
      cases he
      rfl

/-- The panics of `vm.c` and `exec.c` about the mappings of an address space. -/
def vmPanics : List String :=
  ["walk", "mappages: remap", "uvmunmap: walk", "uvmunmap: not mapped", "uvmunmap: not a leaf", "freewalk: leaf",
    "uvmcopy: pte should exist", "uvmcopy: page not present", "loadseg: address should exist"]

/-- Every process that is not in a call has an address space of its size, and the panics about it are not reached. -/
theorem address_space_shape (L : Layout) : (∀ s, (memLts L).Reachable s → ∀ p,
      (s.k.slot p).st = .live ∨ (s.k.slot p).st = .zombie →
      ∃ t, (s.k.slot p).im.pagetable = some t ∧ UserSpace t (s.k.slot p).im.sz) ∧
    ∀ msg ∈ vmPanics, ¬(memLts L).Panics msg := by
  refine ⟨fun s hs p hp => ?_, fun msg hmsg hpanic => ?_⟩
  · obtain ⟨own, hacc, -⟩ := MemSys.Inv.reachable hs
    obtain ⟨page, t, -, ht, hshape⟩ := (hacc.slots.ok p hp).shape
    exact ⟨t, ht, hshape.userSpace⟩
  · obtain ⟨s, e, hs, hst⟩ := hpanic
    have hm := ((MemSys.Inv.reachable hs).step hst).2 msg rfl
    rcases hm with rfl | rfl
    · exact absurd hmsg (by decide)
    · exact absurd hmsg (by decide)

/-! ### Pages -/

/-- The pages of a process: its trapframe, the pages of its page table, and the pages mapped below `sz`. -/
def MemSlot.pages (x : MemSlot) : Multiset Page :=
  if x.st = .unused then 0
  else x.im.trapframe.elim 0 (fun p => {p}) + x.im.pagetable.elim 0 (fun t => t.tables + t.frames (npages x.im.sz))

/-- The pages of the pipes that are not freed. -/
def Kernel.pipes (L : Layout) (k : Kernel) : Finset Page := L.pages.filter fun p => (k.pipe p).isSome

theorem MemSlot.count_pages {x : MemSlot} (h : x.st ≠ .used ∧ x.st ≠ .incall) (p : Page) :
    x.pages.count p = x.res.count (.page p) := by
  have hof : ∀ m : Multiset Page, (Res.ofPages m).count (.page p) = m.count p := fun m =>
    Multiset.count_map_eq_count' _ _ (fun _ _ h => Res.page.inj h) _
  have hrefs : ∀ ofile, (Img.refs ofile).count (.page p) = 0 := by
    intro ofile
    apply Multiset.count_eq_zero_of_notMem
    simp only [Img.refs, Multiset.mem_sum, not_exists, not_and]
    intro fd _
    cases ofile fd <;> simp
  have himg : ∀ im : Img, (im.trapframe.elim 0 (fun p => {p}) +
      im.pagetable.elim 0 (fun t => t.tables + t.frames (npages im.sz))).count p = im.res.count (.page p) := by
    intro im
    rw [Img.res, Multiset.count_add, Multiset.count_add, Multiset.count_add, hrefs, add_zero]
    congr 1
    · cases im.trapframe with
      | none => rfl
      | some q => exact (hof {q}).symm
    · cases im.pagetable with
      | none => rfl
      | some t => rw [Option.elim_some, Option.elim_some, PageTable.space, ← Res.ofPages_add, hof]
  unfold MemSlot.pages MemSlot.res
  cases hst : x.st with
  | unused => rfl
  | used => exact absurd hst h.1
  | incall => exact absurd hst h.2
  | live => exact himg x.im
  | zombie => exact himg x.im

/-- A pipe that is not freed is a page of the allocator. -/
theorem Acc.mem_of_pipe {L : Layout} {k : Kernel} {H : Res → Nat} (h : Acc L k H) {pi : Page} (hp : (k.pipe pi).isSome) :
    pi ∈ L.pages := by
  have := h.pages pi
  rw [if_pos hp] at this
  exact Multiset.count_pos.1 (by omega : 0 < Multiset.count pi L.pages.val)

theorem Acc.pages_eq {L : Layout} {k : Kernel} (h : Acc L k (held k.slot fun _ => 0))
    (hst : ∀ q, (k.slot q).st ≠ .used ∧ (k.slot q).st ≠ .incall) :
    (k.free : Multiset Page) + L.boot.val + ∑ q, (k.slot q).pages + (k.pipes L).val = L.pages.val := by
  ext p
  have h1 := h.pages p
  have hheld : heldPage (held k.slot fun _ => 0) p = ∑ q, (k.slot q).pages.count p := by
    have hdead : held k.slot (fun _ => 0) (.dead p) = 0 := held_quiet k.slot (by simp) (by simp)
    rw [heldPage, hdead]
    simp only [held, Multiset.count_zero, Finset.sum_const_zero, Nat.zero_add, Nat.add_zero]
    exact Finset.sum_congr rfl fun q _ => (MemSlot.count_pages (hst q) p).symm
  have hpipe : (k.pipes L).val.count p = if (k.pipe p).isSome then 1 else 0 := by
    by_cases hp : (k.pipe p).isSome
    · rw [if_pos hp, Multiset.count_eq_one_of_mem (k.pipes L).nodup]
      exact Finset.mem_filter.2 ⟨h.mem_of_pipe hp, hp⟩
    · rw [if_neg hp, Multiset.count_eq_zero_of_notMem]
      intro hmem
      exact hp (Finset.mem_filter.1 (Finset.mem_def.2 hmem)).2
  rw [Multiset.count_add, Multiset.count_add, Multiset.count_add, Multiset.coe_count, Multiset.count_sum', hpipe]
  omega

/-- The number of pages that processes and pipes have. -/
def Kernel.inUse (L : Layout) (k : Kernel) : Nat := ∑ q, Multiset.card (k.slot q).pages + (k.pipes L).card

/-- Between calls each page of the allocator is on the free list once, taken at boot, or the page of one process or one pipe.
Hence what the processes and pipes have gained since an earlier such state is what the free list has lost. -/
theorem pages_owned_once {L : Layout} {s : MemSys} (hs : (memLts L).Reachable s) (hq : s.Quiet) :
    (s.k.free : Multiset Page) + L.boot.val + ∑ q, (s.k.slot q).pages + (s.k.pipes L).val = L.pages.val ∧
    (∀ pi, (s.k.pipe pi).isSome → pi ∈ L.pages) ∧
    ∀ s₀, (memLts L).Reachable s₀ → s₀.Quiet → s.k.free.length + s.k.inUse L = s₀.k.free.length + s₀.k.inUse L := by
  have hall : ∀ s, (memLts L).Reachable s → s.Quiet →
      (s.k.free : Multiset Page) + L.boot.val + ∑ q, (s.k.slot q).pages + (s.k.pipes L).val = L.pages.val := fun s hs hq =>
    ((MemSys.Inv.reachable hs).quiet hq).1.pages_eq ((MemSys.Inv.reachable hs).quiet hq).2
  have hcard : ∀ s, (memLts L).Reachable s → s.Quiet → s.k.free.length + L.boot.card + s.k.inUse L = L.pages.card := by
    intro s hs hq
    have := congrArg Multiset.card (hall s hs hq)
    simp only [Multiset.card_add, Multiset.coe_card, Multiset.card_sum, Finset.card_val] at this
    unfold Kernel.inUse
    omega
  refine ⟨hall s hs hq, fun pi hp => ((MemSys.Inv.reachable hs).quiet hq).1.mem_of_pipe hp, fun s₀ hs₀ hq₀ => ?_⟩
  have h1 := hcard s hs hq
  have h2 := hcard s₀ hs₀ hq₀
  omega

/-- A machine with eight pages left for processes. -/
local instance sampleLayout : Layout where
  trampoline := KERNBASE / PGSIZE + 7
  kend := PHYSTOP - 8 * PGSIZE
  kend_ge := by decide
  boot := ∅

def sampleKernel : Kernel where
  free := List.range' (PHYSTOP / PGSIZE - 8) 8
  file _ := {}
  pipe _ := none
  slot _ := {}
  unused := List.finRange NPROC
  initproc := ⟨0, NPROC_pos⟩

/-- The state after `userinit` on `sampleKernel`. -/
def sampleStart : MemSys :=
  match Kernel.run sampleLayout (Mem.userinit 0) sampleKernel with
  | some (some q, k) => ⟨{ k with initproc := q }, fun _ => none⟩
  | _ => ⟨sampleKernel, fun _ => none⟩

theorem sampleStart_init : sampleStart.Init sampleLayout := by
  have hfresh : sampleKernel.Fresh sampleLayout := ⟨by decide +kernel, fun _ => rfl, fun _ => rfl, fun _ => rfl, rfl⟩
  have hrun : (Kernel.run sampleLayout (Mem.userinit 0) sampleKernel).any (fun x => x.1.isSome) = true := by decide +kernel
  cases hr : Kernel.run sampleLayout (Mem.userinit 0) sampleKernel with
  | none =>
    rw [hr] at hrun
    cases hrun
  | some x =>
    obtain ⟨q, k⟩ := x
    cases q with
    | none =>
      rw [hr] at hrun
      cases hrun
    | some q => exact ⟨sampleKernel, 0, q, k, hfresh, hr, by rw [sampleStart, hr]⟩

/-- `sbrk(1)` of the first process. -/
def sbrkRun : List MemEv := [.call ⟨0, NPROC_pos⟩ (.sbrk 1), .next ⟨0, NPROC_pos⟩ false, .done ⟨0, NPROC_pos⟩]

/-- No process but that in slot 0, no call, no pipe, no free page. -/
def afterSbrk (s : MemSys) : Bool :=
  (List.finRange NPROC).all (fun q => (s.th q).isNone && (q.val == 0 || (s.k.slot q).st == .unused)) &&
    (sampleKernel.free.all fun pi => (s.k.pipe pi).isNone) && s.k.free.length == 0

theorem sbrkRun_ends : ∃ s, Lts.replay (fun s e => s.step sampleLayout e) (fun _ _ => true) sampleStart sbrkRun = some s ∧
    (memLts sampleLayout).Reachable s ∧ afterSbrk s = true := by
  have hany : (Lts.replay (fun s e => s.step sampleLayout e) (fun _ _ => true) sampleStart sbrkRun).any afterSbrk = true := by
    decide +kernel
  cases hr : Lts.replay (fun s e => s.step sampleLayout e) (fun _ _ => true) sampleStart sbrkRun with
  | none =>
    rw [hr] at hany
    cases hany
  | some s =>
    rw [hr] at hany
    have hreach := Lts.Reachable.replay (C := fun _ _ => True) (fun _ _ _ => trivial)
      (.of_init (show ((memLts sampleLayout).guard _).init _ from sampleStart_init)) hr
    exact ⟨s, rfl, hreach.of_guard, hany⟩

theorem afterSbrk_quiet {s : MemSys} (h : afterSbrk s = true) : s.Quiet := by
  intro q
  simp only [afterSbrk, Bool.and_eq_true, List.all_eq_true] at h
  exact Option.isNone_iff_eq_none.1 (h.1.1 q (List.mem_finRange q)).1

theorem pages_owned_once_sbrkRun : ∃ s, (memLts sampleLayout).Reachable s ∧ s.Quiet ∧
    s.k.free.length + s.k.inUse sampleLayout = sampleStart.k.free.length + sampleStart.k.inUse sampleLayout := by
  obtain ⟨s, -, hs, ha⟩ := sbrkRun_ends
  have hstart : (memLts sampleLayout).Reachable sampleStart := .of_init sampleStart_init
  have hq₀ : sampleStart.Quiet := by
    obtain ⟨k, c, q, k', -, -, he⟩ := sampleStart_init
    rw [he]
    exact fun _ => rfl
  exact ⟨s, hs, afterSbrk_quiet ha, (pages_owned_once hs (afterSbrk_quiet ha)).2.2 sampleStart hstart hq₀⟩

/-- No process was created and there is no pipe, but the first process has one page more. -/
theorem sbrk_keeps_page : ¬∀ (L : Layout) (s₀ s : MemSys) (es : List MemEv), s₀.Init L →
    Lts.replay (fun s e => s.step L e) (fun _ _ => true) s₀ es = some s → s.Quiet →
    (∀ q, (s.k.slot q).st ≠ .unused → (s₀.k.slot q).st ≠ .unused) → (∀ pi, s.k.pipe pi = none) →
    s.k.free.length = s₀.k.free.length := by
  intro h
  obtain ⟨s, hr, hs, ha⟩ := sbrkRun_ends
  have hq := afterSbrk_quiet ha
  have hall := ha
  simp only [afterSbrk, Bool.and_eq_true, List.all_eq_true, Bool.or_eq_true, beq_iff_eq] at hall
  have hlive : (sampleStart.k.slot ⟨0, by decide⟩).st ≠ .unused := by decide +kernel
  have hfree : sampleStart.k.free.length ≠ 0 := by decide +kernel
  have heq := h sampleLayout sampleStart s sbrkRun sampleStart_init hr hq (fun q hst => ?_) (fun pi => ?_)
  · exact hfree (heq.symm.trans hall.2)
  · rcases (hall.1.1 q (List.mem_finRange q)).2 with h0 | h0
    · have : q = ⟨0, by decide⟩ := Fin.ext h0
      rw [this]
      exact hlive
    · exact absurd h0 hst
  · by_contra hne
    have hmem := ((MemSys.Inv.reachable hs).quiet hq).1.mem_of_pipe (Option.isSome_iff_ne_none.2 hne)
    have hin : pi ∈ sampleKernel.free := by
      have : (sampleKernel.free : Multiset Page) = sampleLayout.pages.val := by decide +kernel
      exact Multiset.mem_coe.1 (this ▸ hmem)
    exact hne (Option.isNone_iff_eq_none.1 (hall.1.2 pi hin))

end Xv6
