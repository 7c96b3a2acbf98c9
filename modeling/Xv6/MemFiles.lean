import Xv6.MemOwner

/-!
# References to open files

Between calls the count of a file is the number of descriptors that refer to it, and the flags of a pipe say which of its ends is
a file in use.  A history counts, for each page, how often it was made a pipe, how often both ends of such a pipe had become
closed and how often the page was freed then.
-/

namespace Xv6

open Function (update)

/-- The descriptors of all processes that refer to `f`. -/
def Kernel.descriptors (k : Kernel) (f : Fin NFILE) : Nat :=
  ∑ p, (Finset.univ.filter fun fd => (k.slot p).im.ofile fd = some f).card

theorem count_refs (ofile : Fin NOFILE → Option (Fin NFILE)) (f : Fin NFILE) :
    (Img.refs ofile).count (.ref f) = (Finset.univ.filter fun fd => ofile fd = some f).card := by
  rw [Img.refs, Multiset.count_sum', Finset.card_filter]
  apply Finset.sum_congr rfl
  intro fd _
  cases ofile fd with
  | none => simp
  | some g => simp [Multiset.count_singleton, eq_comm]

/-- The references that a slot holds are those of its descriptors. -/
theorem MemSlot.count_ref {x : MemSlot} (h : x.st ≠ .used ∧ x.st ≠ .incall) (hb : x.st = .unused → x.im = {}) (f : Fin NFILE) :
    x.res.count (.ref f) = (Finset.univ.filter fun fd => x.im.ofile fd = some f).card := by
  have himg : ∀ im : Img, im.res.count (.ref f) = (Finset.univ.filter fun fd => im.ofile fd = some f).card := by
    intro im
    rw [Img.res, Multiset.count_add, Multiset.count_add, count_refs, Multiset.count_eq_zero_of_notMem,
      Multiset.count_eq_zero_of_notMem, Nat.zero_add]
    · cases im.pagetable with
      | none => simp
      | some t => simp [PageTable.space, Res.ofPages]
    · cases im.trapframe <;> simp
  unfold MemSlot.res
  cases hst : x.st with
  | unused => simp [hb hst]
  | used => exact absurd hst h.1
  | incall => exact absurd hst h.2
  | live => exact himg x.im
  | zombie => exact himg x.im

/-! ### The history of the pipes -/

/-- How often a page was made a pipe, how often both ends of such a pipe had become closed, and how often its page was freed then. -/
structure PipeCount where
  made : Nat := 0
  closed : Nat := 0
  freed : Nat := 0
  deriving DecidableEq

/-- The counts of page `pi` after an operation with answer `x`. -/
def PipeCount.after (h : PipeCount) (pi : Page) : (o : MemOp) → o.Ans → PipeCount
  | .pipeinit _ _ page, _ => if page = pi then { h with made := h.made + 1 } else h
  | .pipeclose page _, true => if page = pi then { h with closed := h.closed + 1 } else h
  | .kfree page, _ => if page = pi ∧ h.freed < h.closed then { h with freed := h.freed + 1 } else h
  | _, _ => h

/-- The history after step `e` of `s`. -/
def MemSys.pipeHist (L : Layout) (s : MemSys) (e : MemEv) (h : Page → PipeCount) : Page → PipeCount :=
  match e with
  | .next p killed =>
    match s.th p with
    | some (.call o _) =>
      match s.k.exec L killed o with
      | some (.ok (x, _)) => fun pi => (h pi).after pi o x
      | _ => h
    | _ => h
  | _ => h

/-- 1 for a pipe that is not freed. -/
def Kernel.live (k : Kernel) (pi : Page) : Nat := if (k.pipe pi).isSome then 1 else 0

/-- The runs with the history of the pipes; a pipe at the start counts as made. -/
def pipeLts (L : Layout) : Lts (MemSys × (Page → PipeCount)) MemEv :=
  .ofFun (fun x => x.1.Init L ∧ x.2 = fun pi => { made := x.1.k.live pi })
    (Lts.histStep (fun s e => s.step L e) (MemSys.pipeHist L))

/-- 1 for the page that an operation makes a pipe. -/
def madeIn : MemOp → Page → Nat
  | .pipeinit _ _ page, pi => if page = pi then 1 else 0
  | _, _ => 0

theorem Kernel.live_setPipe (k : Kernel) (page : Page) (y : Option PipeEnds) (pi : Page) :
    (k.setPipe page y).live pi = if page = pi then (if y.isSome then 1 else 0) else k.live pi := by
  by_cases hp : page = pi
  · subst hp
    simp [live, setPipe]
  · rw [if_neg hp, live, live]
    simp [setPipe, Function.update_of_ne (Ne.symm hp)]

/-- Only two operations change the pipes. -/
theorem Kernel.exec_live {L : Layout} {killed : Bool} {k k' : Kernel} {o : MemOp} {x : o.Ans}
    (h : k.exec L killed o = some (.ok (x, k'))) {pi : Page} (hnew : ∀ f0 f1, o = .pipeinit f0 f1 pi → k.pipe pi = none) :
    k'.live pi + Acc.deadIn o x pi = k.live pi + madeIn o pi := by
  cases o with
  | pipeinit f0 f1 page =>
    cases h
    simp only [madeIn, Acc.deadIn, live_setPipe]
    by_cases hp : page = pi
    · subst hp
      simp [live, hnew f0 f1 rfl]
    · simp only [if_neg hp]
      rfl
  | pipeclose page w =>
    simp only [Kernel.exec] at h
    cases hx : k.pipe page with
    | none =>
      rw [hx] at h
      cases h
    | some y =>
      rw [hx] at h
      dsimp only at h
      have hlive : page = pi → k.live pi = 1 := by
        rintro rfl
        simp [live, hx]
      split at h
      · cases h
        simp only [madeIn, Acc.deadIn, live_setPipe]
        by_cases hp : page = pi
        · simp [hp, hlive hp]
        · simp [hp]
      · cases h
        simp only [madeIn, Acc.deadIn, live_setPipe]
        by_cases hp : page = pi
        · simp [hp, hlive hp]
        · simp [hp]
  | fileopen f | slotfree q im | publish q im parent =>
    cases h
    rfl
  | kalloc | filealloc | slotalloc =>
    simp only [Kernel.exec] at h
    split at h <;>
    · cases h
      rfl
  | kfree page | filedup f =>
    simp only [Kernel.exec] at h
    split at h
    · cases h
    · cases h
      rfl
  | fileput f =>
    simp only [Kernel.exec] at h
    split at h
    · cases h
    · split at h <;>
      · cases h
        rfl
  | reap p copied =>
    simp only [Kernel.exec] at h
    split at h <;> split at h <;>
    · cases h
      try rfl

/-- The counts of a page, given the pipe on it and whether its page waits to be freed. -/
structure PipeCount.Fits (h : PipeCount) (live dead : Nat) : Prop where
  made : h.made = h.closed + live
  freed : h.closed = h.freed + dead

theorem PipeCount.Fits.after {h : PipeCount} {live live' dead dead' : Nat} {pi : Page} {o : MemOp} {x : o.Ans} {H : Res → Nat}
    (hf : h.Fits live dead) (hH : H (.dead pi) = dead) (hle : dead ≤ 1) (hlive : live' + Acc.deadIn o x pi = live + madeIn o pi)
    (hdead : dead' + Acc.deadOut H o pi = dead + Acc.deadIn o x pi) : (h.after pi o x).Fits live' dead' := by
  obtain ⟨h1, h2⟩ := hf
  subst hH
  cases o with
  | pipeinit f0 f1 page =>
    simp only [Acc.deadIn, madeIn, Acc.deadOut, PipeCount.after] at *
    split at hlive <;> constructor <;> simp_all
    omega
  | pipeclose page w =>
    cases x with
    | false =>
      simp only [Acc.deadIn, madeIn, Acc.deadOut, PipeCount.after] at *
      constructor <;> omega
    | true =>
      simp only [Acc.deadIn, madeIn, Acc.deadOut, PipeCount.after] at *
      split at hlive <;> constructor <;> simp_all <;> omega
  | kfree page =>
    simp only [Acc.deadIn, madeIn, Acc.deadOut, PipeCount.after] at *
    by_cases hp : page = pi
    · rw [if_pos hp] at hdead
      by_cases hd : h.freed < h.closed
      · rw [if_pos ⟨hp, hd⟩]
        constructor <;> dsimp only <;> omega
      · rw [if_neg (fun hc => hd hc.2)]
        constructor <;> omega
    · rw [if_neg hp] at hdead
      rw [if_neg (fun hc => hp hc.1)]
      constructor <;> omega
  | kalloc | filealloc | filedup f | fileput f | fileopen f | slotalloc | slotfree q im | publish q im parent | reap q copied =>
    simp only [Acc.deadIn, madeIn, Acc.deadOut, PipeCount.after] at *
    constructor <;> omega

namespace MemSys

variable {L : Layout} {s t : MemSys} {h : Page → PipeCount} {own : Fin NPROC → Multiset Res}

/-- The history fits the state. -/
def Counted (L : Layout) (s : MemSys) (h : Page → PipeCount) : Prop :=
  ∃ own, s.InvAt L own ∧ ∀ pi, (h pi).Fits (s.k.live pi) (held s.k.slot own (.dead pi))

theorem live_done (s : MemSys) (p : Fin NPROC) (r : Outcome) (pi : Page) : (s.done p r).k.live pi = s.k.live pi := by
  unfold MemSys.done
  dsimp only
  split <;> rfl

/-- The page that `pipeinit` uses is no pipe. -/
theorem InvAt.pipeinit_none (hi : s.InvAt L own) {p : Fin NPROC} {o : MemOp} {f : o.Ans → Mem Outcome}
    (ht : s.th p = some (.call o f)) {pi : Page} (f0 f1 : Fin NFILE) (ho : o = .pipeinit f0 f1 pi) : s.k.pipe pi = none := by
  subst ho
  have hwp := ((hi.holds p).some ht).2
  unfold Mem.wp at hwp
  obtain ⟨g, hg, -⟩ := hwp
  refine hi.acc.pipe_none (Acc.heldPage_pos (p := p) (.inl ?_))
  rw [hg]
  simp

theorem Counted.step (hc : s.Counted L h) {e : MemEv} (hs : s.step L e = some (.ok t)) : t.Counted L (s.pipeHist L e h) := by
  obtain ⟨own, hi, hf⟩ := hc
  cases e with
  | call p c =>
    simp only [MemSys.step] at hs
    split at hs
    · rename_i hl
      cases hs
      obtain ⟨own', hi', hsame⟩ := hi.call hl c
      refine ⟨own', hi', fun pi => ?_⟩
      rw [hsame]
      exact hf pi
    · cases hs
  | done p =>
    simp only [MemSys.step] at hs
    split at hs
    · rename_i r ht
      cases hs
      obtain ⟨own', hi', hsame⟩ := hi.done ht
      refine ⟨own', hi', fun pi => ?_⟩
      rw [hsame, live_done]
      exact hf pi
    · cases hs
  | next p killed =>
    simp only [MemSys.step] at hs
    split at hs
    · rename_i c ht
      cases c with
      | ret a => simp [MemSys.next] at hs
      | panic msg => simp [MemSys.next] at hs
      | call o f =>
        simp only [MemSys.next] at hs
        split at hs
        · cases hs
        · cases hs
        · rename_i x k' he
          cases hs
          obtain ⟨x', k'', own', hr, hi', hdead⟩ := hi.next ht he
          cases hr
          refine ⟨own', hi', fun pi => ?_⟩
          simp only [pipeHist, ht, he]
          refine (hf pi).after rfl ?_ (Kernel.exec_live he (hi.pipeinit_none ht)) (hdead pi)
          have := hi.acc.heldPage_le pi
          unfold heldPage at this
          omega
    · cases hs

theorem Counted.reachable {x : MemSys × (Page → PipeCount)} (hx : (pipeLts L).Reachable x) : x.1.Counted L x.2 := by
  refine Lts.Reachable.invariant (I := fun x => x.1.Counted L x.2) (fun y hy => ?_) (fun y e z hy hs => ?_) hx
  · obtain ⟨hinit, hh⟩ := hy
    obtain ⟨own, hi⟩ := Inv.init hinit
    refine ⟨own, hi, fun pi => ?_⟩
    have hown : own = fun _ => 0 := by
      obtain ⟨k, c, q, k', -, -, he⟩ := hinit
      exact funext fun p => ((hi.holds p).none (by rw [he])).1
    rw [hh, hown, held_quiet _ (by simp) (by simp)]
    exact ⟨(Nat.zero_add _).symm, rfl⟩
  · obtain ⟨hf, hg⟩ := Lts.histStep_ok hs
    rw [hg]
    exact hy.step hf

end MemSys

/-! ### Files -/

/-- Some file in use is this end of the pipe. -/
def Kernel.HasEnd (k : Kernel) (pi : Page) (writable : Bool) : Prop := ∃ f, 0 < (k.file f).ref ∧ (k.file f).pipe = some (pi, writable)

theorem Acc.hasEnd_iff {L : Layout} {k : Kernel} {H : Res → Nat} (h : Acc L k H) (pi : Page) (w : Bool) (hH : H (.pend pi w) = 0) :
    k.isOpen pi w = true ↔ k.HasEnd pi w := by
  have hp := h.files.pend pi w
  rw [hH, Nat.add_zero] at hp
  constructor
  · intro ho
    rw [if_pos ho] at hp
    obtain ⟨f, -, hf⟩ := Finset.exists_ne_zero_of_sum_ne_zero (hp.trans_ne Nat.one_ne_zero)
    have hpipe : (k.file f).pipe = some (pi, w) := by
      by_contra hne
      exact hf (if_neg hne)
    refine ⟨f, Nat.pos_of_ne_zero fun h0 => ?_, hpipe⟩
    rw [h.files.untyped f h0] at hpipe
    cases hpipe
  · rintro ⟨f, -, hf⟩
    by_contra ho
    rw [if_neg ho] at hp
    have := Finset.sum_eq_zero_iff.1 hp f (Finset.mem_univ f)
    rw [if_pos hf] at this
    cases this

/-- The panics about references to files and pipes. -/
def filePanics : List String := ["filedup", "fileclose", "pipeclose: freed pipe", "kfree"]

/-- Between calls a file has as many references as there are descriptors for it, and an end of a pipe is open exactly if a file in
use is that end.  In every state the page that is about to be freed is no pipe and not free yet; every pipe that was made is still
there, with an open end, or both its ends became closed once and its page was freed once. -/
theorem files_counted {L : Layout} {x : MemSys × (Page → PipeCount)} (hx : (pipeLts L).Reachable x) :
    (x.1.Quiet → (∀ f, (x.1.k.file f).ref = x.1.k.descriptors f) ∧
      (∀ pi y, x.1.k.pipe pi = some y → (y.readopen = true ↔ x.1.k.HasEnd pi false) ∧ (y.writeopen = true ↔ x.1.k.HasEnd pi true)) ∧
      ∀ pi, (x.2 pi).made = (x.2 pi).closed + x.1.k.live pi ∧ (x.2 pi).freed = (x.2 pi).closed) ∧
    (∀ pi y, x.1.k.pipe pi = some y → y.readopen = true ∨ y.writeopen = true) ∧
    (∀ p pi f, x.1.th p = some (.call (.kfree pi) f) → x.1.k.pipe pi = none ∧ pi ∉ x.1.k.free) ∧
    ∀ e msg, msg ∈ filePanics → x.1.step L e ≠ some (.error msg) := by
  obtain ⟨own, hi, hf⟩ := MemSys.Counted.reachable hx
  refine ⟨fun hq => ?_, hi.acc.files.opened, fun p pi f ht => ?_, fun e msg hmsg hst => ?_⟩
  · have hown : own = fun _ => 0 := funext fun p => ((hi.holds p).none (hq p)).1
    subst hown
    have hst := (MemSys.Inv.quiet ⟨_, hi⟩ hq).2
    have hacc := hi.acc
    refine ⟨fun f => ?_, fun pi y hy => ?_, fun pi => ?_⟩
    · have hfresh : held x.1.k.slot (fun _ => 0) (.fresh f) = 0 := held_quiet _ (by simp) (by simp)
      rw [hacc.files.ref f, hfresh, Nat.add_zero]
      simp only [held, Multiset.count_zero, Finset.sum_const_zero, Nat.zero_add, Kernel.descriptors]
      exact Finset.sum_congr rfl fun q _ => MemSlot.count_ref (hst q) (hacc.slots.blank q) f
    · have hend := fun w => hacc.hasEnd_iff pi w (held_quiet _ (by simp) (by simp))
      refine ⟨?_, ?_⟩
      · rw [← hend false, Kernel.isOpen, hy]
        rfl
      · rw [← hend true, Kernel.isOpen, hy]
        rfl
    · have h1 := (hf pi).freed
      rw [held_quiet _ (by simp) (by simp), Nat.add_zero] at h1
      exact ⟨(hf pi).made, h1.symm⟩
  · have hwp := ((hi.holds p).some ht).2
    unfold Mem.wp at hwp
    obtain ⟨g, hg, -⟩ := hwp
    have hpos : 0 < heldPage (held x.1.k.slot own) pi :=
      Acc.heldPage_pos (p := p) (hg.imp (fun h => by rw [h]; simp) fun h => by rw [h]; simp)
    refine ⟨hi.acc.pipe_none hpos, fun hmem => ?_⟩
    have h1 := hi.acc.pages pi
    have h2 : Multiset.count pi L.pages.val ≤ 1 := Multiset.nodup_iff_count_le_one.1 L.pages.nodup pi
    have h3 := List.count_pos_iff.2 hmem
    omega
  · rcases (MemSys.Inv.step ⟨own, hi⟩ hst).2 msg rfl with rfl | rfl
    · exact absurd hmsg (by decide)
    · exact absurd hmsg (by decide)

/-- `pipe` of the first process, up to its return. -/
def pipeRun : List MemEv :=
  .call ⟨0, NPROC_pos⟩ (.pipe 0) :: List.replicate 4 (.next ⟨0, NPROC_pos⟩ false) ++ [.done ⟨0, NPROC_pos⟩]

/-- No call, and the last page is a pipe. -/
def afterPipe (x : MemSys × (Page → PipeCount)) : Bool :=
  (List.finRange NPROC).all (fun q => (x.1.th q).isNone) && (x.1.k.pipe (PHYSTOP / PGSIZE - 1)).isSome

theorem files_counted_pipeRun : ∃ x pi w, (pipeLts sampleLayout).Reachable x ∧ x.1.Quiet ∧ x.1.k.HasEnd pi w ∧
    (x.2 pi).made = (x.2 pi).freed + 1 := by
  have hany : (Lts.replay (Lts.histStep (fun s e => s.step sampleLayout e) (MemSys.pipeHist sampleLayout)) (fun _ _ => true)
      (sampleStart, fun pi => { made := sampleStart.k.live pi }) pipeRun).any afterPipe = true := by decide +kernel
  obtain ⟨x, hx, ha⟩ := Lts.Reachable.replay_any (C := fun _ _ => True)
    (I := fun x => x.1.Init sampleLayout ∧ x.2 = fun pi => { made := x.1.k.live pi }) (fun _ _ _ => trivial)
    ⟨sampleStart_init, rfl⟩ hany
  have hx : (pipeLts sampleLayout).Reachable x := hx.of_guard
  simp only [afterPipe, Bool.and_eq_true, List.all_eq_true] at ha
  have hq : x.1.Quiet := fun q => Option.isNone_iff_eq_none.1 (ha.1 q (List.mem_finRange q))
  obtain ⟨y, hy⟩ := Option.isSome_iff_exists.1 ha.2
  obtain ⟨hquiet, hopen, -, -⟩ := files_counted hx
  obtain ⟨-, hends, hcount⟩ := hquiet hq
  have hmade : (x.2 (PHYSTOP / PGSIZE - 1)).made = (x.2 (PHYSTOP / PGSIZE - 1)).freed + 1 := by
    rw [(hcount _).1, (hcount _).2, Kernel.live, if_pos ha.2]
  rcases hopen _ y hy with hr | hw
  · exact ⟨x, _, false, hx, hq, (hends _ y hy).1.1 hr, hmade⟩
  · exact ⟨x, _, true, hx, hq, (hends _ y hy).2.1 hw, hmade⟩

end Xv6
