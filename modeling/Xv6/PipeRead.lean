import Xv6.CopyOut
import Xv6.Pipe
import Xv6.Lib.Ring

/-!
# What a read takes out of a pipe

`piperead` with the memory of its user.  The second loop counts a byte as read before it copies it, so that a read that comes to a page
which is not mapped loses the byte it could not copy: nothing is lost exactly if all the bytes that the read gets to are mapped
(`piperead_takes_iff`).
-/

namespace Xv6

/-- What a turn of the first loop of `piperead` finds: the answer of `killed(pr)`, and the pipe and the memory after `sleep`. -/
structure SleepTurn where
  killed : Bool
  pi : PipeBuf
  m : Ram

/-- How the first loop ends. -/
inductive Waited
  | ready (pi : PipeBuf) (m : Ram)
  | killed (pi : PipeBuf) (m : Ram)
  | asleep

namespace PipeBuf

/-- The first loop of `piperead`, for the turns given. -/
def waitLoop : List SleepTurn → PipeBuf → Ram → Waited
  | [], pi, m => if pi.nread = pi.nwrite ∧ pi.writeopen = true then .asleep else .ready pi m
  | turn :: turns, pi, m =>
    if pi.nread = pi.nwrite ∧ pi.writeopen = true then
      if turn.killed then .killed pi m else waitLoop turns turn.pi turn.m
    else .ready pi m

/-- The second loop at `i`, with `n` turns left. -/
def pipereadLoop (t : PageTable) (addr : UInt64) : Nat → Nat → PipeBuf → Ram → Nat × PipeBuf × Ram
  | 0, i, pi, m => (i, pi, m)
  | n + 1, i, pi, m =>
    if pi.nread = pi.nwrite then (i, pi, m)
    else
      let ch := pi.data (PipeSys.slot pi.nread)
      let pi := { pi with nread := pi.nread + 1 }
      match Ram.copyout t ((addr.toNat + i) % 2 ^ 64) [ch] m with
      | (false, m) => (i, pi, m)
      | (true, m) => pipereadLoop t addr n (i + 1) pi m

/-- The answer of `piperead`, with the pipe and the memory; `none` if it still sleeps after the turns.  `wakeup` and the lock change
neither. -/
def piperead (t : PageTable) (addr : UInt64) (n : Int) (turns : List SleepTurn) (pi : PipeBuf) (m : Ram) : Option (Int × PipeBuf × Ram) :=
  match waitLoop turns pi m with
  | .asleep => none
  | .killed pi m => some (-1, pi, m)
  | .ready pi m =>
    let (i, pi, m) := pipereadLoop t addr n.toNat 0 pi m
    some (i, pi, m)

/-- The bytes in the pipe, oldest first. -/
def unread (pi : PipeBuf) : List UInt8 :=
  Ring.window 512 (2 ^ 32) (fun k => pi.data (Fin.ofNat 512 k)) pi.nread.toNat pi.nwrite.toNat

/-- `k` more bytes are counted as read. -/
def skip (pi : PipeBuf) (k : Nat) : PipeBuf := { pi with nread := pi.nread + .ofNat k }

/-- The byte of the user's at `va`. -/
def userByte (t : PageTable) (m : Ram) (va : Nat) : Option UInt8 :=
  match Mem.walkaddr t (PGROUNDDOWN va) with
  | none => none
  | some page => some (m page (va % PGSIZE))

/-- A read of `i` bytes: the user has the oldest `i` ones, these and no others are counted as read, and they are the ones that are
gone. -/
structure Takes (t : PageTable) (addr : UInt64) (pi : PipeBuf) (i : Int) (pi' : PipeBuf) (m' : Ram) : Prop where
  le : i ≤ pi.unread.length
  bytes : ∀ k : Nat, k < i → userByte t m' ((addr.toNat + k) % 2 ^ 64) = pi.unread[k]?
  nread : pi'.nread = pi.nread + .ofInt i
  rest : pi'.unread = pi.unread.drop i.toNat

/-- The read takes what it answers, unless it answers -1. -/
def Honest (t : PageTable) (addr : UInt64) (turns : List SleepTurn) (pi : PipeBuf) (m : Ram) (r : Int × PipeBuf × Ram) : Prop :=
  0 ≤ r.1 → ∃ pi₀ m₀, waitLoop turns pi m = .ready pi₀ m₀ ∧ Takes t addr pi₀ r.1 r.2.1 r.2.2

/-! ### The unread bytes -/

variable {pi : PipeBuf} {t : PageTable}

@[simp] theorem skip_nread (k : Nat) : (pi.skip k).nread = pi.nread + .ofNat k := rfl

@[simp] theorem skip_data (k : Nat) : (pi.skip k).data = pi.data := rfl

@[simp] theorem skip_nwrite (k : Nat) : (pi.skip k).nwrite = pi.nwrite := rfl

theorem slot_eq (k : UInt32) : PipeSys.slot k = Fin.ofNat 512 (k.toNat % 512) := by
  apply Fin.ext
  simp [PipeSys.slot, Fin.ofNat]

theorem unread_nil (h : pi.nread = pi.nwrite) : pi.unread = [] := by
  rw [unread, h, Ring.window_self _ (UInt32.toNat_lt _)]

theorem skip_one : (pi.skip 1).nread.toNat = (pi.nread.toNat + 1) % 2 ^ 32 := by
  rw [skip_nread, UInt32.toNat_add, UInt32.toNat_ofNat_of_lt' (by decide)]

theorem unread_cons (h : pi.nread ≠ pi.nwrite) : pi.unread = pi.data (PipeSys.slot pi.nread) :: (pi.skip 1).unread := by
  have hne : pi.nread.toNat ≠ pi.nwrite.toNat := mt UInt32.toNat_inj.1 h
  rw [unread, Ring.window_pop (by decide) (UInt32.toNat_lt _) (UInt32.toNat_lt _) hne, slot_eq, unread, skip_one, skip_data, skip_nwrite]

theorem skip_skip (j k : Nat) : (pi.skip j).skip k = pi.skip (j + k) := by
  unfold skip
  rw [UInt32.ofNat_add, ← UInt32.add_assoc]

theorem skip_zero : pi.skip 0 = pi := by
  unfold skip
  rw [show UInt32.ofNat 0 = 0 from rfl, UInt32.add_zero]

theorem unread_skip {k : Nat} (h : k ≤ pi.unread.length) : (pi.skip k).unread = pi.unread.drop k := by
  induction k generalizing pi with
  | zero => rw [skip_zero, List.drop_zero]
  | succ k ih =>
    by_cases he : pi.nread = pi.nwrite
    · rw [unread_nil he] at h
      exact absurd h (Nat.not_succ_le_zero k)
    · rw [unread_cons he] at h ⊢
      rw [List.length_cons] at h
      rw [List.drop_succ_cons, ← ih (Nat.le_of_succ_le_succ h), skip_skip, Nat.add_comm k 1]

/-! ### The second loop -/

theorem copyout_true {a : Nat} (ha : a < 2 ^ 64) (hu : t.UserAt a) (ch : UInt8) (m : Ram) : (Ram.copyout t a [ch] m).1 = true := by
  obtain ⟨hlt, e, he, hu⟩ := hu
  rw [Ram.copyout_eq ha, Ram.put_cons (Ram.walkaddr_eq_some.2 ⟨hlt, e, he, hu, rfl⟩)]
  rfl

theorem copyout_false {a : Nat} (ha : a < 2 ^ 64) (hu : ¬t.UserAt a) (ch : UInt8) (m : Ram) :
    Ram.copyout t a [ch] m = (false, m) := by
  rw [Ram.copyout_eq ha, Ram.put]
  cases hw : Mem.walkaddr t (PGROUNDDOWN a) with
  | none => rfl
  | some page =>
    obtain ⟨hlt, e, he, hue, -⟩ := Ram.walkaddr_eq_some.1 hw
    exact absurd ⟨hlt, e, he, hue⟩ hu

/-- How many bytes the loop copies, in the memory and for the counter. -/
theorem pipereadLoop_spec {addr : UInt64} {n i : Nat} (ha : addr.toNat + i < 2 ^ 64) (pi : PipeBuf) (m : Ram) :
    ∃ j ≤ min n pi.unread.length, (∀ k < j, t.UserAt (addr.toNat + i + k)) ∧
      (Ram.put t (addr.toNat + i) (pi.unread.take j) m).1 = true ∧
      ((j = min n pi.unread.length ∧
          pipereadLoop t addr n i pi m = (i + j, pi.skip j, (Ram.put t (addr.toNat + i) (pi.unread.take j) m).2)) ∨
        (j < min n pi.unread.length ∧ ¬t.UserAt (addr.toNat + i + j) ∧
          pipereadLoop t addr n i pi m = (i + j, pi.skip (j + 1), (Ram.put t (addr.toNat + i) (pi.unread.take j) m).2))) := by
  induction n generalizing i pi m with
  | zero =>
    refine ⟨0, Nat.zero_le _, fun k hk => by omega, rfl, .inl ⟨by omega, ?_⟩⟩
    rw [pipereadLoop, skip_zero]
    rfl
  | succ n ih =>
    rw [pipereadLoop]
    by_cases he : pi.nread = pi.nwrite
    · rw [if_pos he, unread_nil he]
      refine ⟨0, Nat.zero_le _, fun k hk => by omega, rfl, .inl ⟨rfl, ?_⟩⟩
      rw [skip_zero]
      rfl
    · rw [if_neg he, unread_cons he]
      dsimp only
      rw [Nat.mod_eq_of_lt ha]
      have hlen : min (n + 1) (pi.data (PipeSys.slot pi.nread) :: (pi.skip 1).unread).length = min n (pi.skip 1).unread.length + 1 := by
        rw [List.length_cons]
        omega
      rw [hlen]
      by_cases hu : t.UserAt (addr.toNat + i)
      · -- the byte is copied
        have hnext : addr.toNat + (i + 1) < 2 ^ 64 := by
          have := hu.1
          simp only [MAXVA] at this
          omega
        obtain ⟨m₁, hone⟩ : ∃ m₁, Ram.copyout t (addr.toNat + i) [pi.data (PipeSys.slot pi.nread)] m = (true, m₁) :=
          ⟨_, Prod.ext (copyout_true ha hu _ m) rfl⟩
        rw [hone]
        obtain ⟨j, hj, hgood, hput, hloop⟩ := ih hnext (pi.skip 1) m₁
        have hfirst : Ram.put t (addr.toNat + i) (pi.data (PipeSys.slot pi.nread) :: (pi.skip 1).unread.take j) m =
            Ram.put t (addr.toNat + (i + 1)) ((pi.skip 1).unread.take j) m₁ := by
          rw [OutCall.put_one ha, hone]
          dsimp only
          rw [Nat.add_assoc, Nat.mod_eq_of_lt hnext]
        refine ⟨j + 1, by omega, fun k hk => ?_, ?_, ?_⟩
        · cases k with
          | zero => exact hu
          | succ k =>
            rw [show addr.toNat + i + (k + 1) = addr.toNat + (i + 1) + k by omega]
            exact hgood k (by omega)
        · rw [List.take_succ_cons, hfirst, hput]
        · rw [List.take_succ_cons, hfirst, show i + (j + 1) = i + 1 + j by omega]
          rw [skip_skip, skip_skip, Nat.add_comm 1 j, show 1 + (j + 1) = j + 1 + 1 by omega] at hloop
          rcases hloop with ⟨hend, hloop⟩ | ⟨hlt, hbad, hloop⟩
          · exact .inl ⟨by omega, hloop⟩
          · refine .inr ⟨by omega, ?_, hloop⟩
            rwa [show addr.toNat + i + (j + 1) = addr.toNat + (i + 1) + j by omega]
      · -- the byte is counted, and lost
        refine ⟨0, Nat.zero_le _, fun k hk => by omega, rfl, .inr ⟨Nat.succ_pos _, hu, ?_⟩⟩
        rw [copyout_false ha hu]
        rfl

/-- What is put is what the user has. -/
theorem userByte_put (hd : t.Distinct) {a : Nat} {bs : List UInt8} (hu : ∀ k < bs.length, t.UserAt (a + k)) (m : Ram) {k : Nat}
    (hk : k < bs.length) : userByte t (Ram.put t a bs m).2 (a + k) = bs[k]? := by
  obtain ⟨hlt, e, he, hue⟩ := hu k hk
  have hput : Ram.PutAt t a k e.page ((a + k) % PGSIZE) := ⟨fun j hj => hu j (by omega), rfl, e, he, rfl⟩
  rw [userByte, Ram.walkaddr_eq_some.2 ⟨hlt, e, he, hue, rfl⟩, List.getElem?_eq_getElem hk]
  exact congrArg some (Ram.put_at hd hk hput m)

/-- The bytes that the read gets to are mapped for the user. -/
def Mapped (t : PageTable) (addr : UInt64) (n : Int) (pi : PipeBuf) : Prop :=
  ∀ k : Nat, k < n → k < pi.unread.length → t.UserAt (addr.toNat + k)

theorem ofInt_natCast (n : Nat) : UInt32.ofInt n = UInt32.ofNat n := by
  apply UInt32.toNat_inj.1
  rw [UInt32.ofInt, UInt32.toNat_ofNat', UInt32.toNat_ofNat']
  omega

theorem skip_ne (j : Nat) : (pi.skip (j + 1)).nread ≠ pi.nread + .ofNat j := by
  intro h
  rw [skip_nread, UInt32.ofNat_add, ← UInt32.add_assoc] at h
  simp at h

/-- The second loop takes what it answers if and only if it does not get to a byte that is not mapped. -/
theorem takes_iff (hd : t.Distinct) (addr : UInt64) (n : Int) (pi : PipeBuf) (m : Ram) :
    Takes t addr pi (pipereadLoop t addr n.toNat 0 pi m).1 (pipereadLoop t addr n.toNat 0 pi m).2.1
      (pipereadLoop t addr n.toNat 0 pi m).2.2 ↔ Mapped t addr n pi := by
  obtain ⟨j, hj, hgood, -, ⟨hend, hloop⟩ | ⟨hlt, hbad, hloop⟩⟩ :=
    pipereadLoop_spec (t := t) (n := n.toNat) (show addr.toNat + 0 < 2 ^ 64 from addr.toNat_lt) pi m
  · rw [hloop, Nat.zero_add, Nat.add_zero] at *
    dsimp only
    have hmapped : Mapped t addr n pi := fun k hk hl => hgood k (by omega)
    refine iff_of_true ⟨by omega, fun k hk => ?_, ?_, ?_⟩ hmapped
    · have hlen : (pi.unread.take j).length = j := List.length_take_of_le (by omega)
      have hk : k < j := by omega
      have hlt := (hgood k hk).1
      rw [Nat.mod_eq_of_lt (Nat.lt_trans hlt (by decide)), userByte_put hd (by rwa [hlen]) m (by omega), List.getElem?_take_of_lt hk]
    · rw [skip_nread, ofInt_natCast]
    · rw [unread_skip (by omega), Int.toNat_natCast]
  · rw [hloop, Nat.zero_add, Nat.add_zero] at *
    dsimp only
    refine iff_of_false (fun h => ?_) fun h => hbad (h j (by omega) (by omega))
    have hnread := h.nread
    rw [ofInt_natCast] at hnread
    exact skip_ne j hnread

end PipeBuf

open PipeBuf

/-- A read of a process takes what it answers exactly if all the bytes that it gets to are mapped for the user: with the pipe as it is
when the second loop begins, these are the bytes that the caller asks for and the pipe has. -/
theorem piperead_takes_iff {L : Layout} (hL : L.TrampolineBelow) {s : MemSys} (hs : (memLts L).Reachable s) {p : Fin NPROC}
    (hst : (s.k.slot p).st = .live) {t : PageTable} (ht : (s.k.slot p).im.pagetable = some t) (addr : UInt64) (n : Int)
    (turns : List SleepTurn) (pi : PipeBuf) (m : Ram) {r : Int × PipeBuf × Ram} (hr : piperead t addr n turns pi m = some r) :
    Honest t addr turns pi m r ↔ ∀ pi₀ m₀, waitLoop turns pi m = .ready pi₀ m₀ → Mapped t addr n pi₀ := by
  have hd := (MemSys.Inv.reachable hs).distinct hL (.inl hst) ht
  unfold piperead at hr
  cases hw : waitLoop turns pi m with
  | asleep =>
    rw [hw] at hr
    cases hr
  | killed pi₁ m₁ =>
    rw [hw, Option.some.injEq] at hr
    subst hr
    exact iff_of_true (fun h => absurd (show (0 : Int) ≤ -1 from h) (by decide)) fun _ _ h => by cases h
  | ready pi₁ m₁ =>
    rw [hw, Option.some.injEq] at hr
    subst hr
    have htakes := takes_iff hd addr n pi₁ m₁
    constructor
    · intro h pi₀ m₀ hready
      obtain ⟨rfl, rfl⟩ := Waited.ready.inj hready
      obtain ⟨pi₂, m₂, hw₂, h⟩ := h (Int.natCast_nonneg _)
      obtain ⟨rfl, rfl⟩ := Waited.ready.inj (hw.symm.trans hw₂)
      exact htakes.1 h
    · intro h _
      exact ⟨pi₁, m₁, hw, htakes.2 (h pi₁ m₁ rfl)⟩

/-- One byte is in the pipe. -/
def onePipe : PipeBuf := { nread := 0, nwrite := 1, readopen := true, writeopen := true }

/-- The bytes `abc` are in the pipe. -/
def threePipe : PipeBuf := { nread := 0, nwrite := 3, readopen := true, writeopen := true, data := fun k => .ofNat (97 + k.val) }

/-- Five bytes are asked for: the three that there are go to the user. -/
theorem piperead_takes_iff_threePipe : ∃ t r, (textStart.k.slot ⟨0, by decide⟩).im.pagetable = some t ∧
    piperead t 0 5 [] threePipe (fun _ _ => 1) = some r ∧ r.1 = 3 ∧ r.2.1.nread = 3 ∧
    (List.range 4).map (fun k => userByte t r.2.2 k) = [some 97, some 98, some 99, some 1] ∧
    Honest t 0 [] threePipe (fun _ _ => 1) r := by
  have hany : (textStart.k.slot ⟨0, by decide⟩).im.pagetable.any
      (fun t => ((PageTable.get t 0).any fun e => e.perm.u) && (piperead t 0 5 [] threePipe fun _ _ => 1).any fun r =>
        r.1 = 3 ∧ r.2.1.nread = 3 ∧ (List.range 4).map (fun k => userByte t r.2.2 k) = [some 97, some 98, some 99, some 1]) = true := by
    decide +kernel
  have hst : (textStart.k.slot ⟨0, by decide⟩).st = .live := by decide +kernel
  obtain ⟨t, ht, hany⟩ := (Option.any_eq_true ..).1 hany
  obtain ⟨hu, hread⟩ := Bool.and_eq_true_iff.1 hany
  obtain ⟨e, he, hu⟩ := (Option.any_eq_true ..).1 hu
  obtain ⟨r, hr, hres⟩ := (Option.any_eq_true ..).1 hread
  obtain ⟨hcount, hnread, hbytes⟩ := of_decide_eq_true hres
  refine ⟨t, r, ht, hr, hcount, hnread, hbytes, ?_⟩
  refine (piperead_takes_iff (by unfold Layout.TrampolineBelow; decide) (.of_init textStart_init) hst ht 0 5 [] threePipe _ hr).2 ?_
  intro pi₀ m₀ hready k hk hlt
  obtain rfl := (Waited.ready.inj hready).1
  have hk3 : k < 3 := hlt
  -- the three bytes lie in the first page
  have hdiv : (0 + k) / PGSIZE = 0 := Nat.div_eq_of_lt (by simp only [PGSIZE]; omega)
  rw [show (0 : UInt64).toNat + k = 0 + k from rfl]
  refine ⟨by simp only [MAXVA]; omega, e, ?_, hu⟩
  rw [hdiv]
  exact he

/-- A byte for an address above `MAXVA`. -/
theorem piperead_loses : ¬∀ (L : Layout) (s : MemSys) (p : Fin NPROC) (t : PageTable) (addr : UInt64) (n : Int) (turns : List SleepTurn)
    (pi : PipeBuf) (m : Ram) (r : Int × PipeBuf × Ram), L.TrampolineBelow → (memLts L).Reachable s → (s.k.slot p).st = .live →
    (s.k.slot p).im.pagetable = some t → piperead t addr n turns pi m = some r → Honest t addr turns pi m r := by
  intro h
  have hst : (textStart.k.slot ⟨0, by decide⟩).st = .live := by decide +kernel
  have hsome : (textStart.k.slot ⟨0, by decide⟩).im.pagetable.isSome = true := by decide +kernel
  obtain ⟨t, ht⟩ := Option.isSome_iff_exists.1 hsome
  have hready : waitLoop [] onePipe (fun _ _ => 1) = .ready onePipe fun _ _ => 1 := rfl
  obtain ⟨i, pi', m', hloop⟩ : ∃ i pi' m', pipereadLoop t 0x8000000000000000 1 0 onePipe (fun _ _ => 1) = (i, pi', m') :=
    ⟨_, _, _, rfl⟩
  have hread : piperead t 0x8000000000000000 1 [] onePipe (fun _ _ => 1) = some ((i : Int), pi', m') := by
    unfold piperead
    rw [hready]
    exact congrArg (fun r : Nat × PipeBuf × Ram => some ((r.1 : Int), r.2)) hloop
  obtain ⟨pi₀, m₀, hready₀, htakes⟩ := h textLayout textStart _ t _ 1 [] onePipe (fun _ _ => 1) _
    (by unfold Layout.TrampolineBelow; decide) (.of_init textStart_init) hst ht hread (Int.natCast_nonneg _)
  obtain ⟨rfl, rfl⟩ := Waited.ready.inj (hready.symm.trans hready₀)
  have hd := (MemSys.Inv.reachable (.of_init textStart_init)).distinct (by unfold Layout.TrampolineBelow; decide) (.inl hst) ht
  have huser := (takes_iff hd 0x8000000000000000 1 onePipe fun _ _ => 1).1
  rw [show (1 : Int).toNat = 1 from rfl, hloop] at huser
  have huser := huser htakes 0 (by decide) (by decide)
  exact absurd huser.1 (by decide)

end Xv6
